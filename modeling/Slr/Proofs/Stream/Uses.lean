import Slr.Proofs.Stream.Stages

/-! # A stream is a list of tokens

However often a stream is looked at between the tokens that are taken from it, it gives
the tokens of its source one by one, up to the item that ends the input, and from there on
the end for ever. An item that is a fault makes the use fail that comes to it, and leaves
what was given before and what is given behind it as it is. -/

namespace Slr

/-! ## Histories -/

/-- A stream that has been used, the results in their order, and what was seen. -/
structure History where
  stream : TokenStream
  results : List (Use × Except Fault Token)
  events : List Event

namespace History

def use (h : History) (u : Use) : History :=
  let look := h.stream.use u
  ⟨look.stream, h.results ++ [(u, look.result)], h.events ++ look.events⟩

/-- The tokens that were taken. -/
def taken (h : History) : List Token :=
  h.results.filterMap fun
    | (.advance, .ok t) => some t
    | _ => none

/-- The faults that uses have met. -/
def raised (h : History) : List Fault :=
  h.results.filterMap fun
    | (_, .error f) => some f
    | _ => none

end History

def TokenStream.history (s : TokenStream) (uses : List Use) : History :=
  uses.foldl History.use ⟨s, [], []⟩

/-- A history and the stage its stream is in. -/
structure Tallies (src : Source) (h : History) (done : List (Except Fault Token))
    (extra asked : Nat) : Prop where
  stage : Stage src done extra asked h.stream
  taken : h.taken = tokensIn done ++ List.replicate extra src.final
  raised : h.raised = faultsIn done
  seen : h.events = src.pulls asked
  closed : ∀ u t, (u, .ok t) ∈ h.results → t.kind = endName →
    h.stream.source = none ∧ h.stream.ahead = some t

section

variable {src : Source} {h : History} {done : List (Except Fault Token)} {extra asked : Nat}
  {u : Use} {t : Token} {f : Fault}

theorem tallies_nil (items : List RawToken) (watched resumes : Bool) :
    Tallies ⟨items, 0, watched, resumes⟩ ⟨.ofSource ⟨items, 0, watched, resumes⟩, [], []⟩
      [] 0 0 := by
  have hfresh : Stage ⟨items, 0, watched, resumes⟩ [] 0 0 _ := .fresh (by simp) rfl
  exact ⟨hfresh, rfl, rfl, by simp [Source.pulls, pullsOf], by simp⟩

namespace Tallies

theorem length_taken (ha : Tallies src h done extra asked) :
    h.taken.length = (tokensIn done).length + extra := by
  rw [ha.taken, List.length_append, List.length_replicate]

theorem length_eq (ha : Tallies src h done extra asked) :
    h.taken.length + h.raised.length = done.length + extra := by
  rw [ha.length_taken, ha.raised, ← length_given done]
  omega

theorem position_eq (ha : Tallies src h done extra asked) :
    h.stream.position = h.taken.length := ha.stage.position_eq.trans ha.length_taken.symm

/-- When the end was seen it is what every use gives, and the source is let be. -/
theorem use_closed (ha : Tallies src h done extra asked) (hmem : (u, .ok t) ∈ h.results)
    (ht : t.kind = endName) (u' : Use) :
    (h.stream.use u').events = [] ∧ (h.stream.use u').stream.source = none ∧
      (h.stream.use u').stream.ahead = some t := by
  obtain ⟨hsource, hahead⟩ := ha.closed u t hmem ht
  cases u' <;>
    simp [TokenStream.use, TokenStream.advance, TokenStream.peek_of_ahead hahead, TokenStream.pass,
      ht, hsource, hahead]

/-- One use more. -/
theorem use (ha : Tallies src h done extra asked) (u : Use) :
    ∃ done' extra' asked', Tallies src (h.use u) done' extra' asked' := by
  have hold {v : Use} {t : Token} (hmem : (v, .ok t) ∈ h.results) (ht : t.kind = endName) :
      (h.stream.use u).stream.source = none ∧ (h.stream.use u).stream.ahead = some t :=
    (ha.use_closed hmem ht u).2
  have hused := ha.stage.use u
  unfold History.use
  generalize h.stream.use u = look at hused hold
  -- the end was seen before, or is what this use gives
  have hclosed (hnew : ∀ t, look.result = .ok t → t.kind = endName →
        look.stream.source = none ∧ look.stream.ahead = some t) (v : Use) (t : Token)
      (hmem : (v, .ok t) ∈ h.results ++ [(u, look.result)]) (ht : t.kind = endName) :
      look.stream.source = none ∧ look.stream.ahead = some t := by
    rcases List.mem_append.mp hmem with hmem | hmem
    · exact hold hmem ht
    · exact hnew t (Prod.mk.inj (List.mem_singleton.mp hmem)).2.symm ht
  have hseen {place asked' : Nat} {events : List Event} (asks : Asks src place asked events asked') :
      h.events ++ events = src.pulls asked' := by
    rw [ha.seen, asks.seen]
  cases hused with
  | failed next stage asks =>
    refine ⟨_, _, _, stage, ?_, ?_, hseen asks, hclosed (by simp)⟩
    · simpa [History.taken] using ha.taken
    · simpa [History.raised] using ha.raised
  | peeked ahead stage asks =>
    refine ⟨_, _, _, stage, ?_, ?_, hseen asks, hclosed ?_⟩
    · simpa [History.taken] using ha.taken
    · simpa [History.raised] using ha.raised
    · intro t ht hend
      cases ht
      exact ⟨(stage.source_eq_none ahead hend).1, ahead⟩
  | @taken _ _ _ t _ _ ahead stage asks =>
    obtain ⟨done', extra', hpass, hfaults, htokens⟩ := stage.pass ahead
    refine ⟨done', extra', _, hpass, ?_, ?_, hseen asks, hclosed ?_⟩
    · rw [htokens, ← ha.taken]
      simp [History.taken]
    · rw [hfaults, ← ha.raised]
      simp [History.raised]
    · intro t ht hend
      cases ht
      simpa [TokenStream.pass, hend, ahead] using (stage.source_eq_none ahead hend).1

end Tallies

theorem exists_tallies (uses : List Use) (ha : Tallies src h done extra asked) :
    ∃ done' extra' asked', Tallies src (uses.foldl History.use h) done' extra' asked' := by
  induction uses generalizing h done extra asked with
  | nil => exact ⟨done, extra, asked, ha⟩
  | cons u uses ih =>
    obtain ⟨done', extra', asked', ha'⟩ := ha.use u
    exact ih ha'

end

/-! ## The list -/

/-- The stream of a history behaves as the list of the tokens of the source would. -/
structure Refines (src : Source) (h : History) : Prop where
  /-- The tokens that were taken are the first of the list, in their order. -/
  taken : ∀ k t, h.taken[k]? = some t → src.nth k = t
  position : h.stream.position = h.taken.length
  /-- A use that succeeds gives the next one. -/
  gives : ∀ u t, (h.stream.use u).result = .ok t → src.nth h.taken.length = t
  /-- It fails if and only if the next item is a fault. -/
  fails : ∀ u f, (h.stream.use u).result = .error f ↔
    src.given[h.taken.length + h.raised.length]? = some (.error f)
  /-- Looking does not move a stream, and failing does not. -/
  stays : ∀ u, (u = .peek ∨ ∃ f, (h.stream.use u).result = .error f) →
    (h.stream.use u).stream.position = h.stream.position
  /-- The items were asked for in their order, -/
  asked : ∃ n, h.events = src.pulls n
  /-- each of them once at most, -/
  once : ∀ i j k : Nat, h.events[j]? = some (Event.pulled i) →
    h.events[k]? = some (Event.pulled i) → j = k
  /-- and none before all items in front of it were used up. -/
  pulled : ∀ u i, .pulled i ∈ (h.stream.use u).events → i = h.taken.length + h.raised.length
  /-- Nothing is asked for any more when the end was seen. -/
  closed : ∀ u t, (u, .ok t) ∈ h.results → t.kind = endName →
    h.stream.source = none ∧ ∀ u', (h.stream.use u').events = []
  /-- A pair stands at the number of tokens that were pulled before it; a fault is none. -/
  spans : ∀ (i : Nat) (kind : String) (value : Value) (r : Except Fault Token),
    src.items[i]? = some (.pair kind value) → src.given[i]? = some r →
      r = .ok ⟨kind, value, (tokensIn (src.given.take i)).length,
        (tokensIn (src.given.take i)).length + 1⟩
  /-- An end that is not among the items is where the last token ends. -/
  behind : ∀ u t, (∀ v ∈ tokensIn src.given, v.kind ≠ endName) →
    (tokensIn src.given).length ≤ h.taken.length → (h.stream.use u).result = .ok t →
      t = ⟨endName, .none, lastStop src.given, lastStop src.given⟩

theorem Tallies.refines {src : Source} {h : History} {done : List (Except Fault Token)}
    {extra asked : Nat} (ha : Tallies src h done extra asked) : Refines src h := by
  have hused (u : Use) := ha.stage.use u
  have hgives {u : Use} {t : Token} (hok : (h.stream.use u).result = .ok t) :
      src.nth h.taken.length = t := ha.length_taken ▸ ((hused u).of_ok hok).1
  constructor
  case taken =>
    intro k t ht
    exact ha.stage.nth_eq (ha.taken ▸ ht)
  case position => exact ha.position_eq
  case gives => exact fun u t => hgives
  case fails =>
    intro u f
    rw [ha.length_eq]
    refine ⟨fun herror => ((hused u).of_error herror).1, ?_⟩
    intro hnext
    cases hresult : (h.stream.use u).result with
    | ok t => exact absurd hnext (((hused u).of_ok hresult).2 f)
    | error f' =>
      have hnext' := ((hused u).of_error hresult).1
      rw [hnext] at hnext'
      cases hnext'
      rfl
  case stays =>
    intro u hu
    rw [ha.stage.position_eq]
    rcases hu with rfl | ⟨f, herror⟩
    · exact (hused .peek).position_peek
    · exact ((hused u).of_error herror).2
  case asked => exact ⟨asked, ha.seen⟩
  case once =>
    intro i j k hj hk
    rw [ha.seen] at hj hk
    rw [← Source.eq_of_pulls_getElem? hj, Source.eq_of_pulls_getElem? hk]
  case pulled =>
    intro u i hi
    rw [ha.length_eq]
    exact (hused u).eq_of_pulled hi
  case closed =>
    intro u t hmem ht
    exact ⟨(ha.closed u t hmem ht).1, fun u' => (ha.use_closed hmem ht u').1⟩
  case spans =>
    intro i kind value r hraw hr
    rcases givenBy_at hraw hr with ⟨f, hf, -⟩ | ⟨t, ht, hok⟩
    · cases hf
    · rw [Nat.zero_add] at ht
      cases ht
      exact hok
  case behind =>
    intro u t hgoes hlength hok
    have hnth := hgives hok
    rw [Source.nth, List.getElem?_eq_none hlength, Option.getD_none,
      Source.final_of_goes_on hgoes] at hnth
    exact hnth.symm

/-- However a stream is used, it behaves as the list of the tokens of its source. -/
theorem TokenStream.history_refines (items : List RawToken) (watched resumes : Bool)
    (uses : List Use) :
    Refines ⟨items, 0, watched, resumes⟩
      ((TokenStream.ofSource ⟨items, 0, watched, resumes⟩).history uses) := by
  obtain ⟨done, extra, asked, ha⟩ := exists_tallies uses (tallies_nil items watched resumes)
  exact ha.refines

/-- A pair behind a fault has its place as if the fault were not there. -/
example (f : Fault) :
    ((TokenStream.ofSource ⟨[.pair "a" .none, .fault f, .pair "b" .none], 0, true, true⟩).history
        [.advance, .peek, .advance, .advance, .advance]).taken =
      [⟨"a", .none, 0, 1⟩, ⟨"b", .none, 1, 2⟩, ⟨"$", .none, 2, 2⟩, ⟨"$", .none, 2, 2⟩] := rfl

end Slr
