import Slr.Proofs.Stream.Given
import Slr.Proofs.Stream.Pulls

/-! # What a stream has done with its source

Between any two uses a stream is in one of four stages: the next item of the source was
not looked at; it was, and is a token; it was a fault, and nothing is behind it; or the end
of the input is ahead. A look goes from one stage to another, and so does passing the token
ahead. -/

namespace Slr

/-- What is seen when the first `n` items are asked for. -/
def Source.pulls (src : Source) (n : Nat) : List Event :=
  if src.watched then pullsOf src.items n else []

theorem Source.eq_of_pulls_getElem? {src : Source} {n i j : Nat}
    (h : (src.pulls n)[j]? = some (Event.pulled i)) : i = j := by
  unfold Source.pulls at h
  split at h
  · obtain ⟨hj, hget⟩ := List.getElem?_eq_some_iff.mp h
    simp only [pullsOf, List.getElem_map, List.getElem_range, pullOf] at hget
    split at hget
    · exact (Event.pulled.inj hget).symm
    · cases hget
  · cases h

inductive Use where
  | peek
  | advance

def TokenStream.use (s : TokenStream) : Use → TokenStream.Look
  | .peek => s.peek
  | .advance => s.advance

/-! ## Stages -/

/-- What a stream has done with its source. The results up to some place were used up, and
behind all of them the end so many times; and so many items have been asked for. -/
inductive Stage (src : Source) : List (Except Fault Token) → Nat → Nat → TokenStream → Prop
  /-- The next item has not been looked at. -/
  | fresh {done : List (Except Fault Token)} (goes_on : ∀ t ∈ tokensIn done, t.kind ≠ endName)
      (rest : src.given =
        done ++ givenBy src.resumes (src.items.drop done.length) (tokensIn done).length) :
      Stage src done 0 done.length
        ⟨some { src with items := src.items.drop done.length, index := done.length }, none,
          (tokensIn done).length, lastStop done, (tokensIn done).length⟩
  /-- It was, and is a token. -/
  | looked {done : List (Except Fault Token)} {t : Token}
      (goes_on : ∀ u ∈ tokensIn (done ++ [.ok t]), u.kind ≠ endName)
      (rest : src.given = (done ++ [.ok t]) ++
        givenBy src.resumes (src.items.drop (done.length + 1)) ((tokensIn done).length + 1)) :
      Stage src done 0 (done.length + 1)
        ⟨some { src with items := src.items.drop (done.length + 1), index := done.length + 1 },
          some t, (tokensIn done).length + 1, t.stop, (tokensIn done).length⟩
  /-- It was a fault, and the source has nothing behind it. -/
  | exhausted {done : List (Except Fault Token)}
      (goes_on : ∀ t ∈ tokensIn done, t.kind ≠ endName) (all : src.given = done) :
      Stage src done 0 done.length
        ⟨none, none, (tokensIn done).length, lastStop done, (tokensIn done).length⟩
  /-- The end of the input is ahead. -/
  | ended {done : List (Except Fault Token)} {extra asked pulled : Nat} {last : Int}
      (ends : src.final.kind = endName)
      (all : src.given = done ∨ src.given = done ++ [.ok src.final]) :
      Stage src done extra asked
        ⟨none, some src.final, pulled, last, (tokensIn done).length + extra⟩

section

variable {src : Source} {done : List (Except Fault Token)} {extra asked : Nat} {s : TokenStream}
  {t : Token} {f : Fault} {raw : RawToken} {rest : List RawToken}

namespace Stage

theorem position_eq (h : Stage src done extra asked s) :
    s.position = (tokensIn done).length + extra := by
  cases h <;> rfl

/-- When the end is ahead the source is not needed any more. -/
theorem source_eq_none (h : Stage src done extra asked s) (ahead : s.ahead = some t)
    (ht : t.kind = endName) : s.source = none ∧ src.final = t := by
  cases h with
  | fresh => cases ahead
  | looked goes_on rest =>
    cases ahead
    exact absurd ht (goes_on t (by simp))
  | exhausted => cases ahead
  | ended ends all =>
    cases ahead
    exact ⟨rfl, rfl⟩

/-- All that is given is what was used up, and perhaps more. -/
theorem exists_given (h : Stage src done extra asked s) : ∃ more, src.given = done ++ more := by
  cases h with
  | fresh goes_on rest => exact ⟨_, rest⟩
  | looked goes_on rest => exact ⟨_, rest.trans (List.append_assoc _ _ _)⟩
  | exhausted goes_on all => exact ⟨[], by simpa using all⟩
  | ended ends all =>
    rcases all with all | all
    · exact ⟨[], by simpa using all⟩
    · exact ⟨_, all⟩

/-- The end comes behind all tokens. -/
theorem nth_extra (all : src.given = done ∨ src.given = done ++ [.ok src.final]) (k : Nat) :
    src.nth ((tokensIn done).length + k) = src.final := by
  rcases all with all | all
  · simp [Source.nth, all]
  · cases k with
    | zero => simp [Source.nth, all]
    | succ k => simp [Source.nth, all]

/-- The tokens that were used up are the first ones, in their order. -/
theorem nth_eq (h : Stage src done extra asked s) {k : Nat}
    (ht : (tokensIn done ++ List.replicate extra src.final)[k]? = some t) : src.nth k = t := by
  by_cases hk : k < (tokensIn done).length
  · obtain ⟨more, hmore⟩ := h.exists_given
    rw [List.getElem?_append_left hk] at ht
    simp [Source.nth, hmore, List.getElem?_append_left hk, ht]
  · obtain ⟨k, rfl⟩ := Nat.exists_eq_add_of_le (Nat.not_lt.mp hk)
    rw [List.getElem?_append_right (Nat.le_add_right _ _), Nat.add_sub_cancel_left,
      List.getElem?_replicate] at ht
    split at ht
    · cases ht
      cases h with
      | fresh | looked | exhausted => omega
      | ended ends all => exact nth_extra all k
    · cases ht

/-- The token ahead is the one at the place of the stream, and comes before any fault. -/
theorem nth_position (h : Stage src done extra asked s) (ahead : s.ahead = some t) :
    src.nth s.position = t ∧ ∀ f, src.given[done.length + extra]? ≠ some (.error f) := by
  cases h with
  | fresh => cases ahead
  | looked goes_on rest =>
    cases ahead
    constructor
    · simp [Source.nth, rest]
    · simp [rest]
  | exhausted => cases ahead
  | ended ends all =>
    cases ahead
    refine ⟨nth_extra all extra, ?_⟩
    intro f hf
    rcases all with all | all
    · simp [all] at hf
    · cases extra with
      | zero => simp [all] at hf
      | succ extra => simp [all] at hf

/-- Passing the token ahead uses it up. -/
theorem pass (h : Stage src done extra asked s) (ahead : s.ahead = some t) :
    ∃ done' extra', Stage src done' extra' asked (s.pass t) ∧ faultsIn done' = faultsIn done ∧
      tokensIn done' ++ List.replicate extra' src.final =
        tokensIn done ++ List.replicate extra src.final ++ [t] := by
  cases h with
  | fresh => cases ahead
  | exhausted => cases ahead
  | looked goes_on rest =>
    cases ahead
    have hgoes : t.kind ≠ endName := goes_on t (by simp)
    have hfresh : Stage src (done ++ [.ok t]) 0 _ _ := .fresh goes_on (by simpa using rest)
    refine ⟨done ++ [.ok t], 0, ?_, by simp, by simp⟩
    simpa [TokenStream.pass, hgoes, lastStop_snoc_ok] using hfresh
  | ended ends all =>
    cases ahead
    have hended {pulled : Nat} {last : Int} : Stage src done (extra + 1) asked
        ⟨none, some src.final, pulled, last, (tokensIn done).length + (extra + 1)⟩ :=
      .ended ends all
    refine ⟨done, extra + 1, ?_, rfl, by simp [List.replicate_succ']⟩
    simp only [TokenStream.pass, Token.isEnd_iff, ends, if_true, Nat.add_assoc]
    exact hended

end Stage

/-! ## Uses -/

/-- The events are those of going on from `asked` items to `asked'`, the one at `place` if
there is one. -/
structure Asks (src : Source) (place asked : Nat) (events : List Event) (asked' : Nat) : Prop where
  seen : src.pulls asked ++ events = src.pulls asked'
  pulled : ∀ i, .pulled i ∈ events → i = place

theorem asks_nothing {place : Nat} : Asks src place asked [] asked :=
  ⟨List.append_nil _, by simp⟩

theorem asks_next (src : Source) (place : Nat) :
    Asks src place place (if src.watched then [pullOf src.items place] else []) (place + 1) := by
  constructor
  · unfold Source.pulls
    split
    · rw [pullsOf_succ]
    · rfl
  · intro i hi
    unfold pullOf at hi
    split at hi
    · split at hi
      · simpa using hi
      · simp at hi
    · cases hi

/-- What a use comes to: the fault that comes next, or a token that is ahead and stays there
or is taken. -/
inductive Used (src : Source) (done : List (Except Fault Token)) :
    Nat → Nat → Use → TokenStream.Look → Prop
  | failed {asked asked' : Nat} {u : Use} {f : Fault} {s : TokenStream} {events : List Event}
      (next : src.given[done.length]? = some (.error f))
      (stage : Stage src (done ++ [.error f]) 0 asked' s)
      (asks : Asks src done.length asked events asked') :
      Used src done 0 asked u ⟨.error f, s, events⟩
  | peeked {extra asked asked' : Nat} {t : Token} {s : TokenStream} {events : List Event}
      (ahead : s.ahead = some t) (stage : Stage src done extra asked' s)
      (asks : Asks src (done.length + extra) asked events asked') :
      Used src done extra asked .peek ⟨.ok t, s, events⟩
  | taken {extra asked asked' : Nat} {t : Token} {s : TokenStream} {events : List Event}
      (ahead : s.ahead = some t) (stage : Stage src done extra asked' s)
      (asks : Asks src (done.length + extra) asked events asked') :
      Used src done extra asked .advance ⟨.ok t, s.pass t, events⟩

/-- Behind the last token comes the end. -/
theorem used_of_all {asked' pulled : Nat} {last : Int} {events : List Event}
    (goes_on : ∀ t ∈ tokensIn done, t.kind ≠ endName) (all : src.given = done)
    (asks : Asks src done.length asked events asked') :
    Used src done 0 asked .peek ⟨.ok ⟨endName, .none, lastStop done, lastStop done⟩,
      ⟨none, some ⟨endName, .none, lastStop done, lastStop done⟩, pulled, last,
        (tokensIn done).length⟩, events⟩ := by
  have hfinal : src.final = ⟨endName, .none, lastStop done, lastStop done⟩ := by
    rw [← all]
    exact Source.final_of_goes_on (by rwa [all])
  rw [← hfinal]
  exact .peeked rfl (.ended (by rw [hfinal]) (.inl all)) asks

/-- The next item is a token. -/
theorem used_of_token
    (goes_on : ∀ t ∈ tokensIn done, t.kind ≠ endName)
    (hgiven : src.given = done ++ givenBy src.resumes (raw :: src.items.drop (done.length + 1))
      (tokensIn done).length)
    (ht : raw.token? (tokensIn done).length = some t)
    (hasks : Asks src done.length done.length
      (if src.watched then [.pulled done.length] else []) (done.length + 1)) :
    Used src done 0 done.length .peek (TokenStream.peek
        ⟨some { src with
          items := raw :: src.items.drop (done.length + 1), index := done.length }, none,
          (tokensIn done).length, lastStop done, (tokensIn done).length⟩) := by
  rw [givenBy_of_token ht] at hgiven
  rw [TokenStream.peek, TokenStream.pull_of_token rfl rfl ht]
  by_cases hend : t.kind = endName
  · rw [if_pos hend] at hgiven ⊢
    obtain rfl : src.final = t := Source.final_of_end hgiven goes_on hend
    exact .peeked rfl (.ended hend (.inr hgiven)) hasks
  · have hgoes : ∀ u ∈ tokensIn (done ++ [.ok t]), u.kind ≠ endName :=
      forall_mem_tokensIn_snoc goes_on hend
    rw [if_neg hend] at hgiven ⊢
    rw [List.append_cons] at hgiven
    exact .peeked rfl (.looked hgoes hgiven) hasks

/-- A fault takes no token away. -/
theorem stage_of_fault (goes_on : ∀ t ∈ tokensIn done, t.kind ≠ endName)
    (hgiven : src.given = done ++ (.error f ::
      if src.resumes then
        givenBy src.resumes (src.items.drop (done.length + 1)) (tokensIn done).length
      else [])) :
    Stage src (done ++ [.error f]) 0 (done.length + 1)
      ⟨if src.resumes then some { src with
          items := src.items.drop (done.length + 1), index := done.length + 1 } else none,
        none, (tokensIn done).length, lastStop done, (tokensIn done).length⟩ := by
  have hgoes : ∀ t ∈ tokensIn (done ++ [.error f]), t.kind ≠ endName := by simpa using goes_on
  have hlength : (done ++ [Except.error f]).length = done.length + 1 := by simp
  have htokens : tokensIn (done ++ [.error f]) = tokensIn done := by simp
  rw [List.append_cons] at hgiven
  rw [← hlength, ← htokens, ← lastStop_snoc_error f]
  split at hgiven
  · rw [if_pos ‹_›]
    exact .fresh hgoes (by rw [hlength, htokens]; exact hgiven)
  · rw [if_neg ‹_›]
    exact .exhausted hgoes (by rwa [List.append_nil] at hgiven)

/-- The next item is looked at. -/
theorem used_of_fresh (goes_on : ∀ t ∈ tokensIn done, t.kind ≠ endName)
    (hgiven : src.given =
      done ++ givenBy src.resumes (src.items.drop done.length) (tokensIn done).length) :
    Used src done 0 done.length .peek (TokenStream.peek
        ⟨some { src with items := src.items.drop done.length, index := done.length }, none,
          (tokensIn done).length, lastStop done, (tokensIn done).length⟩) := by
  have hasks := asks_next src done.length
  cases hitems : src.items.drop done.length with
  | nil =>
    rw [hitems, givenBy, List.append_nil] at hgiven
    rw [pullOf_of_drop_nil hitems] at hasks
    exact used_of_all goes_on hgiven hasks
  | cons raw rest =>
    obtain ⟨hpull, rfl⟩ := pullOf_of_drop_cons hitems
    rw [hpull] at hasks
    rw [hitems] at hgiven
    cases raw with
    | token t => exact used_of_token goes_on hgiven rfl hasks
    | pair kind value => exact used_of_token goes_on hgiven rfl hasks
    | nothing =>
      rw [givenBy, List.append_nil] at hgiven
      exact used_of_all goes_on hgiven hasks
    | fault f =>
      rw [givenBy] at hgiven
      exact .failed (by simp [hgiven]) (stage_of_fault goes_on hgiven) hasks

theorem Stage.peek (h : Stage src done extra asked s) : Used src done extra asked .peek s.peek := by
  cases h with
  | fresh goes_on rest => exact used_of_fresh goes_on rest
  | looked goes_on rest => exact .peeked rfl (.looked goes_on rest) asks_nothing
  | exhausted goes_on all => exact used_of_all goes_on all asks_nothing
  | ended ends all => exact .peeked rfl (.ended ends all) asks_nothing

theorem Stage.use (h : Stage src done extra asked s) (u : Use) :
    Used src done extra asked u (s.use u) := by
  have hused := h.peek
  generalize hpeek : s.peek = look at hused
  cases u with
  | peek =>
    rw [TokenStream.use, hpeek]
    exact hused
  | advance =>
    rw [TokenStream.use, TokenStream.advance, hpeek]
    cases hused with
    | peeked ahead stage asks => exact .taken ahead stage asks
    | failed next stage asks => exact .failed next stage asks

namespace Used

variable {look : TokenStream.Look} {u : Use}

/-- A use that succeeds gives the next token, and no fault comes before it. -/
theorem of_ok (h : Used src done extra asked u look) (hok : look.result = .ok t) :
    src.nth ((tokensIn done).length + extra) = t ∧
      ∀ f, src.given[done.length + extra]? ≠ some (.error f) := by
  cases h with
  | failed => cases hok
  | peeked ahead stage asks | taken ahead stage asks =>
    cases hok
    rw [← stage.position_eq]
    exact stage.nth_position ahead

/-- One that fails has met the fault that comes next, and moves nothing. -/
theorem of_error (h : Used src done extra asked u look) (herror : look.result = .error f) :
    src.given[done.length + extra]? = some (.error f) ∧
      look.stream.position = (tokensIn done).length + extra := by
  cases h with
  | failed next stage asks =>
    cases herror
    exact ⟨next, by simp [stage.position_eq]⟩
  | peeked | taken => cases herror

theorem position_peek (h : Used src done extra asked .peek look) :
    look.stream.position = (tokensIn done).length + extra := by
  cases h with
  | failed next stage asks => simp [stage.position_eq]
  | peeked ahead stage asks => exact stage.position_eq

theorem eq_of_pulled (h : Used src done extra asked u look) {i : Nat}
    (hi : .pulled i ∈ look.events) : i = done.length + extra := by
  cases h with
  | failed next stage asks => exact asks.pulled i hi
  | peeked ahead stage asks | taken ahead stage asks => exact asks.pulled i hi

end Used

end

end Slr
