import Slr.Proofs.Parser.Calls
import Slr.Proofs.Parser.Height

/-! # The two parsers agree

The entries of the procedures are moves of the table-driven parser, so the call of the
start state's procedure ends as the moves do, if they end, or where the stack outgrows
what calls may be open. -/

namespace Slr.Ascent

open StackParser

variable {g : Grammar} {follow : Lookahead} {t : Table} {semantics : Semantics}
  {fuel limit n : Nat} {stack : Stack} {s s' : Session} {o : Outcome Value}

/-- How a parse ends in which at most `limit` calls may be open: as the moves from the bottom
do, if no stack is higher; where one is, and where the source or an action exhausts the
depth of calls, as too deep. -/
inductive Concludes (t : Table) (semantics : Semantics) (limit : Nat) (s : Session) :
    Outcome Value → Prop
  | ended {result : Except ParseError Value} {s₁ s' : Session}
      (within : Within t semantics limit s)
      (ends : Ends t semantics (.running bottom, s) (result, s')) (same : s₁.Same s')
      (untired : ∀ message, result ≠ .error (.fault (.exhausted message))) :
      Concludes t semantics limit s (result, s₁)
  | exhausted {message : String} {s₁ s' : Session} (within : Within t semantics limit s)
      (ends : Ends t semantics (.running bottom, s) (.error (.fault (.exhausted message)), s'))
      (same : s₁.Same s') : Concludes t semantics limit s (.error (.tooDeep s₁.position), s₁)
  | outgrown {s₁ s' : Session} (outgrows : Outgrows t semantics limit s s')
      (same : s₁.Same s') : Concludes t semantics limit s (.error (.tooDeep s₁.position), s₁)

/-- The entries of a parse are moves over stacks that are not too high. -/
theorem low_of_entries (hr : t.Renders (Automaton.build g) follow) :
    Low t semantics limit s (entries t semantics limit fuel s).length := by
  intro m hm stack s' hrun
  obtain ⟨stack₁, s₁, hmoves, -, -, hroom⟩ := (tracks_parse hr semantics limit fuel s).entry m _
    (List.getElem?_eq_getElem hm)
  rw [hrun] at hmoves
  cases hmoves
  exact hroom

/-- Once the moves have ended no stack is too high any more. -/
theorem within_of_ended {c : Config} (hlow : Low t semantics limit s n)
    (hmoves : (next t semantics)^[n] (.running bottom, s) = c) (hended : outcome? c = some o) :
    Within t semantics limit s := by
  intro k m _ stack s' hrun
  refine hlow m ?_ stack s' hrun
  by_contra hle
  have hlater := outcome?_mono (Nat.le_of_not_lt hle) (hmoves ▸ hended)
  rw [hrun] at hlater
  cases hlater

theorem concludes (hr : t.Renders (Automaton.build g) follow)
    (h : parse? t semantics limit fuel s = some o) : Concludes t semantics limit s o := by
  rw [parse?, Option.map_eq_some_iff] at h
  obtain ⟨out, hcall, rfl⟩ := h
  have harrives := (tracks_parse hr semantics limit fuel s).result out (by rw [watch_result, hcall])
  have hlow : Low t semantics limit s (entries t semantics limit fuel s).length := low_of_entries hr
  obtain ⟨result, s₁⟩ := out
  cases harrives with
  | refused moves same high => exact .outgrown ⟨_, _, hlow, moves, high⟩ same
  | returned moves same fits =>
    cases result with
    | ok r =>
      cases r with
      | accepted v =>
        exact .ended (within_of_ended hlow moves rfl) ⟨_, congrArg outcome? moves⟩ same (by simp)
      | reduction r => exact absurd fits not_fits_nil
    | error e =>
      have hwithin := within_of_ended hlow moves rfl
      have hends : Ends t semantics (.running bottom, s) (.error e, _) :=
        ⟨_, congrArg outcome? moves⟩
      by_cases htired : ∃ message, e = .fault (.exhausted message)
      · obtain ⟨message, rfl⟩ := htired
        exact .exhausted hwithin hends same
      · have hconclude : conclude (.error e, s₁) = (.error e, s₁) := by
          unfold conclude
          split <;> simp_all
        rw [hconclude]
        exact .ended hwithin hends same fun message he => htired ⟨message, Except.error.inj he⟩

/-- A parse ends with the session of some moment of the moves. -/
theorem Concludes.exists_moment (h : Concludes t semantics limit s o) :
    ∃ n, o.2.Same ((next t semantics)^[n] (.running bottom, s)).2 := by
  cases h with
  | ended _ ends same =>
    obtain ⟨n, hn⟩ := ends
    exact ⟨n, by rw [session_of_outcome? hn]; exact same⟩
  | exhausted _ ends same =>
    obtain ⟨n, hn⟩ := ends
    exact ⟨n, by rw [session_of_outcome? hn]; exact same⟩
  | outgrown outgrows same =>
    obtain ⟨n, stack, -, hrun, -⟩ := outgrows
    exact ⟨n, by rw [hrun]; exact same⟩

/-- Where the moves do not go on, or the stack has become too high, a parse with fuel for so many
moves has ended. -/
theorem exists_call (hr : t.Renders (Automaton.build g) follow)
    (hstop : ∀ stack s', (next t semantics)^[n] (.running bottom, s) = (.running stack, s') →
      limit < stack.length) :
    ∃ o, call t semantics (2 * (n + 1)) limit 0 [] s = some o := by
  cases hresult : (watch t semantics (2 * (n + 1)) limit [] 0 [] s).result with
  | some o => exact ⟨o, by rw [← watch_result [], hresult]⟩
  | none =>
    have hlt := lt_entries_of_unfinished hresult
    obtain ⟨stack, s', hmoves, -, -, hroom⟩ :=
      (tracks_parse hr semantics limit _ s).entry n _ (List.getElem?_eq_getElem hlt)
    exact absurd hroom (Nat.not_le_of_lt (hstop stack s' hmoves))

/-- A parse whose moves end, if no stack becomes too high, ends. -/
theorem exists_parse (hr : t.Renders (Automaton.build g) follow) (limit : Nat)
    (hends : Within t semantics limit s → ∃ o, Ends t semantics (.running bottom, s) o) :
    ∃ enough, ∀ fuel, enough ≤ fuel →
      ∃ o, parse? t semantics limit fuel s = some o ∧ Concludes t semantics limit s o := by
  have hcall : ∃ fuel o, call t semantics fuel limit 0 [] s = some o := by
    rcases within_or_outgrows t semantics limit s with hwithin | ⟨s', n, stack, -, hrun, hhigh⟩
    · obtain ⟨o, n, hn⟩ := hends hwithin
      refine ⟨_, exists_call (n := n) hr ?_⟩
      intro stack s' hrun
      rw [hrun] at hn
      cases hn
    · refine ⟨_, exists_call (n := n) hr ?_⟩
      intro stack' s'' hrun'
      obtain ⟨⟨⟩, -⟩ := Prod.mk.inj (hrun.symm.trans hrun')
      exact hhigh
  obtain ⟨enough, out, hcall⟩ := hcall
  refine ⟨enough, ?_⟩
  intro fuel hfuel
  have hparse : parse? t semantics limit fuel s = some (conclude out) := by
    rw [parse?, call_mono hfuel hcall, Option.map_some]
  exact ⟨conclude out, hparse, concludes hr hparse⟩

/-! ## Whole parses -/

/-- Neither the source nor the actions exhaust the depth of calls. -/
structure Tireless (semantics : Semantics) (s : Session) : Prop where
  source : ∀ src message, s.stream.source = some src → .fault (.exhausted message) ∉ src.items
  actions : ∀ p action values message, semantics p = some action →
    action.apply values ≠ .error (.exhausted message)

theorem Tireless.value_ne (h : Tireless semantics s) {p : Production} {values : List Value}
    {message : String} : semantics.value p values ≠ .error (.fault (.exhausted message)) := by
  intro hvalue
  obtain ⟨action, f, haction, happly, hfault | hfault⟩ := Semantics.fault_of_value hvalue
  · cases hfault
  · cases hfault
    exact h.actions p action values message haction happly

/-- A parse does not end in exhaustion of its own. -/
theorem Tireless.ends_ne (hr : t.Renders (Automaton.build g) follow) (h : Tireless semantics s)
    {message : String} {s₁ : Session} :
    ¬ Ends t semantics (.running bottom, s) (.error (.fault (.exhausted message)), s₁) := by
  intro hends
  cases ending_of_ends hr hends with
  | fault hsrc hitem => exact h.source _ message hsrc hitem
  | failed _ fails => exact h.value_ne fails

/-- What an onlooker sees of the end of a parse: the result, the stream, the
steps, and the pulls and calls in their order. -/
def observe (o : Outcome Value) :
    Except ParseError Value × TokenStream × Array Step × Array Event :=
  (o.1, o.2.stream, o.2.steps, o.2.events)

theorem observe_eq {result : Except ParseError Value} (h : s.Same s') :
    observe (result, s) = observe (result, s') := by
  simp only [observe, h.stream, h.steps, h.events]

/-- What an onlooker sees of a parse that is too deep: what was done until the stack outgrew
what may be open. -/
theorem observe_concludes (hr : t.Renders (Automaton.build g) follow) (h : Tireless semantics s)
    (hconcludes : Concludes t semantics limit s o) :
    (Within t semantics limit s ∧
        ∃ o', Ends t semantics (.running bottom, s) o' ∧ observe o' = observe o) ∨
      ∃ s', Outgrows t semantics limit s s' ∧
        observe o = observe (.error (.tooDeep s'.position), s') := by
  cases hconcludes with
  | ended within ends same => exact Or.inl ⟨within, _, ends, (observe_eq same).symm⟩
  | exhausted within ends => exact absurd ends (h.ends_ne hr)
  | outgrown outgrows same =>
    refine Or.inr ⟨_, outgrows, ?_⟩
    rw [observe_eq same, Session.position, same.stream]
    rfl

/-- A stack that outgrows a limit has taken as many moves. -/
theorem limit_le_steps (hr : t.Renders (Automaton.build g) follow)
    (h : Outgrows t semantics limit s s') : limit ≤ s'.steps.size := by
  obtain ⟨n, stack, -, hrun, hhigh⟩ := h
  have hlength := length_le_of_iterate hr hrun
  obtain ⟨forest, hreads⟩ := reads_iterate hr hrun
  have hsteps := congrArg List.length hreads.trace
  rw [List.length_append, hreads.count] at hsteps
  simp only [Session.trace, List.length_map, Array.length_toList] at hsteps
  omega

/-- An onlooker of the table-driven parser sees how its moves end. -/
theorem seen_iff_ends {seen : Except ParseError Value × TokenStream × Array Step × Array Event} :
    (∃ fuel, (StackParser.parse? t semantics fuel s).map observe = some seen) ↔
      ∃ o, Ends t semantics (.running bottom, s) o ∧ observe o = seen := by
  simp only [StackParser.parse?, Option.map_eq_some_iff, ends_iff_run]
  constructor
  · intro h
    obtain ⟨fuel, o, hrun, hseen⟩ := h
    exact ⟨o, ⟨fuel, hrun⟩, hseen⟩
  · intro h
    obtain ⟨o, ⟨fuel, hrun⟩, hseen⟩ := h
    exact ⟨fuel, o, hrun, hseen⟩

/-- An onlooker of the recursive ascent parser sees the same, if no stack is higher than the
calls that may be open, and where one is, that it is too deep. -/
theorem seen_iff (hr : t.Renders (Automaton.build g) follow) (h : Tireless semantics s) (limit : Nat)
    {seen : Except ParseError Value × TokenStream × Array Step × Array Event} :
    (∃ fuel, (parse? t semantics limit fuel s).map observe = some seen) ↔
      (Within t semantics limit s ∧
        ∃ fuel, (StackParser.parse? t semantics fuel s).map observe = some seen) ∨
      ∃ s', Outgrows t semantics limit s s' ∧
        seen = observe (.error (.tooDeep s'.position), s') := by
  rw [seen_iff_ends]
  constructor
  · intro hseen
    obtain ⟨fuel, hfuel⟩ := hseen
    obtain ⟨o, hparse, rfl⟩ := Option.map_eq_some_iff.mp hfuel
    exact observe_concludes hr h (concludes hr hparse)
  · rintro (⟨hwithin, o, hends, rfl⟩ | ⟨s', houtgrows, rfl⟩)
    · obtain ⟨fuel, henough⟩ := exists_parse hr limit fun _ => ⟨o, hends⟩
      obtain ⟨o', hparse, hconcludes⟩ := henough fuel (Nat.le_refl _)
      refine ⟨fuel, ?_⟩
      rcases observe_concludes hr h hconcludes with ⟨-, o'', hends', hsame⟩ | ⟨s', hhigh, -⟩
      · rw [hparse, Option.map_some, ← hsame, hends.unique hends']
      · exact absurd hwithin hhigh.not_within
    · obtain ⟨fuel, henough⟩ :=
        exists_parse hr limit fun hwithin => absurd hwithin houtgrows.not_within
      obtain ⟨o', hparse, hconcludes⟩ := henough fuel (Nat.le_refl _)
      refine ⟨fuel, ?_⟩
      rcases observe_concludes hr h hconcludes with ⟨hwithin, -⟩ | ⟨s'', hhigh, hseen⟩
      · exact absurd hwithin houtgrows.not_within
      · rw [hparse, Option.map_some, hseen, houtgrows.unique hhigh]

/-- On a table that was built, whatever the lookahead sets: where no stack of the
table-driven parser is higher than the calls that may be open, the recursive ascent
parser ends on the same inputs, and an onlooker sees the same; where one is, it fails
there as too deep. So with calls enough the two cannot be told apart. -/
theorem parse_agrees (ht : (Automaton.build g).table follow = .ok t) (h : Tireless semantics s) :
    (∀ limit seen, (∃ fuel, (parse? t semantics limit fuel s).map observe = some seen) ↔
      (Within t semantics limit s ∧
        ∃ fuel, (StackParser.parse? t semantics fuel s).map observe = some seen) ∨
      ∃ s', Outgrows t semantics limit s s' ∧
        seen = observe (.error (.tooDeep s'.position), s')) ∧
    ∀ seen, (∃ fuel, (StackParser.parse? t semantics fuel s).map observe = some seen) ↔
      ∃ calls, ∀ limit, calls ≤ limit →
        ∃ fuel, (parse? t semantics limit fuel s).map observe = some seen := by
  have hr := Automaton.table_renders (Automaton.build_canonical g) ht
  refine ⟨fun limit seen => seen_iff hr h limit, ?_⟩
  intro seen
  constructor
  · intro hseen
    obtain ⟨o, hends, -⟩ := seen_iff_ends.mp hseen
    obtain ⟨calls, hwithin⟩ := exists_within hr hends
    refine ⟨calls, ?_⟩
    intro limit hle
    exact (seen_iff hr h limit).mpr (Or.inl ⟨hwithin.mono hle, hseen⟩)
  · intro hcalls
    obtain ⟨calls, hall⟩ := hcalls
    -- a parse that outgrew every limit would have taken ever more steps
    rcases (seen_iff hr h _).mp (hall (max calls (seen.2.2.1.size + 1)) (Nat.le_max_left _ _)) with
      ⟨-, hseen⟩ | ⟨s', houtgrows, rfl⟩
    · exact hseen
    · have hsteps := limit_le_steps hr houtgrows
      simp only [observe] at hsteps
      omega

/-- Actions that keep the last item of a list. -/
def lastItem : Semantics := fun p => some (if p.size = 0 then .list else .pick 1)

theorem lastItem_tireless : Tireless lastItem (.ofStream twoItems) where
  source := fun src message hsrc => by
    cases hsrc
    simp
  actions := fun p action values message haction happly => by
    cases haction
    split at happly
    · cases happly
    · simp only [Action.pick, Action.ofFunction, Action.value?] at happly
      split at happly <;> cases happly

/-- With two calls open at most the first item is too deep, else the parsers agree. -/
theorem parse_agrees_listing :
    ∃ seen, (∃ fuel, (StackParser.parse? listingTable lastItem fuel (.ofStream twoItems)).map observe =
        some seen) ∧
      (∃ calls, ∀ limit, calls ≤ limit → ∃ fuel,
        (parse? listingTable lastItem limit fuel (.ofStream twoItems)).map observe = some seen) ∧
      ∃ s', s'.position = 1 ∧ ∃ fuel, (parse? listingTable lastItem 2 fuel (.ofStream twoItems)).map
        observe = some (observe (.error (.tooDeep 1), s')) := by
  obtain ⟨hlimit, hcalls⟩ := parse_agrees listing_table lastItem_tireless
  obtain ⟨seen, h⟩ : ∃ seen, (StackParser.parse? listingTable lastItem 7 (.ofStream twoItems)).map
      observe = some seen := ⟨_, rfl⟩
  obtain ⟨stack, s', hrun, hhigh, hposition⟩ : ∃ stack s', (next listingTable lastItem)^[2]
      (.running bottom, .ofStream twoItems) = (.running stack, s') ∧ 2 < stack.length ∧
      s'.position = 1 := ⟨_, _, rfl, by decide, rfl⟩
  have hlow : Low listingTable lastItem 2 (.ofStream twoItems) 2 := by
    intro m hm stack s' hrun
    have hr := Automaton.table_renders (Automaton.build_canonical listing) listing_table
    exact Nat.le_trans (length_le_of_iterate hr hrun) hm
  refine ⟨seen, ⟨7, h⟩, (hcalls seen).mp ⟨7, h⟩, s', hposition, ?_⟩
  rw [← hposition]
  exact (hlimit 2 _).mpr (Or.inr ⟨s', ⟨2, stack, hlow, hrun, hhigh⟩, rfl⟩)

end Slr.Ascent

namespace Slr

open StackParser

variable {g : Grammar} {follow : Lookahead} {t : Table} {semantics : Semantics} {s s' : Session}

/-! ## What both parsers do -/

/-- With enough fuel both parsers end a parse in one of these ways, the recursive ascent
parser if `calls` calls may be open; with fewer it may fail as too deep. -/
structure BothEnd (t : Table) (semantics : Semantics) (s : Session) (calls : Nat)
    (P : Outcome Value → Prop) : Prop where
  stack : ∃ enough, ∀ fuel, enough ≤ fuel →
    ∃ o, StackParser.parse? t semantics fuel s = some o ∧ P o
  ascent : ∀ limit, ∃ enough, ∀ fuel, enough ≤ fuel →
    ∃ o, Ascent.parse? t semantics limit fuel s = some o ∧
      (P o ∨ limit < calls ∧ o.1 = .error (.tooDeep o.2.position))

/-- Both parsers end where the moves from the bottom do, unless that is exhaustion. -/
theorem bothEnd_of_ends (hr : t.Renders (Automaton.build g) follow) {calls : Nat}
    {result : Except ParseError Value}
    (hends : Ends t semantics (.running bottom, s) (result, s'))
    (hne : ∀ message, result ≠ .error (.fault (.exhausted message)))
    (hwithin : Within t semantics calls s) :
    BothEnd t semantics s calls fun o => o.1 = result ∧ o.2.Same s' where
  stack := by
    obtain ⟨enough, hrun⟩ := ends_iff_run.mp hends
    refine ⟨enough, ?_⟩
    intro fuel hfuel
    exact ⟨_, StackParser.parse?_mono hfuel hrun, rfl, .refl s'⟩
  ascent := by
    intro limit
    obtain ⟨enough, henough⟩ := Ascent.exists_parse hr limit fun _ => ⟨_, hends⟩
    refine ⟨enough, ?_⟩
    intro fuel hfuel
    obtain ⟨o, hparse, hconcludes⟩ := henough fuel hfuel
    refine ⟨o, hparse, ?_⟩
    cases hconcludes with
    | ended within ends same =>
      obtain ⟨rfl, rfl⟩ := Prod.mk.inj (ends.unique hends)
      exact Or.inl ⟨rfl, same⟩
    | exhausted within ends =>
      exact absurd (congrArg Prod.fst (ends.unique hends)).symm (hne _)
    | outgrown outgrows same =>
      refine Or.inr ⟨?_, rfl⟩
      by_contra hle
      exact outgrows.not_within (hwithin.mono (Nat.le_of_not_lt hle))

theorem BothEnd.imp {calls calls' : Nat} {P Q : Outcome Value → Prop}
    (h : BothEnd t semantics s calls P) (hcalls : calls ≤ calls') (hPQ : ∀ o, P o → Q o) :
    BothEnd t semantics s calls' Q where
  stack := by
    obtain ⟨enough, henough⟩ := h.stack
    refine ⟨enough, ?_⟩
    intro fuel hfuel
    obtain ⟨o, hparse, hP⟩ := henough fuel hfuel
    exact ⟨o, hparse, hPQ o hP⟩
  ascent := by
    intro limit
    obtain ⟨enough, henough⟩ := h.ascent limit
    refine ⟨enough, ?_⟩
    intro fuel hfuel
    obtain ⟨o, hparse, hP | ⟨hlt, hdeep⟩⟩ := henough fuel hfuel
    · exact ⟨o, hparse, Or.inl (hPQ o hP)⟩
    · exact ⟨o, hparse, Or.inr ⟨Nat.lt_of_lt_of_le hlt hcalls, hdeep⟩⟩

end Slr
