import Slr.Proofs.Parser.Lockstep

/-! # Parses whose actions do not fail

With actions that give nothing where they fail, a parse makes the moves that it makes
anyway, up to the first call that fails. -/

namespace Slr

open ParseTree

namespace Semantics

variable {semantics : Semantics} {p : Production} {values : List Value} {v : Value}

/-- The same actions, which give nothing where they fail. -/
def forgiving (semantics : Semantics) : Semantics := fun p =>
  (semantics p).map fun action => ⟨action.labels, fun values =>
    match action.apply values with
    | .ok v => .ok v
    | .error _ => .ok .none⟩

theorem forgiving_of_value (h : semantics.value p values = .ok v) :
    semantics.forgiving.value p values = .ok v := by
  unfold value forgiving at *
  cases haction : semantics p with
  | none => simpa [haction] using h
  | some action =>
    cases happly : action.apply values with
    | ok w => simpa [haction, happly] using h
    | error f => cases f <;> simp [haction, happly] at h

theorem exists_forgiving_value (semantics : Semantics) (p : Production) (values : List Value) :
    ∃ v, semantics.forgiving.value p values = .ok v := by
  unfold value forgiving
  cases haction : semantics p with
  | none => exact ⟨.tree p.lhs values, by simp⟩
  | some action => cases happly : action.apply values <;> simp [happly]

theorem exists_forgiving_evalAll {ts : List ParseTree}
    (h : ∀ t ∈ ts, ∃ v, eval semantics.forgiving t = .ok v) :
    ∃ vs, evalAll semantics.forgiving ts = .ok vs := by
  induction ts with
  | nil => exact ⟨[], rfl⟩
  | cons t ts ih =>
    obtain ⟨v, hv⟩ := h t (by simp)
    obtain ⟨vs, hvs⟩ := ih fun u hu => h u (by simp [hu])
    exact ⟨v :: vs, by simp [evalAll, hv, hvs]⟩

theorem exists_forgiving_eval (semantics : Semantics) (T : ParseTree) :
    ∃ v, eval semantics.forgiving T = .ok v := by
  induction T using rec_children with
  | leaf token => exact ⟨_, rfl⟩
  | node p children ih =>
    obtain ⟨vs, hvs⟩ := exists_forgiving_evalAll ih
    rw [eval_node hvs]
    exact semantics.exists_forgiving_value p vs

end Semantics

namespace StackParser

variable {g : Grammar} {semantics : Semantics} {follow : Lookahead} {t : Table} {s : Session}
  {forest : List ParseTree}

/-- The next thing that a parse does is a call that fails. -/
structure Breaks (t : Table) (semantics : Semantics) (q : Nat) (v : Value) (below : Stack)
    (s : Session) (p : Production) (error : ParseError) : Prop where
  reduces : ∃ tok, s.stream.feed.head = .ok tok ∧ t.move? q tok.kind = some (.reduce p)
  fails : semantics.value p (topValues p.size ((q, v) :: below)) = .error error

/-- A move is made as if no action failed, unless one does. -/
theorem next_forgiving (t : Table) (semantics : Semantics) (c : Config) :
    next t semantics.forgiving c = next t semantics c ∨
      ∃ q v below s p error, c = (.running ((q, v) :: below), s) ∧
        Breaks t semantics q v below s p error := by
  obtain ⟨status, s⟩ := c
  cases status with
  | accepted v => exact Or.inl rfl
  | failed error => exact Or.inl rfl
  | running stack =>
    cases stack with
    | nil => exact Or.inl rfl
    | cons top below =>
      obtain ⟨q, v⟩ := top
      cases ahead : s.stream.feed.head with
      | error f => exact Or.inl (by rw [next_fault ahead, next_fault ahead])
      | ok tok =>
        cases hm : t.move? q tok.kind with
        | none => exact Or.inl (by rw [next_unexpected ahead hm, next_unexpected ahead hm])
        | some m =>
          cases m with
          | accept => exact Or.inl (by rw [next_accept ahead hm, next_accept ahead hm])
          | shift r => exact Or.inl (by rw [next_shift ahead hm, next_shift ahead hm])
          | reduce p =>
            cases hv : semantics.value p (topValues p.size ((q, v) :: below)) with
            | ok w =>
              refine Or.inl ?_
              rw [next_reduce ahead hm, next_reduce ahead hm, hv, Semantics.forgiving_of_value hv]
            | error error => exact Or.inr ⟨q, v, below, s, p, error, rfl, ⟨tok, ahead, hm⟩, hv⟩

theorem iterate_forgiving (t : Table) (semantics : Semantics) (c : Config) (n : Nat) :
    (next t semantics.forgiving)^[n] c = (next t semantics)^[n] c ∨
      ∃ m < n, ∃ q v below s p error,
        (next t semantics.forgiving)^[m] c = (.running ((q, v) :: below), s) ∧
        (next t semantics)^[m] c = (.running ((q, v) :: below), s) ∧
        Breaks t semantics q v below s p error := by
  induction n with
  | zero => exact Or.inl rfl
  | succ n ih =>
    rcases ih with hsame | ⟨m, hm, hbreaks⟩
    · rw [Function.iterate_succ_apply', Function.iterate_succ_apply', hsame]
      rcases next_forgiving t semantics ((next t semantics)^[n] c) with
        hnext | ⟨q, v, below, s, p, error, hc, hbreaks⟩
      · exact Or.inl hnext
      · exact Or.inr ⟨n, Nat.lt_succ_self n, q, v, below, s, p, error, hsame.trans hc, hc, hbreaks⟩
    · exact Or.inr ⟨m, Nat.lt_succ_of_lt hm, hbreaks⟩

/-- Where no action fails, the reduction that breaks a parse is one more step of it. -/
theorem Breaks.forgiven {q : Nat} {v : Value} {below : Stack} {p : Production} {error : ParseError}
    (h : Breaks t semantics q v below s p error) :
    (∀ w s', next t semantics.forgiving (.running ((q, v) :: below), s) ≠ (.accepted w, s')) ∧
      (next t semantics.forgiving (.running ((q, v) :: below), s)).2.trace =
        s.trace ++ [.reduce p] := by
  obtain ⟨tok, ahead, hm⟩ := h.reduces
  obtain ⟨w, hw⟩ := semantics.exists_forgiving_value p (topValues p.size ((q, v) :: below))
  rw [next_reduce ahead hm, hw]
  refine ⟨?_, ?_⟩
  · intro w' s' haccept
    have hstatus := congrArg Prod.fst haccept
    simp only at hstatus
    unfold push at hstatus
    repeat' split at hstatus
    all_goals cases hstatus
  · rw [Session.trace_called, looked_trace ahead hm]
    rfl

/-- The move that breaks a parse fails, over the trees of the right hand side. -/
theorem Breaks.next_failed {q : Nat} {v : Value} {below : Stack} {p : Production}
    {error : ParseError} (h : Breaks t semantics q v below s p error)
    (hr : t.Renders (Automaton.build g) follow)
    (hrepresents : Represents g semantics ((q, v) :: below) forest) :
    ∃ children rest values, forest = children.reverse ++ rest ∧ (node p children).Valid g ∧
      evalAll semantics children = .ok values ∧ semantics.value p values = .error error ∧
      next t semantics (.running ((q, v) :: below), s) =
        (.failed error, (looked t ((q, v) :: below) q s).called p values) := by
  obtain ⟨tok, ahead, hm⟩ := h.reduces
  have hstatus : (next t semantics (.running ((q, v) :: below), s)).1 = .failed error := by
    rw [next_reduce ahead hm, h.fails]
  have hmoved := next_moved hr hrepresents s
  generalize next t semantics (.running ((q, v) :: below), s) = c at hstatus hmoved
  cases hmoved with
  | fault ahead' =>
    rw [ahead] at ahead'
    cases ahead'
  | unexpected ahead' no_move =>
    obtain rfl := Except.ok.inj (ahead.symm.trans ahead')
    rw [hm] at no_move
    cases no_move
  | failed ahead' move handle operands valid fails =>
    obtain rfl := Except.ok.inj (ahead.symm.trans ahead')
    obtain rfl := Move.reduce.inj (Option.some.inj (hm.symm.trans move))
    cases hstatus
    exact ⟨_, _, _, handle, valid, operands, fails, rfl⟩
  | accept | shift | reduce => cases hstatus

end StackParser

end Slr
