import Slr.Parser.Ascent
import Slr.Proofs.Parser.Moves

/-! # The procedures, opened once

A procedure first consults the table. What comes of that is an outcome, a call of
the next state's procedure, or a reduction of its own to settle; what a call
returns is settled in the same way. A call for which there is no room does not even
look at the next token. More fuel changes nothing once a procedure has ended. -/

namespace Slr.Ascent

variable {t : Table} {semantics : Semantics} {fuel room q : Nat} {held : List Value} {r : Return}
  {s : Session} {o : Outcome Return} {name : String} {value : Value} {pops : Nat}

/-- What the first look of a procedure comes to. -/
inductive Opening where
  | done (o : Outcome Return)
  | call (target : Nat) (held : List Value) (s : Session)
  | settle (r : Return) (s : Session)

/-- What a state does with a token that has this move. -/
def onMove (t : Table) (semantics : Semantics) (q : Nat) (held : List Value) (token : Token)
    (s : Session) : Option Move → Opening
  | none => .done (.error (Session.unexpected t q token), s)
  | some .accept =>
    match held.getLast? with
    | none => .done (.error .outOfRange, s.pass token)
    | some v => .done (.ok (.accepted v), s.pass token)
  | some (.shift target) => .call target (hold held token.value (t.depth target)) (s.pass token)
  | some (.reduce p) =>
    match semantics.value p (operands p.size held) with
    | .error e => .done (.error e, s.called p (operands p.size held))
    | .ok v => .settle (.reduction ⟨p.lhs, v, p.size⟩) (s.called p (operands p.size held))

def opening (t : Table) (semantics : Semantics) (q : Nat) (held : List Value) (s : Session) :
    Opening :=
  let looked := s.looked t q (note q)
  match s.stream.feed.head with
  | .error f => .done (.error (.fault f), looked)
  | .ok token => onMove t semantics q held token looked (t.move? q token.kind)

/-- What a procedure does when a call has returned. -/
def resume (t : Table) (semantics : Semantics) (fuel room q : Nat) (held : List Value) :
    Option (Outcome Return) → Option (Outcome Return)
  | none => none
  | some (.error e, s) => some (.error e, s)
  | some (.ok r, s) => settle t semantics fuel room q held r s

theorem call_no_room :
    call t semantics (fuel + 1) 0 q held s = some (.error (.fault noRoom), s) := by
  rw [call]

theorem call_succ : call t semantics (fuel + 1) (room + 1) q held s =
    match opening t semantics q held s with
    | .done o => some o
    | .call target held' s' =>
      resume t semantics fuel room q held (call t semantics fuel room target held' s')
    | .settle r s' => settle t semantics fuel room q held r s' := by
  rw [call, opening]
  cases ahead : s.stream.feed.head with
  | error f => simp only [Session.consult_error ahead]
  | ok token =>
    simp only [Session.consult_ok ahead]
    cases t.move? q token.kind with
    | none => rfl
    | some m =>
      cases m with
      | accept =>
        simp only [onMove]
        cases held.getLast? <;> rfl
      | shift target => rfl
      | reduce p =>
        simp only [onMove, Session.reduce_eq]
        cases semantics.value p (operands p.size held) <;> rfl

theorem settle_accepted : settle t semantics (fuel + 1) room q held (.accepted value) s =
    some (.ok (.accepted value), s) := by
  rw [settle]

theorem settle_return : settle t semantics (fuel + 1) room q held (.reduction ⟨name, value, pops + 1⟩) s =
    some (.ok (.reduction ⟨name, value, pops⟩), s) := by
  rw [settle]

theorem settle_goto {target : Nat} (h : t.goto? q name = some target) :
    settle t semantics (fuel + 1) room q held (.reduction ⟨name, value, 0⟩) s =
      resume t semantics fuel room q held
        (call t semantics fuel room target (hold held value (t.depth target)) s) := by
  simp only [settle, h]
  rfl

theorem settle_corrupt (h : t.goto? q name = none) :
    settle t semantics (fuel + 1) room q held (.reduction ⟨name, value, 0⟩) s =
      some (.error (.corrupt ("state " ++ toString q ++ " has no goto on " ++ name)), s) := by
  simp only [settle, h]

/-! ## More fuel -/

theorem resume_mono {called called' : Option (Outcome Return)}
    (hcalled : ∀ o, called = some o → called' = some o)
    (hsettle : ∀ r s o, settle t semantics fuel room q held r s = some o →
      settle t semantics (fuel + 1) room q held r s = some o)
    (h : resume t semantics fuel room q held called = some o) :
    resume t semantics (fuel + 1) room q held called' = some o := by
  cases called with
  | none => cases h
  | some out =>
    rw [hcalled out rfl]
    obtain ⟨result, s⟩ := out
    cases result with
    | error e => exact h
    | ok r => exact hsettle r s o h

theorem mono_succ (t : Table) (semantics : Semantics) (fuel : Nat) :
    (∀ room q held s o, call t semantics fuel room q held s = some o →
      call t semantics (fuel + 1) room q held s = some o) ∧
    (∀ room q held r s o, settle t semantics fuel room q held r s = some o →
      settle t semantics (fuel + 1) room q held r s = some o) := by
  induction fuel with
  | zero =>
    constructor
    · intro room q held s o h
      cases h
    · intro room q held r s o h
      cases h
  | succ fuel ih =>
    obtain ⟨hcall, hsettle⟩ := ih
    constructor
    · intro room q held s o h
      cases room with
      | zero =>
        rw [call_no_room] at h ⊢
        exact h
      | succ room =>
        rw [call_succ] at h ⊢
        cases hopen : opening t semantics q held s with
        | done o' => simpa only [hopen] using h
        | call target held' s' =>
          simp only [hopen] at h ⊢
          exact resume_mono (hcall room target held' s') (hsettle room q held) h
        | settle r s' =>
          simp only [hopen] at h ⊢
          exact hsettle room q held r s' o h
    · intro room q held r s o h
      cases r with
      | accepted v =>
        rw [settle_accepted] at h ⊢
        exact h
      | reduction r =>
        obtain ⟨name, value, pops⟩ := r
        cases pops with
        | succ pops =>
          rw [settle_return] at h ⊢
          exact h
        | zero =>
          cases hgoto : t.goto? q name with
          | none =>
            rw [settle_corrupt hgoto] at h ⊢
            exact h
          | some target =>
            rw [settle_goto hgoto] at h ⊢
            exact resume_mono (hcall room target _ s) (hsettle room q held) h

theorem call_mono {fuel' : Nat} (hle : fuel ≤ fuel')
    (h : call t semantics fuel room q held s = some o) :
    call t semantics fuel' room q held s = some o := by
  induction hle with
  | refl => exact h
  | step _ ih => exact (mono_succ t semantics _).1 room q held s o ih

theorem parse?_mono {fuel' limit : Nat} {o : Outcome Value} (hle : fuel ≤ fuel')
    (h : parse? t semantics limit fuel s = some o) : parse? t semantics limit fuel' s = some o := by
  rw [parse?, Option.map_eq_some_iff] at h
  obtain ⟨o', hcall, rfl⟩ := h
  rw [parse?, call_mono hle hcall, Option.map_some]

end Slr.Ascent
