import Slr.Proofs.Parser.Procedures
import Slr.Proofs.Table.Depths

/-! # A procedure and the stack it stands for

The call of a state's procedure stands for a stack with the state on top; it holds
the values on top of the stack, as many as the state is deep. What it returns
tells what is to become of the stack below. -/

namespace Slr

open StackParser

namespace Session

variable {t : Table} {q : Nat} {note note' : String → String → String} {s s' : Session}

/-- The same session, the notes apart. -/
structure Same (s s' : Session) : Prop where
  stream : s.stream = s'.stream
  steps : s.steps = s'.steps
  events : s.events = s'.events

namespace Same

theorem refl (s : Session) : Same s s := ⟨rfl, rfl, rfl⟩

variable (h : Same s s')

include h

theorem looked : Same (s.looked t q note) (s'.looked t q note') where
  stream := by rw [looked_stream, looked_stream, h.stream]
  events := by rw [looked_events, looked_events, h.stream, h.events]
  steps := by
    simp only [Session.looked, consult, h.stream]
    split
    · exact h.steps
    · simp only [record, h.steps]

theorem pass (token : Token) : Same (s.pass token) (s'.pass token) where
  stream := by simp only [Session.pass, h.stream]
  steps := h.steps
  events := h.events

theorem called (p : Production) (values : List Value) :
    Same (s.called p values) (s'.called p values) where
  stream := h.stream
  steps := h.steps
  events := by simp only [Session.called, h.events]

theorem trace : s.trace = s'.trace := by rw [Session.trace, Session.trace, h.steps]

end Same

end Session

/-! ## The values on top of a stack -/

namespace StackParser

variable {stack : Stack} {m n : Nat}

theorem topValues_cons (n : Nat) (q : Nat) (v : Value) (below : Stack) :
    topValues (n + 1) ((q, v) :: below) = topValues n below ++ [v] := by
  simp [topValues]

theorem length_topValues (h : n ≤ stack.length) : (topValues n stack).length = n := by
  simp [topValues, Nat.min_eq_left h]

theorem lastValues_topValues (hmn : m ≤ n) (hn : n ≤ stack.length) :
    Ascent.lastValues m (topValues n stack) = topValues m stack := by
  rw [Ascent.lastValues, length_topValues hn, topValues, ← List.map_drop, List.drop_reverse,
    List.take_take, List.length_take, Nat.min_eq_left hn, topValues]
  congr
  omega

end StackParser

/-! ## Frames -/

namespace Ascent

variable {g : Grammar} {follow : Lookahead} {t : Table} {semantics : Semantics} {q r : Nat}
  {v w : Value} {below : Stack} {held : List Value} {x : Symbol} {s s' : Session} {token : Token}

/-- A procedure holds what the state on top of a stack sees of it. -/
structure Attends (g : Grammar) (t : Table) (q : Nat) (v : Value) (below : Stack)
    (held : List Value) : Prop where
  way : ∃ xs, (Automaton.build g).Spells (q :: below.map Prod.fst) xs
  held_eq : held = topValues (t.depth q) ((q, v) :: below)

namespace Attends

theorem getLast?_eq (h : Attends g t q v below held) (hq : 0 < t.depth q) :
    held.getLast? = some v := by
  obtain ⟨n, hn⟩ := Nat.exists_eq_add_of_lt hq
  rw [Nat.zero_add] at hn
  rw [h.held_eq, hn, topValues_cons, List.getLast?_concat]

variable (hr : t.Renders (Automaton.build g) follow) (h : Attends g t q v below held)

include hr h

theorem depth_le : t.depth q ≤ below.length := by
  obtain ⟨xs, way⟩ := h.way
  rw [hr.depth]
  simpa using (Automaton.build_canonical g).depth_le way

theorem operands_eq {n : Nat} (hn : n ≤ t.depth q) :
    operands n held = topValues n ((q, v) :: below) := by
  have hle : t.depth q ≤ ((q, v) :: below).length := Nat.le_succ_of_le (h.depth_le hr)
  have hlength : n ≤ held.length := by
    rw [h.held_eq, length_topValues hle]
    exact hn
  rw [operands, if_pos hlength, h.held_eq, lastValues_topValues hn hle]

/-- A call along an edge attends the stack with the new value. -/
theorem call (edge : ((Automaton.build g).successorsOf q).lookup x = some r) (w : Value) :
    Attends g t r w ((q, v) :: below) (hold held w (t.depth r)) where
  way := by
    obtain ⟨xs, way⟩ := h.way
    exact ⟨x :: xs, way.push edge⟩
  held_eq := by
    obtain ⟨xs, way⟩ := h.way
    have hle : t.depth r ≤ t.depth q + 1 := by
      rw [hr.depth, hr.depth]
      exact (Automaton.build_canonical g).depth_edge_le way edge
    have hdepth := h.depth_le hr
    rw [hold, h.held_eq, ← topValues_cons _ r, lastValues_topValues hle]
    simp only [List.length_cons]
    omega

end Attends

theorem attends_bottom (hr : t.Renders (Automaton.build g) follow) : Attends g t 0 .none [] [] where
  way := ⟨[], .bottom⟩
  held_eq := by
    have hdepth := (Automaton.build_canonical g).depth_le .bottom
    rw [hr.depth, Nat.le_zero.mp hdepth]
    rfl

/-! ## What comes back -/

/-- What a returning procedure makes of the stack below it. -/
def returned (t : Table) (below : Stack) : Except ParseError Return → Status
  | .error e => .failed e
  | .ok (.accepted v) => .accepted v
  | .ok (.reduction r) => push t r.name r.value (below.drop r.pops)

/-- A reduction that comes back finds a procedure that takes the goto. -/
def Fits (t : Table) (below : Stack) : Except ParseError Return → Prop
  | .ok (.reduction r) => ∃ q v rest target,
      below.drop r.pops = (q, v) :: rest ∧ t.goto? q r.name = some target
  | _ => True

/-- Nothing is below the bottom, so no reduction fits there. -/
theorem not_fits_nil {r : Reduction} : ¬ Fits t [] (.ok (.reduction r)) := by
  intro hfits
  obtain ⟨q, v, rest, target, hdrop, -⟩ := hfits
  simp at hdrop

/-- What the first look of a procedure comes to, and the first move over its stack. -/
inductive Opens (g : Grammar) (t : Table) (stack below : Stack) : Opening → Config → Prop
  | done {o : Outcome Return} {s' : Session} (same : o.2.Same s') (fits : Fits t below o.1) :
      Opens g t stack below (.done o) (returned t below o.1, s')
  | call {target : Nat} {held : List Value} {w : Value} {s s' : Session} (same : s.Same s')
      (attends : Attends g t target w stack held) :
      Opens g t stack below (.call target held s) (.running ((target, w) :: stack), s')
  | settle {r : Return} {s s' : Session} (same : s.Same s') (fits : Fits t stack (.ok r)) :
      Opens g t stack below (.settle r s) (returned t stack (.ok r), s')

theorem opening_opens (semantics : Semantics) (hr : t.Renders (Automaton.build g) follow)
    (h : Attends g t q v below held) (hsame : s.Same s') :
    Opens g t ((q, v) :: below) below (opening t semantics q held s)
      (next t semantics (.running ((q, v) :: below), s')) := by
  have hc := Automaton.build_canonical g
  obtain ⟨xs, way⟩ := h.way
  have hlooked : (s.looked t q (note q)).Same (looked t ((q, v) :: below) q s') := hsame.looked
  cases ahead : s.stream.feed.head with
  | error f =>
    rw [next_fault (hsame.stream ▸ ahead)]
    simp only [opening, ahead]
    exact .done hlooked trivial
  | ok token =>
    have ahead' : s'.stream.feed.head = .ok token := hsame.stream ▸ ahead
    cases hm : t.move? q token.kind with
    | none =>
      rw [next_unexpected ahead' hm]
      simp only [opening, ahead, hm, onMove]
      exact .done hlooked trivial
    | some m =>
      cases m with
      | accept =>
        have hlast := h.getLast?_eq ((hc.bounded hr q).accept hm)
        rw [next_accept ahead' hm]
        simp only [opening, ahead, hm, onMove, hlast]
        exact .done (hlooked.pass token) trivial
      | shift target =>
        rw [next_shift ahead' hm]
        simp only [opening, ahead, hm, onMove]
        exact .call (hlooked.pass token) (h.call hr (hr.shift hm).2 _)
      | reduce p =>
        have hsize := (hc.bounded hr q).reduce hm
        obtain ⟨it, hit, rfl, hnext⟩ := hr.reduce hm
        obtain ⟨ys, q', qs, r, -, hstates, -, edge⟩ := hc.exists_goto way hit hnext
        obtain ⟨⟨_, v'⟩, rest, hdrop, rfl, rfl⟩ := List.map_eq_cons_iff.mp
          ((List.map_drop (f := Prod.fst) (l := (q, v) :: below)).trans hstates)
        rw [next_reduce ahead' hm]
        simp only [opening, ahead, hm, onMove, h.operands_eq hr hsize]
        cases semantics.value it.production (topValues it.production.size ((q, v) :: below)) with
        | error e => exact .done (hlooked.called _ _) trivial
        | ok w =>
          exact .settle (hlooked.called _ _) ⟨_, v', rest, r, hdrop, (hr.goto _ _).trans edge⟩

end Ascent

end Slr
