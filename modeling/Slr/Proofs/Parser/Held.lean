import Slr.Proofs.Parser.Procedures
import Slr.Proofs.Parser.Soundness
import Slr.Proofs.Table.Depths

/-! # What a procedure sees of the values it holds

A procedure takes operands and the accepted value from the last values it holds, no more
than its state is deep, and hands on no more than these and a new one. So what it holds
below that depth is nowhere seen: it makes the same calls, each with the same values, and
what comes back to it is settled in the same way, over gotos however many. -/

namespace Slr.Ascent

variable {g : Grammar} {follow : Lookahead} {t : Table} {semantics : Semantics}
  {fuel room m n q : Nat}
  {held held' : List Value} {s : Session}

/-- Values of which the last `n` are the same. -/
structure EndAlike (n : Nat) (held held' : List Value) : Prop where
  le_left : n ≤ held.length
  le_right : n ≤ held'.length
  last_eq : lastValues n held = lastValues n held'

theorem lastValues_lastValues (hm : m ≤ n) (hn : n ≤ held.length) :
    lastValues m (lastValues n held) = lastValues m held := by
  simp only [lastValues, List.length_drop, List.drop_drop]
  congr 1
  omega

namespace EndAlike

theorem lastValues_eq (h : EndAlike n held held') (hm : m ≤ n) :
    lastValues m held = lastValues m held' := by
  rw [← lastValues_lastValues hm h.le_left, h.last_eq, lastValues_lastValues hm h.le_right]

theorem push (h : EndAlike n held held') (v : Value) :
    EndAlike (n + 1) (held ++ [v]) (held' ++ [v]) where
  le_left := by simpa using h.le_left
  le_right := by simpa using h.le_right
  last_eq := by
    have hlast (vs : List Value) : lastValues (n + 1) (vs ++ [v]) = lastValues n vs ++ [v] := by
      simp only [lastValues, List.length_append, List.length_singleton, Nat.add_sub_add_right]
      exact List.drop_append_of_le_length (Nat.sub_le _ _)
    rw [hlast, hlast, h.last_eq]

/-- A call along an edge is given the same values. -/
theorem hold_eq (h : EndAlike n held held') (hm : m ≤ n + 1) (v : Value) :
    hold held v m = hold held' v m :=
  (h.push v).lastValues_eq hm

theorem operands_eq (h : EndAlike n held held') (hm : m ≤ n) :
    operands m held = operands m held' := by
  rw [operands, operands, if_pos (hm.trans h.le_left), if_pos (hm.trans h.le_right),
    h.lastValues_eq hm]

theorem getLast?_eq (h : EndAlike n held held') (hn : 0 < n) : held.getLast? = held'.getLast? := by
  have hlast {vs : List Value} (hvs : n ≤ vs.length) : (lastValues n vs).getLast? = vs.getLast? := by
    rw [lastValues, List.getLast?_drop, if_neg (by omega)]
  rw [← hlast h.le_left, h.last_eq, hlast h.le_right]

end EndAlike

/-! ## The same calls, settled in the same way -/

theorem resume_eq (hsettle : ∀ r s,
      settle t semantics fuel room q held r s = settle t semantics fuel room q held' r s)
    (called : Option (Outcome Return)) :
    resume t semantics fuel room q held called = resume t semantics fuel room q held' called := by
  cases called with
  | none => rfl
  | some o =>
    obtain ⟨result, s⟩ := o
    cases result with
    | error e => rfl
    | ok r => exact hsettle r s

section

variable (hb : t.Bounded q) (h : EndAlike (t.depth q) held held')

include hb h

theorem opening_eq : opening t semantics q held s = opening t semantics q held' s := by
  unfold opening
  cases s.stream.feed.head with
  | error f => rfl
  | ok token =>
    simp only
    cases hm : t.move? q token.kind with
    | none => rfl
    | some move =>
      cases move with
      | accept => simp only [onMove, h.getLast?_eq (hb.accept hm)]
      | shift target => simp only [onMove, h.hold_eq (hb.shift hm)]
      | reduce p => simp only [onMove, h.operands_eq (hb.reduce hm)]

theorem settle_eq (r : Return) :
    settle t semantics fuel room q held r s = settle t semantics fuel room q held' r s := by
  induction fuel generalizing r s with
  | zero => rw [settle, settle]
  | succ fuel ih =>
    cases r with
    | accepted v => rw [settle_accepted, settle_accepted]
    | reduction r =>
      obtain ⟨name, value, pops⟩ := r
      cases pops with
      | succ pops => rw [settle_return, settle_return]
      | zero =>
        cases hgoto : t.goto? q name with
        | none => rw [settle_corrupt hgoto, settle_corrupt hgoto]
        | some target =>
          rw [settle_goto hgoto, settle_goto hgoto, h.hold_eq (hb.goto hgoto)]
          exact resume_eq (fun r _ => ih r) _

theorem call_eq :
    call t semantics fuel room q held s = call t semantics fuel room q held' s := by
  cases fuel with
  | zero => rw [call, call]
  | succ fuel =>
    cases room with
    | zero => rw [call_no_room, call_no_room]
    | succ room =>
      rw [call_succ, call_succ, opening_eq hb h]
      cases opening t semantics q held' s with
      | done o => rfl
      | call target held s' => exact resume_eq (fun r _ => settle_eq hb h r) _
      | settle r s' => exact settle_eq hb h r

end

/-- On a table that was built, whatever the lookahead sets, a procedure that is given values
with the same last ones, as many as its state is deep, comes to the same outcome with the same
fuel and the same room for calls: the same reduction, acceptance or error, and behind it the same session, with its steps,
its stream, and the pulls and the calls of actions with their values. -/
theorem procedure_sees_depth (ht : (Automaton.build g).table follow = .ok t)
    (h : EndAlike (t.depth q) held held') (semantics : Semantics) (fuel room : Nat) (s : Session) :
    call t semantics fuel room q held s = call t semantics fuel room q held' s := by
  have hc := Automaton.build_canonical g
  exact call_eq (hc.bounded (Automaton.table_renders hc ht) q) h

open StackParser in
/-- Behind a list, whether or not another value is held below it, an item is read and the
longer list returned. -/
theorem procedure_sees_depth_listing :
    (Automaton.build listing).table listing.follow = .ok listingTable ∧
      EndAlike (listingTable.depth 1) [.int 7] [.str "below", .int 7] ∧
      ∃ r s, call listingTable .default 5 2 1 [.int 7] (.ofStream twoItems) =
          some (.ok (.reduction r), s) ∧
        call listingTable .default 5 2 1 [.str "below", .int 7] (.ofStream twoItems) =
          some (.ok (.reduction r), s) := by
  have halike : EndAlike (listingTable.depth 1) [.int 7] [.str "below", .int 7] :=
    ⟨by decide, by decide, rfl⟩
  obtain ⟨r, s, hrun⟩ : ∃ r s,
      call listingTable .default 5 2 1 [.int 7] (.ofStream twoItems) =
        some (.ok (.reduction r), s) := ⟨_, _, rfl⟩
  exact ⟨listing_table, halike, r, s, hrun,
    (procedure_sees_depth listing_table halike .default 5 2 (.ofStream twoItems)).symm.trans hrun⟩

end Slr.Ascent
