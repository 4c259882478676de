import Slr.Proofs.Parser.Procedures
import Slr.Proofs.Parser.Returns
import Slr.Proofs.Parser.Soundness

/-! # What comes back from a procedure is in the set of its state

A procedure returns a reduction of its own, with a level less than it has symbols,
or with one level less what a procedure that it called returned. In both cases the set
of the state has it, if each set holds the reductions of its state and what
callees pass on. Since a state takes gotos in a loop, procedures and what is done
with their results go through one induction on the fuel. -/

namespace Slr

variable {g : Grammar} {t : Table} {q c : Nat} {x : Symbol} {sets : Returns.Sets}

namespace Ascent

open Automaton Returns

variable {semantics : Semantics} {fuel room : Nat} {held : List Value} {r : Return}
  {session : Session} {o : Outcome Return}

/-- The ways in which a procedure begins, by the move that it finds. -/
inductive Begins (t : Table) (q : Nat) : Opening → Prop
  | done {o : Outcome Return} (h : ∀ r s, o ≠ (.ok (.reduction r), s)) : Begins t q (.done o)
  | call {kind : String} {target : Nat} {held : List Value} {s : Session}
      (move : t.move? q kind = some (.shift target)) : Begins t q (.call target held s)
  | settle {kind : String} {p : Production} {v : Value} {s : Session}
      (move : t.move? q kind = some (.reduce p)) :
      Begins t q (.settle (.reduction ⟨p.lhs, v, p.size⟩) s)

theorem opening_begins : Begins t q (opening t semantics q held session) := by
  unfold opening
  cases session.stream.feed.head with
  | error f => exact .done (by simp)
  | ok token =>
    simp only
    cases hm : t.move? q token.kind with
    | none => exact .done (by simp)
    | some m =>
      cases m with
      | accept =>
        simp only [onMove]
        cases held.getLast? with
        | none => exact .done (by simp)
        | some v => exact .done (by simp)
      | shift target => exact .call hm
      | reduce p =>
        simp only [onMove]
        cases semantics.value p (operands p.size held) with
        | error e => exact .done (by simp)
        | ok v => exact .settle hm

/-- A reduction that a state returns is in its set. -/
def Belongs (sets : Sets) (q : Nat) (o : Outcome Return) : Prop :=
  ∀ name value pops s, o = (.ok (.reduction ⟨name, value, pops⟩), s) →
    (name, pops) ∈ setOf sets q

/-- A reduction that comes to a state with a level left is in its set with that level less. -/
def Passes (sets : Sets) (q : Nat) (r : Return) : Prop :=
  ∀ name value pops, r = .reduction ⟨name, value, pops + 1⟩ → (name, pops) ∈ setOf sets q

section

variable (ht : g.table = .ok t) {P : Nat → Pair → Prop} (hk : Known t P sets)
  (hclosed : Closed t sets)

include ht hclosed

/-- What a callee returns passes to the state that called it. -/
theorem Belongs.passes (h : Belongs sets c (.ok r, session))
    (edge : ((build g).successorsOf q).lookup x = some c) : Passes sets q r := by
  intro name value pops hr
  exact hclosed q c ((mem_calls_iff ht).mpr ⟨x, edge⟩) _
    (mem_passedOn.mpr (h name value _ session (by rw [hr])))

theorem resume_belongs {called : Option (Outcome Return)}
    (hcalled : ∀ o, called = some o → Belongs sets c o)
    (edge : ((build g).successorsOf q).lookup x = some c)
    (hsettle : ∀ r s o, Passes sets q r → settle t semantics fuel room q held r s = some o →
      Belongs sets q o)
    (h : resume t semantics fuel room q held called = some o) : Belongs sets q o := by
  cases called with
  | none => cases h
  | some out =>
    obtain ⟨result, s⟩ := out
    cases result with
    | error e =>
      obtain rfl := Option.some.inj h
      simp [Belongs]
    | ok r => exact hsettle r s o (Belongs.passes ht hclosed (hcalled _ rfl) edge) h

include hk

/-- What a procedure returns is in the set of its state; so is what a state passes on. -/
theorem run_belongs (semantics : Semantics) (fuel : Nat) :
    (∀ room q held s o, call t semantics fuel room q held s = some o → Belongs sets q o) ∧
    ∀ room q held r s o, Passes sets q r → settle t semantics fuel room q held r s = some o →
      Belongs sets q o := by
  have hr := Grammar.table_renders ht
  induction fuel with
  | zero =>
    constructor
    · intro room q held s o h
      cases h
    · intro room q held r s o _ h
      cases h
  | succ fuel ih =>
    obtain ⟨hcall, hsettle⟩ := ih
    constructor
    · intro room q held s o h
      cases room with
      | zero =>
        rw [call_no_room] at h
        obtain rfl := Option.some.inj h
        simp [Belongs]
      | succ room =>
        rw [call_succ] at h
        have hbegins : Begins t q (opening t semantics q held s) := opening_begins
        generalize opening t semantics q held s = opened at h hbegins
        cases hbegins with
        | done hnone =>
          obtain rfl := Option.some.inj h
          intro name value pops s' ho
          exact absurd ho (hnone _ _)
        | call move =>
          exact resume_belongs ht hclosed (hcall _ _ _ _) (hr.shift move).2 (hsettle room q held) h
        | @settle kind p v s' move =>
          refine hsettle room q held _ s' o ?_ h
          intro name value pops hret
          simp only [Return.reduction.injEq, Reduction.mk.injEq] at hret
          obtain ⟨rfl, rfl, hsize⟩ := hret
          exact hk.own q _ (mem_own_of_move move hsize)
    · intro room q held r s o hpasses h
      cases r with
      | accepted v =>
        rw [settle_accepted] at h
        obtain rfl := Option.some.inj h
        simp [Belongs]
      | reduction r =>
        obtain ⟨name, value, pops⟩ := r
        cases pops with
        | succ pops =>
          rw [settle_return] at h
          obtain rfl := Option.some.inj h
          intro name' value' pops' s' ho
          simp only [Prod.mk.injEq, Except.ok.injEq, Return.reduction.injEq,
            Reduction.mk.injEq] at ho
          obtain ⟨⟨rfl, rfl, rfl⟩, rfl⟩ := ho
          exact hpasses _ _ _ rfl
        | zero =>
          cases hgoto : t.goto? q name with
          | none =>
            rw [settle_corrupt hgoto] at h
            obtain rfl := Option.some.inj h
            simp [Belongs]
          | some target =>
            rw [settle_goto hgoto] at h
            have edge := (hr.goto q name).symm.trans hgoto
            exact resume_belongs ht hclosed (hcall _ _ _ _) edge (hsettle room q held) h

end

end Ascent

/-! ## The sets are exact -/

namespace Returns

/-- Where the sets are defined, that of a state says for which nonterminals something may
follow and an item has been begun there, and how far; the goal is none of them. Whatever a
state's procedure holds and reads, and whatever the actions are, a reduction that it returns is in
the set. -/
theorem sets_exact (ht : g.table = .ok t) (hs : sets? t = some sets) :
    sets.length = t.size ∧ ∀ q,
      (∀ n k, (n, k) ∈ setOf sets q ↔
        n ≠ goalName ∧ (∃ s, g.Follows n s) ∧
          ∃ it ∈ (Automaton.build g).items q, it.production.lhs = n ∧ it.dot = k + 1) ∧
      ∀ semantics fuel room held session r session',
        Ascent.call t semantics fuel room q held session = some (.ok (.reduction r), session') →
          (r.name, r.pops) ∈ setOf sets q := by
  obtain ⟨hk, hclosed⟩ := sets?_spec (Grammar.accounts_leaves ht) hs
  refine ⟨hk.length, fun q => ⟨fun n k => ⟨?_, ?_⟩, ?_⟩⟩
  · intro hmem
    obtain ⟨⟨s, hs⟩, it, hit, hlhs, hdot, -⟩ := hk.holds q _ hmem
    exact ⟨(Grammar.follows_iff.mp hs).1, ⟨s, hs⟩, it, hit, hlhs, hdot⟩
  · intro h
    obtain ⟨-, hs, it, hit, rfl, hdot⟩ := h
    exact Grammar.mem_setOf_of_item ht hk hclosed hs hit hdot
  · intro semantics fuel room held session r session' hrun
    exact (Ascent.run_belongs ht hk hclosed semantics fuel).1 room q held session _ hrun _ _ _ _ rfl

open StackParser in
/-- The state behind a list shifts an item and gets back a longer list, which it returns to
the state before the list. -/
theorem sets_exact_listing :
    listing.table = .ok listingTable ∧
      sets? listingTable = some [[], [("list", 0)], [("list", 1)]] ∧
      (∀ n k, (n, k) ∈ [("list", 0)] ↔
        n ≠ goalName ∧ (∃ s, listing.Follows n s) ∧
          ∃ it ∈ (Automaton.build listing).items 1, it.production.lhs = n ∧ it.dot = k + 1) ∧
      ∃ v s, Ascent.call listingTable .default 5 2 1 [.none] (.ofStream twoItems) =
          some (.ok (.reduction ⟨"list", v, 0⟩), s) ∧
        ("list", 0) ∈ setOf [[], [("list", 0)], [("list", 1)]] 1 := by
  have hsets : sets? listingTable = some [[], [("list", 0)], [("list", 1)]] := by decide +kernel
  obtain ⟨hitems, hreturned⟩ := (sets_exact listing_table hsets).2 1
  obtain ⟨v, s, hrun⟩ : ∃ v s,
      Ascent.call listingTable .default 5 2 1 [.none] (.ofStream twoItems) =
        some (.ok (.reduction ⟨"list", v, 0⟩), s) := ⟨_, _, rfl⟩
  exact ⟨listing_table, hsets, hitems, v, s, hrun, hreturned _ _ _ _ _ _ _ hrun⟩

end Returns

end Slr
