import Mathlib.Data.List.Basic
import Slr.Table.Construction
import Slr.Proofs.Association

/-! # Votes and the moves they settle

A terminal finds a move in a row exactly when all votes for it are for that
move. Computing the votes of a state goes through its items one by one, and
fails if one of them fails. -/

namespace Slr

/-! ## Going through a list with a function that may fail -/

section

variable {ε α β : Type} {f : α → Except ε β} {l : List α} {ys : List β}

theorem mapM_cons_ok {x : α} (h : (x :: l).mapM f = .ok ys) :
    ∃ y rest, f x = .ok y ∧ l.mapM f = .ok rest ∧ ys = y :: rest := by
  rw [List.mapM_cons] at h
  cases hx : f x with
  | error e => simp [hx, bind, Except.bind] at h
  | ok y =>
    cases hl : l.mapM f with
    | error e => simp [hx, hl, bind, Except.bind] at h
    | ok rest =>
      simp only [hx, hl, bind, Except.bind, pure, Except.pure, Except.ok.injEq] at h
      exact ⟨y, rest, rfl, rfl, h.symm⟩

theorem mapM_getElem? (h : l.mapM f = .ok ys) {i : Nat} {x : α} (hi : l[i]? = some x) :
    ∃ y, ys[i]? = some y ∧ f x = .ok y := by
  induction l generalizing ys i with
  | nil => simp at hi
  | cons z l ih =>
    obtain ⟨y, rest, hz, hrest, rfl⟩ := mapM_cons_ok h
    cases i with
    | zero =>
      obtain rfl : z = x := by simpa using hi
      exact ⟨y, rfl, hz⟩
    | succ i => exact ih hrest (by simpa using hi)

theorem mapM_length (h : l.mapM f = .ok ys) : ys.length = l.length := by
  induction l generalizing ys with
  | nil =>
    cases h
    rfl
  | cons z l ih =>
    obtain ⟨y, rest, -, hrest, rfl⟩ := mapM_cons_ok h
    simp [ih hrest]

theorem mem_of_mapM (h : l.mapM f = .ok ys) {y : β} : y ∈ ys ↔ ∃ x ∈ l, f x = .ok y := by
  constructor
  · intro hy
    obtain ⟨i, hi⟩ := List.mem_iff_getElem?.mp hy
    have hlt : i < l.length := by
      rw [← mapM_length h]
      exact (List.getElem?_eq_some_iff.mp hi).1
    obtain ⟨y', hy', hf⟩ := mapM_getElem? h (List.getElem?_eq_getElem hlt)
    obtain rfl : y' = y := Option.some.inj (hy'.symm.trans hi)
    exact ⟨_, List.getElem_mem hlt, hf⟩
  · intro h
    obtain ⟨x, hx, hf⟩ := h
    obtain ⟨i, hi⟩ := List.mem_iff_getElem?.mp hx
    obtain ⟨y', hy', hf'⟩ := mapM_getElem? h hi
    obtain rfl : y = y' := Except.ok.inj (hf.symm.trans hf')
    exact List.mem_of_getElem? hy'

theorem exists_mapM (h : ∀ x ∈ l, ∃ y, f x = .ok y) : ∃ ys, l.mapM f = .ok ys := by
  induction l with
  | nil => exact ⟨[], rfl⟩
  | cons x l ih =>
    obtain ⟨y, hy⟩ := h x (by simp)
    obtain ⟨ys, hys⟩ := ih fun z hz => h z (by simp [hz])
    exact ⟨y :: ys, by rw [List.mapM_cons, hy, hys]; rfl⟩

theorem exists_mem_of_mapM_error {e : ε} (h : l.mapM f = .error e) : ∃ x ∈ l, f x = .error e := by
  induction l with
  | nil => cases h
  | cons x l ih =>
    rw [List.mapM_cons] at h
    cases hx : f x with
    | error e' =>
      rw [hx] at h
      cases h
      exact ⟨x, List.mem_cons_self, hx⟩
    | ok y =>
      cases hrest : l.mapM f with
      | error e' =>
        rw [hx, hrest] at h
        cases h
        obtain ⟨z, hz, herror⟩ := ih hrest
        exact ⟨z, List.mem_cons_of_mem _ hz, herror⟩
      | ok ys =>
        rw [hx, hrest] at h
        cases h

end

namespace Votes

variable {votes : Votes} {t : String} {m : Move} {v : Vote}

theorem mem_for_iff : v ∈ votes.for t ↔ (t, v) ∈ votes := by
  simp only [Votes.for, List.mem_filterMap, Option.ite_none_right_eq_some, Option.some.injEq]
  constructor
  · intro h
    obtain ⟨⟨s, w⟩, hmem, rfl, rfl⟩ := h
    exact hmem
  · intro h
    exact ⟨(t, v), h, rfl, rfl⟩

theorem mem_moves_iff : m ∈ votes.moves t ↔ ∃ v, (t, v) ∈ votes ∧ v.move = m := by
  simp [moves, mem_for_iff]

theorem mem_terminals_iff : t ∈ votes.terminals ↔ ∃ v, (t, v) ∈ votes := by
  simp [terminals, mem_sortNames]

/-- The only element of a list. -/
def single : List Move → Option Move
  | [m] => some m
  | _ => none

theorem single_eq_some_iff {l : List Move} : single l = some m ↔ l = [m] := by
  match l with
  | [] => simp [single]
  | [n] => simp [single]
  | n :: k :: l => simp [single]

theorem settled_eq (votes : Votes) :
    votes.settled = votes.terminals.filterMap fun t => (single (votes.moves t)).map (t, ·) := by
  unfold settled
  congr 1
  funext t
  match votes.moves t with
  | [] => rfl
  | [n] => rfl
  | n :: k :: l => rfl

/-- A terminal finds a move in a row if all votes for it are for that move. -/
theorem lookup_settled : votes.settled.lookup t = single (votes.moves t) := by
  rw [settled_eq, Association.lookup_filterMap_self]
  split
  · rfl
  · rename_i hnone
    have hempty : votes.moves t = [] := by
      rw [List.eq_nil_iff_forall_not_mem]
      intro m hm
      obtain ⟨v, hv, -⟩ := mem_moves_iff.mp hm
      exact hnone (mem_terminals_iff.mpr ⟨v, hv⟩)
    rw [hempty]
    rfl

theorem exists_vote_of_lookup (h : votes.settled.lookup t = some m) :
    ∃ v, (t, v) ∈ votes ∧ v.move = m := by
  rw [lookup_settled, single_eq_some_iff] at h
  exact mem_moves_iff.mp (by simp [h])

/-- Without conflicts every vote is carried out. -/
theorem lookup_of_vote (hnone : votes.contested = []) (hv : (t, v) ∈ votes) :
    votes.settled.lookup t = some v.move := by
  have hmem : v.move ∈ votes.moves t := mem_moves_iff.mpr ⟨v, hv, rfl⟩
  have ht : t ∈ votes.terminals := mem_terminals_iff.mpr ⟨v, hv⟩
  have hone := List.filter_eq_nil_iff.mp hnone t ht
  rw [lookup_settled, single_eq_some_iff]
  match hmoves : votes.moves t with
  | [] => simp [hmoves] at hmem
  | [n] =>
    rw [hmoves] at hmem
    rw [List.mem_singleton.mp hmem]
  | n :: k :: l => simp [hmoves] at hone

end Votes

end Slr
