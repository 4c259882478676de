import Mathlib.Data.List.Nodup

/-! # Looking up in lists of pairs

Rows of a table, successors of a state and lookahead sets are lists of pairs by
key. These lemmas say what a key finds there. -/

namespace Slr.Association

variable {α β γ : Type} [BEq α] [LawfulBEq α] {l : List (α × β)} {a : α} {b : β}

theorem mem_of_lookup (h : l.lookup a = some b) : (a, b) ∈ l := by
  obtain ⟨l₁, l₂, rfl, -⟩ := List.lookup_eq_some_iff.mp h
  simp

theorem exists_lookup (h : (a, b) ∈ l) : ∃ c, l.lookup a = some c := by
  rw [← Option.isSome_iff_exists, List.lookup_isSome_iff]
  exact ⟨(a, b), h, by simp⟩

/-- Where no key occurs twice, a key finds each of its values. -/
theorem lookup_of_mem (hkeys : (l.map Prod.fst).Nodup) (h : (a, b) ∈ l) : l.lookup a = some b := by
  obtain ⟨c, hc⟩ := exists_lookup h
  have hpair := List.inj_on_of_nodup_map hkeys h (mem_of_lookup hc) rfl
  rw [hc, (Prod.mk.inj hpair).2]

theorem lookup_cons_ne {k : α} {v : β} (h : a ≠ k) : ((k, v) :: l).lookup a = l.lookup a := by
  have hne : (a == k) = false := beq_eq_false_iff_ne.mpr h
  simp [List.lookup_cons, hne]

/-- A key finds what a function gave to it. -/
theorem lookup_map_self {l : List α} (f : α → β) (h : a ∈ l) :
    (l.map fun x => (x, f x)).lookup a = some (f a) := by
  induction l with
  | nil => cases h
  | cons k l ih =>
    by_cases hk : a = k
    · subst hk
      simp
    · have hmem : a ∈ l := by simpa [hk] using h
      rw [List.map_cons, lookup_cons_ne hk, ih hmem]

theorem lookup_filter (keep : α → Bool) (h : keep a = true) :
    (l.filter fun e => keep e.1).lookup a = l.lookup a := by
  induction l with
  | nil => rfl
  | cons e l ih =>
    obtain ⟨k, v⟩ := e
    by_cases hk : a = k
    · subst hk
      simp [h]
    · rw [lookup_cons_ne hk, ← ih, List.filter_cons]
      split
      · exact lookup_cons_ne hk
      · rfl

/-- Keys that are renamed, and some of them dropped, find what they found before. -/
theorem lookup_rename [BEq γ] [LawfulBEq γ] (rename : α → Option γ) {c : γ}
    (h : ∀ k, rename k = some c ↔ k = a) :
    (l.filterMap fun e => (rename e.1).map (·, e.2)).lookup c = l.lookup a := by
  induction l with
  | nil => rfl
  | cons e l ih =>
    obtain ⟨k, v⟩ := e
    rw [List.filterMap_cons]
    by_cases hk : a = k
    · subst hk
      simp [(h a).mpr rfl]
    · rw [lookup_cons_ne hk, ← ih]
      cases hr : rename k with
      | none => simp
      | some d =>
        have hcd : c ≠ d := by
          intro hcd
          subst hcd
          exact hk ((h k).mp hr).symm
        simp only [Option.map_some]
        exact lookup_cons_ne hcd

/-- A key that a partial function is defined on finds its value there. -/
theorem lookup_filterMap_self {l : List α} (f : α → Option β) :
    (l.filterMap fun x => (f x).map (x, ·)).lookup a = if a ∈ l then f a else none := by
  induction l with
  | nil => simp
  | cons k l ih =>
    rw [List.filterMap_cons]
    by_cases hk : a = k
    · subst hk
      cases hf : f a with
      | none => simp [ih, hf]
      | some v => simp
    · have hmem : (a ∈ k :: l) = (a ∈ l) := by simp [hk]
      simp only [hmem]
      rw [← ih]
      cases hf : f k with
      | none => simp
      | some v => exact lookup_cons_ne hk

end Slr.Association
