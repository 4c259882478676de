import Mathlib.Data.List.TakeWhile
import Mathlib.Data.Nat.Digits.Defs
import Mathlib.Tactic.IntervalCases
import Slr.Proofs.Language.Scanner

/-! # Numbers in decimal

Digits are read as the number that they stand for, leading zeros and all, unless there
are too many of them. -/

namespace Slr.Language

/-- One digit or more. -/
structure Digits (ds : List Char) : Prop where
  nonempty : ds ≠ []
  isDigit : ∀ c ∈ ds, Number.isDigit c = true

/-- A number in decimal digits that can be read, with any zeros before it. -/
structure Decimal (n : Nat) (word : List Char) : Prop where
  digits : ∃ ds : List Nat, ds ≠ [] ∧ (∀ d ∈ ds, d < 10) ∧ word = ds.reverse.map Nat.digitChar ∧
    Nat.ofDigits 10 ds = n
  limit : word.length ≤ digitLimit

variable {n d : Nat} {c : Char} {word rest cs : List Char} {ds : List Nat}

theorem toNat_digitChar (h : d < 10) : (Nat.digitChar d).toNat - 48 = d := by
  interval_cases d <;> rfl

theorem isDigit_digitChar (h : d < 10) : Number.isDigit (Nat.digitChar d) = true := by
  interval_cases d <;> rfl

theorem ofDigits_map_digitChar (h : ∀ d ∈ ds, d < 10) :
    Number.ofDigits (ds.reverse.map Nat.digitChar) = Nat.ofDigits 10 ds := by
  induction ds with
  | nil => rfl
  | cons d ds ih =>
    have hlast := ih fun e he => h e (by simp [he])
    unfold Number.ofDigits at hlast ⊢
    rw [List.reverse_cons, List.map_append, List.foldl_append, hlast, Nat.ofDigits_cons]
    simp only [List.map_cons, List.map_nil, List.foldl_cons, List.foldl_nil,
      toNat_digitChar (h d (by simp))]
    exact Nat.add_comm _ _

theorem not_isDigit_of_isBlank (h : Text.isBlank c = true) : Number.isDigit c = false := by
  cases hdigit : Number.isDigit c with
  | false => rfl
  | true =>
    simp only [Number.isDigit, Bool.and_eq_true, decide_eq_true_eq, Char.le_def,
      UInt32.le_iff_toNat_le] at hdigit
    have hlow : 48 ≤ c.toNat := hdigit.1
    have hhigh : c.toNat ≤ 57 := hdigit.2
    simp only [Text.isBlank, Bool.or_eq_true, Bool.and_eq_true, decide_eq_true_eq, beq_iff_eq] at h
    omega

/-- Digits are counted up to what is none. -/
theorem countDigits_append (hword : ∀ c ∈ word, Number.isDigit c = true)
    (hrest : ∀ c ∈ rest.head?, Number.isDigit c = false) :
    countDigits (word ++ rest) = word.length := by
  rw [countDigits, List.takeWhile_append_of_pos hword]
  cases rest with
  | nil => simp
  | cons c rest => simp [hrest c (by simp)]

theorem countDigits_le (cs : List Char) : countDigits cs ≤ cs.length :=
  (List.takeWhile_prefix _).length_le

theorem take_countDigits (cs : List Char) :
    cs.take (countDigits cs) = cs.takeWhile Number.isDigit :=
  (List.prefix_iff_eq_take.mp (List.takeWhile_prefix _)).symm

theorem digits_take (h : countDigits cs ≠ 0) : Digits (cs.take (countDigits cs)) where
  nonempty := by
    rw [take_countDigits]
    exact fun hnil => h (by rw [countDigits, hnil, List.length_nil])
  isDigit := by
    rw [take_countDigits]
    intro c hc
    exact List.mem_takeWhile_imp hc

theorem not_isBlank_of_isDigit (h : Number.isDigit c = true) : Text.isBlank c = false := by
  by_contra hblank
  rw [Bool.not_eq_false] at hblank
  simp [not_isDigit_of_isBlank hblank] at h

namespace Digits

variable (h : Digits word)

include h

theorem exists_cons : ∃ d more, word = d :: more ∧ Number.isDigit d = true := by
  obtain ⟨d, more, rfl⟩ := List.exists_cons_of_ne_nil h.nonempty
  exact ⟨d, more, rfl, h.isDigit d (by simp)⟩

theorem not_mem (hc : Number.isDigit c = false) : c ∉ word := by
  intro hmem
  simp [h.isDigit c hmem] at hc

theorem any_isDigit : word.any Number.isDigit = true := by
  obtain ⟨d, more, rfl, hd⟩ := h.exists_cons
  simp [hd]

theorem solid : ∀ c ∈ word, Text.isBlank c = false :=
  fun c hc => not_isBlank_of_isDigit (h.isDigit c hc)

theorem filter_isDigit : word.filter Number.isDigit = word := List.filter_eq_self.mpr h.isDigit

theorem length_le_countDigits (hpre : word <+: cs) : word.length ≤ countDigits cs := by
  obtain ⟨rest, rfl⟩ := hpre
  rw [countDigits, List.takeWhile_append_of_pos h.isDigit, List.length_append]
  exact Nat.le_add_right _ _

theorem readInt_plain : readInt word = (readNat word).map fun n => (n : Int) := by
  obtain ⟨d, more, rfl, hd⟩ := h.exists_cons
  have hminus : d ≠ '-' := by
    rintro rfl
    cases hd
  simp [readInt, hminus]

end Digits

namespace Lexicon

variable {l : Lexicon}

/-- A digit that takes the next one with it is no mark. -/
theorem IsMark.not_isDigit (hpair : ∀ c, Number.isDigit c = true → l.wordLength [c, c] = 2)
    (h : l.IsMark c) : Number.isDigit c = false := by
  by_contra hdigit
  have htwo : l.wordLength [c, c] = 2 := hpair c (by simpa using hdigit)
  rw [h.alone [c]] at htwo
  cases htwo

theorem Bounds.not_isDigit (hpair : ∀ c, Number.isDigit c = true → l.wordLength [c, c] = 2)
    (h : l.Bounds rest) : ∀ c ∈ rest.head?, Number.isDigit c = false := by
  intro c hc
  rcases h c hc with hblank | hmark
  · exact not_isDigit_of_isBlank hblank
  · exact hmark.not_isDigit hpair

end Lexicon

namespace Decimal

theorem nonempty (h : Decimal n word) : word ≠ [] := by
  obtain ⟨ds, hds, -, rfl, -⟩ := h.digits
  simpa using hds

theorem isDigit (h : Decimal n word) : ∀ c ∈ word, Number.isDigit c = true := by
  obtain ⟨ds, -, hlt, rfl, -⟩ := h.digits
  intro c hc
  obtain ⟨d, hd, rfl⟩ := List.mem_map.mp hc
  exact isDigit_digitChar (hlt d (List.mem_reverse.mp hd))

theorem toDigits (h : Decimal n word) : Digits word := ⟨h.nonempty, h.isDigit⟩

theorem readNat (h : Decimal n word) : Language.readNat word = .ok n := by
  obtain ⟨ds, -, hlt, rfl, rfl⟩ := h.digits
  rw [Language.readNat, if_neg (Nat.not_lt.mpr h.limit), ofDigits_map_digitChar hlt]

theorem readInt (h : Decimal n word) : Language.readInt word = .ok n := by
  rw [h.toDigits.readInt_plain, h.readNat]
  rfl

theorem readInt_minus (h : Decimal n word) : Language.readInt ('-' :: word) = .ok (-n) := by
  rw [Language.readInt, h.readNat]
  rfl

end Decimal

end Slr.Language
