import Mathlib.Algebra.Order.BigOperators.Group.List
import Mathlib.Algebra.Order.Ring.Nat
import Slr.Parser.Returns
import Slr.Proofs.Reachability

/-! # Rounds over the calls of a table

A call only appends to a set. So a round after which there are no more pairs than
before has left every set as it was, and then each state holds already what its
callees pass on (`Closed`). Whatever accounts for the reductions of a state and for
what is passed on accounts for all pairs (`Accounts`). If it also keeps them to the
places in productions, there are too few pairs for the rounds to run out. -/

namespace Slr.Returns

variable {t : Table} {sets larger : Sets} {q q' c rounds : Nat} {r : Pair}
  {P : Nat → Pair → Prop}

theorem mem_passedOn {pairs : List Pair} {name : String} {pops : Nat} :
    (name, pops) ∈ passedOn pairs ↔ (name, pops + 1) ∈ pairs := by
  unfold passedOn
  rw [List.mem_filterMap]
  constructor
  · intro h
    obtain ⟨⟨n, k⟩, hmem, h⟩ := h
    cases k with
    | zero => simp at h
    | succ k =>
      obtain ⟨rfl, rfl⟩ : n = name ∧ k = pops := by simpa using h
      exact hmem
  · intro h
    exact ⟨_, h, by simp⟩

theorem setOf_of_le (h : sets.length ≤ q) : setOf sets q = [] := by
  simp [setOf, List.getElem?_eq_none_iff.mpr h]

theorem setOf_set (hq : q < sets.length) {pairs : List Pair} :
    setOf (sets.set q pairs) q' = if q' = q then pairs else setOf sets q' := by
  by_cases h : q' = q
  · subst h
    simp [setOf, hq]
  · simp [setOf, h, List.getElem?_set_ne (Ne.symm h)]

/-! ## Sets that were appended to -/

/-- Each set begins as it did before. -/
def Longer (sets larger : Sets) : Prop := List.Forall₂ (· <+: ·) sets larger

theorem total_eq_sum (sets : Sets) : total sets = (sets.map List.length).sum :=
  List.sum_eq_foldl.symm

theorem total_cons {pairs : List Pair} : total (pairs :: sets) = pairs.length + total sets := by
  simp [total_eq_sum]

namespace Longer

theorem refl (sets : Sets) : Longer sets sets :=
  List.forall₂_same.mpr fun pairs _ => List.prefix_refl pairs

theorem trans {largest : Sets} (h : Longer sets larger) (h' : Longer larger largest) :
    Longer sets largest := by
  induction h generalizing largest with
  | nil => exact h'
  | cons hfirst _ ih =>
    cases h' with
    | cons hfirst' hrest' => exact .cons (hfirst.trans hfirst') (ih hrest')

theorem total_le (h : Longer sets larger) : total sets ≤ total larger := by
  induction h with
  | nil => exact Nat.le_refl _
  | cons hfirst _ ih =>
    have hlength := hfirst.length_le
    rw [total_cons, total_cons]
    omega

theorem eq_of_total_le (h : Longer sets larger) (hle : total larger ≤ total sets) :
    larger = sets := by
  induction h with
  | nil => rfl
  | cons hfirst hrest ih =>
    have hlength := hfirst.length_le
    have htotal := total_le hrest
    rw [total_cons, total_cons] at hle
    rw [hfirst.eq_of_length (by omega), ih (by omega)]

theorem set (sets : Sets) (q : Nat) (new : List Pair) :
    Longer sets (sets.set q (setOf sets q ++ new)) := by
  induction sets generalizing q with
  | nil => exact .nil
  | cons pairs sets ih =>
    cases q with
    | zero => exact .cons (List.prefix_append pairs new) (Longer.refl sets)
    | succ q => exact .cons (List.prefix_refl pairs) (by simpa [setOf, Longer] using ih q)

end Longer

/-! ## One call -/

/-- A call appends what the callee passes on and the state did not hold; from itself a state takes
nothing. -/
theorem absorb_spec (sets : Sets) (q c : Nat) : ∃ new : List Pair, new.Nodup ∧
    (∀ r, r ∈ new ↔ r ∈ passedOn (setOf sets c) ∧ r ∉ setOf sets q) ∧
    ∀ larger, absorb sets q c = some larger ↔
      (q = c → new = []) ∧ sets.set q (setOf sets q ++ new) = larger := by
  refine ⟨((passedOn (setOf sets c)).filter (· ∉ setOf sets q)).eraseDups,
    Reachability.eraseDups_nodup _, fun r => ?_, fun larger => ?_⟩
  · rw [List.mem_eraseDups, List.mem_filter, decide_eq_true_iff]
  · simp only [absorb, Option.ite_none_left_eq_some, Option.some.injEq, not_and, ne_eq, not_not]

theorem absorb_longer (h : absorb sets q c = some larger) : Longer sets larger := by
  obtain ⟨new, -, -, hnew⟩ := absorb_spec sets q c
  obtain ⟨-, rfl⟩ := (hnew larger).mp h
  exact .set sets q new

theorem mem_absorb (hq : q < sets.length) (h : absorb sets q c = some larger) :
    r ∈ setOf larger q' ↔ r ∈ setOf sets q' ∨ q' = q ∧ r ∈ passedOn (setOf sets c) := by
  obtain ⟨new, -, hmem, hnew⟩ := absorb_spec sets q c
  obtain ⟨-, rfl⟩ := (hnew larger).mp h
  rw [setOf_set hq]
  by_cases hq' : q' = q
  · subst hq'
    by_cases hr : r ∈ setOf sets q' <;> simp [hmem, hr]
  · simp [hq']

theorem absorb_nodup (hq : q < sets.length) (h : absorb sets q c = some larger)
    (hnodup : (setOf sets q').Nodup) : (setOf larger q').Nodup := by
  obtain ⟨new, hdistinct, hmem, hnew⟩ := absorb_spec sets q c
  obtain ⟨-, rfl⟩ := (hnew larger).mp h
  rw [setOf_set hq]
  split
  · next hq' =>
    subst hq'
    refine List.nodup_append.mpr ⟨hnodup, hdistinct, ?_⟩
    intro r hr r' hr' heq
    subst heq
    exact ((hmem r).mp hr').2 hr
  · exact hnodup

/-- A state passes to itself only what it holds. -/
theorem absorb_self (h : absorb sets q q = some larger) (hr : r ∈ passedOn (setOf sets q)) :
    r ∈ setOf sets q := by
  obtain ⟨new, -, hmem, hnew⟩ := absorb_spec sets q q
  have hnil : new = [] := ((hnew larger).mp h).1 rfl
  by_contra hgained
  simpa [hnil] using (hmem r).mpr ⟨hr, hgained⟩

theorem exists_absorb (h : q = c → ∀ r ∈ passedOn (setOf sets q), r ∈ setOf sets q) :
    ∃ larger, absorb sets q c = some larger := by
  obtain ⟨new, -, hmem, hnew⟩ := absorb_spec sets q c
  refine ⟨_, (hnew _).mpr ⟨?_, rfl⟩⟩
  rintro rfl
  refine List.eq_nil_iff_forall_not_mem.mpr fun r hr => ?_
  exact ((hmem r).mp hr).2 (h rfl r ((hmem r).mp hr).1)

/-! ## A round -/

theorem mem_calls : (q, c) ∈ calls t ↔ q < t.size ∧ c ∈ callees t q := by
  simp [calls]

section

variable {α β : Type} {f : β → α → Option β} {l : List α} {b b' : β}

/-- What every step keeps, a sequence of steps keeps. -/
theorem foldlM_keeps {P : β → Prop} (hstep : ∀ a ∈ l, ∀ b b', P b → f b a = some b' → P b')
    (hb : P b) (h : l.foldlM f b = some b') : P b' := by
  induction l generalizing b with
  | nil =>
    obtain rfl : b = b' := by simpa using h
    exact hb
  | cons a l ih =>
    rw [List.foldlM_cons, Option.bind_eq_bind, Option.bind_eq_some_iff] at h
    obtain ⟨b₁, hfirst, hrest⟩ := h
    exact ih (fun a ha => hstep a (by simp [ha])) (hstep a (by simp) b b₁ hb hfirst) hrest

theorem exists_foldlM {P : β → Prop} (hstep : ∀ a ∈ l, ∀ b, P b → ∃ b', f b a = some b' ∧ P b')
    (hb : P b) : ∃ b', l.foldlM f b = some b' := by
  induction l generalizing b with
  | nil => exact ⟨b, rfl⟩
  | cons a l ih =>
    obtain ⟨b₁, hfirst, hb₁⟩ := hstep a (by simp) b hb
    obtain ⟨b', hrest⟩ := ih (fun a ha => hstep a (by simp [ha])) hb₁
    exact ⟨b', by simp [List.foldlM_cons, hfirst, hrest]⟩

end

/-- Where calls together change nothing, none of them does. -/
theorem absorb_of_foldlM {l : List (Nat × Nat)}
    (h : l.foldlM (fun sets call => absorb sets call.1 call.2) sets = some sets) :
    ∀ call ∈ l, absorb sets call.1 call.2 = some sets := by
  induction l with
  | nil => simp
  | cons call l ih =>
    rw [List.foldlM_cons, Option.bind_eq_bind, Option.bind_eq_some_iff] at h
    obtain ⟨next, hfirst, hrest⟩ := h
    have hback : Longer next sets := foldlM_keeps (P := Longer next)
      (fun _ _ _ _ hlonger habsorb => hlonger.trans (absorb_longer habsorb)) (.refl next) hrest
    obtain rfl : next = sets := (absorb_longer hfirst).eq_of_total_le hback.total_le
    exact List.forall_mem_cons.mpr ⟨hfirst, ih hrest⟩

theorem round_longer (h : round t sets = some larger) : Longer sets larger :=
  foldlM_keeps (P := Longer sets)
    (fun _ _ _ _ hlonger habsorb => hlonger.trans (absorb_longer habsorb)) (.refl sets) h

/-! ## What a state holds -/

/-- The places in productions before which a reduction may come back. -/
def places (t : Table) : List Pair :=
  t.productions.flatMap fun p => (List.range p.size).map (p.lhs, ·)

/-- A property of the pairs of states that their own reductions have and that calls of other
states keep. -/
structure Accounts (t : Table) (P : Nat → Pair → Prop) : Prop where
  own : ∀ q, ∀ r ∈ own t q, P q r
  passed : ∀ q c name pops, (q, c) ∈ calls t → q ≠ c → P c (name, pops + 1) → P q (name, pops)
  within : ∀ q r, P q r → r ∈ places t

/-- The sets on their way: every state holds its own reductions, and no pair that is not
accounted for. -/
structure Known (t : Table) (P : Nat → Pair → Prop) (sets : Sets) : Prop where
  length : sets.length = t.size
  nodup : ∀ q, (setOf sets q).Nodup
  own : ∀ q, ∀ r ∈ own t q, r ∈ setOf sets q
  holds : ∀ q, ∀ r ∈ setOf sets q, P q r

/-- Each state holds what its callees pass on. -/
def Closed (t : Table) (sets : Sets) : Prop :=
  ∀ q c, (q, c) ∈ calls t → ∀ r ∈ passedOn (setOf sets c), r ∈ setOf sets q

theorem length_places (t : Table) :
    (places t).length = (t.productions.map fun p => p.size).foldl (· + ·) 0 := by
  rw [← List.sum_eq_foldl]
  simp [places, List.length_flatMap]

theorem own_eq_nil (hq : t.size ≤ q) : own t q = [] := by
  have hnone : t.actions[q]? = none := List.getElem?_eq_none_iff.mpr hq
  simp [own, Table.row, hnone]

theorem setOf_own (t : Table) (q : Nat) :
    setOf ((List.range t.size).map (own t)) q = own t q := by
  by_cases hq : q < t.size
  · simp [setOf, hq]
  · simp [setOf_of_le, own_eq_nil, Nat.le_of_not_lt hq]

section

variable (ha : Accounts t P)

include ha

theorem known_own : Known t P ((List.range t.size).map (own t)) where
  length := by simp
  nodup := fun q => by
    rw [setOf_own]
    exact Reachability.eraseDups_nodup _
  own := fun q r hr => by rwa [setOf_own]
  holds := fun q r hr => ha.own q r (by rwa [setOf_own] at hr)

theorem Known.absorb (hk : Known t P sets) (hcall : (q, c) ∈ calls t)
    (h : absorb sets q c = some larger) : Known t P larger := by
  have hq : q < sets.length := by
    rw [hk.length]
    exact (mem_calls.mp hcall).1
  refine ⟨(absorb_longer h).length_eq.symm.trans hk.length,
    fun q' => absorb_nodup hq h (hk.nodup q'),
    fun q' r hr => (mem_absorb hq h).mpr (Or.inl (hk.own q' r hr)), ?_⟩
  intro q' r hr
  rcases (mem_absorb hq h).mp hr with hr | ⟨rfl, hr⟩
  · exact hk.holds q' r hr
  · by_cases hself : q' = c
    · subst hself
      exact hk.holds q' r (absorb_self h hr)
    · exact ha.passed q' c r.1 r.2 hcall hself (hk.holds c _ (mem_passedOn.mp hr))

theorem Known.round (hk : Known t P sets) (h : round t sets = some larger) : Known t P larger :=
  foldlM_keeps (fun _ hcall _ _ hk habsorb => Known.absorb ha hk hcall habsorb) hk h

theorem Known.total_le (hk : Known t P sets) : total sets ≤ pairBound t := by
  have heach : ∀ n ∈ sets.map List.length, n ≤ (places t).length := by
    intro n hn
    obtain ⟨pairs, hpairs, rfl⟩ := List.mem_map.mp hn
    obtain ⟨q, hq⟩ := List.mem_iff_getElem?.mp hpairs
    obtain rfl : setOf sets q = pairs := by simp [setOf, hq]
    have hsub : setOf sets q ⊆ places t := fun r hr => ha.within q r (hk.holds q r hr)
    exact (List.subperm_of_subset (hk.nodup q) hsub).length_le
  have hsum := List.sum_le_card_nsmul _ _ heach
  rw [List.length_map, hk.length, nsmul_eq_mul, Nat.cast_id, length_places] at hsum
  rwa [total_eq_sum]

end

/-! ## The rounds end -/

/-- A round that leaves the sets as they are has found in each what it would have added. -/
theorem closed_of_round (hlength : sets.length = t.size) (h : round t sets = some sets) :
    Closed t sets := by
  intro q c hcall r hr
  have hq : q < sets.length := hlength ▸ (mem_calls.mp hcall).1
  exact (mem_absorb hq (absorb_of_foldlM h (q, c) hcall)).mpr (Or.inr ⟨rfl, hr⟩)

theorem grow_spec (ha : Accounts t P) (hk : Known t P sets) (h : grow t rounds sets = some larger)
    (hrounds : pairBound t < rounds + total sets) : Known t P larger ∧ Closed t larger := by
  induction rounds generalizing sets with
  | zero =>
    have hle := hk.total_le ha
    omega
  | succ rounds ih =>
    rw [grow] at h
    cases hround : round t sets with
    | none => simp [hround] at h
    | some next =>
      have hlonger := round_longer hround
      simp only [hround] at h
      by_cases hsame : total next = total sets
      · obtain rfl : next = sets := hlonger.eq_of_total_le (Nat.le_of_eq hsame)
        rw [if_pos hsame, Option.some.injEq] at h
        exact h ▸ ⟨hk, closed_of_round hk.length hround⟩
      · rw [if_neg hsame] at h
        have hle := hlonger.total_le
        exact ih (hk.round ha hround) h (by omega)

/-- The sets hold the reductions of the states and what is passed on, and nothing that is not
accounted for. -/
theorem sets?_spec (ha : Accounts t P) (h : sets? t = some sets) :
    Known t P sets ∧ Closed t sets :=
  grow_spec ha (known_own ha) h (by omega)

section

variable (ha : Accounts t P) (hself : ∀ q name pops, (q, q) ∈ calls t → P q (name, pops + 1) →
  (name, pops) ∈ own t q)

include ha hself

theorem exists_round (hk : Known t P sets) : ∃ larger, round t sets = some larger := by
  refine exists_foldlM (P := Known t P) ?_ hk
  intro call hcall sets hk
  obtain ⟨q, c⟩ := call
  obtain ⟨larger, habsorb⟩ : ∃ larger, absorb sets q c = some larger := by
    refine exists_absorb ?_
    rintro rfl r hr
    exact hk.own q _ (hself q r.1 r.2 hcall (hk.holds q _ (mem_passedOn.mp hr)))
  exact ⟨larger, habsorb, hk.absorb ha hcall habsorb⟩

theorem exists_grow (hk : Known t P sets) (rounds : Nat) :
    ∃ larger, grow t rounds sets = some larger := by
  induction rounds generalizing sets with
  | zero => exact ⟨sets, rfl⟩
  | succ rounds ih =>
    obtain ⟨next, hnext⟩ := exists_round ha hself hk
    simp only [grow, hnext]
    split
    · exact ⟨next, rfl⟩
    · exact ih (hk.round ha hnext)

/-- The sets are defined if what a state could pass to itself it reduces itself. -/
theorem exists_sets : ∃ sets, sets? t = some sets :=
  exists_grow ha hself (known_own ha) _

end

end Slr.Returns
