import Mathlib.Data.List.Nodup
import Mathlib.Data.List.Perm.Subperm
import Slr.Proofs.Rule.Bodies

/-! # The rules of a family, and their names

Whatever is made of a family, a rule in it is a written one or a hidden one with a number
below that of the repetitions where it is made, so there are finitely many. A hidden rule
takes its name from where it is made and its number. The number can be read off behind
the last underscore, so hidden rules have names of their own if the written rules have,
and if no written rule's name begins as a hidden one's does. -/

namespace Slr

/-- A rule that can be in a family, with its name. -/
inductive RuleFamily.Has (f : RuleFamily) : RuleRef → Prop where
  | written {i : Nat} {rule : WrittenRule} (h : f.rules[i]? = some rule) : f.Has ⟨.written i, rule.name⟩
  | hidden {i : Nat} {rule : WrittenRule} (h : f.rules[i]? = some rule) {n : Nat}
    (hn : n < rule.form.repetitions) :
    f.Has ⟨.hidden (some i) n, Workshop.hiddenName rule.name n⟩
  | shared {n : Nat} (hn : n < Form.repetitionsOf f.shared) :
    f.Has ⟨.hidden none n, Workshop.hiddenName "__global" n⟩

variable {f : RuleFamily} {r s : RuleRef}

/-! ## There are finitely many -/

namespace RuleFamily

theorem Has.eq_of_id (hr : f.Has r) (hs : f.Has s) (hid : r.id = s.id) : r = s := by
  cases hr with
  | written hi =>
    cases hs with
    | written hj =>
      obtain rfl := RuleId.written.inj hid
      cases hi.symm.trans hj
      rfl
    | hidden => cases hid
    | shared => cases hid
  | hidden hi =>
    cases hs with
    | written => cases hid
    | hidden hj =>
      obtain ⟨howner, rfl⟩ := RuleId.hidden.inj hid
      obtain rfl := Option.some.inj howner
      cases hi.symm.trans hj
      rfl
    | shared => cases hid
  | shared =>
    cases hs with
    | written => cases hid
    | hidden => cases hid
    | shared =>
      obtain ⟨-, rfl⟩ := RuleId.hidden.inj hid
      rfl

/-- Where the rules of a family come from. -/
def ids (f : RuleFamily) : List RuleId :=
  (List.range f.rules.length).map .written ++
    f.rules.zipIdx.flatMap (fun x => (List.range x.1.form.repetitions).map (.hidden (some x.2))) ++
    (List.range (Form.repetitionsOf f.shared)).map (.hidden none)

theorem Has.id_mem (h : f.Has r) : r.id ∈ f.ids := by
  unfold ids
  cases h with
  | written hi =>
    obtain ⟨hlt, -⟩ := List.getElem?_eq_some_iff.mp hi
    simp [hlt]
  | @hidden i rule hi n hn =>
    refine List.mem_append_left _ (List.mem_append_right _ ?_)
    refine List.mem_flatMap.mpr ⟨(rule, i), List.mem_zipIdx_iff_getElem?.mpr hi, ?_⟩
    simp [hn]
  | shared hn => simp [hn]

theorem length_ids (f : RuleFamily) : f.ids.length = f.size := by
  have hforms : (f.rules.zipIdx.map fun x => x.1.form.repetitions) =
      (f.rules.map WrittenRule.form).map Form.repetitions := by
    rw [List.map_map]
    conv => rhs; rw [← List.zipIdx_map_fst 0 f.rules]
    rw [List.map_map]
    rfl
  simp only [ids, size, List.length_append, List.length_map, List.length_range, List.length_flatMap,
    hforms, Workshop.repetitionsOf_eq]

/-- As many different rules as can be in a family. -/
theorem length_le_size {rules : List RuleRef} (hnodup : rules.Nodup) (h : ∀ r ∈ rules, f.Has r) :
    rules.length ≤ f.size := by
  have hids : (rules.map RuleRef.id).Nodup :=
    List.Nodup.map_on (fun r hr s hs hid => (h r hr).eq_of_id (h s hs) hid) hnodup
  have hsubset : rules.map RuleRef.id ⊆ f.ids := by
    intro id hid
    obtain ⟨r, hr, rfl⟩ := List.mem_map.mp hid
    exact (h r hr).id_mem
  have hle := (List.subperm_of_subset hids hsubset).length_le
  rwa [List.length_map, length_ids] at hle

end RuleFamily

/-- What is known in the course of gathering is a rule of the family. -/
theorem Workshop.Since.has {w₀ w : Workshop} (h : Since w₀ w) (hbase : w₀.Base) (hr : w.Knows r) :
    w₀.family.Has r := by
  obtain ⟨id, name⟩ := r
  cases hr with
  | written i hi heq =>
    rw [h.family] at hi
    have hrule := List.getElem?_eq_getElem hi
    have hname : w.nameOf (.written i) = w₀.family.rules[i].name := by simp [nameOf, h.family, hrule]
    obtain ⟨rfl, rfl⟩ := RuleRef.mk.inj heq
    exact hname ▸ .written hrule
  | hidden rule hmem hname =>
    obtain rfl : rule.name = name := hname
    have hrule := h.hidden id rule hmem
    cases id with
    | written i =>
      obtain ⟨n, -, hid, -⟩ := hbase.hidden _ _ (Association.mem_of_lookup hrule)
      cases hid
    | hidden owner serial =>
      cases owner with
      | none =>
        obtain ⟨n, hn, hid, hname⟩ := hbase.hidden _ _ (Association.mem_of_lookup hrule)
        obtain ⟨-, rfl⟩ := RuleId.hidden.inj hid
        exact hname ▸ .shared hn
      | some i =>
        cases hi : w₀.family.rules[i]? with
        | none =>
          have hsame : (w₀.knowing (.hidden (some i) serial)).hidden = w₀.hidden := by
            rw [knowing, body_eq (by simp [hbase.bodies]), hidden_keep]
            simp [makeRule, hi]
          rw [hsame] at hrule
          obtain ⟨n, -, hid, -⟩ := hbase.hidden _ _ (Association.mem_of_lookup hrule)
          cases hid
        | some written =>
          obtain ⟨result, new, hmakes, hnew, hbody⟩ := hbase.opens hi
          rw [hbase.lookup_knowing hbody] at hrule
          obtain ⟨⟨k, hk, hid, hname⟩, -⟩ := hmakes.series.mem (Association.mem_of_lookup hrule)
          obtain ⟨-, rfl⟩ := RuleId.hidden.inj hid
          have hdefinition : (w₀.opened i).definition = written.name := by
            simp [definition, opened, nameOf, hi]
          have hserial : (w₀.opened i).next + k = k := Nat.zero_add k
          rw [hname, hdefinition, hserial]
          exact .hidden hi (Nat.lt_of_lt_of_le hk hnew)

/-! ## Names -/

/-- What stands behind the last `x`, and before it. -/
theorem append_cons_inj {α : Type} {x : α} {a a' b b' : List α} (hb : x ∉ b) (hb' : x ∉ b')
    (h : a ++ x :: b = a' ++ x :: b') : a = a' ∧ b = b' := by
  rcases List.append_eq_append_iff.mp h with ⟨c, rfl, hc⟩ | ⟨c, rfl, hc⟩
  · cases c with
    | nil => exact ⟨(List.append_nil a).symm, (List.cons.inj hc).2⟩
    | cons y d =>
      obtain ⟨rfl, rfl⟩ := List.cons.inj hc
      exact absurd (List.mem_append_right _ List.mem_cons_self) hb
  · cases c with
    | nil => exact ⟨List.append_nil a', (List.cons.inj hc).2.symm⟩
    | cons y d =>
      obtain ⟨rfl, rfl⟩ := List.cons.inj hc
      exact absurd (List.mem_append_right _ List.mem_cons_self) hb'

/-- A name that is for hidden rules and the like. -/
def Hides (name : String) : Prop := "__".toList <+: name.toList

namespace Workshop

theorem underscore_notMem (n : Nat) : '_' ∉ (toString n).toList := by
  intro hmem
  rw [Nat.toString_eq_ofList_toDigits, String.toList_ofList] at hmem
  have hdigit := Nat.isDigit_of_mem_toDigits (by decide) (Nat.le_refl 10) hmem
  exact absurd hdigit (by decide)

theorem hiddenName_inj {d d' : String} {n n' : Nat} (h : hiddenName d n = hiddenName d' n') :
    d = d' ∧ n = n' := by
  have hlist := congrArg String.toList h
  simp only [hiddenName, String.toList_append, List.append_assoc] at hlist
  obtain ⟨hd, hn⟩ := append_cons_inj (underscore_notMem n) (underscore_notMem n')
    (List.append_cancel_left hlist)
  refine ⟨String.toList_inj.mp hd, ?_⟩
  have hnumber := congrArg (fun digits => Nat.ofDigitChars 10 digits 0) hn
  simpa [Nat.toString_eq_ofList_toDigits] using hnumber

theorem hides_hiddenName (d : String) (n : Nat) : Hides (hiddenName d n) := by
  simp [Hides, hiddenName]

end Workshop

/-- With names of their own that are not hidden, the written rules leave every rule of the family
a name of its own. -/
theorem RuleFamily.Has.eq_of_name (hnodup : (f.rules.map WrittenRule.name).Nodup)
    (hfree : ∀ rule ∈ f.rules, ¬ Hides rule.name) (hr : f.Has r) (hs : f.Has s)
    (hname : r.name = s.name) : r = s := by
  have hindex {i j : Nat} {rule rule' : WrittenRule} (hi : f.rules[i]? = some rule)
      (hj : f.rules[j]? = some rule') (h : rule.name = rule'.name) : i = j ∧ rule = rule' := by
    obtain ⟨hlt, -⟩ := List.getElem?_eq_some_iff.mp hi
    have hsame : (f.rules.map WrittenRule.name)[i]? = (f.rules.map WrittenRule.name)[j]? := by
      simp [hi, hj, h]
    obtain rfl := (List.getElem?_inj (by simpa using hlt) hnodup).mp hsame
    exact ⟨rfl, Option.some.inj (hi.symm.trans hj)⟩
  have hwritten {i : Nat} {rule : WrittenRule} (hi : f.rules[i]? = some rule) (d : String) (n : Nat) :
      rule.name ≠ Workshop.hiddenName d n := by
    intro h
    exact hfree rule (List.mem_of_getElem? hi) (h ▸ Workshop.hides_hiddenName d n)
  have hglobal {i : Nat} {rule : WrittenRule} (hi : f.rules[i]? = some rule) :
      rule.name ≠ "__global" := by
    intro h
    exact hfree rule (List.mem_of_getElem? hi) (h ▸ by simp [Hides])
  cases hr with
  | written hi =>
    cases hs with
    | written hj =>
      obtain ⟨rfl, rfl⟩ := hindex hi hj hname
      rfl
    | hidden => exact absurd hname (hwritten hi _ _)
    | shared => exact absurd hname (hwritten hi _ _)
  | hidden hi =>
    cases hs with
    | written hj => exact absurd hname.symm (hwritten hj _ _)
    | hidden hj =>
      obtain ⟨hdefinition, rfl⟩ := Workshop.hiddenName_inj hname
      obtain ⟨rfl, rfl⟩ := hindex hi hj hdefinition
      rfl
    | shared => exact absurd (Workshop.hiddenName_inj hname).1 (hglobal hi)
  | shared =>
    cases hs with
    | written hj => exact absurd hname.symm (hwritten hj _ _)
    | hidden hj => exact absurd (Workshop.hiddenName_inj hname).1.symm (hglobal hj)
    | shared =>
      obtain ⟨-, rfl⟩ := Workshop.hiddenName_inj hname
      rfl

end Slr
