import Mathlib.Data.List.Induction
import Slr.Proofs.Rule.Bodies

/-! # What repetitions are unrolled into

A hidden rule has for each alternative of the sequence it repeats the alternatives that
take it up: to begin with, to go on with, or to stand alone. What it goes on with has the
hidden rule in front, so every alternative is repeated, whatever is in the sequence. -/

namespace Slr

/-! ## Alternatives of expressions -/

namespace Expr

variable {a b e : Expr} {es : List Expr} {found found' : List Alternative} {action : Action}

/-- Every alternative of one list followed by every alternative of another. -/
def product (xs ys : List Alternative) : List Alternative :=
  xs.flatMap fun x => ys.map fun y => ⟨x.parts ++ y.parts, none⟩

/-- None has an action yet. -/
def Bare (found : List Alternative) : Prop := ∀ a ∈ found, a.action = none

theorem ne_nil_of_alternatives (h : e.alternatives = .ok found) : found ≠ [] := by
  intro hnil
  rw [alternatives, collect_eq_ok_iff, hnil] at h
  exact flatten_ne_nil e h

theorem alternatives_either : (either a b).alternatives = .ok found ↔
    ∃ xs ys, a.alternatives = .ok xs ∧ b.alternatives = .ok ys ∧ found = xs ++ ys := by
  simp only [alternatives, collect_eq_ok_iff, flatten]
  constructor
  · intro h
    obtain ⟨xs, ys, rfl, hx, hy⟩ := List.map_eq_append_iff.mp h.symm
    exact ⟨xs, ys, hx.symm, hy.symm, rfl⟩
  · intro h
    obtain ⟨xs, ys, hx, hy, rfl⟩ := h
    rw [hx, hy, List.map_append]

theorem attach_eq_ok_iff {x y : Alternative} :
    attach action x = .ok y ↔ x.action = none ∧ y = ⟨x.parts, some action⟩ := by
  unfold attach
  cases x.action <;> simp [eq_comm]

theorem join_eq_ok_iff {x y z : Alternative} : join x y = .ok z ↔
    x.action = none ∧ y.action = none ∧ z = ⟨x.parts ++ y.parts, none⟩ := by
  unfold join
  cases x.action <;> cases y.action <;> simp [eq_comm]

/-- Something is made of each thing found, and nothing goes wrong. -/
theorem map_bind_eq_ok_iff {xs : List Found} {f : Alternative → Found} :
    xs.map (·.bind f) = found.map .ok ↔
      ∃ ys, xs = ys.map .ok ∧ List.Forall₂ (fun y z => f y = .ok z) ys found := by
  induction xs generalizing found with
  | nil =>
    cases found with
    | nil => simp
    | cons z found => simp
  | cons x xs ih =>
    cases found with
    | nil => simp
    | cons z found =>
      simp only [List.map_cons, List.cons.injEq, ih]
      constructor
      · intro h
        obtain ⟨hx, ys, rfl, hys⟩ := h
        cases x with
        | error err => cases hx
        | ok y => exact ⟨y :: ys, rfl, .cons hx hys⟩
      · intro h
        obtain ⟨ys, hxs, hys⟩ := h
        cases hys with
        | cons hy hys =>
          obtain ⟨rfl, rfl⟩ := List.cons.inj hxs
          exact ⟨hy, _, rfl, hys⟩

theorem forall₂_attach_iff : List.Forall₂ (fun y z => attach action y = .ok z) found found' ↔
    Bare found ∧ found' = found.map fun a => ⟨a.parts, some action⟩ := by
  induction found generalizing found' with
  | nil => simp [Bare]
  | cons a found ih =>
    cases found' with
    | nil => simp
    | cons a' found' =>
      rw [List.forall₂_cons, ih, attach_eq_ok_iff]
      simp only [Bare, List.forall_mem_cons, List.map_cons, List.cons.injEq]
      tauto

theorem forall₂_join_iff {x : Alternative} :
    List.Forall₂ (fun y z => join x y = .ok z) found found' ↔
      (found = [] ∨ x.action = none) ∧ Bare found ∧
        found' = found.map fun y => ⟨x.parts ++ y.parts, none⟩ := by
  induction found generalizing found' with
  | nil => simp [Bare]
  | cons a found ih =>
    cases found' with
    | nil => simp
    | cons a' found' =>
      rw [List.forall₂_cons, ih, join_eq_ok_iff]
      simp only [Bare, List.forall_mem_cons, List.map_cons, List.cons.injEq, reduceCtorEq, false_or]
      tauto

theorem alternatives_act : (act e action).alternatives = .ok found ↔
    ∃ xs, e.alternatives = .ok xs ∧ Bare xs ∧ found = xs.map fun a => ⟨a.parts, some action⟩ := by
  simp only [alternatives, collect_eq_ok_iff, flatten, map_bind_eq_ok_iff, forall₂_attach_iff]

/-- Behind each of the alternatives in front stand the same. -/
theorem flatMap_join_eq_ok_iff {xs : List Alternative} :
    (xs.flatMap fun x => b.flatten.map (·.bind (join x))) = found.map .ok ↔
      xs = [] ∧ found = [] ∨
        ∃ ys, b.alternatives = .ok ys ∧ Bare xs ∧ Bare ys ∧ found = product xs ys := by
  induction xs generalizing found with
  | nil =>
    simp only [List.flatMap_nil, List.nil_eq, List.map_eq_nil_iff, true_and, product, iff_self_or]
    rintro ⟨ys, -, -, -, rfl⟩
    rfl
  | cons x xs ih =>
    rw [List.flatMap_cons]
    constructor
    · intro h
      obtain ⟨first, rest, rfl, hfirst, hrest⟩ := List.map_eq_append_iff.mp h.symm
      obtain ⟨ys, hys, hjoin⟩ := map_bind_eq_ok_iff.mp hfirst.symm
      have halternatives : b.alternatives = .ok ys := collect_eq_ok_iff.mpr hys
      obtain ⟨hx, hbare, rfl⟩ := forall₂_join_iff.mp hjoin
      have hx := hx.resolve_left (ne_nil_of_alternatives halternatives)
      refine Or.inr ⟨ys, halternatives, ?_, hbare, ?_⟩
      · rcases ih.mp hrest.symm with ⟨rfl, -⟩ | ⟨-, -, hxs, -⟩
        · simp [Bare, hx]
        · exact List.forall_mem_cons.mpr ⟨hx, hxs⟩
      · rcases ih.mp hrest.symm with ⟨rfl, rfl⟩ | ⟨ys', hys', -, -, rfl⟩
        · simp [product]
        · cases halternatives.symm.trans hys'
          simp [product]
    · intro h
      obtain ⟨ys, halternatives, hbare, hys, rfl⟩ := h.resolve_left (by simp)
      obtain ⟨hx, hxs⟩ := List.forall_mem_cons.mp hbare
      have hrest : (xs.flatMap fun x => b.flatten.map (·.bind (join x))) = (product xs ys).map .ok :=
        ih.mpr (Or.inr ⟨ys, halternatives, hxs, hys, rfl⟩)
      have hfirst : b.flatten.map (·.bind (join x)) =
          (ys.map fun y => (⟨x.parts ++ y.parts, none⟩ : Alternative)).map .ok :=
        map_bind_eq_ok_iff.mpr ⟨ys, collect_eq_ok_iff.mp halternatives,
          forall₂_join_iff.mpr ⟨Or.inr hx, hys, rfl⟩⟩
      rw [hrest, hfirst, ← List.map_append]
      simp [product]

/-- What goes wrong in front goes wrong before anything is put behind it. -/
theorem flatten_both_eq_ok_iff : (both a b).flatten = found.map .ok ↔
    ∃ xs, a.alternatives = .ok xs ∧
      (xs.flatMap fun x => b.flatten.map (·.bind (join x))) = found.map .ok := by
  have hok (xs : List Alternative) (h : a.flatten = xs.map .ok) : (both a b).flatten =
      xs.flatMap fun x => b.flatten.map (·.bind (join x)) := by
    rw [flatten, h, List.flatMap_map]
  constructor
  · intro h
    cases hxs : a.alternatives with
    | ok xs => exact ⟨xs, rfl, (hok xs (collect_eq_ok_iff.mp hxs)).symm.trans h⟩
    | error err =>
      have hmem : .error err ∈ (both a b).flatten :=
        List.mem_flatMap.mpr ⟨_, error_of_collect hxs, by simp⟩
      simp [h] at hmem
  · intro h
    obtain ⟨xs, hxs, h⟩ := h
    exact (hok xs (collect_eq_ok_iff.mp hxs)).trans h

theorem alternatives_both : (both a b).alternatives = .ok found ↔
    ∃ xs ys, a.alternatives = .ok xs ∧ b.alternatives = .ok ys ∧ Bare xs ∧ Bare ys ∧
      found = product xs ys := by
  rw [alternatives, collect_eq_ok_iff, flatten_both_eq_ok_iff]
  simp only [flatMap_join_eq_ok_iff]
  constructor
  · intro h
    obtain ⟨xs, hxs, ⟨rfl, -⟩ | ⟨ys, hys, hbare, hbare', rfl⟩⟩ := h
    · exact absurd rfl (ne_nil_of_alternatives hxs)
    · exact ⟨xs, ys, hxs, hys, hbare, hbare', rfl⟩
  · intro h
    obtain ⟨xs, ys, hxs, hys, hbare, hbare', rfl⟩ := h
    exact ⟨xs, hxs, Or.inr ⟨ys, hys, hbare, hbare', rfl⟩⟩

/-- With a rule in front, a sequence has the alternatives it has without, and the rule in front of
each. -/
theorem alternatives_foldl_both (r : RuleRef)
    (h : (es.foldl both (both (rule r) e)).alternatives = .ok found) :
    ∃ ys, (es.foldl both e).alternatives = .ok ys ∧ Bare ys ∧
      found = ys.map fun y => ⟨.rule r :: y.parts, none⟩ := by
  -- sequences grow at their end
  induction es using List.reverseRecOn generalizing found with
  | nil =>
    obtain ⟨xs, ys, hxs, hys, -, hbare, rfl⟩ := alternatives_both.mp h
    cases hxs
    exact ⟨ys, hys, hbare, by simp [product]⟩
  | append_singleton es x ih =>
    rw [List.foldl_append, List.foldl_cons, List.foldl_nil] at h ⊢
    obtain ⟨xs, zs, hxs, hzs, -, hbare, rfl⟩ := alternatives_both.mp h
    obtain ⟨ys, hys, hbare', rfl⟩ := ih hxs
    refine ⟨_, alternatives_both.mpr ⟨ys, zs, hys, hzs, hbare', hbare, rfl⟩, ?_, ?_⟩
    · intro a ha
      obtain ⟨y, -, ha⟩ := List.mem_flatMap.mp ha
      obtain ⟨z, -, rfl⟩ := List.mem_map.mp ha
      rfl
    · simp [product, List.flatMap_map, List.map_flatMap, Function.comp_def]

end Expr

/-! ## Turns -/

/-- What an alternative of a hidden rule is there for. -/
inductive Turn where
  | absent
  | present
  | empty
  | first
  | more
  deriving DecidableEq

namespace Turn

def action : Turn → Action
  | absent => .constant .none
  | present => Workshop.item
  | empty => .list
  | first => Workshop.startList
  | more => Workshop.extendList

/-- Turns differ in what they make of nothing. -/
theorem action_injective : Function.Injective action := by
  intro turn turn' h
  have hnothing : turn.action.apply [] = turn'.action.apply [] := by rw [h]
  clear h
  cases turn <;> cases turn' <;> first | rfl | cases hnothing

end Turn

/-- The turns that are taken when words are repeated by something that stands in front when it
goes on. -/
def Repetition.turns {α : Type} (self : α) (words : List (List α)) : Repetition → List (Turn × List α)
  | .optional => words.map (.present, ·) ++ [(.absent, [])]
  | .oneOrMore => words.map (.first, ·) ++ words.map fun w => (.more, self :: w)
  | .zeroOrMore => (.empty, []) :: words.map fun w => (.more, self :: w)

theorem Repetition.turns_map {α β : Type} (f : α → β) (self : α) (words : List (List α))
    (repetition : Repetition) : repetition.turns (f self) (words.map (List.map f)) =
      (repetition.turns self words).map fun x => (x.1, x.2.map f) := by
  cases repetition <;> simp [turns, Function.comp_def]

namespace Workshop

/-- The alternatives of a sequence, which may be of nothing at all. -/
def sequenced : List Expr → Except GrammarError (List Alternative)
  | [] => .ok [⟨[], none⟩]
  | parts => (Expr.sequence parts).bind Expr.alternatives

variable {self : RuleRef} {rule : HiddenRule} {found : List Alternative} {parts : List Expr} {e : Expr}

theorem sequenced_of_act {action : Action} (he : Expr.sequence parts = .ok e)
    (h : (Expr.act e action).alternatives = .ok found) :
    ∃ ys, sequenced parts = .ok ys ∧ found = ys.map fun y => ⟨y.parts, some action⟩ := by
  obtain ⟨ys, hys, -, rfl⟩ := Expr.alternatives_act.mp h
  cases parts with
  | nil => cases he
  | cons e' es =>
    refine ⟨ys, ?_, rfl⟩
    rw [sequenced, he]
    · exact hys
    · simp

theorem sequenced_of_more {action : Action} (he : Expr.sequence (.rule self :: parts) = .ok e)
    (h : (Expr.act e action).alternatives = .ok found) :
    ∃ ys, sequenced parts = .ok ys ∧
      found = ys.map fun y => ⟨.rule self :: y.parts, some action⟩ := by
  obtain ⟨xs, hxs, -, rfl⟩ := Expr.alternatives_act.mp h
  cases he
  cases parts with
  | nil =>
    cases hxs
    exact ⟨_, rfl, rfl⟩
  | cons e' es =>
    obtain ⟨ys, hys, -, rfl⟩ := Expr.alternatives_foldl_both self hxs
    exact ⟨ys, hys, by simp⟩

/-- The alternatives of a hidden rule are its turns over the alternatives of its sequence. -/
theorem alternatives_expand (h : (expand self rule).bind Expr.alternatives = .ok found) :
    ∃ ys, sequenced rule.parts = .ok ys ∧
      found = (rule.repetition.turns (.rule self) (ys.map Alternative.parts)).map
        fun x => ⟨x.2, some x.1.action⟩ := by
  have hmore : Expr.sequence (.rule self :: rule.parts) =
      .ok (rule.parts.foldl .both (.rule self)) := rfl
  unfold expand at h
  cases hrepetition : rule.repetition with
  | zeroOrMore =>
    simp only [hrepetition, hmore, Except.map, Except.bind, bind, pure, Except.pure] at h
    obtain ⟨nothing, zs, hnothing, hzs, rfl⟩ := Expr.alternatives_either.mp h
    cases hnothing
    obtain ⟨ys, hys, rfl⟩ := sequenced_of_more hmore hzs
    exact ⟨ys, hys, by simp [Repetition.turns, Turn.action]⟩
  | optional =>
    cases hfirst : Expr.sequence rule.parts with
    | error err => simp [hrepetition, hfirst, Except.map, Except.bind] at h
    | ok first =>
      simp only [hrepetition, hfirst, Except.map, Except.bind] at h
      obtain ⟨xs, nothing, hxs, hnothing, rfl⟩ := Expr.alternatives_either.mp h
      cases hnothing
      obtain ⟨ys, hys, rfl⟩ := sequenced_of_act hfirst hxs
      exact ⟨ys, hys, by simp [Repetition.turns, Turn.action, Function.comp_def]⟩
  | oneOrMore =>
    cases hfirst : Expr.sequence rule.parts with
    | error err => simp [hrepetition, hfirst, Except.bind, bind] at h
    | ok first =>
      simp only [hrepetition, hfirst, hmore, Except.map, Except.bind, bind, pure, Except.pure] at h
      obtain ⟨xs, zs, hxs, hzs, rfl⟩ := Expr.alternatives_either.mp h
      obtain ⟨ys, hys, rfl⟩ := sequenced_of_act hfirst hxs
      obtain ⟨ys', hys', rfl⟩ := sequenced_of_more hmore hzs
      cases hys.symm.trans hys'
      exact ⟨ys, hys, by simp [Repetition.turns, Turn.action, Function.comp_def]⟩

end Workshop

end Slr
