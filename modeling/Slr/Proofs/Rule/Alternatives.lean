import Slr.Proofs.Rule.Making

/-! # The alternatives that an expression stands for

A choice stands for the alternatives of its left side and then those of its right side, a
sequence for every pair of them, the left one changing slowest, and an action goes to each
alternative of what it applies to. Flattening finds just these, unless an action applies to
a part of a sequence or to what has an action; then it comes upon an error. However a chain
is grouped, the same alternatives are found, and if there is an error, as many before it. -/

namespace Slr.Expr

/-- Whether an expression stands somewhere in another; what a rule is defined as does not. -/
inductive Within (x : Expr) : Expr → Prop
  | here : Within x x
  | eitherLeft {a b : Expr} (h : Within x a) : Within x (.either a b)
  | eitherRight {a b : Expr} (h : Within x b) : Within x (.either a b)
  | bothLeft {a b : Expr} (h : Within x a) : Within x (.both a b)
  | bothRight {a b : Expr} (h : Within x b) : Within x (.both a b)
  | act {e : Expr} {action : Action} (h : Within x e) : Within x (.act e action)

/-- An action stands somewhere. -/
def Acts (e : Expr) : Prop := ∃ x action, Within (.act x action) e

/-- An action applies to a part of a sequence, or to something that an action stands in. -/
def Misplaces (e : Expr) : Prop :=
  (∃ a b, Within (.both a b) e ∧ (a.Acts ∨ b.Acts)) ∨ ∃ x action, Within (.act x action) e ∧ x.Acts

/-- The alternatives that an expression stands for, wherever its actions are. -/
def denoted : Expr → List Alternative
  | nothing => [⟨[], none⟩]
  | terminal name => [⟨[.terminal name], none⟩]
  | rule r => [⟨[.rule r], none⟩]
  | either a b => a.denoted ++ b.denoted
  | both a b => a.denoted.flatMap fun x => b.denoted.map fun y => ⟨x.parts ++ y.parts, none⟩
  | act e action => e.denoted.map fun x => ⟨x.parts, some action⟩

/-- Chains of choices, and of sequences, are put together in another order somewhere. -/
inductive Regrouped : Expr → Expr → Prop
  | refl (e : Expr) : Regrouped e e
  | symm {e e' : Expr} (h : Regrouped e e') : Regrouped e' e
  | trans {e e' e'' : Expr} (h : Regrouped e e') (h' : Regrouped e' e'') : Regrouped e e''
  | choice (a b c : Expr) : Regrouped (.either (.either a b) c) (.either a (.either b c))
  | sequence (a b c : Expr) : Regrouped (.both (.both a b) c) (.both a (.both b c))
  | either {a a' b b' : Expr} (ha : Regrouped a a') (hb : Regrouped b b') :
      Regrouped (.either a b) (.either a' b')
  | both {a a' b b' : Expr} (ha : Regrouped a a') (hb : Regrouped b b') :
      Regrouped (.both a b) (.both a' b')
  | act {e e' : Expr} (h : Regrouped e e') (action : Action) :
      Regrouped (.act e action) (.act e' action)

/-- What a reader gets of things found: the alternatives before the first error, and whether
there is one. -/
def reading : List Found → List Alternative × Bool
  | [] => ([], false)
  | .error _ :: _ => ([], true)
  | .ok a :: rest => (a :: (reading rest).1, (reading rest).2)

variable {e e' a b c x : Expr} {action : Action} {alternative : Alternative}
  {found found' : List Found} {error : GrammarError}

/-! ## Where actions stand -/

theorem not_acts_nothing : ¬ Acts .nothing := by
  intro h
  obtain ⟨x, action, h⟩ := h
  cases h

theorem not_acts_terminal (name : String) : ¬ Acts (.terminal name) := by
  intro h
  obtain ⟨x, action, h⟩ := h
  cases h

theorem not_acts_rule (r : RuleRef) : ¬ Acts (.rule r) := by
  intro h
  obtain ⟨x, action, h⟩ := h
  cases h

theorem acts_either_iff : Acts (.either a b) ↔ a.Acts ∨ b.Acts := by
  constructor
  · intro h
    obtain ⟨x, action, h⟩ := h
    cases h with
    | eitherLeft h => exact Or.inl ⟨x, action, h⟩
    | eitherRight h => exact Or.inr ⟨x, action, h⟩
  · rintro (⟨x, action, h⟩ | ⟨x, action, h⟩)
    · exact ⟨x, action, .eitherLeft h⟩
    · exact ⟨x, action, .eitherRight h⟩

theorem acts_both_iff : Acts (.both a b) ↔ a.Acts ∨ b.Acts := by
  constructor
  · intro h
    obtain ⟨x, action, h⟩ := h
    cases h with
    | bothLeft h => exact Or.inl ⟨x, action, h⟩
    | bothRight h => exact Or.inr ⟨x, action, h⟩
  · rintro (⟨x, action, h⟩ | ⟨x, action, h⟩)
    · exact ⟨x, action, .bothLeft h⟩
    · exact ⟨x, action, .bothRight h⟩

theorem acts_act (e : Expr) (action : Action) : Acts (.act e action) := ⟨e, action, .here⟩

theorem Misplaces.acts (h : e.Misplaces) : e.Acts := by
  have hmono {x e : Expr} (h : Within x e) (hx : x.Acts) : e.Acts := by
    induction h with
    | here => exact hx
    | eitherLeft _ ih => exact acts_either_iff.mpr (Or.inl ih)
    | eitherRight _ ih => exact acts_either_iff.mpr (Or.inr ih)
    | bothLeft _ ih => exact acts_both_iff.mpr (Or.inl ih)
    | bothRight _ ih => exact acts_both_iff.mpr (Or.inr ih)
    | act => exact acts_act _ _
  rcases h with ⟨a, b, h, hacts⟩ | ⟨x, action, h, -⟩
  · exact hmono h (acts_both_iff.mpr hacts)
  · exact hmono h (acts_act x action)

theorem misplaces_either_iff : Misplaces (.either a b) ↔ a.Misplaces ∨ b.Misplaces := by
  constructor
  · rintro (⟨x, y, h, hacts⟩ | ⟨x, action, h, hacts⟩)
    · cases h with
      | eitherLeft h => exact Or.inl (Or.inl ⟨x, y, h, hacts⟩)
      | eitherRight h => exact Or.inr (Or.inl ⟨x, y, h, hacts⟩)
    · cases h with
      | eitherLeft h => exact Or.inl (Or.inr ⟨x, action, h, hacts⟩)
      | eitherRight h => exact Or.inr (Or.inr ⟨x, action, h, hacts⟩)
  · rintro ((⟨x, y, h, hacts⟩ | ⟨x, action, h, hacts⟩) | (⟨x, y, h, hacts⟩ | ⟨x, action, h, hacts⟩))
    · exact Or.inl ⟨x, y, .eitherLeft h, hacts⟩
    · exact Or.inr ⟨x, action, .eitherLeft h, hacts⟩
    · exact Or.inl ⟨x, y, .eitherRight h, hacts⟩
    · exact Or.inr ⟨x, action, .eitherRight h, hacts⟩

theorem misplaces_both_iff : Misplaces (.both a b) ↔ a.Acts ∨ b.Acts := by
  constructor
  · intro h
    exact acts_both_iff.mp h.acts
  · intro h
    exact Or.inl ⟨a, b, .here, h⟩

theorem misplaces_act_iff : Misplaces (.act e action) ↔ e.Acts := by
  constructor
  · rintro (⟨x, y, h, hacts⟩ | ⟨x, action, h, hacts⟩)
    · cases h with
      | act h => exact Misplaces.acts (Or.inl ⟨x, y, h, hacts⟩)
    · cases h with
      | here => exact hacts
      | act h => exact Misplaces.acts (Or.inr ⟨x, _, h, hacts⟩)
  · intro h
    exact Or.inr ⟨e, action, .here, h⟩

/-! ## What is found -/

theorem denoted_ne_nil (e : Expr) : e.denoted ≠ [] := by
  induction e with
  | nothing | terminal | rule => simp [denoted]
  | either a b iha => simp [denoted, iha]
  | both a b iha ihb =>
    obtain ⟨x, hx⟩ := List.exists_mem_of_ne_nil _ iha
    simp only [denoted, ne_eq, List.flatMap_eq_nil_iff, List.map_eq_nil_iff, not_forall]
    exact ⟨x, hx, ihb⟩
  | act e action ih => simpa [denoted] using ih

theorem action_of_mem_denoted (h : ¬ e.Acts) (halternative : alternative ∈ e.denoted) :
    alternative.action = none := by
  induction e generalizing alternative with
  | nothing | terminal | rule =>
    obtain rfl := List.mem_singleton.mp halternative
    rfl
  | either a b iha ihb =>
    obtain ⟨ha, hb⟩ := not_or.mp (mt acts_either_iff.mpr h)
    exact (List.mem_append.mp halternative).elim (iha ha) (ihb hb)
  | both a b =>
    obtain ⟨x, -, halternative⟩ := List.mem_flatMap.mp halternative
    obtain ⟨y, -, rfl⟩ := List.mem_map.mp halternative
    rfl
  | act e action => exact absurd (acts_act e action) h

/-- Where no action is misplaced, there are no errors among what is found. -/
theorem flatten_of_not_misplaces (h : ¬ e.Misplaces) : e.flatten = e.denoted.map .ok := by
  induction e with
  | nothing | terminal | rule => rfl
  | either a b iha ihb =>
    obtain ⟨ha, hb⟩ := not_or.mp (mt misplaces_either_iff.mpr h)
    rw [flatten, denoted, iha ha, ihb hb, List.map_append]
  | both a b iha ihb =>
    obtain ⟨ha, hb⟩ := not_or.mp (mt misplaces_both_iff.mpr h)
    rw [flatten, denoted, iha (mt Misplaces.acts ha), ihb (mt Misplaces.acts hb),
      List.flatMap_map, List.map_flatMap]
    refine List.flatMap_congr fun x hx => ?_
    simp only [List.map_map]
    refine List.map_congr_left fun y hy => ?_
    simp [Except.bind, join, action_of_mem_denoted ha hx, action_of_mem_denoted hb hy]
  | act e action ih =>
    have he : ¬ e.Acts := mt misplaces_act_iff.mpr h
    rw [flatten, denoted, ih (mt Misplaces.acts he), List.map_map, List.map_map]
    refine List.map_congr_left fun x hx => ?_
    simp [Except.bind, attach, action_of_mem_denoted he hx]

/-! ## Errors -/

/-- What cannot be a part of a sequence, and what no action can be given to. -/
def Final : Found → Prop
  | .error _ => True
  | .ok a => a.action.isSome = true

theorem exists_error_join {y : Found} (h : alternative.action.isSome = true) :
    ∃ error, y.bind (join alternative) = .error error := by
  cases y with
  | error error => exact ⟨error, rfl⟩
  | ok y => exact ⟨.actionInSequence, by simp [Except.bind, join, h]⟩

theorem Final.exists_error_join {y : Found} (h : Final y) (x : Alternative) :
    ∃ error, y.bind (join x) = .error error := by
  cases y with
  | error error => exact ⟨error, rfl⟩
  | ok y =>
    have hy : y.action.isSome = true := h
    exact ⟨.actionInSequence, by simp [Except.bind, join, hy]⟩

theorem Final.exists_error_attach {x : Found} (h : Final x) (action : Action) :
    ∃ error, x.bind (attach action) = .error error := by
  cases x with
  | error error => exact ⟨error, rfl⟩
  | ok x =>
    have hx : x.action.isSome = true := h
    exact ⟨_, by simp [Except.bind, attach, hx]; rfl⟩

theorem final_attach (x : Found) (action : Action) : Final (x.bind (attach action)) := by
  cases x with
  | error error => trivial
  | ok x =>
    simp only [Except.bind, attach]
    split
    · trivial
    · rfl

theorem error_mem_both (hx : .error error ∈ a.flatten) : .error error ∈ (both a b).flatten :=
  List.mem_flatMap.mpr ⟨_, hx, List.mem_singleton.mpr rfl⟩

theorem join_mem_both {x : Alternative} {y : Found} (hx : .ok x ∈ a.flatten) (hy : y ∈ b.flatten) :
    y.bind (join x) ∈ (both a b).flatten :=
  List.mem_flatMap.mpr ⟨_, hx, List.mem_map_of_mem hy⟩

/-- As there is something on the other side too, a part that has an action meets it. -/
theorem exists_error_both (h : (∃ x ∈ a.flatten, Final x) ∨ ∃ y ∈ b.flatten, Final y) :
    ∃ error, .error error ∈ (both a b).flatten := by
  rcases h with ⟨x, hx, hfinal⟩ | ⟨y, hy, hfinal⟩
  · obtain ⟨y, hy⟩ := List.exists_mem_of_ne_nil _ b.flatten_ne_nil
    cases x with
    | error error => exact ⟨error, error_mem_both hx⟩
    | ok x =>
      obtain ⟨error, herror⟩ := exists_error_join (y := y) hfinal
      exact ⟨error, herror ▸ join_mem_both hx hy⟩
  · obtain ⟨x, hx⟩ := List.exists_mem_of_ne_nil _ a.flatten_ne_nil
    cases x with
    | error error => exact ⟨error, error_mem_both hx⟩
    | ok x =>
      obtain ⟨error, herror⟩ := hfinal.exists_error_join x
      exact ⟨error, herror ▸ join_mem_both hx hy⟩

theorem exists_final_of_acts (h : e.Acts) : ∃ x ∈ e.flatten, Final x := by
  induction e with
  | nothing => exact absurd h not_acts_nothing
  | terminal name => exact absurd h (not_acts_terminal name)
  | rule r => exact absurd h (not_acts_rule r)
  | either a b iha ihb =>
    rcases acts_either_iff.mp h with h | h
    · obtain ⟨x, hx, hfinal⟩ := iha h
      exact ⟨x, List.mem_append_left _ hx, hfinal⟩
    · obtain ⟨x, hx, hfinal⟩ := ihb h
      exact ⟨x, List.mem_append_right _ hx, hfinal⟩
  | both a b iha ihb =>
    obtain ⟨error, herror⟩ := exists_error_both ((acts_both_iff.mp h).imp iha ihb)
    exact ⟨_, herror, trivial⟩
  | act e action =>
    obtain ⟨x, hx⟩ := List.exists_mem_of_ne_nil _ e.flatten_ne_nil
    exact ⟨_, List.mem_map_of_mem hx, final_attach x action⟩

theorem exists_error_of_misplaces (h : e.Misplaces) : ∃ error, .error error ∈ e.flatten := by
  induction e with
  | nothing => exact absurd h.acts not_acts_nothing
  | terminal name => exact absurd h.acts (not_acts_terminal name)
  | rule r => exact absurd h.acts (not_acts_rule r)
  | either a b iha ihb =>
    rcases misplaces_either_iff.mp h with h | h
    · obtain ⟨error, herror⟩ := iha h
      exact ⟨error, List.mem_append_left _ herror⟩
    · obtain ⟨error, herror⟩ := ihb h
      exact ⟨error, List.mem_append_right _ herror⟩
  | both a b =>
    exact exists_error_both
      ((misplaces_both_iff.mp h).imp exists_final_of_acts exists_final_of_acts)
  | act e action =>
    obtain ⟨x, hx, hfinal⟩ := exists_final_of_acts (misplaces_act_iff.mp h)
    obtain ⟨error, herror⟩ := hfinal.exists_error_attach action
    exact ⟨error, herror ▸ List.mem_map_of_mem hx⟩

/-- What can be wrong is that an action applies to a part, or is a second one. -/
theorem error_of_mem_flatten (h : .error error ∈ e.flatten) :
    error = .actionInSequence ∨ ∃ parts, error = .secondAction (alternativeText parts) := by
  induction e with
  | nothing | terminal | rule => simp [flatten] at h
  | either a b iha ihb => exact (List.mem_append.mp h).elim iha ihb
  | both a b iha ihb =>
    obtain ⟨x, hx, h⟩ := List.mem_flatMap.mp h
    cases x with
    | error error' =>
      cases List.mem_singleton.mp h
      exact iha hx
    | ok x =>
      obtain ⟨y, hy, h⟩ := List.mem_map.mp h
      cases y with
      | error error' =>
        cases h
        exact ihb hy
      | ok y =>
        simp only [Except.bind, join] at h
        split at h
        · cases h
          exact Or.inl rfl
        · cases h
  | act e action ih =>
    obtain ⟨x, hx, h⟩ := List.mem_map.mp h
    cases x with
    | error error' =>
      cases h
      exact ih hx
    | ok x =>
      simp only [Except.bind, attach] at h
      split at h
      · cases h
        exact Or.inr ⟨x.parts, rfl⟩
      · cases h

/-! ## Grouping -/

theorem reading_append (found found' : List Found) : reading (found ++ found') =
    if (reading found).2 then reading found
    else ((reading found).1 ++ (reading found').1, (reading found').2) := by
  induction found with
  | nil => rfl
  | cons x found ih =>
    cases x with
    | error error => rfl
    | ok x =>
      cases hfails : (reading found).2 <;> simp [reading, ih, hfails]

theorem reading_flatMap_congr {α : Type} {xs : List α} {f g : α → List Found}
    (h : ∀ x ∈ xs, reading (f x) = reading (g x)) :
    reading (xs.flatMap f) = reading (xs.flatMap g) := by
  induction xs with
  | nil => rfl
  | cons x xs ih =>
    simp only [List.flatMap_cons, reading_append, h x List.mem_cons_self,
      ih fun y hy => h y (List.mem_cons_of_mem _ hy)]

/-- Things found that read alike read alike after the same was done to each. -/
theorem reading_flatMap {f : Found → List Found} (h : reading found = reading found')
    (hf : ∀ error, reading (f (.error error)) = ([], true)) :
    reading (found.flatMap f) = reading (found'.flatMap f) := by
  induction found generalizing found' with
  | nil =>
    cases found' with
    | nil => rfl
    | cons y found' => cases y <;> simp [reading] at h
  | cons x found ih =>
    cases found' with
    | nil => cases x <;> simp [reading] at h
    | cons y found' =>
      cases x with
      | error error =>
        cases y with
        | error error' => simp [reading_append, hf]
        | ok y => simp [reading] at h
      | ok x =>
        cases y with
        | error error => simp [reading] at h
        | ok y =>
          simp only [reading, Prod.mk.injEq, List.cons.injEq] at h
          obtain ⟨⟨rfl, hfirst⟩, hsecond⟩ := h
          simp only [List.flatMap_cons, reading_append, ih (Prod.ext hfirst hsecond)]

theorem reading_map {f : Found → Found} (h : reading found = reading found')
    (hf : ∀ error, reading [f (.error error)] = ([], true)) :
    reading (found.map f) = reading (found'.map f) := by
  rw [List.map_eq_flatMap, List.map_eq_flatMap]
  exact reading_flatMap h hf

/-- What a part of a sequence comes to with all that is found for the part behind it. -/
def followedBy (found : List Found) : Found → List Found
  | .error error => [.error error]
  | .ok x => found.map (·.bind (join x))

theorem flatten_both (a b : Expr) :
    (both a b).flatten = a.flatten.flatMap (followedBy b.flatten) := rfl

theorem reading_followedBy (h : reading found = reading found') (x : Found) :
    reading (followedBy found x) = reading (followedBy found' x) := by
  cases x with
  | error error => rfl
  | ok x => exact reading_map h fun _ => rfl

theorem reading_map_error {f : Found → Found} (hfound : found ≠ [])
    (hf : ∀ x, ∃ error, f x = .error error) : reading (found.map f) = ([], true) := by
  obtain ⟨x, rest, rfl⟩ := List.exists_cons_of_ne_nil hfound
  obtain ⟨error, herror⟩ := hf x
  rw [List.map_cons, herror]
  rfl

/-- Two parts and a third behind them, by the middle one. -/
theorem reading_followedBy_join (hfound : found ≠ []) (x : Alternative) (y : Found) :
    reading (followedBy found (y.bind (join x))) =
      reading ((followedBy found y).map (·.bind (join x))) := by
  cases y with
  | error error => rfl
  | ok y =>
    simp only [followedBy, List.map_map]
    by_cases hy : y.action.isSome = true
    · obtain ⟨error, herror⟩ := Final.exists_error_join (y := .ok y) hy x
      rw [herror, reading_map_error hfound]
      · rfl
      · intro z
        obtain ⟨error', herror'⟩ := exists_error_join (y := z) hy
        refine ⟨error', ?_⟩
        show Except.bind (z.bind (join y)) (join x) = _
        rw [herror']
        rfl
    by_cases hx : x.action.isSome = true
    · obtain ⟨error, herror⟩ := exists_error_join (y := .ok y) hx
      rw [herror, reading_map_error hfound]
      · rfl
      · exact fun z => exists_error_join hx
    · -- Neither has an action, and what is found behind them decides.
      have hxy : Except.bind (.ok y) (join x) = .ok ⟨x.parts ++ y.parts, none⟩ := by
        simp [Except.bind, join, hx, hy]
      rw [hxy]
      simp only
      congr 1
      refine List.map_congr_left fun z _ => ?_
      cases z with
      | error error => rfl
      | ok z => by_cases hz : z.action.isSome = true <;> simp [Except.bind, join, hx, hy, hz]

theorem reading_sequence (a b c : Expr) :
    reading (both (both a b) c).flatten = reading (both a (both b c)).flatten := by
  simp only [flatten_both, List.flatMap_assoc]
  refine reading_flatMap_congr fun x _ => ?_
  cases x with
  | error error => rfl
  | ok x =>
    simp only [followedBy, List.flatMap_map, List.map_flatMap]
    exact reading_flatMap_congr fun y _ => reading_followedBy_join c.flatten_ne_nil x y

/-- Grouping a chain in another way changes neither what is found before an error, nor whether
there is one. -/
theorem Regrouped.reading_eq (h : Regrouped e e') : reading e.flatten = reading e'.flatten := by
  induction h with
  | refl => rfl
  | symm _ ih => exact ih.symm
  | trans _ _ ih ih' => exact ih.trans ih'
  | choice a b c => simp only [flatten, List.append_assoc]
  | sequence a b c => exact reading_sequence a b c
  | either _ _ iha ihb => simp only [flatten, reading_append, iha, ihb]
  | both _ _ iha ihb =>
    rw [flatten_both, flatten_both, reading_flatMap iha fun _ => rfl]
    exact reading_flatMap_congr fun x _ => reading_followedBy ihb x
  | act _ action ih => exact reading_map ih fun _ => rfl

theorem Regrouped.denoted_eq (h : Regrouped e e') : e.denoted = e'.denoted := by
  induction h with
  | refl => rfl
  | symm _ ih => exact ih.symm
  | trans _ _ ih ih' => exact ih.trans ih'
  | choice a b c => simp only [denoted, List.append_assoc]
  | sequence a b c =>
    simp only [denoted, List.flatMap_assoc, List.flatMap_map, List.map_flatMap, List.map_map,
      Function.comp_def, List.append_assoc]
  | either _ _ iha ihb => rw [denoted, denoted, iha, ihb]
  | both _ _ iha ihb => rw [denoted, denoted, iha, ihb]
  | act _ action ih => rw [denoted, denoted, ih]

/-! ## What flattening gives -/

theorem exists_error_iff :
    (∃ error, e.alternatives = .error error) ↔ ∃ error, .error error ∈ e.flatten := by
  constructor
  · intro h
    obtain ⟨error, herror⟩ := h
    exact ⟨error, error_of_collect herror⟩
  · intro h
    obtain ⟨error, herror⟩ := h
    cases hcollect : e.alternatives with
    | error error' => exact ⟨error', rfl⟩
    | ok alternatives =>
      rw [collect_eq_ok_iff.mp hcollect] at herror
      simp at herror

/-- What flattening gives, when it does, is what the expression stands for. -/
theorem eq_denoted_of_alternatives {alternatives : List Alternative}
    (h : e.alternatives = .ok alternatives) : alternatives = e.denoted := by
  have hfound := collect_eq_ok_iff.mp h
  have hplaced : ¬ e.Misplaces := by
    intro hmisplaced
    obtain ⟨error, herror⟩ := exists_error_of_misplaces hmisplaced
    rw [hfound] at herror
    simp at herror
  rw [flatten_of_not_misplaces hplaced] at hfound
  exact (List.map_injective_iff.mpr (fun _ _ => Except.ok.inj) hfound).symm

/-- What flattening an expression gives. -/
structure Flattens (e : Expr) : Prop where
  fails_iff : (∃ error, e.alternatives = .error error) ↔ e.Misplaces
  error : ∀ error, e.alternatives = .error error →
    error = .actionInSequence ∨ ∃ parts, error = .secondAction (alternativeText parts)
  alternatives : ¬ e.Misplaces → e.alternatives = .ok e.denoted
  nonempty : e.denoted ≠ []
  /-- However chains in it are grouped, the same is found, up to an error if there is one. Which
  error comes first may depend on the grouping. -/
  regrouped : ∀ e', Regrouped e e' →
    e'.denoted = e.denoted ∧ reading e'.flatten = reading e.flatten

/-- Flattening fails exactly if an action is misplaced, and otherwise gives the alternatives that
the expression stands for, of which there is at least one; grouping makes no difference. -/
theorem flatten_exact (e : Expr) : e.Flattens where
  fails_iff := by
    rw [exists_error_iff]
    refine ⟨fun h => ?_, exists_error_of_misplaces⟩
    by_contra hplaced
    obtain ⟨error, herror⟩ := h
    rw [flatten_of_not_misplaces hplaced] at herror
    simp at herror
  error := fun error h => error_of_mem_flatten (error_of_collect h)
  alternatives := fun h => collect_eq_ok_iff.mpr (flatten_of_not_misplaces h)
  nonempty := e.denoted_ne_nil
  regrouped := fun e' h => ⟨h.denoted_eq.symm, h.reading_eq.symm⟩

end Slr.Expr
