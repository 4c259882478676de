import Mathlib.Data.List.Perm.Basic
import Mathlib.Data.List.Sort
import Slr.Grammar.Draft
import Slr.Proofs.Grammar.Shared

/-! # Productions in another order

Two grammars are rearrangements of each other if they have the same rules and the
same start. Drafts that make a grammar make a rearrangement of it in any other order:
each draft is looked at by itself, but for what is known of the whole list without its
order. -/

namespace Slr

/-- The same rules, with the same start. -/
structure Grammar.Rearranges (g g' : Grammar) : Prop where
  start_eq : g.start = g'.start
  rules : (g.productions.map Production.rule).Perm (g'.productions.map Production.rule)

namespace Grammar.Rearranges

variable {g g' : Grammar} (h : g.Rearranges g')

include h

theorem symm : g'.Rearranges g := ⟨h.start_eq.symm, h.rules.symm⟩

theorem carries : g.Carries (fun _ => True) g' :=
  .of_kept fun _ hp => List.mem_map.mp (h.rules.mem_iff.mp (List.mem_map_of_mem hp))

theorem shares : g.Shares (fun _ => True) g' := ⟨h.start_eq, trivial, h.carries, h.symm.carries⟩

end Grammar.Rearranges

/-! ## Drafts -/

namespace Draft

variable {drafts drafts' : List Draft} {seen loose : List LooseRule} {heads heads' : List String}
  {rules : List (String × List Symbol)} {start : Candidate} {name : String}

theorem checkAll_cons_eq_ok_iff {d : Draft} : checkAll seen (d :: drafts) = .ok loose ↔
    ∃ r rest, check d = .ok r ∧ r ∉ seen ∧ checkAll (r :: seen) drafts = .ok rest ∧
      r :: rest = loose := by
  rw [checkAll]
  cases hd : d.check with
  | error e => simp
  | ok r =>
    simp only [Except.ok.injEq, exists_and_left, exists_eq_left']
    by_cases hseen : r ∈ seen
    · simp [hseen]
    · simp [hseen, map_eq_ok]

/-- The drafts are checked one by one, and no two of them may come to the same. -/
theorem checkAll_eq_ok_iff : checkAll seen drafts = .ok loose ↔
    List.Forall₂ (fun d r => check d = .ok r) drafts loose ∧ loose.Nodup ∧
      ∀ r ∈ loose, r ∉ seen := by
  induction drafts generalizing seen loose with
  | nil =>
    constructor
    · intro h
      obtain rfl : [] = loose := Except.ok.inj h
      simp
    · intro h
      cases h.1
      rfl
  | cons d ds ih =>
    simp only [checkAll_cons_eq_ok_iff, ih]
    constructor
    · intro h
      obtain ⟨r, rest, hr, hseen, ⟨hall, hnodup, hfresh⟩, rfl⟩ := h
      refine ⟨.cons hr hall, List.nodup_cons.mpr ⟨fun hmem => hfresh r hmem (by simp), hnodup⟩, ?_⟩
      intro x hx hmem
      rcases List.mem_cons.mp hx with rfl | hx
      · exact hseen hmem
      · exact hfresh x hx (by simp [hmem])
    · intro h
      obtain ⟨hall, hnodup, hfresh⟩ := h
      cases hall with
      | @cons _ r _ rest hr hrest =>
        obtain ⟨hnew, hnodup⟩ := List.nodup_cons.mp hnodup
        refine ⟨r, rest, hr, hfresh r (by simp), ⟨hrest, hnodup, ?_⟩, rfl⟩
        intro x hx hmem
        rcases List.mem_cons.mp hmem with rfl | hmem
        · exact hnew hx
        · exact hfresh x (by simp [hx]) hmem

/-- Classifying asks of the left hand sides only which names are among them. -/
theorem classify_of_mem_iff {production : String} {ss : List LooseSymbol} {rhs : List Symbol}
    (hheads : ∀ n, n ∈ heads ↔ n ∈ heads') (h : classify heads production ss = .ok rhs) :
    classify heads' production ss = .ok rhs := by
  fun_induction classify heads production ss generalizing rhs with
  | case1 => exact h
  | case2 => cases h
  | case3 t rest ih =>
    obtain ⟨tail, htail, rfl⟩ := map_eq_ok.mp h
    rw [classify, ih htail]
    rfl
  | case4 n rest hn ih =>
    obtain ⟨tail, htail, rfl⟩ := map_eq_ok.mp h
    rw [classify, if_pos ((hheads n).mp hn), ih htail]
    rfl
  | case5 => cases h

theorem classifyAll_eq_ok_iff : classifyAll heads loose = .ok rules ↔
    List.Forall₂ (fun r x => classify heads (ruleText r) r.2 = .ok x.2 ∧ x.1 = r.1) loose rules := by
  induction loose generalizing rules with
  | nil => simp [classifyAll, eq_comm]
  | cons r rs ih =>
    unfold classifyAll
    cases hr : classify heads (ruleText r) r.2 with
    | error e =>
      constructor
      · intro h
        cases h
      · intro h
        cases h with
        | cons hx _ => cases hr.symm.trans hx.1
    | ok rhs =>
      simp only [map_eq_ok]
      constructor
      · intro h
        obtain ⟨rest, hrest, rfl⟩ := h
        exact .cons ⟨hr, rfl⟩ (ih.mp hrest)
      · intro h
        cases h with
        | @cons _ x _ rest hx hrest =>
          obtain rfl := Except.ok.inj (hr.symm.trans hx.1)
          exact ⟨rest, ih.mpr hrest, by rw [← hx.2]⟩

theorem startName_of_mem_iff (hheads : ∀ n, n ∈ heads ↔ n ∈ heads')
    (h : startName heads start = .ok name) : startName heads' start = .ok name := by
  unfold startName at h ⊢
  split at h <;> simp_all

/-- What makes the shape of a grammar. -/
theorem shape_eq_ok_iff : shape drafts start = .ok (name, rules) ↔
    ∃ loose, checkAll [] drafts = .ok loose ∧
      startName (goalName :: loose.map Prod.fst) start = .ok name ∧
      classifyAll (goalName :: loose.map Prod.fst) (goalRule name :: loose) = .ok rules ∧
      ∀ n ∈ goalName :: loose.map Prod.fst, n ∉ terminalsOf rules := by
  have hnil {loose : List LooseRule} {rules : List (String × List Symbol)} :
      sortNames ((goalName :: loose.map Prod.fst).filter (· ∈ terminalsOf rules)) = [] ↔
        ∀ n ∈ goalName :: loose.map Prod.fst, n ∉ terminalsOf rules := by
    simp only [List.eq_nil_iff_forall_not_mem, mem_sortNames, List.mem_filter, decide_eq_true_eq,
      not_and]
  unfold shape
  constructor
  · intro h
    split at h
    · cases h
    rename_i loose hloose
    simp only at h
    split at h
    · cases h
    rename_i name' hname
    split at h
    · cases h
    rename_i rules' hrules
    split at h
    · rename_i hclash
      cases h
      exact ⟨loose, hloose, hname, hrules, hnil.mp hclash⟩
    · cases h
  · intro h
    obtain ⟨loose, hloose, hname, hrules, hclash⟩ := h
    simp only [hloose, hname, hrules, hnil.mpr hclash]

/-- Drafts in another order have the same shape, with the rules in another order. -/
theorem shape_of_perm (hperm : drafts.Perm drafts') (h : shape drafts start = .ok (name, rules)) :
    ∃ rules', shape drafts' start = .ok (name, rules') ∧ rules.Perm rules' := by
  obtain ⟨loose, hloose, hname, hrules, hclash⟩ := shape_eq_ok_iff.mp h
  obtain ⟨hchecked, hnodup, -⟩ := checkAll_eq_ok_iff.mp hloose
  obtain ⟨loose', hchecked', hloose'⟩ := List.perm_comp_forall₂ hperm.symm hchecked
  have hheads : ∀ n, n ∈ goalName :: loose.map Prod.fst ↔ n ∈ goalName :: loose'.map Prod.fst :=
    fun n => ((hloose'.map Prod.fst).cons goalName).symm.mem_iff
  obtain ⟨rules', hrules', hperm'⟩ := List.perm_comp_forall₂ (hloose'.cons (goalRule name))
    (classifyAll_eq_ok_iff.mp hrules)
  have hterminals : ∀ n, n ∈ terminalsOf rules ↔ n ∈ terminalsOf rules' :=
    fun n => (hperm'.symm.flatMap_right _).mem_iff
  refine ⟨rules', shape_eq_ok_iff.mpr ⟨loose', ?_, startName_of_mem_iff hheads hname, ?_, ?_⟩,
    hperm'.symm⟩
  · exact checkAll_eq_ok_iff.mpr ⟨hchecked', hloose'.symm.nodup hnodup, by simp⟩
  · refine classifyAll_eq_ok_iff.mpr (hrules'.imp fun r x hx => ?_)
    exact ⟨classify_of_mem_iff hheads hx.1, hx.2⟩
  · intro n hn hmem
    exact hclash n ((hheads n).mpr hn) ((hterminals n).mpr hmem)

end Draft

namespace AttributedGrammar

variable {drafts drafts' : List Draft} {start : Candidate} {a : AttributedGrammar}

theorem shape_of_ofDrafts (h : ofDrafts drafts start = .ok a) :
    Draft.shape drafts start = .ok (a.grammar.start, a.grammar.productions.map Production.rule) := by
  unfold ofDrafts at h
  split at h
  · cases h
  · rename_i name rules hshape
    cases h
    exact hshape.trans (by simp only [Draft.map_rule_number])

theorem ofDrafts_eq {name : String} {rules : List (String × List Symbol)}
    (h : Draft.shape drafts start = .ok (name, rules)) :
    ofDrafts drafts start = .ok
      { grammar := ⟨name, Draft.number 0 rules, Draft.wellFormed_of_shape h⟩
        actions := none :: drafts.map Draft.action } := by
  unfold ofDrafts
  split
  · rename_i e hshape
    rw [h] at hshape
    cases hshape
  · rename_i name' rules' hshape
    obtain ⟨rfl, rfl⟩ := Prod.mk.inj (Except.ok.inj (h.symm.trans hshape))
    rfl

theorem exists_ofDrafts {name : String} {rules : List (String × List Symbol)}
    (h : Draft.shape drafts start = .ok (name, rules)) :
    ∃ a, ofDrafts drafts start = .ok a ∧ a.grammar.start = name ∧
      a.grammar.productions.map Production.rule = rules :=
  ⟨_, ofDrafts_eq h, rfl, Draft.map_rule_number 0 rules⟩

/-- Drafts that make a grammar make a rearrangement of it in any other order. -/
theorem rearranges_of_perm (hperm : drafts.Perm drafts') (h : ofDrafts drafts start = .ok a) :
    ∃ a', ofDrafts drafts' start = .ok a' ∧ a.grammar.Rearranges a'.grammar := by
  obtain ⟨rules', hshape, hrules⟩ := Draft.shape_of_perm hperm (shape_of_ofDrafts h)
  obtain ⟨a', ha', hstart, hproductions⟩ := exists_ofDrafts hshape
  exact ⟨a', ha', hstart.symm, hproductions ▸ hrules⟩

end AttributedGrammar

end Slr
