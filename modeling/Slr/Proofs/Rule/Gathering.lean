import Slr.Proofs.Reachability
import Slr.Proofs.Rule.Alternatives
import Slr.Proofs.Rule.Names
import Slr.Rule.Queue

/-! # Gathering takes up every rule once

The rules that were taken up and those that wait are, in their order, what the rules taken
up mention, each where it is first mentioned. So the rules are taken up breadth first, and
when none waits all that can be reached were. Rules come from a family, which has only so
many, so gathering ends; with a queue in which rules wait many times it comes to the same. -/

namespace Slr

/-! ## Breadth first -/

/-- An order of what can be reached: each is the first among those mentioned by the ones before
it that is not one of them. -/
structure Reachability.BreadthFirst {α : Type} [DecidableEq α] (next : α → List α) (start : α)
    (order : List α) : Prop where
  nodup : order.Nodup
  mem : ∀ x, x ∈ order ↔ Path next start x
  first : ∀ before x after, order = before ++ x :: after →
    ∃ rest, (start :: before.flatMap next).eraseDups = before ++ x :: rest

/-- The symbol that a rule or a terminal becomes in a grammar. -/
def Part.symbol : Part → Symbol
  | .terminal name => .terminal name
  | .rule r => .nonterminal r.name

def Alternative.symbols (a : Alternative) : List Symbol := a.parts.map Part.symbol

theorem Part.candidate_eq (part : Part) : part.candidate = .symbol (.symbol part.symbol) := by
  cases part <;> rfl

theorem Alternative.candidates_eq (a : Alternative) :
    a.parts.map Part.candidate = a.symbols.map fun x => .symbol (.symbol x) := by
  rw [symbols, List.map_map]
  exact List.map_congr_left fun part _ => part.candidate_eq

namespace Workshop

/-- The expression of a rule, made where the rule is known. -/
def expressionOf (w : Workshop) (id : RuleId) : Except GrammarError Expr :=
  (makeRule id { w.knowing id with current := some id, next := 0 }).1

/-- The alternatives that a rule stands for. -/
def listed (w : Workshop) (r : RuleRef) : List Alternative :=
  match w.expressionOf r.id with
  | .ok e => e.denoted
  | .error _ => []

/-- The rules that a rule mentions, in the order of its alternatives. -/
def mentions (w : Workshop) (r : RuleRef) : List RuleRef :=
  (w.listed r).flatMap fun a => a.parts.filterMap fun
    | .terminal _ => none
    | .rule s => some s

/-- A rule mentions those that stand in its alternatives. -/
theorem mem_mentions_iff {w : Workshop} {r s : RuleRef} :
    s ∈ w.mentions r ↔ ∃ a ∈ w.listed r, .rule s ∈ a.parts := by
  simp only [mentions, List.mem_flatMap, List.mem_filterMap]
  refine exists_congr fun a => and_congr_right fun _ => ?_
  constructor
  · intro h
    obtain ⟨part, hpart, hs⟩ := h
    cases part with
    | terminal name => cases hs
    | rule r =>
      cases hs
      exact hpart
  · intro h
    exact ⟨.rule s, h, rfl⟩

/-- The productions of a rule: its alternatives, in each the nonterminals of the rules. -/
def productionsOf (w : Workshop) (r : RuleRef) : List Draft :=
  (w.listed r).map fun a =>
    { lhs := .symbol (.symbol (.nonterminal r.name))
      rhs := a.symbols.map fun x => .symbol (.symbol x)
      action := a.action }

/-- Whether a rule leads to another. -/
abbrev Leads (w : Workshop) (r s : RuleRef) : Prop := Reachability.Path w.mentions r s

/-- Where gathering stands between two rules. -/
structure Sweep (w₀ : Workshop) (start : RuleRef) (queue taken : List RuleRef) (found : List Draft)
    (w : Workshop) : Prop where
  since : Since w₀ w
  known : ∀ r ∈ taken ++ queue, w.Knows r
  reached : ∀ r ∈ taken ++ queue, w₀.Leads start r
  /-- Taken up, or waiting, is what was mentioned, where it was first mentioned. -/
  queue : (start :: taken.flatMap w₀.mentions).eraseDups = taken ++ queue
  first : ∀ before x after, taken = before ++ x :: after →
    ∃ rest, (start :: before.flatMap w₀.mentions).eraseDups = before ++ x :: rest
  names : (taken.map RuleRef.name).Nodup
  flattened : ∀ r ∈ taken, ∃ alternatives, w₀.alternativesOf r.id = .ok alternatives
  found : found = taken.flatMap w₀.productionsOf

variable {w w' w₀ : Workshop} {start r : RuleRef} {queue taken : List RuleRef} {found : List Draft}
  {alternatives : List Alternative}

/-- What a rule answers with, if nothing is wrong, is what it stands for. -/
theorem Base.listed_eq (hbase : w.Base) (h : w.alternativesOf r.id = .ok alternatives) :
    w.listed r = alternatives := by
  have hmade : (w.expressionOf r.id).bind Expr.alternatives = .ok alternatives := by
    rwa [alternativesOf, body_eq (hbase.knowing_bodies r.id)] at h
  cases hexpression : w.expressionOf r.id with
  | error e =>
    rw [hexpression] at hmade
    cases hmade
  | ok e =>
    rw [hexpression] at hmade
    rw [listed, hexpression]
    exact (Expr.eq_denoted_of_alternatives hmade).symm

theorem Base.mentions_eq (hbase : w.Base) (h : w.alternativesOf r.id = .ok alternatives) :
    w.mentions r = mentioned alternatives := by
  rw [mentions, hbase.listed_eq h]
  rfl

theorem Base.productionsOf_eq (hbase : w.Base) (h : w.alternativesOf r.id = .ok alternatives) :
    w.productionsOf r = drafts r.name alternatives := by
  rw [productionsOf, hbase.listed_eq h, drafts]
  exact List.map_congr_left fun a _ => by rw [a.candidates_eq, Candidate.nonterminal]

namespace Sweep

theorem begins (h : Since w₀ w) (hstart : w.Knows start) : Sweep w₀ start [start] [] [] w where
  since := h
  known := fun r hr => List.mem_singleton.mp hr ▸ hstart
  reached := fun r hr => by
    obtain rfl := List.mem_singleton.mp hr
    exact .refl r
  queue := by simp [List.eraseDups_cons]
  first := by simp
  names := List.nodup_nil
  flattened := by simp
  found := rfl

theorem nodup (h : Sweep w₀ start queue taken found w) : (taken ++ queue).Nodup :=
  h.queue ▸ Reachability.eraseDups_nodup _

/-- What a rule mentions waits behind the others, unless it was taken up or waits already. -/
theorem eraseDups_step {next : RuleRef → List RuleRef}
    (h : (start :: taken.flatMap next).eraseDups = taken ++ r :: queue) :
    (start :: (taken ++ [r]).flatMap next).eraseDups = (taken ++ [r]) ++
      (queue ++ ((next r).filter fun m => m ∉ taken ++ [r] && m ∉ queue).eraseDups) := by
  have hremove : (next r).removeAll (start :: taken.flatMap next) =
      (next r).filter fun m => m ∉ taken ++ [r] && m ∉ queue := by
    refine List.filter_congr fun m _ => ?_
    have hmem : m ∈ start :: taken.flatMap next ↔ m ∈ taken ∨ m = r ∨ m ∈ queue := by
      rw [← List.mem_eraseDups, h, List.mem_append, List.mem_cons]
    rw [Bool.eq_iff_iff]
    simp only [Bool.not_eq_true', List.elem_eq_mem, decide_eq_false_iff_not, hmem,
      Bool.and_eq_true, decide_eq_true_eq, List.mem_append, List.mem_singleton]
    tauto
  rw [List.flatMap_append, List.flatMap_singleton, ← List.cons_append, List.eraseDups_append, h, hremove]
  simp

/-- One rule more. -/
theorem step (h : Sweep w₀ start (r :: queue) taken found w) (hbase : w₀.Base)
    (hfresh : r.name ∉ taken.map RuleRef.name) (hbody : body r.id w = (.ok alternatives, w')) :
    Sweep w₀ start
      (queue ++ ((mentioned alternatives).filter fun m => m ∉ taken ++ [r] && m ∉ queue).eraseDups)
      (taken ++ [r]) (found ++ drafts r.name alternatives) w' := by
  have hr : r ∈ taken ++ r :: queue := by simp
  have hanswers := h.since.answers hbase (h.known r hr)
  have hsince := hanswers.since
  have hknown := hanswers.known
  have hmentioned := hanswers.mentioned alternatives
  have heq : w₀.alternativesOf r.id = .ok alternatives := by rw [← hanswers.result, hbody]
  rw [hbody] at hsince hknown hmentioned
  have hmember {s : RuleRef} (hs : s ∈ (taken ++ [r]) ++
      (queue ++ ((mentioned alternatives).filter fun m => m ∉ taken ++ [r] && m ∉ queue).eraseDups)) :
      s ∈ taken ++ r :: queue ∨ s ∈ mentioned alternatives := by
    simp only [List.mem_append, List.mem_eraseDups, List.mem_filter, List.mem_cons] at hs ⊢
    tauto
  refine ⟨hsince, ?_, ?_, ?_, ?_, ?_, ?_, ?_⟩
  · intro s hs
    rcases hmember hs with hs | hs
    · exact hknown s (h.known s hs)
    · exact hmentioned heq s hs
  · intro s hs
    rcases hmember hs with hs | hs
    · exact h.reached s hs
    · exact (h.reached r hr).tail (by rwa [hbase.mentions_eq heq])
  · rw [← hbase.mentions_eq heq]
    exact eraseDups_step h.queue
  · intro before x after hsplit
    -- The last one is the head of the queue; the others stand as they stood.
    rcases List.eq_nil_or_concat after with rfl | ⟨after', y, rfl⟩
    · obtain ⟨rfl, hx⟩ := List.append_inj' hsplit rfl
      obtain rfl := List.singleton_inj.mp hx
      exact ⟨queue, h.queue⟩
    · rw [List.concat_eq_append, ← List.cons_append, ← List.append_assoc] at hsplit
      obtain ⟨hsplit, -⟩ := List.append_inj' hsplit rfl
      exact h.first before x after' hsplit
  · rw [List.map_append, List.map_singleton]
    refine List.nodup_append.mpr ⟨h.names, List.nodup_singleton _, ?_⟩
    intro a ha b hb hab
    obtain rfl := List.mem_singleton.mp hb
    exact hfresh (hab ▸ ha)
  · intro s hs
    rcases List.mem_append.mp hs with hs | hs
    · exact h.flattened s hs
    · obtain rfl := List.mem_singleton.mp hs
      exact ⟨alternatives, heq⟩
  · rw [h.found, List.flatMap_append, List.flatMap_singleton, hbase.productionsOf_eq heq]

/-- There are no more rules than the family has. -/
theorem length_le (h : Sweep w₀ start queue taken found w) (hbase : w₀.Base) :
    taken.length + queue.length ≤ w₀.family.size := by
  rw [← List.length_append]
  exact RuleFamily.length_le_size h.nodup fun r hr => h.since.has hbase (h.known r hr)

/-- When none waits, the rules that were taken up are all that can be reached. -/
theorem breadthFirst (h : Sweep w₀ start [] taken found w) :
    Reachability.BreadthFirst w₀.mentions start taken where
  nodup := by simpa using h.nodup
  mem := fun x => by
    constructor
    · intro hx
      exact h.reached x (List.mem_append_left _ hx)
    · intro hpath
      have hmem {s : RuleRef} : s ∈ taken ↔ s ∈ start :: taken.flatMap w₀.mentions := by
        have hqueue := h.queue
        rw [List.append_nil] at hqueue
        have hmem := List.mem_eraseDups (a := s) (l := start :: taken.flatMap w₀.mentions)
        rwa [hqueue] at hmem
      induction hpath with
      | refl => exact hmem.mpr List.mem_cons_self
      | tail _ edge ih =>
        exact hmem.mpr (List.mem_cons_of_mem _ (List.mem_flatMap.mpr ⟨_, ih, edge⟩))
  first := h.first

end Sweep

/-! ## Gathering -/

/-- What gathering can come to. -/
inductive Swept (w₀ : Workshop) (start : RuleRef) : Made (List Draft) → Prop where
  | all {order : List RuleRef} {found : List Draft} {w : Workshop}
    (sweep : Sweep w₀ start [] order found w) : Swept w₀ start (.ok found, w)
  | twice {r s : RuleRef} {w : Workshop} (since : Since w₀ w) (hr : w₀.Leads start r)
    (hs : w₀.Leads start s) (hne : r.id ≠ s.id) (hname : r.name = s.name) :
    Swept w₀ start (.error (.sameName r.name), w)
  | wrong {r : RuleRef} {e : GrammarError} {w : Workshop} (since : Since w₀ w) (hr : w₀.Leads start r)
    (he : w₀.alternativesOf r.id = .error e) : Swept w₀ start (.error e, w)

namespace Sweep

theorem twice (h : Sweep w₀ start (r :: queue) taken found w) (hbase : w₀.Base)
    (hname : (taken.any fun t => t.name == r.name) = true) :
    Swept w₀ start (.error (.sameName r.name), w) := by
  obtain ⟨s, hs, hname⟩ := List.any_eq_true.mp hname
  have hr : r ∈ taken ++ r :: queue := by simp
  have hs' : s ∈ taken ++ r :: queue := by simp [hs]
  refine .twice h.since (h.reached r hr) (h.reached s hs') ?_ (beq_iff_eq.mp hname).symm
  intro hid
  obtain rfl := (h.since.has hbase (h.known r hr)).eq_of_id (h.since.has hbase (h.known s hs')) hid
  exact (List.nodup_append.mp h.nodup).2.2 r hs r List.mem_cons_self rfl

theorem fresh_of_not_any (h : ¬ (taken.any fun t => t.name == r.name) = true) :
    r.name ∉ taken.map RuleRef.name := by
  intro hmem
  obtain ⟨s, hs, hname⟩ := List.mem_map.mp hmem
  exact h (List.any_eq_true.mpr ⟨s, hs, beq_iff_eq.mpr hname⟩)

theorem swept {fuel : Nat} (h : Sweep w₀ start queue taken found w) (hbase : w₀.Base)
    (hfuel : w₀.family.size < taken.length + fuel) :
    Swept w₀ start (gatherFrom fuel queue taken found w) := by
  induction fuel generalizing queue taken found w with
  | zero =>
    have hle := h.length_le hbase
    omega
  | succ fuel ih =>
    cases queue with
    | nil => exact .all h
    | cons r queue =>
      rw [gatherFrom]
      split
      · rename_i hname
        exact h.twice hbase hname
      · rename_i hname
        have hanswers := h.since.answers hbase (h.known r (by simp))
        split
        · rename_i e w' hbody
          have hsince := hanswers.since
          have hresult := hanswers.result
          rw [hbody] at hsince hresult
          exact .wrong hsince (h.reached r (by simp)) hresult.symm
        · rename_i alternatives w' hbody
          refine ih (h.step hbase (fresh_of_not_any hname) hbody) ?_
          · rw [List.length_append, List.length_singleton]
            omega

/-- What waits many times, once a rule more was taken up. -/
theorem eraseDups_waiting (waiting found : List RuleRef) (r : RuleRef) :
    ((waiting ++ found.filter fun m => m ∉ taken ++ [r]).filter fun m => m ∉ taken ++ [r]).eraseDups =
      ((waiting.filter fun m => m ∉ taken).filter fun m => !m == r).eraseDups ++
        (found.filter fun m => m ∉ taken ++ [r] &&
          m ∉ ((waiting.filter fun m => m ∉ taken).filter fun m => !m == r).eraseDups).eraseDups := by
  have hwaiting : (waiting.filter fun m => m ∉ taken ++ [r]) =
      (waiting.filter fun m => m ∉ taken).filter fun m => !m == r := by
    rw [List.filter_filter]
    refine List.filter_congr fun m _ => ?_
    by_cases hr : m = r <;> by_cases ht : m ∈ taken <;> simp [hr, ht]
  have hfound : (found.filter fun m => m ∉ taken ++ [r]).removeAll
      ((waiting.filter fun m => m ∉ taken).filter fun m => !m == r) =
      found.filter fun m => m ∉ taken ++ [r] &&
        m ∉ ((waiting.filter fun m => m ∉ taken).filter fun m => !m == r).eraseDups := by
    rw [List.removeAll, List.filter_filter]
    refine List.filter_congr fun m _ => ?_
    rw [Bool.and_comm]
    congr 1
    simp [List.mem_eraseDups]
  rw [List.filter_append, List.filter_filter, hwaiting, List.eraseDups_append]
  simp only [Bool.and_self]
  rw [hfound]

/-- The queue in which rules wait many times is worked off, and comes to the same. -/
theorem drain {fuel : Nat} (h : Sweep w₀ start queue taken found w) (hbase : w₀.Base)
    (hfuel : w₀.family.size < taken.length + fuel) (waiting : List RuleRef)
    (hwaiting : (waiting.filter fun m => m ∉ taken).eraseDups = queue) :
    ∃ steps, Workshop.drain steps waiting taken found w =
      some (gatherFrom fuel queue taken found w) := by
  induction fuel generalizing queue taken found w waiting with
  | zero =>
    have hle := h.length_le hbase
    omega
  | succ fuel ih =>
    induction waiting generalizing queue with
    | nil =>
      subst hwaiting
      exact ⟨1, rfl⟩
    | cons r waiting ihwaiting =>
      by_cases htaken : r ∈ taken
      · rw [List.filter_cons_of_neg (by simpa using htaken)] at hwaiting
        obtain ⟨steps, hsteps⟩ := ihwaiting h hwaiting
        exact ⟨steps + 1, by rw [Workshop.drain, if_pos htaken, hsteps]⟩
      · rw [List.filter_cons_of_pos (by simpa using htaken), List.eraseDups_cons] at hwaiting
        subst hwaiting
        rw [gatherFrom]
        split
        · rename_i hname
          exact ⟨1, by rw [Workshop.drain, if_neg htaken, if_pos hname]⟩
        · rename_i hname
          split
          · rename_i e w' hbody
            exact ⟨1, by rw [Workshop.drain, if_neg htaken, if_neg hname, hbody]⟩
          · rename_i alternatives w' hbody
            obtain ⟨steps, hsteps⟩ := ih (h.step hbase (fresh_of_not_any hname) hbody)
              (by rw [List.length_append, List.length_singleton]; omega)
              (waiting ++ (mentioned alternatives).filter fun m => m ∉ taken ++ [r])
              (eraseDups_waiting _ _ _)
            refine ⟨steps + 1, ?_⟩
            rw [Workshop.drain, if_neg htaken, if_neg hname, hbody]
            exact hsteps

end Sweep

/-! ## What is gathered -/

/-- The workshop after these written rules were gathered from, one after the other. -/
def afterGathering (w : Workshop) (starts : List Nat) : Workshop :=
  starts.foldl (fun w i => (gather (w.refTo (.written i)) w).2) w

/-- What gathering from a rule gives, when nothing is wrong with the rules it leads to. -/
structure Gathers (w : Workshop) (start : RuleRef) (result : Except GrammarError (List Draft)) :
    Prop where
  /-- It fails exactly if two rules that can be reached have one name. -/
  error_iff : (∃ e, result = .error e) ↔
    ∃ r s, w.Leads start r ∧ w.Leads start s ∧ r.id ≠ s.id ∧ r.name = s.name
  error : ∀ e, result = .error e →
    ∃ r s, w.Leads start r ∧ w.Leads start s ∧ r.id ≠ s.id ∧ r.name = s.name ∧ e = .sameName r.name
  /-- Otherwise it gives the productions of each rule that can be reached, breadth first. -/
  found : ∀ found, result = .ok found → ∃ order,
    Reachability.BreadthFirst w.mentions start order ∧
      found = order.flatMap w.productionsOf

theorem Swept.since {m : Made (List Draft)} (h : Swept w₀ start m) : Since w₀ m.2 := by
  cases h with
  | all sweep => exact sweep.since
  | twice since => exact since
  | wrong since => exact since

theorem Swept.gathers {m : Made (List Draft)} (h : Swept w₀ start m)
    (hbodies : ∀ r, w₀.Leads start r → ∃ alternatives, w₀.alternativesOf r.id = .ok alternatives) :
    Gathers w₀ start m.1 := by
  cases h with
  | @all order found w sweep =>
    have hfirst := sweep.breadthFirst
    refine ⟨⟨by simp, ?_⟩, by simp, ?_⟩
    · intro h
      obtain ⟨r, s, hr, hs, hne, hname⟩ := h
      have heq := List.inj_on_of_nodup_map sweep.names ((hfirst.mem r).mpr hr) ((hfirst.mem s).mpr hs) hname
      exact absurd (congrArg RuleRef.id heq) hne
    · intro found' heq
      cases heq
      exact ⟨order, hfirst, sweep.found⟩
  | @twice r s w since hr hs hne hname =>
    refine ⟨⟨fun _ => ⟨r, s, hr, hs, hne, hname⟩, fun _ => ⟨_, rfl⟩⟩, ?_, by simp⟩
    intro e heq
    cases heq
    exact ⟨r, s, hr, hs, hne, hname, rfl⟩
  | @wrong r e w since hr he =>
    obtain ⟨alternatives, hok⟩ := hbodies r hr
    cases he.symm.trans hok

/-- A rule that can be reached is known when the rules on the way have been taken up. -/
theorem known_of_leads (hbase : w₀.Base) (hstart : w₀.Knows start)
    (hbodies : ∀ r, w₀.Leads start r → ∃ alternatives, w₀.alternativesOf r.id = .ok alternatives)
    (h : w₀.Leads start r) : ∃ w, Since w₀ w ∧ w.Knows r := by
  induction h with
  | refl => exact ⟨w₀, hbase.since, hstart⟩
  | @tail s t path edge ih =>
    obtain ⟨w, hw, hs⟩ := ih
    have hanswers := hw.answers hbase hs
    obtain ⟨alternatives, heq⟩ := hbodies s path
    exact ⟨_, hanswers.since, hanswers.mentioned alternatives heq t (hbase.mentions_eq heq ▸ edge)⟩

theorem swept_gather (hbase : w₀.Base) (hw : Since w₀ w) {i : Nat} (hi : i < w₀.family.rules.length) :
    Swept w₀ (w₀.refTo (.written i)) (gather (w₀.refTo (.written i)) w) := by
  have hknown : w.Knows (w₀.refTo (.written i)) :=
    .written i (hw.family ▸ hi) (refTo_written_of_family hw.family i).symm
  refine (Sweep.begins hw hknown).swept hbase ?_
  rw [hw.family, List.length_nil]
  omega

theorem since_afterGathering (hbase : w₀.Base) (hw : Since w₀ w) {starts : List Nat}
    (hstarts : ∀ i ∈ starts, i < w₀.family.rules.length) : Since w₀ (w.afterGathering starts) := by
  induction starts generalizing w with
  | nil => exact hw
  | cons i starts ih =>
    have hswept := swept_gather hbase hw (hstarts i List.mem_cons_self)
    rw [← refTo_written_of_family hw.family i] at hswept
    exact ih hswept.since fun j hj => hstarts j (List.mem_cons_of_mem _ hj)

/-- However rules refer to each other, and whatever was gathered before, the queue is worked off,
and gathering gives every rule that can be reached once, in the order of first mention, unless
two of them have one name. They have not, if the written rules have names of their own that
hidden rules cannot have. -/
theorem gather_exact {f : RuleFamily} (hclosed : f.isClosed = true) (h : ofFamily f = .ok w)
    {starts : List Nat} (hstarts : ∀ i ∈ starts, i < f.rules.length) {i : Nat}
    (hi : i < f.rules.length) (hbodies : ∀ r, w.Leads (w.refTo (.written i)) r →
      ∃ alternatives, w.alternativesOf r.id = .ok alternatives) :
    (∃ steps, drain steps [w.refTo (.written i)] [] [] (w.afterGathering starts) =
      some (gather (w.refTo (.written i)) (w.afterGathering starts))) ∧
    Gathers w (w.refTo (.written i)) (gather (w.refTo (.written i)) (w.afterGathering starts)).1 ∧
    ((f.rules.map WrittenRule.name).Nodup → (∀ rule ∈ f.rules, ¬ Hides rule.name) →
      ∀ r s, w.Leads (w.refTo (.written i)) r → w.Leads (w.refTo (.written i)) s →
        r.name = s.name → r = s) := by
  obtain ⟨hbase, rfl⟩ := base_of_ofFamily hclosed h
  have hsince := since_afterGathering hbase hbase.since hstarts
  have hknown : (w.afterGathering starts).Knows (w.refTo (.written i)) :=
    .written i (hsince.family ▸ hi) (refTo_written_of_family hsince.family i).symm
  refine ⟨?_, (swept_gather hbase hsince hi).gathers hbodies, ?_⟩
  · refine (Sweep.begins hsince hknown).drain hbase ?_ _ (by simp [List.eraseDups_cons])
    rw [hsince.family, List.length_nil]
    omega
  · intro hnodup hfree r s hr hs hname
    obtain ⟨w₁, hw₁, hr⟩ := known_of_leads hbase (.written i hi rfl) hbodies hr
    obtain ⟨w₂, hw₂, hs⟩ := known_of_leads hbase (.written i hi rfl) hbodies hs
    exact (hw₁.has hbase hr).eq_of_name hnodup hfree (hw₂.has hbase hs) hname

/-- Words of one letter, in parentheses or not. -/
def nested : RuleFamily where
  rules := [⟨"items", .choice [.repeated .zeroOrMore [.terminal "x"],
    .sequence [.terminal "(", .rule 0, .terminal ")"]]⟩]
  shared := []

/-- The rules of `nested`: the written one, and the one that repeats. -/
def items : RuleRef := ⟨.written 0, "items"⟩

def xs : RuleRef := ⟨.hidden (some 0) 0, "__gen_items_0"⟩

theorem leads_nested {r : RuleRef} (h : (empty nested).Leads items r) : r = items ∨ r = xs := by
  have hitems : (empty nested).listed items =
      [⟨[.rule xs], none⟩, ⟨[.terminal "(", .rule items, .terminal ")"], none⟩] := rfl
  have hxs : (empty nested).listed xs =
      [⟨[], some .list⟩, ⟨[.rule xs, .terminal "x"], some extendList⟩] := rfl
  induction h with
  | refl => exact Or.inl rfl
  | tail _ edge ih =>
    obtain ⟨a, ha, hs⟩ := mem_mentions_iff.mp edge
    rcases ih with rfl | rfl
    · rw [hitems] at ha
      rcases List.mem_pair.mp ha with rfl | rfl
      · exact Or.inr (by simpa using hs)
      · exact Or.inl (by simpa using hs)
    · rw [hxs] at ha
      rcases List.mem_pair.mp ha with rfl | rfl
      · cases hs
      · exact Or.inr (by simpa using hs)

/-- Gathered twice, and no two rules have one name. -/
theorem gather_exact_nested : nested.isClosed = true ∧ ofFamily nested = .ok (empty nested) ∧
    (∀ r, (empty nested).Leads items r →
      ∃ alternatives, (empty nested).alternativesOf r.id = .ok alternatives) ∧
    Gathers (empty nested) items (gather items ((empty nested).afterGathering [0])).1 ∧
    ∀ r s, (empty nested).Leads items r → (empty nested).Leads items s → r.name = s.name → r = s := by
  have hbodies : ∀ r, (empty nested).Leads items r →
      ∃ alternatives, (empty nested).alternativesOf r.id = .ok alternatives := by
    intro r hr
    rcases leads_nested hr with rfl | rfl
    · exact ⟨_, rfl⟩
    · exact ⟨_, rfl⟩
  have hstarts : ∀ i ∈ [0], i < nested.rules.length := by decide
  have hexact := gather_exact (f := nested) (w := empty nested) (i := 0) rfl rfl hstarts (by decide)
    hbodies
  exact ⟨rfl, rfl, hbodies, hexact.2.1, hexact.2.2 (by decide) (by simp [nested, Hides])⟩

end Workshop

end Slr
