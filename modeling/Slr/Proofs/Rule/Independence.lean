import Slr.Proofs.Rule.Gathering

/-! # Gathering does not depend on what was gathered before

Bodies that were made are kept, and hidden rules are named after a count that goes on. Still,
a rule answers with the same alternatives however far gathering has come, so a grammar is
the same, or the same is wrong with it, as if nothing else had been asked for. And whether
that went well or not, no body is being made afterwards that was not before, and the count
stands where it stood. -/

namespace Slr.Workshop

/-- The grammar with any rule as its start. -/
def grammarFrom (start : RuleRef) (w : Workshop) : Made AttributedGrammar :=
  match gather start w with
  | (.error e, w) => (.error e, w)
  | (.ok found, w) => (AttributedGrammar.ofDrafts found (.nonterminal start.name), w)

theorem grammar_eq_grammarFrom (i : Nat) (w : Workshop) :
    grammar i w = grammarFrom (w.refTo (.written i)) w := rfl

/-- The grammars with these rules as their starts, one asked for after the other. -/
def grammars : List RuleRef → Workshop → List (Except GrammarError AttributedGrammar) × Workshop
  | [], w => ([], w)
  | start :: starts, w =>
    let (g, w) := grammarFrom start w
    let (gs, w) := grammars starts w
    (g :: gs, w)

/-- A rule that grammars can be asked for: a written one, or a shared expression that is a
repetition. -/
inductive Offers (w : Workshop) (r : RuleRef) : Prop
  | written (i : Nat) (hi : i < w.family.rules.length) (h : r = w.refTo (.written i))
  | shared (h : .rule r ∈ w.shared)

/-- Nothing is left behind of grammars that are asked for one after the other. -/
structure Traceless (w : Workshop) (starts : List RuleRef) : Prop where
  /-- Each is what it is when nothing else is asked for. -/
  answers : (grammars starts w).1 = starts.map fun r => (grammarFrom r w).1
  /-- Each leaves alone under which name, and with which number, a hidden rule would be made. -/
  restores : ∀ earlier r later, starts = earlier ++ r :: later →
    (grammarFrom r (grammars earlier w).2).2.current = (grammars earlier w).2.current ∧
      (grammarFrom r (grammars earlier w).2).2.definition = (grammars earlier w).2.definition ∧
      (grammarFrom r (grammars earlier w).2).2.next = (grammars earlier w).2.next

variable {w w' w₀ : Workshop} {start r : RuleRef} {starts earlier : List RuleRef}
  {queue taken : List RuleRef} {found : List Draft} {fuel : Nat}

theorem Offers.knows (h : w₀.Offers r) (hbase : w₀.Base) (hw : Since w₀ w) : w.Knows r := by
  have hknown : w₀.Knows r := by
    cases h with
    | written i hi heq => exact .written i hi heq
    | shared h => exact hbase.shared _ h r (List.mem_singleton.mpr rfl)
  exact hknown.mono hw.family hw.old

/-! ## One grammar -/

/-- What waits behind a rule that was asked for is known. -/
theorem Answers.knows_waiting {alternatives : List Alternative} (h : Answers w₀ w r.id)
    (hbody : body r.id w = (.ok alternatives, w')) (hknown : ∀ s ∈ r :: queue, w.Knows s)
    (keep : RuleRef → Bool) :
    ∀ s ∈ queue ++ ((Workshop.mentioned alternatives).filter keep).eraseDups, w'.Knows s := by
  have hnew := h.mentioned alternatives (by rw [← h.result, hbody])
  have hold := h.known
  rw [hbody] at hnew hold
  intro s hs
  rcases List.mem_append.mp hs with hs | hs
  · exact hold s (hknown s (List.mem_cons_of_mem _ hs))
  · exact hnew s (List.mem_filter.mp (List.mem_eraseDups.mp hs)).1

/-- However far gathering has come in two workshops, it goes on alike from the same queue. -/
theorem gatherFrom_congr (hbase : w₀.Base) (hw : Since w₀ w) (hw' : Since w₀ w')
    (hknown : ∀ r ∈ queue, w.Knows r) (hknown' : ∀ r ∈ queue, w'.Knows r) :
    (gatherFrom fuel queue taken found w).1 = (gatherFrom fuel queue taken found w').1 := by
  induction fuel generalizing queue taken found w w' with
  | zero => rfl
  | succ fuel ih =>
    cases queue with
    | nil => rfl
    | cons r queue =>
      have hanswers := hw.answers hbase (hknown r List.mem_cons_self)
      have hanswers' := hw'.answers hbase (hknown' r List.mem_cons_self)
      have hsame : (body r.id w).1 = (body r.id w').1 := hanswers.result.trans hanswers'.result.symm
      have hsince := hanswers.since
      have hsince' := hanswers'.since
      rw [gatherFrom, gatherFrom]
      split
      · rfl
      · rcases hbody : body r.id w with ⟨result, after⟩
        rcases hbody' : body r.id w' with ⟨result', after'⟩
        rw [hbody] at hsame hsince
        rw [hbody'] at hsame hsince'
        obtain rfl : result = result' := hsame
        cases result with
        | error e => rfl
        | ok alternatives =>
          exact ih hsince hsince' (hanswers.knows_waiting hbody hknown _)
            (hanswers'.knows_waiting hbody' hknown' _)

theorem gather_congr (hbase : w₀.Base) (hw : Since w₀ w) (hw' : Since w₀ w') (hr : w₀.Offers r) :
    (gather r w).1 = (gather r w').1 := by
  have hknown : ∀ s ∈ [r], w.Knows s := by simpa using hr.knows hbase hw
  have hknown' : ∀ s ∈ [r], w'.Knows s := by simpa using hr.knows hbase hw'
  unfold gather
  rw [hw.family, hw'.family]
  exact gatherFrom_congr hbase hw hw' hknown hknown'

theorem since_gather (hbase : w₀.Base) (hw : Since w₀ w) (hr : w₀.Offers r) :
    Since w₀ (gather r w).2 := by
  refine ((Sweep.begins hw (hr.knows hbase hw)).swept hbase ?_).since
  rw [hw.family, List.length_nil]
  omega

theorem grammarFrom_snd (r : RuleRef) (w : Workshop) : (grammarFrom r w).2 = (gather r w).2 := by
  unfold grammarFrom
  split <;> rename_i heq <;> rw [heq]

theorem grammarFrom_congr (hbase : w₀.Base) (hw : Since w₀ w) (hw' : Since w₀ w')
    (hr : w₀.Offers r) : (grammarFrom r w).1 = (grammarFrom r w').1 := by
  have hsame := gather_congr hbase hw hw' hr
  unfold grammarFrom
  rcases hgather : gather r w with ⟨result, after⟩
  rcases hgather' : gather r w' with ⟨result', after'⟩
  rw [hgather, hgather'] at hsame
  obtain rfl : result = result' := hsame
  cases result <;> rfl

/-! ## Many grammars -/

theorem since_grammars (hbase : w₀.Base) (hw : Since w₀ w) (hstarts : ∀ r ∈ starts, w₀.Offers r) :
    Since w₀ (grammars starts w).2 := by
  induction starts generalizing w with
  | nil => exact hw
  | cons r starts ih =>
    have hnext := since_gather hbase hw (hstarts r List.mem_cons_self)
    rw [← grammarFrom_snd] at hnext
    exact ih hnext fun s hs => hstarts s (List.mem_cons_of_mem _ hs)

theorem grammars_answers (hbase : w₀.Base) (hw : Since w₀ w)
    (hstarts : ∀ r ∈ starts, w₀.Offers r) :
    (grammars starts w).1 = starts.map fun r => (grammarFrom r w₀).1 := by
  induction starts generalizing w with
  | nil => rfl
  | cons r starts ih =>
    have hr := hstarts r List.mem_cons_self
    have hnext := since_gather hbase hw hr
    rw [← grammarFrom_snd] at hnext
    have hrest := ih hnext fun s hs => hstarts s (List.mem_cons_of_mem _ hs)
    rw [List.map_cons, ← hrest, ← grammarFrom_congr hbase hw hbase.since hr]
    rfl

/-- In the course of gathering no body is being made between two steps. -/
theorem Since.definition (hw : Since w₀ w) (hbase : w₀.Base) : w.definition = w₀.definition := by
  simp [Workshop.definition, hw.current, hbase.current]

/-- Whatever grammars are asked for, one after the other, and whichever of them fail, each is as
if it were the only one, and names and numbers of hidden rules are where they were. -/
theorem grammars_traceless {f : RuleFamily} (hclosed : f.isClosed = true) (h : ofFamily f = .ok w)
    (hstarts : ∀ r ∈ starts, w.Offers r) : Traceless w starts := by
  obtain ⟨hbase, -⟩ := base_of_ofFamily hclosed h
  refine ⟨grammars_answers hbase hbase.since hstarts, ?_⟩
  intro earlier r later hsplit
  have hbefore : Since w (grammars earlier w).2 :=
    since_grammars hbase hbase.since fun s hs => hstarts s (by simp [hsplit, hs])
  have hafter := since_gather hbase hbefore (hstarts r (by simp [hsplit]))
  rw [← grammarFrom_snd] at hafter
  exact ⟨hafter.current.trans hbefore.current.symm,
    (hafter.definition hbase).trans (hbefore.definition hbase).symm,
    hafter.next.trans hbefore.next.symm⟩

/-- The second rule has an action inside a sequence, so that the first, which mentions it, fails
when hidden rules were made for either. -/
def faulty : RuleFamily where
  rules := [⟨"words", .choice [.shared 0, .repeated .oneOrMore [.terminal "x"], .rule 1]⟩,
    ⟨"pair", .sequence [.repeated .optional [.terminal "y"], .act (.terminal "z") .list]⟩]
  shared := [.repeated .optional [.terminal "w"]]

def faultyWorkshop : Workshop := (shareAll faulty.shared (empty faulty)).2

/-- The rule that fails, and the shared repetition, which does not. -/
def words : RuleRef := ⟨.written 0, "words"⟩

def maybe : RuleRef := ⟨.hidden none 0, "__gen___global_0"⟩

theorem grammars_traceless_faulty :
    (faulty.isClosed = true ∧ ofFamily faulty = .ok faultyWorkshop ∧
      ∀ r ∈ [words, maybe, words], faultyWorkshop.Offers r) ∧
    (grammarFrom words faultyWorkshop).1 = .error .actionInSequence ∧
    Traceless faultyWorkshop [words, maybe, words] := by
  have hwords : faultyWorkshop.Offers words := .written 0 (by decide) rfl
  have hmaybe : faultyWorkshop.Offers maybe := .shared (List.mem_singleton.mpr rfl)
  have hstarts : ∀ r ∈ [words, maybe, words], faultyWorkshop.Offers r := by
    intro r hr
    simp only [List.mem_cons, List.not_mem_nil, or_false] at hr
    rcases hr with rfl | rfl | rfl
    · exact hwords
    · exact hmaybe
    · exact hwords
  exact ⟨⟨rfl, rfl, hstarts⟩, rfl, grammars_traceless (f := faulty) rfl rfl hstarts⟩

end Slr.Workshop
