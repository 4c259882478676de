import Slr.Action.Basic
import Slr.Grammar.Basic
import Slr.Grammar.Error

/-!
Making a grammar from drafts of its productions. The drafts are looked at one by one, each symbol of a
draft from left to right; then the start, every right hand side and the names as a whole. The first
thing found wrong is the error. `wellFormed_of_shape`: what passes is a grammar.
-/

namespace Slr

/-- A production as it is offered, with its semantic action. -/
structure Draft where
  lhs : Candidate
  rhs : List Candidate
  action : Option Action

/-- A grammar with the semantic actions of its productions, in their order. -/
structure AttributedGrammar where
  grammar : Grammar
  actions : List (Option Action)

namespace Draft

abbrev LooseRule := String × List LooseSymbol

def ruleText (r : LooseRule) : String := Production.textOf r.1 (r.2.map LooseSymbol.name)

/-- The symbols among which no other value is. -/
def looseSymbols : List Candidate → Except GrammarError (List LooseSymbol)
  | [] => .ok []
  | .symbol s :: rest => (looseSymbols rest).map (s :: ·)
  | .value v :: _ => .error (.nameless v)

def reservedError (d : Draft) (lhs name : String) : GrammarError :=
  match looseSymbols d.rhs with
  | .ok rhs => .reserved name (ruleText (lhs, rhs))
  | .error e => e

def checkSymbols (d : Draft) (lhs : String) : List Candidate → Except GrammarError (List LooseSymbol)
  | [] => .ok []
  | .value v :: _ => .error (.notASymbol v lhs)
  | .symbol s :: rest =>
    if isReserved s.name then .error (d.reservedError lhs s.name)
    else (d.checkSymbols lhs rest).map (s :: ·)

def check (d : Draft) : Except GrammarError LooseRule :=
  match d.lhs with
  | .symbol (.symbol (.nonterminal lhs)) =>
    if isReserved lhs then .error (d.reservedError lhs lhs)
    else (d.checkSymbols lhs d.rhs).map (lhs, ·)
  | lhs => .error (.wrongLeftSide lhs)

def checkAll (seen : List LooseRule) : List Draft → Except GrammarError (List LooseRule)
  | [] => .ok []
  | d :: ds =>
    match d.check with
    | .error e => .error e
    | .ok r =>
      if r ∈ seen then .error (.repeated (ruleText r))
      else (checkAll (r :: seen) ds).map (r :: ·)

def classify (heads : List String) (production : String) :
    List LooseSymbol → Except GrammarError (List Symbol)
  | [] => .ok []
  | .unclassified name :: _ => .error (.unclassified name production)
  | .symbol (.terminal t) :: rest => (classify heads production rest).map (.terminal t :: ·)
  | .symbol (.nonterminal n) :: rest =>
    if n ∈ heads then (classify heads production rest).map (.nonterminal n :: ·)
    else .error (.undefined n production)

def classifyAll (heads : List String) :
    List LooseRule → Except GrammarError (List (String × List Symbol))
  | [] => .ok []
  | r :: rs =>
    match classify heads (ruleText r) r.2 with
    | .error e => .error e
    | .ok rhs => (classifyAll heads rs).map ((r.1, rhs) :: ·)

def goalRule (start : String) : LooseRule :=
  (goalName, [.symbol (.nonterminal start), .symbol (.terminal endName)])

/-- The name of the start symbol, if it has a production. A text counts as a nonterminal. -/
def startName (heads : List String) : Candidate → Except GrammarError String
  | .symbol (.symbol (.nonterminal n)) | .value (.str n) =>
    if n ∈ heads then .ok n else .error (.undefined n (Production.textOf goalName [n, endName]))
  | .symbol s => .error (.undefined s.name (Production.textOf goalName [s.name, endName]))
  | .value v => .error (.nameless v)

def terminalsOf (rules : List (String × List Symbol)) : List String :=
  rules.flatMap fun r => r.2.filterMap Symbol.terminalName?

/-- The start and the rules, the goal first, of a grammar made from drafts. -/
def shape (drafts : List Draft) (start : Candidate) :
    Except GrammarError (String × List (String × List Symbol)) :=
  match checkAll [] drafts with
  | .error e => .error e
  | .ok loose =>
    let heads := goalName :: loose.map Prod.fst
    match startName heads start with
    | .error e => .error e
    | .ok name =>
      match classifyAll heads (goalRule name :: loose) with
      | .error e => .error e
      | .ok rules =>
        match sortNames (heads.filter (· ∈ terminalsOf rules)) with
        | [] => .ok (name, rules)
        | names => .error (.clash names)

def number : Nat → List (String × List Symbol) → List Production
  | _, [] => []
  | i, r :: rs => ⟨i, r.1, r.2⟩ :: number (i + 1) rs

/-! ## What passes is a grammar -/

theorem map_eq_ok {ε α β : Type} {f : α → β} {x : Except ε α} {b : β} :
    x.map f = .ok b ↔ ∃ a, x = .ok a ∧ f a = b := by
  cases x <;> simp [Except.map]

theorem checkSymbols_unreserved {d : Draft} {lhs : String} {cs : List Candidate}
    {rhs : List LooseSymbol} (h : d.checkSymbols lhs cs = .ok rhs) :
    ∀ s ∈ rhs, isReserved s.name = false := by
  induction cs generalizing rhs with
  | nil =>
    obtain rfl : [] = rhs := by simpa [checkSymbols] using h
    simp
  | cons c cs ih =>
    cases c with
    | value v => simp [checkSymbols] at h
    | symbol s =>
      by_cases hs : isReserved s.name = true
      · simp [checkSymbols, hs] at h
      · simp only [checkSymbols, hs, Bool.false_eq_true, if_false] at h
        obtain ⟨rest, hr, rfl⟩ := map_eq_ok.mp h
        simpa [hs] using ih hr

theorem check_unreserved {d : Draft} {r : LooseRule} (h : d.check = .ok r) :
    isReserved r.1 = false ∧ ∀ s ∈ r.2, isReserved s.name = false := by
  unfold check at h
  split at h
  · split at h
    · cases h
    · rename_i hl
      obtain ⟨rhs, hs, rfl⟩ := map_eq_ok.mp h
      exact ⟨by simpa using hl, checkSymbols_unreserved hs⟩
  · cases h

theorem checkAll_spec {seen : List LooseRule} {ds : List Draft} {rs : List LooseRule}
    (h : checkAll seen ds = .ok rs) :
    rs.Nodup ∧ (∀ r ∈ rs, r ∉ seen) ∧
      ∀ r ∈ rs, isReserved r.1 = false ∧ ∀ s ∈ r.2, isReserved s.name = false := by
  induction ds generalizing seen rs with
  | nil =>
    obtain rfl : [] = rs := by simpa [checkAll] using h
    simp
  | cons d ds ih =>
    unfold checkAll at h
    split at h
    · cases h
    · rename_i r hr
      split at h
      · cases h
      · rename_i hseen
        obtain ⟨rest, ht, rfl⟩ := map_eq_ok.mp h
        obtain ⟨hn, hf, hu⟩ := ih ht
        refine ⟨List.nodup_cons.mpr ⟨fun hm => hf r hm (by simp), hn⟩, ?_, ?_⟩
        · intro x hx
          rcases List.mem_cons.mp hx with rfl | hx
          · exact hseen
          · exact fun hs => hf x hx (by simp [hs])
        · intro x hx
          rcases List.mem_cons.mp hx with rfl | hx
          · exact check_unreserved hr
          · exact hu x hx

theorem classify_spec {heads : List String} {production : String} {ss : List LooseSymbol}
    {rhs : List Symbol} (h : classify heads production ss = .ok rhs) :
    rhs.map LooseSymbol.symbol = ss ∧ ∀ n, .nonterminal n ∈ rhs → n ∈ heads := by
  fun_induction classify heads production ss generalizing rhs with
  | case1 =>
    obtain rfl : [] = rhs := by simpa using h
    simp
  | case2 => cases h
  | case3 t rest ih =>
    obtain ⟨tail, ht, rfl⟩ := map_eq_ok.mp h
    simpa using ih ht
  | case4 n rest hn ih =>
    obtain ⟨tail, ht, rfl⟩ := map_eq_ok.mp h
    obtain ⟨hm, hd⟩ := ih ht
    refine ⟨by simp [hm], fun m hmem => ?_⟩
    rcases List.mem_cons.mp hmem with he | hmem
    · injection he with he
      exact he ▸ hn
    · exact hd m hmem
  | case5 => cases h

theorem classifyAll_spec {heads : List String} {loose : List LooseRule}
    {rules : List (String × List Symbol)} (h : classifyAll heads loose = .ok rules) :
    rules.map (fun r => (r.1, r.2.map LooseSymbol.symbol)) = loose ∧
      ∀ r ∈ rules, ∀ n, .nonterminal n ∈ r.2 → n ∈ heads := by
  induction loose generalizing rules with
  | nil =>
    obtain rfl : [] = rules := by simpa [classifyAll] using h
    simp
  | cons r rs ih =>
    unfold classifyAll at h
    split at h
    · cases h
    · rename_i rhs hr
      obtain ⟨rest, ht, rfl⟩ := map_eq_ok.mp h
      obtain ⟨hm, hd⟩ := classify_spec hr
      obtain ⟨hms, hds⟩ := ih ht
      refine ⟨by simp [hm, hms], fun x hx => ?_⟩
      rcases List.mem_cons.mp hx with rfl | hx
      · exact hd
      · exact hds x hx

theorem map_rule_number (i : Nat) (rules : List (String × List Symbol)) :
    (number i rules).map Production.rule = rules := by
  induction rules generalizing i with
  | nil => rfl
  | cons r rs ih => simp [number, Production.rule, ih]

theorem map_index_number (i : Nat) (rules : List (String × List Symbol)) :
    (number i rules).map Production.index = List.range' i (number i rules).length := by
  induction rules generalizing i with
  | nil => rfl
  | cons r rs ih => simp [number, ih, List.range'_succ]

theorem rule_mem {i : Nat} {rules : List (String × List Symbol)} {p : Production}
    (h : p ∈ number i rules) : p.rule ∈ rules :=
  map_rule_number i rules ▸ List.mem_map_of_mem h

/-- The rules of a grammar to be, before they are classified. -/
structure Sound (start : String) (loose : List LooseRule) : Prop where
  nodup : loose.Nodup
  unreserved : ∀ r ∈ loose, isReserved r.1 = false ∧ ∀ s ∈ r.2, isReserved s.name = false

theorem goal_of_loose {start : String} {r : String × List Symbol}
    (h : (r.1, r.2.map LooseSymbol.symbol) = goalRule start) :
    r = (goalName, [.nonterminal start, .terminal endName]) := by
  obtain ⟨lhs, rhs⟩ := r
  simp only [goalRule, Prod.mk.injEq] at h
  obtain ⟨rfl, h⟩ := h
  match rhs, h with
  | [x, y], h => simp_all

theorem wellFormed_number {start : String} {loose : List LooseRule} (hs : Sound start loose)
    {rules : List (String × List Symbol)}
    (hr : rules.map (fun r => (r.1, r.2.map LooseSymbol.symbol)) = goalRule start :: loose)
    (hd : ∀ r ∈ rules, ∀ n, .nonterminal n ∈ r.2 → n ∈ goalName :: loose.map Prod.fst)
    (ha : ∀ n ∈ goalName :: loose.map Prod.fst, n ∉ terminalsOf rules) :
    WellFormed start (number 0 rules) := by
  have heads : (number 0 rules).map Production.lhs = goalName :: loose.map Prod.fst := by
    have h := congrArg (List.map Prod.fst) hr
    have hl : (number 0 rules).map Production.lhs = rules.map Prod.fst := by
      conv => rhs; rw [← map_rule_number 0 rules]
      simp [Production.rule]
    rw [hl]
    simpa [goalRule, Function.comp_def] using h
  obtain ⟨r, rest, rfl, hgoal, hrest⟩ := List.map_eq_cons_iff.mp hr
  obtain rfl := goal_of_loose hgoal
  have goal_fresh : goalRule start ∉ loose := fun hm => by
    have := (hs.unreserved _ hm).1
    simp [goalRule, isReserved] at this
  constructor
  · rfl
  · rw [map_index_number, List.range_eq_range']
  · rw [map_rule_number]
    have hn : ((_ :: rest).map fun r => (r.1, r.2.map LooseSymbol.symbol)).Nodup :=
      hr ▸ List.nodup_cons.mpr ⟨goal_fresh, hs.nodup⟩
    exact List.Pairwise.of_map _ (fun a b hab heq => hab (by rw [heq])) hn
  · intro p hp
    have hm : p.rule ∈ rest := rule_mem hp
    have hl : (p.lhs, p.rhs.map LooseSymbol.symbol) ∈ loose :=
      hrest ▸ List.mem_map_of_mem (f := fun r => (r.1, r.2.map LooseSymbol.symbol)) hm
    obtain ⟨h1, h2⟩ := hs.unreserved _ hl
    exact ⟨h1, fun x hx => h2 _ (List.mem_map_of_mem hx)⟩
  · intro p hp n hn
    rw [heads]
    exact hd _ (rule_mem hp) n hn
  · intro p hp t ht hm
    rw [heads] at hm
    refine ha t hm (List.mem_flatMap.mpr ⟨p.rule, rule_mem hp, ?_⟩)
    exact List.mem_filterMap.mpr ⟨.terminal t, ht, rfl⟩

theorem wellFormed_of_shape {drafts : List Draft} {start : Candidate} {name : String}
    {rules : List (String × List Symbol)} (h : shape drafts start = .ok (name, rules)) :
    WellFormed name (number 0 rules) := by
  unfold shape at h
  split at h
  · cases h
  rename_i loose hloose
  obtain ⟨hn, -, hu⟩ := checkAll_spec hloose
  simp only at h
  split at h
  · cases h
  split at h
  · cases h
  rename_i rules' hrules
  obtain ⟨hm, hd⟩ := classifyAll_spec hrules
  split at h
  · rename_i hclash
    injection h with h
    obtain ⟨rfl, rfl⟩ := Prod.mk.inj h
    refine wellFormed_number ⟨hn, hu⟩ hm hd fun n hn ht => ?_
    have : n ∈ sortNames ((goalName :: loose.map Prod.fst).filter (· ∈ terminalsOf rules')) :=
      mem_sortNames.mpr (List.mem_filter.mpr ⟨hn, by simpa using ht⟩)
    rw [hclash] at this
    cases this
  · cases h

end Draft

/-- The grammar of the drafts with this start, or the first thing wrong with them. -/
def AttributedGrammar.ofDrafts (drafts : List Draft) (start : Candidate) :
    Except GrammarError AttributedGrammar :=
  match h : Draft.shape drafts start with
  | .error e => .error e
  | .ok (name, rules) =>
    .ok { grammar := ⟨name, Draft.number 0 rules, Draft.wellFormed_of_shape h⟩
          actions := none :: drafts.map Draft.action }

end Slr
