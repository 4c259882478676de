import Slr.Parser.Session
import Slr.Proofs.Grammar.Rearranged

/-! # Which drafts make a grammar

Drafts make a grammar if they state rules over terminals and nonterminals, each rule
once, without the reserved names, and if the nonterminals are those that have rules.
The start must have rules too, with one exception that nobody asked for: the goal has a
production of its own before anything is checked, and so its name passes for a start. -/

namespace Slr

/-- A symbol in the place where one belongs. -/
def Candidate.ofSymbol (x : Symbol) : Candidate := .symbol (.symbol x)

/-- A start as it is given: a nonterminal, or the text that is its name. -/
def Candidate.Names (c : Candidate) (n : String) : Prop := c = .nonterminal n ∨ c = .value (.str n)

namespace Draft

/-- Everything that a draft puts in the place of a symbol. -/
def places (d : Draft) : List Candidate := d.lhs :: d.rhs

/-- Drafts of rules that can stand in one grammar. -/
structure Coherent (drafts : List Draft) : Prop where
  lhs : ∀ d ∈ drafts, ∃ n, d.lhs = .nonterminal n
  rhs : ∀ d ∈ drafts, ∀ c ∈ d.rhs, ∃ x, c = .ofSymbol x
  unreserved : ∀ d ∈ drafts, ∀ x, .ofSymbol x ∈ d.places → isReserved x.name = false
  distinct : (drafts.map fun d => (d.lhs, d.rhs)).Nodup
  defined : ∀ d ∈ drafts, ∀ n, .nonterminal n ∈ d.rhs → ∃ e ∈ drafts, e.lhs = .nonterminal n
  apart : ∀ d ∈ drafts, ∀ e ∈ drafts, ∀ n, .terminal n ∈ d.places → .nonterminal n ∉ e.places

/-- What a grammar made from drafts consists of. -/
structure Makes (drafts : List Draft) (n : String) (a : AttributedGrammar) : Prop where
  start : a.grammar.start = n
  goal : a.grammar.productions[0]? = some (.goal n)
  length : a.grammar.productions.length = drafts.length + 1
  /-- The drafts have become the productions behind the goal, in their order. -/
  production : ∀ i d, drafts[i]? = some d → ∃ p, a.grammar.productions[i + 1]? = some p ∧
    p.index = i + 1 ∧ d.lhs = .nonterminal p.lhs ∧ d.rhs = p.rhs.map .ofSymbol ∧
    a.semantics p = d.action
  sorted : a.grammar.alphabet.Pairwise fun x y => x.name < y.name
  alphabet : ∀ x, x ∈ a.grammar.alphabet ↔ x = .terminal endName ∨ x = .nonterminal goalName ∨
    ∃ d ∈ drafts, .ofSymbol x ∈ d.places
  key : ∀ name i, a.grammar.symbolKey? name = some i ↔
    a.grammar.alphabet[i]?.map Symbol.name = some name
  /-- The productions of a nonterminal are those with it on the left, in their order. -/
  rules : ∀ n, (a.grammar.productionsFor n).Sublist a.grammar.productions ∧
    ∀ p, p ∈ a.grammar.productionsFor n ↔ p ∈ a.grammar.productions ∧ p.lhs = n

/-- Drafts that are right one by one, before anybody asks what their symbols stand for. -/
def Passes (drafts : List Draft) (loose : List LooseRule) : Prop :=
  (drafts.map fun d => (d.lhs, d.rhs)) =
      loose.map (fun r => (Candidate.nonterminal r.1, r.2.map Candidate.symbol)) ∧
    loose.Nodup ∧ ∀ r ∈ loose, isReserved r.1 = false ∧ ∀ s ∈ r.2, isReserved s.name = false

/-- The first draft that is wrong has a reserved name, and behind it a value in the place of
a symbol. The message would have to write the draft, which cannot be done. -/
def Obscured (drafts : List Draft) (v : Value) : Prop :=
  ∃ before d after loose, drafts = before ++ d :: after ∧ Passes before loose ∧
    ∃ (n : String) (xs : List LooseSymbol) (ys : List Candidate), d.lhs = .nonterminal n ∧
      d.rhs = xs.map .symbol ++ .value v :: ys ∧
      (isReserved n = true ∨ ∃ s ∈ xs, isReserved s.name = true)

variable {d : Draft} {drafts : List Draft} {n name production : String} {cs : List Candidate}
  {rhs xs : List LooseSymbol} {r : LooseRule} {loose : List LooseRule} {heads : List String}
  {rhs' : List Symbol} {rules : List (String × List Symbol)} {start : Candidate} {v : Value} {a : AttributedGrammar}

/-! ## One draft -/

theorem checkSymbols_eq_ok_iff : d.checkSymbols n cs = .ok rhs ↔
    cs = rhs.map .symbol ∧ ∀ s ∈ rhs, isReserved s.name = false := by
  induction cs generalizing rhs with
  | nil => cases rhs <;> simp [checkSymbols]
  | cons c cs ih =>
    cases c with
    | value v => cases rhs <;> simp [checkSymbols]
    | symbol s =>
      rw [checkSymbols]
      by_cases hs : isReserved s.name = true
      · cases rhs with
        | nil => simp [hs]
        | cons t rhs =>
          simp only [hs, if_true, List.map_cons, List.cons.injEq, Candidate.symbol.injEq]
          constructor
          · intro h
            cases h
          · intro h
            obtain ⟨⟨rfl, -⟩, hall⟩ := h
            exact absurd (hall s (by simp)) (by simp [hs])
      · simp only [hs, Bool.false_eq_true, if_false, map_eq_ok, ih]
        constructor
        · intro h
          obtain ⟨rest, ⟨rfl, hrest⟩, rfl⟩ := h
          exact ⟨rfl, by simpa [hs] using hrest⟩
        · intro h
          obtain ⟨hcs, hall⟩ := h
          cases rhs with
          | nil => cases hcs
          | cons t rest =>
            obtain ⟨ht, hrest⟩ := List.cons.inj hcs
            obtain rfl := Candidate.symbol.inj ht
            exact ⟨rest, ⟨hrest, fun x hx => hall x (by simp [hx])⟩, rfl⟩

theorem check_eq_ok_iff : d.check = .ok r ↔
    (d.lhs, d.rhs) = (.nonterminal r.1, r.2.map .symbol) ∧ isReserved r.1 = false ∧
      ∀ s ∈ r.2, isReserved s.name = false := by
  obtain ⟨lhs, rhs⟩ := r
  unfold check
  split
  · rename_i m hm
    by_cases hreserved : isReserved m = true
    · simp only [hreserved, if_true]
      constructor
      · intro h
        cases h
      · intro h
        obtain ⟨heq, hlhs, -⟩ := h
        obtain ⟨heq, -⟩ := Prod.mk.inj heq
        cases hm.symm.trans heq
        rw [hreserved] at hlhs
        cases hlhs
    · simp only [hreserved, Bool.false_eq_true, if_false, map_eq_ok, checkSymbols_eq_ok_iff]
      constructor
      · intro h
        obtain ⟨rest, ⟨hrhs, hall⟩, heq⟩ := h
        obtain ⟨rfl, rfl⟩ := Prod.mk.inj heq
        exact ⟨by rw [hm, hrhs]; rfl, by simpa using hreserved, hall⟩
      · intro h
        obtain ⟨heq, -, hall⟩ := h
        obtain ⟨hlhs, hrhs⟩ := Prod.mk.inj heq
        cases hm.symm.trans hlhs
        exact ⟨rhs, ⟨hrhs, hall⟩, rfl⟩
  · rename_i hother
    constructor
    · intro h
      cases h
    · intro h
      exact absurd (Prod.mk.inj h.1).1 (hother lhs)

/-- Either all are symbols, or there is a first that is none. -/
theorem symbols_or_value (cs : List Candidate) : (∃ xs : List LooseSymbol, cs = xs.map .symbol) ∨
    ∃ (xs : List LooseSymbol) (v : Value) (ys : List Candidate),
      cs = xs.map .symbol ++ .value v :: ys := by
  induction cs with
  | nil => exact Or.inl ⟨[], rfl⟩
  | cons c cs ih =>
    cases c with
    | value v => exact Or.inr ⟨[], v, cs, rfl⟩
    | symbol s =>
      rcases ih with ⟨xs, rfl⟩ | ⟨xs, v, ys, rfl⟩
      · exact Or.inl ⟨s :: xs, rfl⟩
      · exact Or.inr ⟨s :: xs, v, ys, rfl⟩

theorem looseSymbols_map (xs : List LooseSymbol) : looseSymbols (xs.map .symbol) = .ok xs := by
  induction xs with
  | nil => rfl
  | cons x xs ih => simp [looseSymbols, ih, Except.map]

theorem looseSymbols_value (xs : List LooseSymbol) (v : Value) (ys : List Candidate) :
    looseSymbols (xs.map .symbol ++ .value v :: ys) = .error (.nameless v) := by
  induction xs with
  | nil => rfl
  | cons x xs ih => simp [looseSymbols, ih, Except.map]

theorem checkSymbols_map_ne (h : d.rhs = rhs.map .symbol) (xs : List LooseSymbol) :
    d.checkSymbols n (xs.map .symbol) ≠ .error (.nameless v) := by
  induction xs with
  | nil => simp [checkSymbols]
  | cons x xs ih =>
    rw [List.map_cons, checkSymbols]
    split
    · simp [reservedError, h, looseSymbols_map]
    · intro herror
      cases hrest : d.checkSymbols n (xs.map .symbol) with
      | ok rest => simp [hrest, Except.map] at herror
      | error e =>
        rw [hrest] at herror
        exact ih (hrest.trans (congrArg Except.error (Except.error.inj herror)))

/-- In front of a value that is no symbol, a reserved name cannot be reported. -/
theorem checkSymbols_value (h : looseSymbols d.rhs = .error (.nameless v))
    (xs : List LooseSymbol) (ys : List Candidate) :
    d.checkSymbols n (xs.map .symbol ++ .value v :: ys) =
      .error (if ∃ s ∈ xs, isReserved s.name = true then .nameless v else .notASymbol v n) := by
  induction xs with
  | nil => simp [checkSymbols]
  | cons x xs ih =>
    rw [List.map_cons, List.cons_append, checkSymbols]
    by_cases hx : isReserved x.name = true
    · simp [hx, reservedError, h]
    · simp [hx, ih, Except.map]

theorem check_value {ys : List Candidate} (hlhs : d.lhs = .nonterminal n)
    (hrhs : d.rhs = xs.map .symbol ++ .value v :: ys) :
    d.check = .error (if isReserved n = true ∨ ∃ s ∈ xs, isReserved s.name = true
      then .nameless v else .notASymbol v n) := by
  have hloose : looseSymbols d.rhs = .error (.nameless v) := by rw [hrhs, looseSymbols_value]
  have hcheck := checkSymbols_value (n := n) hloose xs ys
  rw [← hrhs] at hcheck
  unfold check
  rw [hlhs]
  by_cases hn : isReserved n = true
  · simp [Candidate.nonterminal, hn, reservedError, hloose]
  · simp [Candidate.nonterminal, hn, hcheck, Except.map]

theorem check_eq_nameless_iff : d.check = .error (.nameless v) ↔
    ∃ (n : String) (xs : List LooseSymbol) (ys : List Candidate), d.lhs = .nonterminal n ∧
      d.rhs = xs.map .symbol ++ .value v :: ys ∧
      (isReserved n = true ∨ ∃ s ∈ xs, isReserved s.name = true) := by
  constructor
  · intro h
    have hlhs : ∃ n, d.lhs = .nonterminal n := by
      unfold check at h
      split at h
      · rename_i n hn
        exact ⟨n, hn⟩
      · cases h
    obtain ⟨n, hn⟩ := hlhs
    rcases symbols_or_value d.rhs with ⟨xs, hrhs⟩ | ⟨xs, w, ys, hrhs⟩
    · unfold check at h
      rw [hn] at h
      simp only [Candidate.nonterminal] at h
      split at h
      · simp [reservedError, hrhs, looseSymbols_map] at h
      · cases hcheck : d.checkSymbols n d.rhs with
        | ok rest => simp [hcheck, Except.map] at h
        | error e =>
          rw [hcheck] at h
          rw [hrhs] at hcheck
          exact absurd (hcheck.trans (congrArg Except.error (Except.error.inj h)))
            (checkSymbols_map_ne hrhs xs)
    · rw [check_value hn hrhs] at h
      split at h
      · rename_i hreserved
        cases h
        exact ⟨n, xs, ys, hn, hrhs, hreserved⟩
      · cases h
  · intro h
    obtain ⟨n, xs, ys, hn, hrhs, hreserved⟩ := h
    rw [check_value hn hrhs, if_pos hreserved]

/-! ## One draft after the other -/

theorem forall₂_check_iff : List.Forall₂ (fun d r => check d = .ok r) drafts loose ↔
    (drafts.map fun d => (d.lhs, d.rhs)) =
        loose.map (fun r => (Candidate.nonterminal r.1, r.2.map Candidate.symbol)) ∧
      ∀ r ∈ loose, isReserved r.1 = false ∧ ∀ s ∈ r.2, isReserved s.name = false := by
  induction drafts generalizing loose with
  | nil => cases loose <;> simp
  | cons d ds ih =>
    cases loose with
    | nil => simp
    | cons r rest =>
      rw [List.forall₂_cons, ih, check_eq_ok_iff]
      simp only [List.map_cons, List.cons.injEq, List.forall_mem_cons]
      tauto

theorem checkAll_eq_ok_iff_passes : checkAll [] drafts = .ok loose ↔ Passes drafts loose := by
  rw [checkAll_eq_ok_iff, forall₂_check_iff, Passes]
  simp only [List.not_mem_nil, not_false_eq_true, implies_true, and_true]
  tauto

/-- The first draft that is wrong by itself is the one that is reported. -/
theorem checkAll_of_check {before after : List Draft} {seen : List LooseRule} {e : GrammarError}
    (hbefore : checkAll seen before = .ok loose) (hd : d.check = .error e) :
    checkAll seen (before ++ d :: after) = .error e := by
  induction before generalizing seen loose with
  | nil => simp [checkAll, hd]
  | cons b before ih =>
    obtain ⟨r, rest, hr, hfresh, hrest, -⟩ := checkAll_cons_eq_ok_iff.mp hbefore
    simp [checkAll, hr, hfresh, ih hrest, Except.map]

/-- What is reported is what is wrong with the first wrong draft, or that a rule is repeated. -/
theorem exists_check_of_checkAll {seen : List LooseRule} {e : GrammarError}
    (h : checkAll seen drafts = .error e) :
    (∃ before d after loose, drafts = before ++ d :: after ∧ checkAll seen before = .ok loose ∧
      d.check = .error e) ∨ ∃ r, e = .repeated (ruleText r) := by
  induction drafts generalizing seen with
  | nil => cases h
  | cons d ds ih =>
    rw [checkAll] at h
    cases hd : d.check with
    | error e' =>
      rw [hd] at h
      cases h
      exact Or.inl ⟨[], d, ds, [], rfl, rfl, hd⟩
    | ok r =>
      simp only [hd] at h
      split at h
      · cases h
        exact Or.inr ⟨r, rfl⟩
      · rename_i hfresh
        cases hrest : checkAll (r :: seen) ds with
        | ok rest => simp [hrest, Except.map] at h
        | error e' =>
          rw [hrest] at h
          cases h
          refine (ih hrest).imp_left ?_
          intro hfirst
          obtain ⟨before, d', after, loose, rfl, hbefore, hd'⟩ := hfirst
          exact ⟨d :: before, d', after, r :: loose, rfl,
            checkAll_cons_eq_ok_iff.mpr ⟨r, loose, hd, hfresh, hbefore, rfl⟩, hd'⟩

theorem checkAll_eq_nameless_iff : checkAll [] drafts = .error (.nameless v) ↔
    Obscured drafts v := by
  constructor
  · intro h
    rcases exists_check_of_checkAll h with ⟨before, d, after, loose, hsplit, hbefore, hd⟩ | ⟨r, hr⟩
    · exact ⟨before, d, after, loose, hsplit, checkAll_eq_ok_iff_passes.mp hbefore,
        check_eq_nameless_iff.mp hd⟩
    · cases hr
  · intro h
    obtain ⟨before, d, after, loose, rfl, hbefore, hd⟩ := h
    exact checkAll_of_check (checkAll_eq_ok_iff_passes.mpr hbefore) (check_eq_nameless_iff.mpr hd)

/-! ## What the symbols stand for -/

theorem classify_of_defined (production : String) {rhs : List Symbol}
    (h : ∀ n, .nonterminal n ∈ rhs → n ∈ heads) :
    classify heads production (rhs.map .symbol) = .ok rhs := by
  induction rhs with
  | nil => rfl
  | cons x rhs ih =>
    have hrest := ih fun n hn => h n (by simp [hn])
    cases x with
    | terminal t => simp [classify, hrest, Except.map]
    | nonterminal n => simp [classify, h n (by simp), hrest, Except.map]

theorem classifyAll_of_defined (h : ∀ r ∈ rules, ∀ n, .nonterminal n ∈ r.2 → n ∈ heads) :
    classifyAll heads (rules.map fun r => (r.1, r.2.map .symbol)) = .ok rules := by
  induction rules with
  | nil => rfl
  | cons r rules ih =>
    simp [classifyAll, classify_of_defined _ (h r (by simp)), ih fun x hx => h x (by simp [hx]),
      Except.map]

theorem classify_ne_nameless {ss : List LooseSymbol} :
    classify heads production ss ≠ .error (.nameless v) := by
  fun_induction classify heads production ss with
  | case1 => simp
  | case2 => simp
  | case3 t rest ih => cases hrest : classify heads production rest <;> simp_all [Except.map]
  | case4 n rest hn ih => cases hrest : classify heads production rest <;> simp_all [Except.map]
  | case5 => simp

theorem classifyAll_ne_nameless : classifyAll heads loose ≠ .error (.nameless v) := by
  induction loose with
  | nil => simp [classifyAll]
  | cons r loose ih =>
    rw [classifyAll]
    cases hr : classify heads (ruleText r) r.2 with
    | error e =>
      intro h
      cases h
      exact classify_ne_nameless hr
    | ok rhs => cases hrest : classifyAll heads loose <;> simp_all [Except.map]

theorem startName_of_names (h : start.Names n) : startName heads start =
    if n ∈ heads then .ok n else .error (.undefined n (Production.textOf goalName [n, endName])) := by
  rcases h with rfl | rfl <;> rfl

/-- Rules that can stand in one grammar behind the goal. -/
structure Consistent (rules : List (String × List Symbol)) : Prop where
  nodup : rules.Nodup
  unreserved : ∀ r ∈ rules, isReserved r.1 = false ∧ ∀ x ∈ r.2, isReserved x.name = false
  defined : ∀ r ∈ rules, ∀ n, .nonterminal n ∈ r.2 → n ∈ rules.map Prod.fst
  apart : ∀ r ∈ rules, ∀ t, .terminal t ∈ r.2 → t ∉ rules.map Prod.fst

/-- Drafts that state these rules. -/
def States (drafts : List Draft) (rules : List (String × List Symbol)) : Prop :=
  (drafts.map fun d => (d.lhs, d.rhs)) =
    rules.map fun r => (Candidate.nonterminal r.1, r.2.map Candidate.ofSymbol)

theorem mem_terminalsOf {t : String} : t ∈ terminalsOf rules ↔ ∃ r ∈ rules, .terminal t ∈ r.2 := by
  simp only [terminalsOf, List.mem_flatMap, List.mem_filterMap]
  constructor
  · intro h
    obtain ⟨r, hr, x, hx, hxt⟩ := h
    cases x with
    | terminal s =>
      cases hxt
      exact ⟨r, hr, hx⟩
    | nonterminal s => cases hxt
  · intro h
    obtain ⟨r, hr, ht⟩ := h
    exact ⟨r, hr, _, ht, rfl⟩

/-- The rules of drafts, before and after their symbols are known to be of the two classes. -/
theorem map_loose (rules : List (String × List Symbol)) :
    (rules.map fun r => (r.1, r.2.map LooseSymbol.symbol)).map
        (fun r : LooseRule => (Candidate.nonterminal r.1, r.2.map Candidate.symbol)) =
      rules.map fun r => (Candidate.nonterminal r.1, r.2.map Candidate.ofSymbol) := by
  simp [Candidate.ofSymbol, Function.comp_def]

theorem consistent_of_classified {rest : List (String × List Symbol)}
    (hnodup : (rest.map fun r => (r.1, r.2.map LooseSymbol.symbol)).Nodup)
    (hfree : ∀ r ∈ rest.map fun r => (r.1, r.2.map LooseSymbol.symbol),
      isReserved r.1 = false ∧ ∀ s ∈ r.2, isReserved s.name = false)
    (hdefined : ∀ r ∈ rest, ∀ m, .nonterminal m ∈ r.2 → m ∈ goalName :: rest.map Prod.fst)
    (hapart : ∀ m ∈ rest.map Prod.fst, m ∉ terminalsOf rest) : Consistent rest where
  nodup := hnodup.of_map
  unreserved := fun r hr => by
    obtain ⟨hlhs, hrhs⟩ := hfree _ (List.mem_map_of_mem hr)
    exact ⟨hlhs, fun x hx => hrhs _ (List.mem_map_of_mem hx)⟩
  defined := fun r hr m hm => by
    refine (List.mem_cons.mp (hdefined r hr m hm)).resolve_left ?_
    rintro rfl
    have hname := (hfree _ (List.mem_map_of_mem hr)).2 _ (List.mem_map_of_mem hm)
    exact absurd hname (by decide)
  apart := fun r hr t ht hmem => hapart t hmem (mem_terminalsOf.mpr ⟨r, hr, ht⟩)

/-- A name among the heads is no terminal, with the goal among the rules. -/
theorem Consistent.heads_apart {rest : List (String × List Symbol)} (h : Consistent rest)
    (hn : n ∈ goalName :: rest.map Prod.fst) (start : String) :
    n ∉ terminalsOf ((Production.goal start).rule :: rest) := by
  intro hmem
  obtain ⟨r, hr, ht⟩ := mem_terminalsOf.mp hmem
  rcases List.mem_cons.mp hr with rfl | hr
  · obtain rfl : n = endName := by simpa [Production.rule, Production.goal] using ht
    rcases List.mem_cons.mp hn with hgoal | hn
    · exact absurd hgoal (by decide)
    · obtain ⟨r, hr, hhead⟩ := List.mem_map.mp hn
      have hfree := (h.unreserved r hr).1
      rw [hhead] at hfree
      exact absurd hfree (by decide)
  · rcases List.mem_cons.mp hn with rfl | hn
    · exact absurd ((h.unreserved r hr).2 _ ht) (by decide)
    · exact h.apart r hr n ht hn

theorem shape_iff (h : start.Names n) : shape drafts start = .ok (name, rules) ↔
    name = n ∧ ∃ rest, rules = (Production.goal n).rule :: rest ∧ States drafts rest ∧
      Consistent rest ∧ (n = goalName ∨ n ∈ rest.map Prod.fst) := by
  rw [shape_eq_ok_iff]
  simp only [checkAll_eq_ok_iff_passes, startName_of_names h]
  constructor
  · intro hshape
    obtain ⟨loose, ⟨hdrafts, hnodup, hfree⟩, hname, hrules, hapart⟩ := hshape
    split at hname
    · rename_i hn
      cases hname
      obtain ⟨hmap, hdefined⟩ := classifyAll_spec hrules
      obtain ⟨r, rest, rfl, hgoal, rfl⟩ := List.map_eq_cons_iff.mp hmap
      obtain rfl := goal_of_loose hgoal
      have hheads : (rest.map fun r => (r.1, r.2.map LooseSymbol.symbol)).map Prod.fst =
          rest.map Prod.fst := by simp [Function.comp_def]
      rw [hheads] at hn hdefined hapart
      refine ⟨rfl, rest, rfl, hdrafts.trans (map_loose rest), ?_, List.mem_cons.mp hn⟩
      refine consistent_of_classified hnodup hfree (fun r hr => hdefined r (by simp [hr])) ?_
      intro m hm hmem
      obtain ⟨r, hr, ht⟩ := mem_terminalsOf.mp hmem
      exact hapart m (by simp [hm]) (mem_terminalsOf.mpr ⟨r, by simp [hr], ht⟩)
    · cases hname
  · intro hrules
    obtain ⟨rfl, rest, rfl, hdrafts, hrest, hstart⟩ := hrules
    have hheads : (rest.map fun r => (r.1, r.2.map LooseSymbol.symbol)).map Prod.fst =
        rest.map Prod.fst := by simp [Function.comp_def]
    refine ⟨rest.map fun r => (r.1, r.2.map LooseSymbol.symbol),
      ⟨hdrafts.trans (map_loose rest).symm, ?_, ?_⟩, ?_, ?_, ?_⟩
    · refine List.Nodup.map ?_ hrest.nodup
      intro r r' heq
      obtain ⟨hlhs, hrhs⟩ := Prod.mk.inj heq
      exact Prod.ext hlhs (List.map_injective_iff.mpr (fun _ _ => LooseSymbol.symbol.inj) hrhs)
    · intro r hr
      obtain ⟨r', hr', rfl⟩ := List.mem_map.mp hr
      obtain ⟨hlhs, hrhs⟩ := hrest.unreserved r' hr'
      refine ⟨hlhs, ?_⟩
      intro s hs
      obtain ⟨x, hx, rfl⟩ := List.mem_map.mp hs
      exact hrhs x hx
    · rw [hheads, if_pos (List.mem_cons.mpr hstart)]
    · have hdefined : ∀ r ∈ (Production.goal name).rule :: rest, ∀ m, .nonterminal m ∈ r.2 →
          m ∈ goalName :: rest.map Prod.fst := by
        intro r hr m hm
        rcases List.mem_cons.mp hr with rfl | hr
        · obtain rfl : m = name := by simpa [Production.rule, Production.goal] using hm
          exact List.mem_cons.mpr hstart
        · exact List.mem_cons_of_mem _ (hrest.defined r hr m hm)
      rw [hheads]
      exact classifyAll_of_defined hdefined
    · rw [hheads]
      exact fun m hm => hrest.heads_apart hm name

theorem shape_eq_nameless_iff (h : start.Names n) :
    shape drafts start = .error (.nameless v) ↔ Obscured drafts v := by
  rw [← checkAll_eq_nameless_iff]
  unfold shape
  cases hloose : checkAll [] drafts with
  | error e => simp
  | ok loose =>
    simp only [startName_of_names h]
    constructor
    · intro herror
      split at herror
      · cases herror
        rename_i hname
        split at hname <;> cases hname
      · split at herror
        · cases herror
          rename_i hrules
          exact absurd hrules classifyAll_ne_nameless
        · split at herror <;> cases herror
    · intro herror
      cases herror

/-! ## Drafts that state rules -/

theorem ofSymbol_mem_map {x : Symbol} {ys : List Symbol} :
    Candidate.ofSymbol x ∈ ys.map Candidate.ofSymbol ↔ x ∈ ys :=
  List.mem_map_of_injective fun _ _ h => LooseSymbol.symbol.inj (Candidate.symbol.inj h)

namespace States

variable (h : States drafts rules)

include h

theorem exists_rule (hd : d ∈ drafts) :
    ∃ r ∈ rules, d.lhs = .nonterminal r.1 ∧ d.rhs = r.2.map .ofSymbol := by
  have hmem : (d.lhs, d.rhs) ∈ drafts.map fun d => (d.lhs, d.rhs) :=
    List.mem_map_of_mem (f := fun d : Draft => (d.lhs, d.rhs)) hd
  rw [h] at hmem
  obtain ⟨r, hr, heq⟩ := List.mem_map.mp hmem
  obtain ⟨hlhs, hrhs⟩ := Prod.mk.inj heq
  exact ⟨r, hr, hlhs.symm, hrhs.symm⟩

theorem exists_draft {r : String × List Symbol} (hr : r ∈ rules) :
    ∃ d ∈ drafts, d.lhs = .nonterminal r.1 ∧ d.rhs = r.2.map .ofSymbol := by
  have hmem := List.mem_map_of_mem
    (f := fun r : String × List Symbol => (Candidate.nonterminal r.1, r.2.map Candidate.ofSymbol)) hr
  rw [← h] at hmem
  obtain ⟨d, hd, heq⟩ := List.mem_map.mp hmem
  exact ⟨d, hd, (Prod.mk.inj heq).1, (Prod.mk.inj heq).2⟩

theorem head_mem_iff : n ∈ rules.map Prod.fst ↔ ∃ d ∈ drafts, d.lhs = .nonterminal n := by
  constructor
  · intro hn
    obtain ⟨r, hr, rfl⟩ := List.mem_map.mp hn
    obtain ⟨d, hd, hlhs, -⟩ := h.exists_draft hr
    exact ⟨d, hd, hlhs⟩
  · intro hn
    obtain ⟨d, hd, hlhs⟩ := hn
    obtain ⟨r, hr, hlhs', -⟩ := h.exists_rule hd
    cases hlhs.symm.trans hlhs'
    exact List.mem_map_of_mem hr

/-- Rules of drafts have the symbols of the drafts. -/
theorem places_iff {x : Symbol} : (∃ d ∈ drafts, .ofSymbol x ∈ d.places) ↔
    ∃ r ∈ rules, x = .nonterminal r.1 ∨ x ∈ r.2 := by
  constructor
  · intro hx
    obtain ⟨d, hd, hmem⟩ := hx
    obtain ⟨r, hr, hlhs, hrhs⟩ := h.exists_rule hd
    refine ⟨r, hr, ?_⟩
    rw [places, hlhs, hrhs] at hmem
    rcases List.mem_cons.mp hmem with hx | hx
    · cases hx
      exact Or.inl rfl
    · exact Or.inr (ofSymbol_mem_map.mp hx)
  · intro hx
    obtain ⟨r, hr, hmem⟩ := hx
    obtain ⟨d, hd, hlhs, hrhs⟩ := h.exists_draft hr
    refine ⟨d, hd, ?_⟩
    rw [places, hlhs, hrhs]
    rcases hmem with rfl | hx
    · exact List.mem_cons_self
    · exact List.mem_cons_of_mem _ (ofSymbol_mem_map.mpr hx)

end States

theorem exists_symbols {cs : List Candidate} (h : ∀ c ∈ cs, ∃ x, c = .ofSymbol x) :
    ∃ xs : List Symbol, cs = xs.map .ofSymbol := by
  induction cs with
  | nil => exact ⟨[], rfl⟩
  | cons c cs ih =>
    obtain ⟨x, rfl⟩ := h c (by simp)
    obtain ⟨xs, rfl⟩ := ih fun c hc => h c (by simp [hc])
    exact ⟨x :: xs, rfl⟩

theorem exists_states (hlhs : ∀ d ∈ drafts, ∃ n, d.lhs = .nonterminal n)
    (hrhs : ∀ d ∈ drafts, ∀ c ∈ d.rhs, ∃ x, c = .ofSymbol x) : ∃ rules, States drafts rules := by
  induction drafts with
  | nil => exact ⟨[], rfl⟩
  | cons d ds ih =>
    obtain ⟨n, hn⟩ := hlhs d (by simp)
    obtain ⟨xs, hxs⟩ := exists_symbols (hrhs d (by simp))
    obtain ⟨rules, hrules⟩ := ih (fun e he => hlhs e (by simp [he])) fun e he => hrhs e (by simp [he])
    refine ⟨(n, xs) :: rules, ?_⟩
    simp only [States, List.map_cons, hn, hxs]
    exact congrArg _ hrules

/-- Drafts can stand in one grammar if the rules can that they state. -/
theorem coherent_iff : Coherent drafts ↔ ∃ rules, States drafts rules ∧ Consistent rules := by
  constructor
  · intro h
    obtain ⟨rules, hrules⟩ := exists_states h.lhs h.rhs
    refine ⟨rules, hrules, ?_, ?_, ?_, ?_⟩
    · have hdistinct := h.distinct
      rw [hrules] at hdistinct
      exact hdistinct.of_map
    · intro r hr
      obtain ⟨d, hd, hlhs, hrhs⟩ := hrules.exists_draft hr
      have hplace : .ofSymbol (.nonterminal r.1) ∈ d.places := by
        rw [places, hlhs]
        exact List.mem_cons_self
      refine ⟨h.unreserved d hd _ hplace, ?_⟩
      intro x hx
      exact h.unreserved d hd x (List.mem_cons_of_mem _ (hrhs ▸ ofSymbol_mem_map.mpr hx))
    · intro r hr m hm
      obtain ⟨d, hd, -, hrhs⟩ := hrules.exists_draft hr
      exact hrules.head_mem_iff.mpr (h.defined d hd m (hrhs ▸ ofSymbol_mem_map.mpr hm))
    · intro r hr t ht hmem
      obtain ⟨d, hd, -, hrhs⟩ := hrules.exists_draft hr
      obtain ⟨e, he, hlhs⟩ := hrules.head_mem_iff.mp hmem
      exact h.apart d hd e he t (List.mem_cons_of_mem _ (hrhs ▸ ofSymbol_mem_map.mpr ht))
        (hlhs ▸ List.mem_cons_self)
  · intro h
    obtain ⟨rules, hrules, hconsistent⟩ := h
    refine ⟨?_, ?_, ?_, ?_, ?_, ?_⟩
    · intro d hd
      obtain ⟨r, -, hlhs, -⟩ := hrules.exists_rule hd
      exact ⟨r.1, hlhs⟩
    · intro d hd c hc
      obtain ⟨r, -, -, hrhs⟩ := hrules.exists_rule hd
      rw [hrhs] at hc
      obtain ⟨x, -, rfl⟩ := List.mem_map.mp hc
      exact ⟨x, rfl⟩
    · intro d hd x hx
      obtain ⟨r, hr, hxr⟩ := hrules.places_iff.mp ⟨d, hd, hx⟩
      obtain ⟨hlhs, hrhs⟩ := hconsistent.unreserved r hr
      rcases hxr with rfl | hxr
      · exact hlhs
      · exact hrhs x hxr
    · rw [hrules]
      refine List.Nodup.map ?_ hconsistent.nodup
      intro r r' heq
      obtain ⟨hlhs, hrhs⟩ := Prod.mk.inj heq
      refine Prod.ext ?_ (List.map_injective_iff.mpr ?_ hrhs)
      · simpa [Candidate.nonterminal] using hlhs
      · exact fun _ _ h => LooseSymbol.symbol.inj (Candidate.symbol.inj h)
    · intro d hd m hm
      obtain ⟨r, hr, -, hrhs⟩ := hrules.exists_rule hd
      rw [hrhs] at hm
      exact hrules.head_mem_iff.mp (hconsistent.defined r hr m (ofSymbol_mem_map.mp hm))
    · intro d hd e he t ht hmem
      obtain ⟨r, hr, hxr⟩ := hrules.places_iff.mp ⟨d, hd, ht⟩
      obtain ⟨r', hr', hxr'⟩ := hrules.places_iff.mp ⟨e, he, hmem⟩
      have hterminal : .terminal t ∈ r.2 := hxr.resolve_left (by simp)
      refine hconsistent.apart r hr t hterminal ?_
      rcases hxr' with hlhs | hrhs
      · obtain rfl := Symbol.nonterminal.inj hlhs
        exact List.mem_map_of_mem hr'
      · exact hconsistent.defined r' hr' t hrhs

end Draft

/-! ## The grammar of drafts -/

namespace Grammar

variable {g : Grammar} {p : Production} {i : Nat}

theorem index_of_getElem? (h : g.productions[i]? = some p) : p.index = i := by
  have hindex := congrArg (·[i]?) g.wellFormed.index_eq
  simp only [List.getElem?_map, h, Option.map_some] at hindex
  obtain ⟨hlt, heq⟩ := List.getElem?_eq_some_iff.mp hindex.symm
  exact heq.symm.trans (List.getElem_range hlt)

/-- The key of a name is its place in the alphabet. -/
theorem symbolKey?_eq_some_iff {name : String} : g.symbolKey? name = some i ↔
    g.alphabet[i]?.map Symbol.name = some name := by
  constructor
  · intro h
    obtain ⟨j, hj, heq⟩ := List.mem_mapIdx.mp (Association.mem_of_lookup h)
    obtain ⟨rfl, rfl⟩ := Prod.mk.inj heq
    rw [List.getElem?_eq_getElem hj, Option.map_some]
  · intro h
    obtain ⟨x, hx, rfl⟩ := Option.map_eq_some_iff.mp h
    exact symbolKey?_eq hx

/-- The alphabet is made of the goal's symbols and those of the other productions. -/
theorem mem_alphabet_iff {x : Symbol} (g : Grammar) : x ∈ g.alphabet ↔
    ∃ p ∈ g.productions, x = .nonterminal p.lhs ∨ x ∈ p.rhs := by
  constructor
  · intro h
    cases x with
    | terminal t =>
      obtain ⟨p, hp, hx⟩ := mem_terminals.mp (terminal_mem_alphabet.mp h)
      exact ⟨p, hp, Or.inr hx⟩
    | nonterminal n =>
      obtain ⟨p, hp, rfl⟩ := mem_nonterminals.mp (nonterminal_mem_alphabet.mp h)
      exact ⟨p, hp, Or.inl rfl⟩
  · intro h
    obtain ⟨p, hp, rfl | hx⟩ := h
    · exact nonterminal_mem_alphabet.mpr (mem_nonterminals.mpr ⟨p, hp, rfl⟩)
    · exact mem_alphabet_of_mem_rhs hp hx

end Grammar

namespace AttributedGrammar

variable {drafts : List Draft} {start : Candidate} {n : String} {a : AttributedGrammar}

theorem ofDrafts_eq_error_iff {e : GrammarError} :
    ofDrafts drafts start = .error e ↔ Draft.shape drafts start = .error e := by
  cases hshape : Draft.shape drafts start with
  | ok shape =>
    rw [ofDrafts_eq hshape]
    simp
  | error e' =>
    unfold ofDrafts
    split
    · rename_i e'' hshape'
      cases Except.error.inj (hshape.symm.trans hshape')
      simp
    · rename_i name rules hshape'
      rw [hshape] at hshape'
      cases hshape'

theorem actions_of_ofDrafts (h : ofDrafts drafts start = .ok a) :
    a.actions = none :: drafts.map Draft.action := by
  have heq := Except.ok.inj (h.symm.trans (ofDrafts_eq (shape_of_ofDrafts h)))
  exact congrArg AttributedGrammar.actions heq

theorem exists_ofDrafts_iff (h : start.Names n) : (∃ a, ofDrafts drafts start = .ok a) ↔
    Draft.Coherent drafts ∧ (n = goalName ∨ ∃ d ∈ drafts, d.lhs = .nonterminal n) := by
  constructor
  · intro hok
    obtain ⟨a, ha⟩ := hok
    obtain ⟨-, rest, -, hstates, hrest, hstart⟩ := (Draft.shape_iff h).mp (shape_of_ofDrafts ha)
    exact ⟨Draft.coherent_iff.mpr ⟨rest, hstates, hrest⟩, hstart.imp_right hstates.head_mem_iff.mp⟩
  · intro hcoherent
    obtain ⟨hcoherent, hstart⟩ := hcoherent
    obtain ⟨rest, hstates, hrest⟩ := Draft.coherent_iff.mp hcoherent
    exact ⟨_, ofDrafts_eq ((Draft.shape_iff h).mpr
      ⟨rfl, rest, rfl, hstates, hrest, hstart.imp_right hstates.head_mem_iff.mpr⟩)⟩

/-- A grammar made from drafts consists of them and the goal. -/
theorem makes_of_ofDrafts (h : start.Names n) (ha : ofDrafts drafts start = .ok a) :
    Draft.Makes drafts n a := by
  obtain ⟨hname, rest, hrules, hstates, -, hstart⟩ := (Draft.shape_iff h).mp (shape_of_ofDrafts ha)
  have hlength : rest.length = drafts.length := by
    simpa using (congrArg List.length hstates).symm
  refine ⟨hname, ?_, ?_, ?_, a.grammar.alphabet_pairwise, ?_, fun _ _ =>
    Grammar.symbolKey?_eq_some_iff, fun m => ⟨List.filter_sublist, fun _ => Grammar.mem_productionsFor⟩⟩
  · rw [← hname, ← List.head?_eq_getElem?, a.grammar.wellFormed.goal_first]
  · simpa [hlength] using congrArg List.length hrules
  · intro i d hd
    have hi := congrArg (·[i]?) hstates
    simp only [List.getElem?_map, hd, Option.map_some] at hi
    obtain ⟨r, hr, heq⟩ := Option.map_eq_some_iff.mp hi.symm
    obtain ⟨hlhs, hrhs⟩ := Prod.mk.inj heq
    have hp := congrArg (·[i + 1]?) hrules
    simp only [List.getElem?_map, List.getElem?_cons_succ, hr] at hp
    obtain ⟨p, hp, hrule⟩ := Option.map_eq_some_iff.mp hp
    have hindex := Grammar.index_of_getElem? hp
    refine ⟨p, hp, hindex, by rw [← hlhs, ← hrule]; rfl, by rw [← hrhs, ← hrule]; rfl, ?_⟩
    simp [semantics, actions_of_ofDrafts ha, hindex, hd]
  · intro x
    have hplaces := hstates.places_iff (x := x)
    have hproductions : x ∈ a.grammar.alphabet ↔
        ∃ r ∈ (Production.goal n).rule :: rest, x = .nonterminal r.1 ∨ x ∈ r.2 := by
      rw [← hrules, a.grammar.mem_alphabet_iff]
      simp [Production.rule]
    rw [hproductions, hplaces]
    simp only [Production.rule, Production.goal, List.mem_cons, List.not_mem_nil, or_false,
      exists_eq_or_imp]
    constructor
    · intro hx
      rcases hx with (hgoal | rfl | hend) | hrest
      · exact Or.inr (Or.inl hgoal)
      · -- The start is the goal itself, or it has a rule and so is a symbol of a draft.
        rcases hstart with rfl | hstart
        · exact Or.inr (Or.inl rfl)
        · obtain ⟨r, hr, rfl⟩ := List.mem_map.mp hstart
          exact Or.inr (Or.inr ⟨r, hr, Or.inl rfl⟩)
      · exact Or.inl hend
      · exact Or.inr (Or.inr hrest)
    · intro hx
      rcases hx with hend | hgoal | hrest
      · exact Or.inl (Or.inr (Or.inr hend))
      · exact Or.inl (Or.inl hgoal)
      · exact Or.inr hrest

/-- Drafts are accepted exactly if they can stand in one grammar and the start has rules
there, or is the goal. What is not accepted is reported as an error of the grammar, but
for a reserved name in front of a value that is no symbol. -/
theorem ofDrafts_exact (drafts : List Draft) {start : Candidate} {n : String} (h : start.Names n) :
    ((∃ a, ofDrafts drafts start = .ok a) ↔
      Draft.Coherent drafts ∧ (n = goalName ∨ ∃ d ∈ drafts, d.lhs = .nonterminal n)) ∧
    (∀ a, ofDrafts drafts start = .ok a → Draft.Makes drafts n a) ∧
    ∀ v, ofDrafts drafts start = .error (.nameless v) ↔ Draft.Obscured drafts v :=
  ⟨exists_ofDrafts_iff h, fun _ ha => makes_of_ofDrafts h ha,
    fun _ => ofDrafts_eq_error_iff.trans (Draft.shape_eq_nameless_iff h)⟩

/-- One rule over one terminal. -/
def single : List Draft := [⟨.nonterminal "x", [.terminal "A"], none⟩]

theorem single_exact : (Candidate.value (.str "x")).Names "x" ∧
    ∃ a, ofDrafts single (.value (.str "x")) = .ok a ∧ Draft.Makes single "x" a := by
  have hrules : Draft.States single [("x", [.terminal "A"])] := rfl
  have hconsistent : Draft.Consistent [("x", [.terminal "A"])] :=
    ⟨by decide, by decide, by simp, by simp⟩
  have hstart : (Candidate.value (.str "x")).Names "x" := Or.inr rfl
  have hexact := ofDrafts_exact single hstart
  obtain ⟨a, ha⟩ := hexact.1.mpr ⟨Draft.coherent_iff.mpr ⟨_, hrules, hconsistent⟩,
    Or.inr ⟨_, List.mem_cons_self, rfl⟩⟩
  exact ⟨hstart, a, ha, hexact.2.1 a ha⟩

/-- Without any drafts there is a grammar all the same, with the reserved name of the goal
for a start; and the end of the input in a draft is not reported, with a number behind it. -/
theorem goal_accepted_for_start : isReserved goalName = true ∧
    (∃ a, ofDrafts [] (.value (.str goalName)) = .ok a ∧ a.grammar.start = goalName) ∧
    ofDrafts [⟨.nonterminal "x", [.terminal endName, .value (.int 5)], none⟩] (.nonterminal "x") =
      .error (.nameless (.int 5)) := by
  have hempty : Draft.Coherent [] := Draft.coherent_iff.mpr ⟨[], rfl, by simp, by simp, by simp, by simp⟩
  obtain ⟨a, ha⟩ := (exists_ofDrafts_iff (Or.inr rfl)).mpr ⟨hempty, Or.inl rfl⟩
  refine ⟨by decide, ⟨a, ha, (makes_of_ofDrafts (Or.inr rfl) ha).start⟩, ?_⟩
  refine ofDrafts_eq_error_iff.mpr ((Draft.shape_eq_nameless_iff (Or.inl rfl)).mpr ?_)
  exact ⟨[], _, [], [], rfl, ⟨rfl, by simp, by simp⟩, "x", [.symbol (.terminal endName)], [], rfl,
    rfl, Or.inr ⟨_, List.mem_cons_self, by decide⟩⟩

end AttributedGrammar

end Slr
