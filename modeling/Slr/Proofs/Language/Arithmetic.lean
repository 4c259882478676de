import Slr.Language.Arithmetic
import Slr.Proofs.Language.Decimal
import Slr.Proofs.Language.Made
import Slr.Proofs.Language.Scanner
import Slr.Proofs.Table.Cover

/-! # Expressions have the value that they are read with

There is a level for each nonterminal of the grammar, and what may stand at a level may
stand at every level below it. An expression is written with parentheses where it
would stand at a level that is too high for it, and anywhere else too. By induction on
how it is written, the nonterminal of its level yields its value over its tokens, in a
tree that takes room for each level of nesting, and for no link of a chain. -/

namespace Slr.Language.Arithmetic

open Lexicon

/-! ## Expressions -/

inductive Operator where
  | plus
  | minus
  | times

namespace Operator

def sign : Operator → Char
  | plus => '+'
  | minus => '-'
  | times => '*'

/-- The level that an operator joins operands at; it binds tighter, the higher that is. -/
def level : Operator → Nat
  | plus | minus => 0
  | times => 1

def apply : Operator → Int → Int → Int
  | plus => (· + ·)
  | minus => (· - ·)
  | times => (· * ·)

end Operator

inductive Expr where
  | literal (n : Nat)
  | binary (op : Operator) (x y : Expr)
  | negation (x : Expr)

def Expr.eval : Expr → Int
  | literal n => n
  | binary op x y => op.apply x.eval y.eval
  | negation x => -x.eval

/-- The words of an expression at a level, with so many parentheses and minuses in front one within
the other: an operator's left operand may have its operators at the same level, its right
operand only at the next, and behind a minus in front no operator stands free. Parentheses
put anything at any level. -/
inductive Written : Nat → Nat → Expr → List (List Char) → Prop
  | literal {level n : Nat} {word : List Char} (h : Decimal n word) :
      Written 0 level (.literal n) [word]
  | binary {depth depth' level : Nat} {op : Operator} {x y : Expr} {words words' : List (List Char)}
      (hlevel : level ≤ op.level) (hx : Written depth op.level x words)
      (hy : Written depth' (op.level + 1) y words') :
      Written (max depth depth') level (.binary op x y) (words ++ [op.sign] :: words')
  | negation {depth level : Nat} {x : Expr} {words : List (List Char)} (hx : Written depth 2 x words) :
      Written (depth + 1) level (.negation x) (['-'] :: words)
  | grouped {depth level : Nat} {x : Expr} {words : List (List Char)} (hx : Written depth 0 x words) :
      Written (depth + 1) level x (['('] :: (words ++ [[')']]))

/-! ## The grammar -/

/-- The drafts that the rules come to. -/
def drafts : List Draft :=
  [⟨.nonterminal "expression", [.nonterminal "expression", .terminal "+", .nonterminal "term"],
      some (binary Value.add)⟩,
    ⟨.nonterminal "expression", [.nonterminal "expression", .terminal "-", .nonterminal "term"],
      some (binary Value.sub)⟩,
    ⟨.nonterminal "expression", [.nonterminal "term"], some same⟩,
    ⟨.nonterminal "term", [.nonterminal "term", .terminal "*", .nonterminal "factor"],
      some (binary Value.mul)⟩,
    ⟨.nonterminal "term", [.nonterminal "term", .terminal "/", .nonterminal "factor"],
      some (binary Value.div)⟩,
    ⟨.nonterminal "term", [.nonterminal "factor"], some same⟩,
    ⟨.nonterminal "factor", [.terminal numberKind], some same⟩,
    ⟨.nonterminal "factor", [.terminal "(", .nonterminal "expression", .terminal ")"], some inner⟩,
    ⟨.nonterminal "factor", [.terminal "-", .nonterminal "factor"], some negate⟩]

def shapes : List (String × List Symbol) :=
  [(goalName, [.nonterminal "expression", .terminal endName]),
    ("expression", [.nonterminal "expression", .terminal "+", .nonterminal "term"]),
    ("expression", [.nonterminal "expression", .terminal "-", .nonterminal "term"]),
    ("expression", [.nonterminal "term"]),
    ("term", [.nonterminal "term", .terminal "*", .nonterminal "factor"]),
    ("term", [.nonterminal "term", .terminal "/", .nonterminal "factor"]),
    ("term", [.nonterminal "factor"]), ("factor", [.terminal numberKind]),
    ("factor", [.terminal "(", .nonterminal "expression", .terminal ")"]),
    ("factor", [.terminal "-", .nonterminal "factor"])]

theorem drafts_shape :
    Draft.shape drafts (.nonterminal "expression") = .ok ("expression", shapes) := by
  cbv

/-- The grammar of expressions. -/
def expressions : AttributedGrammar :=
  ⟨⟨"expression", Draft.number 0 shapes, Draft.wellFormed_of_shape drafts_shape⟩,
    none :: drafts.map Draft.action⟩

theorem gather_eq :
    (Workshop.gather ((Workshop.empty family).refTo (.written expressionRule)) (.empty family)).1 =
      .ok drafts := by
  rfl

theorem grammar_eq : grammar = .ok expressions :=
  (Workshop.grammar_of_gather gather_eq).trans (AttributedGrammar.ofDrafts_eq drafts_shape)

def cover : List (List Place) :=
  let factors : List Place := [(7, 0), (8, 0), (9, 0)]
  let terms : List Place := [(4, 0), (5, 0), (6, 0)] ++ factors
  let sums : List Place := [(1, 0), (2, 0), (3, 0)] ++ terms
  [(0, 0) :: (8, 1) :: sums, (1, 2) :: terms, (2, 2) :: terms, (4, 2) :: factors, (5, 2) :: factors,
    (9, 1) :: factors, [(0, 1), (1, 1), (2, 1), (8, 2)], [(3, 1), (4, 1), (5, 1)],
    [(1, 3), (4, 1), (5, 1)], [(2, 3), (4, 1), (5, 1)], [(6, 1)], [(4, 3)], [(5, 3)], [(9, 2)],
    [(7, 1)], [(8, 3)]]

theorem expressions_covered : expressions.grammar.Cover cover := by decide

/-! ## What it yields -/

/-- The nonterminal of a level. -/
def levelName : Nat → String
  | 0 => "expression"
  | 1 => "term"
  | _ => "factor"

/-- What nonterminals stand for, with so much room. -/
abbrev Stated (room : Nat) : Meaning := expressions.grammar.YieldsIn expressions.semantics room

variable {op : Operator} {room depth level level' n : Nat} {a b : Int} {x : Expr} {v : Value}
  {ts us : List Token} {tok l r : Token} {c : Char} {cs word : List Char}
  {words : List (List Char)} {toks : List Token}

namespace Stated

theorem of_term (h : Stated room "term" v ts) : Stated room "expression" v ts :=
  .unit ⟨3, "expression", [.nonterminal "term"]⟩ (by decide) rfl h rfl rfl

theorem of_factor (h : Stated room "factor" v ts) : Stated room "term" v ts :=
  .unit ⟨6, "term", [.nonterminal "factor"]⟩ (by decide) rfl h rfl rfl

/-- What stands at a level stands at those below. -/
theorem lower (hlevel : level ≤ level') (h : Stated room (levelName level') v ts) :
    Stated room (levelName level) v ts := by
  induction hlevel with
  | refl => exact h
  | @step top _ ih =>
    refine ih ?_
    match top with
    | 0 => exact of_term h
    | 1 => exact of_factor h
    | _ + 2 => exact h

theorem of_level (h : Stated room "factor" v ts) : Stated room (levelName level) v ts :=
  lower (show level ≤ level + 2 from Nat.le_add_right _ _) h

theorem number (hk : tok.kind = numberKind) : Stated (room + 1) "factor" tok.value [tok] :=
  .node ⟨7, "factor", [.terminal numberKind]⟩ (by decide) (.terminal hk .nil) rfl

theorem group (hl : l.kind = "(") (h : Stated (room + 2) "expression" v ts) (hr : r.kind = ")") :
    Stated (room + 3) "factor" v (l :: (ts ++ [r])) :=
  .node ⟨8, "factor", [.terminal "(", .nonterminal "expression", .terminal ")"]⟩ (by decide)
    (.terminal hl (.nonterminal h (.terminal hr .nil))) rfl

theorem negation (hm : tok.kind = "-") (h : Stated (room + 1) "factor" (.int a) ts) :
    Stated (room + 2) "factor" (.int (-a)) (tok :: ts) :=
  .node ⟨9, "factor", [.terminal "-", .nonterminal "factor"]⟩ (by decide)
    (.terminal hm h.parts_one) rfl

theorem binary (h : Stated (room + 3) (levelName op.level) (.int a) ts)
    (hop : tok.kind = String.ofList [op.sign])
    (h' : Stated (room + 1) (levelName (op.level + 1)) (.int b) us) :
    Stated (room + 3) (levelName op.level) (.int (op.apply a b)) (ts ++ tok :: us) := by
  cases op with
  | plus =>
    exact .node ⟨1, "expression", [.nonterminal "expression", .terminal "+", .nonterminal "term"]⟩
      (by decide) (.nonterminal h (.terminal hop h'.parts_one)) rfl
  | minus =>
    exact .node ⟨2, "expression", [.nonterminal "expression", .terminal "-", .nonterminal "term"]⟩
      (by decide) (.nonterminal h (.terminal hop h'.parts_one)) rfl
  | times =>
    exact .node ⟨4, "term", [.nonterminal "term", .terminal "*", .nonterminal "factor"]⟩
      (by decide) (.nonterminal h (.terminal hop h'.parts_one)) rfl

end Stated

/-! ## The words in a text -/

theorem isOperator_iff : isOperator c = true ↔
    c = '-' ∨ c = '+' ∨ c = '*' ∨ c = '/' ∨ c = '(' ∨ c = ')' := by
  show ['-', '+', '*', '/', '(', ')'].contains c = true ↔ _
  simp

theorem isMark (h : isOperator c = true) : lexicon.IsMark c := by
  rcases isOperator_iff.mp h with rfl | rfl | rfl | rfl | rfl | rfl <;>
    exact ⟨by decide, fun _ => rfl, _, _, rfl, by decide⟩

theorem Operator.isMark (op : Operator) : lexicon.IsMark op.sign := by
  cases op <;> exact Arithmetic.isMark rfl

theorem not_isOperator_of_isDigit (h : Number.isDigit c = true) : isOperator c = false := by
  by_contra hop
  rw [Bool.not_eq_false] at hop
  rcases isOperator_iff.mp hop with rfl | rfl | rfl | rfl | rfl | rfl <;> cases h

/-- A literal ends where no digit follows, and no point. -/
theorem numberLength_append (hword : ∀ c ∈ word, Number.isDigit c = true)
    (hcs : ∀ c ∈ cs.head?, Number.isDigit c = false ∧ c ≠ '.') :
    numberLength (word ++ cs) = word.length := by
  have hcount : countDigits (word ++ cs) = word.length :=
    countDigits_append hword fun c hc => (hcs c hc).1
  unfold numberLength
  simp only [hcount, List.drop_left]
  split
  · exact absurd rfl (hcs '.' (by simp)).2
  · rfl

theorem wordLength_of_isDigit (h : Number.isDigit c = true) :
    wordLength (c :: cs) = numberLength (c :: cs) := by
  rw [wordLength, if_neg (by simp [not_isOperator_of_isDigit h]), if_pos h]

/-- Digits are a word, unless a digit or a point stands behind them. -/
theorem wordLength_append (hne : word ≠ []) (hword : ∀ c ∈ word, Number.isDigit c = true)
    (hcs : ∀ c ∈ cs.head?, Number.isDigit c = false ∧ c ≠ '.') :
    wordLength (word ++ cs) = word.length := by
  obtain ⟨c, rest, rfl⟩ := List.exists_cons_of_ne_nil hne
  have hc : Number.isDigit c = true := hword c (by simp)
  rw [List.cons_append, wordLength_of_isDigit hc]
  exact numberLength_append hword hcs

theorem not_isDigit_of_bounds (h : lexicon.Bounds cs) :
    ∀ c ∈ cs.head?, Number.isDigit c = false ∧ c ≠ '.' := by
  intro c hc
  refine ⟨h.not_isDigit ?_ c hc, ?_⟩
  · intro d hdigit
    exact @wordLength_append [] [d, d] (by simp) (by simp [hdigit]) (by simp)
  · rintro rfl
    rcases h '.' hc with hblank | hmark
    · cases hblank
    · exact absurd (hmark.alone []) (by decide)

theorem token_literal (h : Decimal n word) : token word = .ok (numberKind, .int n) := by
  have hpoint : '.' ∉ word := fun hmem => absurd (h.isDigit '.' hmem) (by decide)
  rw [token, if_pos h.toDigits.any_isDigit, if_neg hpoint, h.readInt]
  rfl

theorem token_sign (op : Operator) : token [op.sign] = .ok (sign [op.sign]) := by
  cases op <;> rfl

theorem isWord_literal (h : Decimal n word) : lexicon.IsWord word where
  nonempty := h.nonempty
  solid := h.toDigits.solid
  ends := fun _ hcs => wordLength_append h.nonempty h.isDigit (not_isDigit_of_bounds hcs)
  read := ⟨_, _, token_literal h, by decide⟩

theorem Written.separable (h : Written depth level x words) : lexicon.Separable words := by
  induction h with
  | literal h => exact .one (isWord_literal h)
  | binary _ _ _ hx hy => exact hx.append_mark (Operator.isMark _) hy
  | negation _ hx => exact .mark_cons (isMark rfl) hx
  | grouped _ hx => exact .mark_cons (isMark rfl) (hx.append_mark (isMark rfl) .nil)

/-- The room at a level: each of the two above it takes two more, and what nests five. -/
def roomAt (depth level : Nat) : Nat := 5 * depth + 1 + 2 * (2 - level)

theorem Operator.level_le (op : Operator) : op.level ≤ 1 := by cases op <;> decide

theorem Written.stated (h : Written depth level x words)
    (hs : List.Forall₂ lexicon.Stands words toks) :
    Stated (roomAt depth level) (levelName level) (.int x.eval) toks := by
  induction h generalizing toks with
  | literal h =>
    obtain ⟨tok, hword, rfl⟩ := exists_one_of_stands hs
    obtain ⟨hkind, hvalue⟩ := hword.reads (token_literal h)
    rw [Expr.eval, ← hvalue]
    have hnumber : Stated 1 "factor" tok.value [tok] := .number hkind
    exact hnumber.of_level.mono (by unfold roomAt; omega)
  | @binary depth depth' level op x y words words' hlevel _ _ hx hy =>
    obtain ⟨us, tok, us', hwords, hop, hwords', rfl⟩ := exists_joined_of_stands hs
    have hle := op.level_le
    have hleft := (hx hwords).mono (show roomAt depth op.level ≤
      5 * max depth depth' + 2 * (1 - op.level) + 3 by unfold roomAt; omega)
    have hright := (hy hwords').mono (show roomAt depth' (op.level + 1) ≤
      5 * max depth depth' + 2 * (1 - op.level) + 1 by unfold roomAt; omega)
    have hboth := Stated.binary hleft (hop.reads (token_sign _)).1 hright
    exact (hboth.lower hlevel).mono (by unfold roomAt; omega)
  | @negation depth level x words _ hx =>
    obtain ⟨tok, us, hm, hwords, rfl⟩ := List.forall₂_cons_left_iff.mp hs
    have hfactor : Stated (5 * depth + 1) "factor" (.int x.eval) us := hx hwords
    exact (hfactor.negation (hm.reads rfl).1).of_level.mono (by unfold roomAt; omega)
  | @grouped depth level x words _ hx =>
    obtain ⟨l, us, r, hl, hwords, hr, rfl⟩ := exists_between_of_stands hs
    have hinner : Stated (5 * depth + 3 + 2) "expression" (.int x.eval) us := hx hwords
    exact (hinner.group (hl.reads rfl).1 (hr.reads rfl).1).of_level.mono (by unfold roomAt; omega)

/-! ## The value -/

theorem evaluate?_mono {limit fuel fuel' : Nat} {text : String}
    {result : Except ParseError Value} (hle : fuel ≤ fuel')
    (h : evaluate? limit fuel text = some result) : evaluate? limit fuel' text = some result := by
  unfold evaluate? parse? at h ⊢
  cases hg : grammar with
  | error e => simp [hg] at h
  | ok g =>
    cases ht : g.grammar.table with
    | error e => simp [hg, ht] at h
    | ok t =>
      simp only [hg, ht, Option.map_eq_some_iff] at h ⊢
      obtain ⟨o, ho, hresult⟩ := h
      exact ⟨o, Ascent.parse?_mono hle ho, hresult⟩

/-- The result is this value, unless fewer calls may be open than it takes; then it may be that
the text is too deep. -/
def Gives (v : Value) (calls limit : Nat) (result : Except ParseError Value) : Prop :=
  result = .ok v ∨ limit < calls ∧ ∃ position, result = .error (.tooDeep position)

theorem evaluate?_of_parses {text : String} {calls : Nat}
    (h : Parses grammar (.ofItems (tokenize text) false) calls (Returns v)) (limit : Nat) :
    ∃ enough, ∀ fuel, enough ≤ fuel →
      ∃ result, evaluate? limit fuel text = some result ∧ Gives v calls limit result := by
  obtain ⟨g, t, hg, ht, hboth⟩ := h
  obtain ⟨enough, henough⟩ := hboth.ascent limit
  refine ⟨enough, ?_⟩
  intro fuel hfuel
  obtain ⟨o, ho, hresult⟩ := henough fuel hfuel
  refine ⟨o.1, by simp only [evaluate?, parse?, hg, ht, ho, Option.map_some], ?_⟩
  rcases hresult with hreturns | ⟨hlimit, hdeep⟩
  · exact Or.inl hreturns
  · exact Or.inr ⟨hlimit, _, hdeep⟩

/-- Whatever the blanks around the words, an expression is evaluated to its value, if as many
calls may be open as its parentheses and minuses take, one within the other: five for each, and
six. -/
theorem evaluate_written (h : Written depth 0 x words) (text : String)
    (hs : Spaced words text.toList) :
    (∀ limit, ∃ enough, ∀ fuel, enough ≤ fuel → ∃ result, evaluate? limit fuel text = some result ∧
        Gives (.int x.eval) (5 * depth + 6) limit result) ∧
      ∀ result, evaluate text = some result →
        Gives (.int x.eval) (5 * depth + 6) Ascent.callLimit result := by
  obtain ⟨t, ht⟩ := expressions_covered.exists_table
  obtain ⟨toks, e, hstands, hfeed⟩ := exists_feed_spaced h.separable hs false
  have hparses : Parses grammar (.ofItems (tokenize text) false) (5 * depth + 6)
      (Returns (.int x.eval)) :=
    ⟨_, t, grammar_eq, ht, returns_of_yields ht hfeed (h.stated hstands)⟩
  refine ⟨evaluate?_of_parses hparses, ?_⟩
  intro result hresult
  obtain ⟨enough, hvalue⟩ := evaluate?_of_parses hparses Ascent.callLimit
  obtain ⟨result', hresult', hgives⟩ := hvalue _ (Nat.le_max_left enough moveLimit)
  have hmore := evaluate?_mono (Nat.le_max_right enough moveLimit) hresult
  rwa [← Option.some.inj (hmore.symm.trans hresult')] at hgives

theorem evaluate_written_difference :
    (Written 1 0 (.binary .minus (.literal 7) (.negation (.literal 2))) [['7'], ['-'], ['-'], ['2']] ∧
      Spaced [['7'], ['-'], ['-'], ['2']] "7 --2 ".toList) ∧
    (∀ limit, ∃ enough, ∀ fuel, enough ≤ fuel →
      ∃ result, evaluate? limit fuel "7 --2 " = some result ∧ Gives (.int 9) 11 limit result) ∧
      ∀ result, evaluate "7 --2 " = some result → Gives (.int 9) 11 Ascent.callLimit result := by
  have hseven : Decimal 7 ['7'] := ⟨⟨[7], by decide, by decide, rfl, rfl⟩, by decide⟩
  have htwo : Decimal 2 ['2'] := ⟨⟨[2], by decide, by decide, rfl, rfl⟩, by decide⟩
  have hwritten : Written 1 0 (.binary .minus (.literal 7) (.negation (.literal 2))) _ :=
    .binary (Nat.le_refl 0) (.literal hseven) (.negation (.literal htwo))
  have hnone : ∀ c ∈ ([] : List Char), Text.isBlank c = true := by simp
  have hblank : ∀ c ∈ [' '], Text.isBlank c = true := by simp only [List.forall_mem_singleton]; rfl
  have hspaced : Spaced _ "7 --2 ".toList :=
    @Spaced.cons [] ['7'] _ _ hnone <| @Spaced.cons [' '] ['-'] _ _ hblank <|
    @Spaced.cons [] ['-'] _ _ hnone <| @Spaced.cons [] ['2'] _ _ hnone <| .nil hblank
  exact ⟨⟨hwritten, hspaced⟩, evaluate_written hwritten _ hspaced⟩

end Slr.Language.Arithmetic
