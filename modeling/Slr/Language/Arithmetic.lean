import Slr.Language.Scanner
import Slr.Parser.Ascent
import Slr.Rule.Gather
import Slr.Table.Construction
import Slr.Value.Operators

/-!
Arithmetic, evaluated while it is parsed, as a second example. There is one rule for each level of
precedence; the rules recur to the left, so operators of one level group to the left.
-/

namespace Slr.Language.Arithmetic

def isOperator (c : Char) : Bool := "-+*/()".toList.contains c

/-- Digits, and a point with more digits behind it. -/
def numberLength (cs : List Char) : Nat :=
  let whole := countDigits cs
  match cs.drop whole with
  | '.' :: rest => if countDigits rest = 0 then whole else whole + 1 + countDigits rest
  | _ => whole

def wordLength : List Char → Nat
  | [] => 0
  | c :: cs =>
    if isOperator c then 1
    else if Number.isDigit c then numberLength (c :: cs)
    else 0

def token (word : List Char) : Except Fault (String × Value) :=
  if word.any Number.isDigit then
    if '.' ∈ word then .ok (numberKind, .float (Number.ofPointed word))
    else (readInt word).map fun n => (numberKind, .int n)
  else .ok (sign word)

def lexicon : Lexicon := ⟨wordLength, token⟩

def tokenize (text : String) : List RawToken := Language.tokenize lexicon text

/-! ## Actions -/

/-- An operator between its two operands. -/
def binary (op : Value → Value → Except Fault Value) : Action :=
  .withParameters "_binary.<locals>.<lambda>" ["left", "_op", "right"] fun values => do
    op (← Action.value? values 0) (← Action.value? values 2)

/-- Gives back its only value. -/
def same : Action := .withParameters "_same" ["value"] fun values => Action.value? values 0

/-- The value between two parentheses. -/
def inner : Action :=
  .withParameters "factor.<locals>.<lambda>" ["_l", "e", "_r"] fun values => Action.value? values 1

def negate : Action :=
  .withParameters "factor.<locals>.<lambda>" ["_m", "f"] fun values => do
    (← Action.value? values 1).neg

/-! ## Grammar -/

def expressionRule : Nat := 0

def termRule : Nat := 1

def factorRule : Nat := 2

/-- A rule, an operator and a rule of the next level. -/
def operation (left : Nat) (operator : String) (right : Nat)
    (op : Value → Value → Except Fault Value) : Form :=
  .act (.sequence [.rule left, .terminal operator, .rule right]) (binary op)

def rules : List WrittenRule :=
  [⟨"expression", .choice
      [operation expressionRule "+" termRule Value.add,
        operation expressionRule "-" termRule Value.sub,
        .act (.rule termRule) same]⟩,
    ⟨"term", .choice
      [operation termRule "*" factorRule Value.mul,
        operation termRule "/" factorRule Value.div,
        .act (.rule factorRule) same]⟩,
    ⟨"factor", .choice
      [.act (.terminal numberKind) same,
        .act (.sequence [.terminal "(", .rule expressionRule, .terminal ")"]) inner,
        .act (.sequence [.terminal "-", .rule factorRule]) negate]⟩]

def family : RuleFamily := ⟨rules, []⟩

def grammarOf (index : Nat) : Except GrammarError AttributedGrammar :=
  (Workshop.grammar index (.empty family)).1

def grammar : Except GrammarError AttributedGrammar := grammarOf expressionRule

/-- A parse of an expression by recursive ascent, with at most `limit` calls open at once; `none` if it has
not ended within the fuel. -/
def parse? (limit fuel : Nat) (text : String) : Option (Outcome Value) :=
  match grammar with
  | .error _ => none
  | .ok g =>
    match g.grammar.table with
    | .error _ => none
    | .ok table =>
      Ascent.parse? table g.semantics limit fuel (.ofStream (.ofItems (tokenize text) false))

def parse (text : String) : Option (Outcome Value) := parse? Ascent.callLimit moveLimit text

/-- The value of an expression; `none` if it is not known within the fuel. -/
def evaluate? (limit fuel : Nat) (text : String) : Option (Except ParseError Value) :=
  (parse? limit fuel text).map Prod.fst

def evaluate (text : String) : Option (Except ParseError Value) :=
  evaluate? Ascent.callLimit moveLimit text

end Slr.Language.Arithmetic
