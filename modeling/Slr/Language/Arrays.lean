import Slr.Language.Scanner
import Slr.Rule.Gather

/-!
Integers and nested arrays of them between brackets, as a first example. Two grammars have the same
language: `family` spells out the empty array, `emptyDrafts` lets the elements of an array vanish.
-/

namespace Slr.Language.Arrays

def isPunctuation (c : Char) : Bool := c == '[' || c == ']' || c == ','

def wordLength : List Char → Nat
  | [] => 0
  | '-' :: cs => if countDigits cs = 0 then 0 else countDigits cs + 1
  | c :: cs => if isPunctuation c then 1 else countDigits (c :: cs)

def token (word : List Char) : Except Fault (String × Value) :=
  if word.any Number.isDigit then (readInt word).map fun n => (numberKind, .int n)
  else .ok (sign word)

def lexicon : Lexicon := ⟨wordLength, token⟩

def tokenize (text : String) : List RawToken := Language.tokenize lexicon text

/-! ## Actions -/

def number : Action :=
  .withParameters "Number.__init__" ["value"] fun values => (Action.value? values 0).map .number

/-- Gives back its only value. -/
def same (callee parameter : String) : Action :=
  .withParameters callee [parameter] fun values => Action.value? values 0

def emptyArray : Action :=
  .withParameters "array.<locals>.<lambda>" ["_l", "_r"] fun _ => .ok (.array (.list []))

/-- The array of the items between two brackets. -/
def array (callee : String) : Action :=
  .withParameters callee ["_l", "items", "_r"] fun values => (Action.value? values 1).map .array

def oneElement (callee : String) : Action :=
  .withParameters callee ["v"] fun values => .ok (.list values)

/-- A list, a comma, and the element that goes behind its items. -/
def moreElements : Action :=
  .withParameters "_append" ["elements", "_comma", "value"] (Action.append 2).apply

/-! ## Grammars -/

def valueRule : Nat := 0

def arrayRule : Nat := 1

def elementsRule : Nat := 2

def rules : List WrittenRule :=
  [⟨"value", .choice
      [.act (.terminal numberKind) number,
        .act (.rule arrayRule) (same "value.<locals>.<lambda>" "a")]⟩,
    ⟨"array", .choice
      [.act (.sequence [.terminal "[", .terminal "]"]) emptyArray,
        .act (.sequence [.terminal "[", .rule elementsRule, .terminal "]"])
          (array "array.<locals>.<lambda>")]⟩,
    ⟨"elements", .choice
      [.act (.rule valueRule) (oneElement "elements.<locals>.<lambda>"),
        .act (.sequence [.rule elementsRule, .terminal ",", .rule valueRule]) moreElements]⟩]

def family : RuleFamily := ⟨rules, []⟩

/-- The grammar with one of the rules as its start. -/
def grammarOf (index : Nat) : Except GrammarError AttributedGrammar :=
  (Workshop.grammar index (.empty family)).1

def grammar : Except GrammarError AttributedGrammar := grammarOf valueRule

def draft (lhs : String) (rhs : List Candidate) (action : Action) : Draft :=
  ⟨.nonterminal lhs, rhs, some action⟩

def emptyDrafts : List Draft :=
  [draft "value" [.terminal numberKind] number,
    draft "value" [.nonterminal "array"] (same "<lambda>" "a"),
    draft "array" [.terminal "[", .nonterminal "elements_opt", .terminal "]"] (array "<lambda>"),
    draft "elements_opt" [] .list,
    draft "elements_opt" [.nonterminal "elements"] (same "<lambda>" "items"),
    draft "elements" [.nonterminal "value"] (oneElement "<lambda>"),
    draft "elements" [.nonterminal "elements", .terminal ",", .nonterminal "value"] moreElements]

def emptyGrammar : Except GrammarError AttributedGrammar :=
  AttributedGrammar.ofDrafts emptyDrafts (.nonterminal "value")

end Slr.Language.Arrays
