import Slr.CommandLine.Attributes
import Slr.Language.Arrays

/-!
Modules: named collections of things. `examples.arithmetic` and `examples.json_subset` hold the two example
languages, `examples` is the package around them, and a user may have a module besides.
-/

namespace Slr.CommandLine

structure Module where
  name : String
  origin : Origin
  members : List (String × Thing)

namespace Module

/-- The thing of a name: a member, or what every such module has. -/
def attribute? (m : Module) (name : String) : Option Thing :=
  (m.members.lookup name).or ((Attributes.ofModule m.origin).lookup name)

def terminals (names : List String) : List (String × Thing) := Attributes.objects "Terminal" names

def nonterminals (names : List String) : List (String × Thing) :=
  Attributes.objects "Nonterminal" names

def imported (names : List String) : List (String × Thing) := Attributes.objects "module" names

/-- A function that wants more than one value. -/
def missing (callee : String) (parameters : List String) : Thing :=
  .refusing (.other (.missing callee parameters))

/-- Makes a symbol from its name. -/
def symbolMaker (kind : String) : Thing :=
  .textMaker kind "intern() argument must be str, not list"

/-- What both example languages are made with. -/
def tools : List (String × Thing) :=
  imported ["re", "typing"] ++
    [("EOF", .object "Terminal"), ("Grammar", missing "Grammar.__init__" ["start"]),
      ("Terminal", symbolMaker "Terminal"), ("Token", .maker "Token"),
      ("rule", .maker "function"), ("seq", .echo)]

def grammarMember (name : String) (g : Except GrammarError AttributedGrammar) :
    List (String × Thing) :=
  match g with
  | .ok g => [(name, .grammar g)]
  | .error _ => []

def ruleMembers (family : RuleFamily) : List (String × Thing) :=
  family.rules.mapIdx fun i r => (r.name, .rule (.empty family) i)

/-- The module around the two languages. -/
def examples : Module := ⟨"examples", .package, imported ["json_subset", "arithmetic"]⟩

def arrays : Module :=
  ⟨"examples.json_subset", .file, imported ["dataclasses"] ++ tools ++
    [("Nonterminal", symbolMaker "Nonterminal"), ("Production", missing "Production.__init__" ["rhs"])] ++
    terminals ["NUMBER", "LBRACKET", "RBRACKET", "COMMA"] ++
    [("Number", .maker "Number"), ("Array", .maker "Array"),
      ("_append", missing "_append" ["_comma", "value"])] ++
    ruleMembers Language.Arrays.family ++
    grammarMember "GRAMMAR" Language.Arrays.grammar ++
    nonterminals ["_value", "_array", "_elements", "_elements_opt"] ++
    grammarMember "EMPTY_PRODUCTION_GRAMMAR" Language.Arrays.emptyGrammar ++
    [("_TOKEN_PATTERN", .object "re.Pattern"),
      ("tokenize", .lexer "rstrip" Language.Arrays.tokenize)]⟩

def arithmetic : Module :=
  ⟨"examples.arithmetic", .file, imported ["operator"] ++ tools ++
    terminals ["NUMBER", "PLUS", "MINUS", "STAR", "SLASH", "LPAREN", "RPAREN"] ++
    [("_same", .echo), ("_binary", .maker "function")] ++
    ruleMembers Language.Arithmetic.family ++
    grammarMember "GRAMMAR" Language.Arithmetic.grammar ++
    [("_TOKEN_PATTERN", .object "re.Pattern"),
      ("tokenize", .lexer "rstrip" Language.Arithmetic.tokenize), ("evaluate", .evaluator),
      ("_PARSER", .object "RecursiveAscentParser")]⟩

def standard : List Module := [examples, arrays, arithmetic]

/-! ## A module of the user's own -/

/-- Words between single spaces, from a place on. -/
def wordsFrom (place : Nat) : List String → List RawToken
  | [] => []
  | w :: ws =>
    let after := wordsFrom (place + w.length + 1) ws
    if w.isEmpty then after else .token ⟨w, .str w, place, place + w.length⟩ :: after

def splitWords (text : String) : List RawToken := wordsFrom 0 (text.splitOn " ")

/-- A module with a lexer of words, and with a grammar and its rules if there are any. -/
def user (grammar : Option AttributedGrammar) (rules : List (String × Thing)) : Module :=
  let grammars := match grammar with
    | some g => [("GRAMMAR", Thing.grammar g)]
    | none => []
  ⟨"user", .memory, ("tokenize", .lexer "split" splitWords) :: grammars ++ rules⟩

/-- A rule of a family, as a member named after the name it has there. -/
def userRule (workshop : Workshop) (index : Nat) (name : String) : String × Thing :=
  ("rule_" ++ name, .rule workshop index)

end Module

end Slr.CommandLine
