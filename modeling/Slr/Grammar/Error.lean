import Slr.Symbol
import Slr.Value.Equality
import Slr.Value.Printer

/-!
What a grammar is made from, before anybody has looked at it, and what may be wrong with it. A name may
belong to neither class of symbols, and a thing in the place of a symbol may be no symbol at all.
-/

namespace Slr

/-- A symbol, or a name that is neither a terminal nor a nonterminal. -/
inductive LooseSymbol where
  | symbol (s : Symbol)
  | unclassified (name : String)
  deriving DecidableEq, Inhabited

namespace LooseSymbol

def name : LooseSymbol → String
  | symbol s => s.name
  | unclassified name => name

def describe : LooseSymbol → String
  | symbol s => s.describe
  | unclassified name => "Symbol(name=" ++ Text.quoted name ++ ")"

def symbol? : LooseSymbol → Option Symbol
  | symbol s => some s
  | unclassified _ => none

end LooseSymbol

/-- What stands in the place of a symbol. -/
inductive Candidate where
  | symbol (s : LooseSymbol)
  | value (v : Value)

namespace Candidate

def describe : Candidate → String
  | symbol s => s.describe
  | value v => v.text

/-- A plain text: the name of a symbol, a text itself, or the form of another value. -/
def plain : Candidate → String
  | symbol s => s.name
  | value (.str s) => s
  | value v => v.text

/-- A candidate as the message of its absence: a text as it is, anything else in its form. -/
def absence : Candidate → String
  | value (.str s) => s
  | c => c.describe

def same : Candidate → Candidate → Bool
  | symbol s, symbol t => s == t
  | value v, value w => v.same w
  | _, _ => false

def symbol? : Candidate → Option Symbol
  | symbol s => s.symbol?
  | value _ => none

def terminal (name : String) : Candidate := symbol (.symbol (.terminal name))

def nonterminal (name : String) : Candidate := symbol (.symbol (.nonterminal name))

end Candidate

inductive GrammarError where
  | wrongLeftSide (lhs : Candidate)
  | notASymbol (v : Value) (lhs : String)
  | reserved (name production : String)
  /-- A message would have to write a production that holds a value without a name. -/
  | nameless (v : Value)
  | repeated (production : String)
  | undefined (name production : String)
  | unclassified (name production : String)
  | clash (names : List String)
  | notCallable (v : Value)
  | actionInSequence
  | secondAction (alternative : String)
  | sameName (name : String)
  /-- A sequence or a choice of no parts. -/
  | noParts

namespace GrammarError

def message : GrammarError → String
  | wrongLeftSide lhs =>
    "The left hand side " ++ lhs.describe ++ " of a production is not a Nonterminal"
  | notASymbol v lhs => v.text ++ " in a production for " ++ lhs ++ " is not a grammar symbol"
  | reserved name production => "Can't use " ++ name ++ " in `" ++ production ++ "`, it's reserved."
  | nameless v => "'" ++ v.kindName ++ "' object has no attribute 'name'"
  | repeated production => "The production `" ++ production ++ "` appears more than once"
  | undefined name production =>
    "While processing `" ++ production ++ "`: cannot find any production for " ++ name
  | unclassified name production =>
    (LooseSymbol.unclassified name).describe ++ " in `" ++ production ++ "` is not a grammar symbol"
  | clash names =>
    "These names are used for both terminals and nonterminals: " ++ ", ".intercalate names
  | notCallable v => v.text ++ " is not callable"
  | actionInSequence => "An action must apply to a whole alternative, not to part of a sequence"
  | secondAction alternative => "The alternative " ++ alternative ++ " already has an action"
  | sameName name => "Found more than one rule named " ++ name ++ ":"
  | noParts => "tuple index out of range"

end GrammarError

end Slr
