import Slr.Text.Quoted

/-!
Grammar symbols. A terminal and a nonterminal of one name are two symbols. The end of the input is a
terminal of every grammar, the goal a nonterminal of every grammar; nobody else may use their names.
-/

namespace Slr

inductive Symbol where
  | terminal (name : String)
  | nonterminal (name : String)
  deriving DecidableEq, Inhabited

namespace Symbol

def name : Symbol → String
  | terminal name => name
  | nonterminal name => name

def terminalName? : Symbol → Option String
  | terminal name => some name
  | nonterminal _ => none

def nonterminalName? : Symbol → Option String
  | terminal _ => none
  | nonterminal name => some name

def describe : Symbol → String
  | terminal name => "Terminal(" ++ Text.quoted name ++ ")"
  | nonterminal name => "Nonterminal(" ++ Text.quoted name ++ ")"

end Symbol

def endName : String := "$"

def goalName : String := "__goal"

/-- The names that no production of a user may mention. -/
def isReserved (name : String) : Bool := name == endName || name == goalName

/-- Names apart, each once, in the order of code points. -/
def sortNames (names : List String) : List String :=
  (names.eraseDups).mergeSort fun a b => decide (a ≤ b)

theorem mem_sortNames {names : List String} {x : String} : x ∈ sortNames names ↔ x ∈ names := by
  simp [sortNames]

end Slr
