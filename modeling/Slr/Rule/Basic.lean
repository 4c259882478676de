import Slr.Action.Basic
import Slr.Grammar.Error

/-!
Rules as people write them. A rule has a name and a right hand side; right hand sides are put together
from symbols by choice, sequence, actions, and repetitions. A `Form` is a right hand side as it stands
written, an `Expr` is what a form has been made into: each repetition in it has become a hidden rule of its
own. Rules are told apart by where they come from, not by name.
-/

namespace Slr

inductive Repetition where
  | optional
  | oneOrMore
  | zeroOrMore
  deriving DecidableEq

/-- A right hand side as written. Rules and shared expressions are given by their places. -/
inductive Form where
  | nothing
  | terminal (name : String)
  | rule (index : Nat)
  | shared (index : Nat)
  | choice (parts : List Form)
  | sequence (parts : List Form)
  | act (form : Form) (action : Action)
  /-- Something stands where an action should. -/
  | actWith (form : Form) (value : Value)
  | repeated (repetition : Repetition) (parts : List Form)

structure WrittenRule where
  name : String
  form : Form

/-- Rules that refer to each other, and expressions made once that any of them may use. -/
structure RuleFamily where
  rules : List WrittenRule
  shared : List Form

/-- A written rule, or the hidden rule made as number `serial` in the body of a written one; outside of
all bodies there is no owner. -/
inductive RuleId where
  | written (index : Nat)
  | hidden (owner : Option Nat) (serial : Nat)
  deriving DecidableEq

structure RuleRef where
  id : RuleId
  name : String
  deriving DecidableEq

def RuleRef.describe (r : RuleRef) : String := "<rule " ++ r.name ++ ">"

inductive Expr where
  | nothing
  | terminal (name : String)
  | rule (r : RuleRef)
  | either (a b : Expr)
  | both (a b : Expr)
  | act (e : Expr) (action : Action)

/-- One symbol of an alternative. -/
inductive Part where
  | terminal (name : String)
  | rule (r : RuleRef)
  deriving DecidableEq

def Part.describe : Part → String
  | terminal name => (Symbol.terminal name).describe
  | rule r => r.describe

def Part.candidate : Part → Candidate
  | terminal name => .terminal name
  | rule r => .nonterminal r.name

def Part.ruleRef? : Part → Option RuleRef
  | terminal _ => none
  | rule r => some r

/-- The symbols of one production, and its action. -/
structure Alternative where
  parts : List Part
  action : Option Action

namespace Expr

/-- A choice between expressions, from the left. -/
def choice : List Expr → Except GrammarError Expr
  | [] => .error .noParts
  | e :: es => .ok (es.foldl either e)

def sequence : List Expr → Except GrammarError Expr
  | [] => .error .noParts
  | e :: es => .ok (es.foldl both e)

end Expr

end Slr
