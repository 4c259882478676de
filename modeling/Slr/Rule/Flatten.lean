import Slr.Rule.Basic
import Slr.Value.Printer

/-!
The alternatives of an expression. They come one after another, and among them whatever is wrong at its
place; who reads them stops at the first error. An action has to apply to a whole alternative, and only
one action may.
-/

namespace Slr.Expr

abbrev Found := Except GrammarError Alternative

/-- Two alternatives in sequence; neither may have an action. -/
def join (a b : Alternative) : Found :=
  if a.action.isSome || b.action.isSome then .error .actionInSequence
  else .ok ⟨a.parts ++ b.parts, none⟩

def alternativeText (parts : List Part) : String := Value.tupleText (parts.map Part.describe)

def attach (action : Action) (a : Alternative) : Found :=
  if a.action.isSome then .error (.secondAction (alternativeText a.parts))
  else .ok ⟨a.parts, some action⟩

def flatten : Expr → List Found
  | nothing => [.ok ⟨[], none⟩]
  | terminal name => [.ok ⟨[.terminal name], none⟩]
  | rule r => [.ok ⟨[.rule r], none⟩]
  | either a b => a.flatten ++ b.flatten
  | both a b => a.flatten.flatMap fun x => match x with
    | .error e => [.error e]
    | .ok x => b.flatten.map (·.bind (join x))
  | act e action => e.flatten.map (·.bind (attach action))

/-- The first error among things found, or all of them. -/
def collect : List Found → Except GrammarError (List Alternative)
  | [] => .ok []
  | .error e :: _ => .error e
  | .ok a :: rest => (collect rest).map (a :: ·)

def alternatives (e : Expr) : Except GrammarError (List Alternative) := collect e.flatten

end Slr.Expr
