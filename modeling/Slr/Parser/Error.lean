import Slr.Stream.Basic
import Slr.Value.Printer

/-!
How a parse fails. Only the first three are verdicts on the input or its source; `corrupt` and `outOfRange`
say that the table does not fit the values at hand.
-/

namespace Slr

inductive ParseError where
  | unexpectedToken (token : Token) (state : Nat) (expected : List String)
  /-- The action of a production failed. -/
  | actionFailed (production : Production) (cause : Fault)
  /-- A fault of the source, or one that an action lets through. -/
  | fault (f : Fault)
  /-- Calls nest too deeply, with so many tokens consumed. -/
  | tooDeep (position : Nat)
  | corrupt (message : String)
  | outOfRange

def Fault.describe (f : Fault) : String := f.kind ++ "(" ++ Text.quoted f.message ++ ")"

namespace ParseError

def message : ParseError → String
  | unexpectedToken token _ expected =>
    let what := if token.isEnd then "end of input" else token.kind
    let hint := if expected.isEmpty then ""
      else " (expected one of: " ++ ", ".intercalate expected ++ ")"
    "Syntax error at " ++ toString token.start ++ ": unexpected " ++ what ++ hint
  | actionFailed production cause =>
    "The action for `" ++ production.text ++ "` failed: " ++ cause.describe
  | fault f => f.message
  | tooDeep position =>
    "Input is nested too deeply to parse, at token " ++ toString position
  | corrupt message => message
  | outOfRange => "tuple index out of range"

/-- Whether a failure says that the input, or what an action thinks of it, is wrong. -/
def isVerdict : ParseError → Bool
  | unexpectedToken .. | actionFailed .. | tooDeep _ | fault (.parse _) => true
  | _ => false

end ParseError

end Slr
