import Slr.CommandLine.Arguments
import Slr.CommandLine.Failure
import Slr.Language.Arithmetic

/-!
Things that the command line can be pointed at by name: grammars, rules that a grammar can be gathered
from, functions, and objects that are none of these. A function is called with the text that is to be
parsed, and what it gives is then gone through for tokens; both may fail.
-/

namespace Slr.CommandLine

/-- What came of a call: the tokens, and the notes that it left. -/
structure Called where
  tokens : Except Failure (List RawToken)
  notes : List Note

namespace Called

def giving (items : List RawToken) : Called := ⟨.ok items, []⟩

def failing (f : Failure) : Called := ⟨.error f, []⟩

/-- A result of a kind that holds no tokens. -/
def givingObject (kind : String) : Called := failing (.notIterable kind)

/-- A character in the place of a token. -/
def loneCharacter : RawToken :=
  .fault (.ordinary "ValueError" "not enough values to unpack (expected 2, got 1)")

end Called

inductive Thing where
  | grammar (g : AttributedGrammar)
  | rule (workshop : Workshop) (index : Nat)
  | callable (call : Setting → Called)
  | object (kind : String)

namespace Thing

def isGrammar : Thing → Bool
  | grammar _ => true
  | _ => false

def isCallable : Thing → Bool
  | callable _ => true
  | _ => false

def kindName : Thing → String
  | grammar _ => "Grammar"
  | rule _ _ => "NonterminalRule"
  | callable _ => "function"
  | object kind => kind

def call (thing : Thing) (setting : Setting) : Called :=
  match thing with
  | callable f => f setting
  | thing => .failing (.notCallable thing.kindName)

/-! ## Functions -/

def noAttribute (setting : Setting) (name : String) : String :=
  "'" ++ setting.kindName ++ "' object has no attribute '" ++ name ++ "'"

/-- Cuts a text into tokens. What is no text fails at the first token, for want of the method that the
lexer begins with. -/
def lexer (method : String) (tokens : String → List RawToken) : Thing :=
  callable fun
    | .text text => .giving (tokens text)
    | .emptyList => .giving [.fault (.ordinary "AttributeError" (noAttribute .emptyList method))]

/-- Gives back what it is given. -/
def echo : Thing :=
  callable fun
    | .text text => .giving (text.toList.map fun _ => Called.loneCharacter)
    | .emptyList => .giving []

/-- Makes an object of a kind. -/
def maker (kind : String) : Thing := callable fun _ => .givingObject kind

/-- Makes an object of a kind from a text. -/
def textMaker (kind refusal : String) : Thing :=
  callable fun
    | .text _ => .givingObject kind
    | .emptyList => .failing (.typeError refusal)

/-- Cannot be called like this. -/
def refusing (f : Failure) : Thing := callable fun _ => .failing f

/-- Evaluates a text as an arithmetic expression. -/
def evaluator : Thing :=
  callable fun
    | .emptyList => .failing (.attributeError (noAttribute .emptyList "rstrip"))
    | .text text =>
      match Language.Arithmetic.parse text with
      | none => .failing .unfinished
      | some (.ok v, s) => ⟨.error (.notIterable v.kindName), s.notes.toList⟩
      | some (.error e, s) => ⟨.error (.parse e), s.notes.toList⟩

end Thing

end Slr.CommandLine
