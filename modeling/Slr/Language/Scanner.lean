import Slr.Number.Reader
import Slr.Stream.Basic
import Slr.Text.Blank
import Slr.Text.Quoted
import Slr.Value.Limit

/-!
Cutting a text into tokens. Blanks before a word are skipped, and so are those at the end of the text. A
word is as long as the language says; where no word begins, the source fails with up to ten characters of
what is there, blanks included. The last token is the end of the input.
-/

namespace Slr.Language

structure Lexicon where
  /-- The number of characters of the word that a text begins with; 0 if it begins with none. -/
  wordLength : List Char → Nat
  /-- The kind and the value of a word. -/
  token : List Char → Except Fault (String × Value)

def tokenError (place : Nat) (rest : List Char) : Fault :=
  .ordinary "ValueError"
    ("Token error at " ++ toString place ++ ": " ++ Text.quoted (String.ofList (rest.take 10)))

def tokenAt (lexicon : Lexicon) (start : Nat) (word : List Char) : RawToken :=
  match lexicon.token word with
  | .ok (kind, value) => .token ⟨kind, value, start, start + word.length⟩
  | .error f => .fault f

def scan (lexicon : Lexicon) : Nat → Nat → List Char → List RawToken
  | 0, place, _ => [.token (.atEnd place)]
  | _ + 1, place, [] => [.token (.atEnd place)]
  | fuel + 1, place, c :: cs =>
    let blanks := (c :: cs).takeWhile Text.isBlank
    let rest := Text.skipBlanks (c :: cs)
    match lexicon.wordLength rest with
    | 0 => [.fault (tokenError place (c :: cs))]
    | n + 1 =>
      let word := rest.take (n + 1)
      let start := place + blanks.length
      tokenAt lexicon start word :: scan lexicon fuel (start + word.length) (rest.drop (n + 1))

def tokenize (lexicon : Lexicon) (text : String) : List RawToken :=
  let cs := Text.trimEnd text.toList
  scan lexicon cs.length 0 cs

/-! ## Numbers -/

def countDigits (cs : List Char) : Nat := (cs.takeWhile Number.isDigit).length

def readNat (ds : List Char) : Except Fault Nat :=
  if digitLimit < ds.length then
    .error (.tooManyDigits (": value has " ++ toString ds.length ++ " digits"))
  else .ok (Number.ofDigits ds)

def readInt : List Char → Except Fault Int
  | '-' :: ds => (readNat ds).map fun n => -(n : Int)
  | ds => (readNat ds).map fun n => (n : Int)

/-- A word of one character that stands for itself. -/
def sign (word : List Char) : String × Value := (String.ofList word, .str (String.ofList word))

def numberKind : String := "NUMBER"

end Slr.Language
