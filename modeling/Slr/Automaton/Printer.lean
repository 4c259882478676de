import Slr.Automaton.Basic
import Slr.Text.Ascii

/-! An automaton for reading: one state as lines of text, and all of them as an object notation. -/

namespace Slr.Automaton

def stateText (a : Automaton) (state : Nat) : String :=
  let items := (a.items state).map fun it => "  " ++ it.text
  let edges := (a.successorsOf state).map fun e => "  on " ++ e.1.name ++ " -> " ++ toString e.2
  "\n".intercalate (("State " ++ toString state ++ ":") :: items ++ edges)

/-- The members of a list or an object, one a line between brackets; nothing between them if there are none. -/
def block (openBracket closeBracket indent : String) (members : List String) : String :=
  if members.isEmpty then openBracket ++ closeBracket
  else
    let inner := indent ++ "    "
    openBracket ++ "\n" ++ (",\n".intercalate (members.map (inner ++ ·))) ++ "\n" ++ indent ++
      closeBracket

def member (key value : String) : String := Text.asciiQuoted key ++ ": " ++ value

def dumpState (index : Nat) (items : ItemSet) (successors : Successors) : String :=
  let inner := "        "
  let itemTexts := items.map fun it => Text.asciiQuoted it.text
  let edges := successors.map fun e => member e.1.name (Text.asciiQuoted (toString e.2))
  member (toString index) (block "\x7b" "\x7d" "    "
    [member "items" (block "[" "]" inner itemTexts),
      member "successors" (block "\x7b" "\x7d" inner edges)])

def dump (a : Automaton) : String :=
  block "\x7b" "\x7d" ""
    ((a.states.zip a.successors).mapIdx fun i s => dumpState i s.1 s.2)

end Slr.Automaton
