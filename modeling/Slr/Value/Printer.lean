import Slr.Number.Layout
import Slr.Text.Column
import Slr.Text.Quoted
import Slr.Value.Basic

/-!
Two printers of values. `Value.text` is the form on one line; `Value.outline` writes a tree over several
lines, children two columns further right than their parent, every other value in its form on one line.
-/

namespace Slr.Value

def commaSeparated (texts : List String) : String := ", ".intercalate texts

/-- A tuple of one item keeps a comma behind it. -/
def tupleText : List String → String
  | [x] => "(" ++ x ++ ",)"
  | xs => "(" ++ commaSeparated xs ++ ")"

mutual

def text : Value → String
  | none => "None"
  | bool b => if b then "True" else "False"
  | int n => toString n
  | float x => Number.Layout.standard.text x
  | str s => Text.quoted s
  | list items => "[" ++ commaSeparated (texts items) ++ "]"
  | tuple items => tupleText (texts items)
  | tree name children =>
    "Tree(name=" ++ Text.quoted name ++ ", children=" ++ tupleText (texts children) ++ ")"
  | number value => "Number(value=" ++ text value ++ ")"
  | array items => "Array(items=" ++ text items ++ ")"

def texts : List Value → List String
  | [] => []
  | v :: vs => text v :: texts vs

end

mutual

def outlineFrom (indent : Nat) : Value → List String
  | tree name children => (Text.spaces indent ++ name) :: outlinesFrom (indent + 2) children
  | v => [Text.spaces indent ++ v.text]

def outlinesFrom (indent : Nat) : List Value → List String
  | [] => []
  | v :: vs => outlineFrom indent v ++ outlinesFrom indent vs

end

def outline (v : Value) : List String := outlineFrom 0 v

def outlineText (v : Value) : String := "\n".intercalate v.outline

end Slr.Value
