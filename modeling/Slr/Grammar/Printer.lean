import Slr.Grammar.Basic
import Slr.Text.Column

/-! A grammar as a numbered list of its productions. -/

namespace Slr.Grammar

def text (g : Grammar) : String :=
  "\n".intercalate (g.productions.map fun p => Text.padStart 3 (toString p.index) ++ ": " ++ p.text)

end Slr.Grammar
