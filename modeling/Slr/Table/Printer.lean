import Slr.Table.Basic
import Slr.Text.Column

/-!
A table in columns: moves under their terminals, gotos under their nonterminals, and the numbers of the
productions below.
-/

namespace Slr

def Move.code : Move → String
  | shift state => "s" ++ toString state
  | reduce production => "r" ++ toString production.index
  | accept => "accept"

namespace Table

def columns (width : Nat) (texts : List String) : String :=
  " ".intercalate (texts.map (Text.padEnd width))

def line (start actions gotos : String) : String := start ++ " | " ++ actions ++ " | " ++ gotos

def text (t : Table) : String :=
  let terminals := sortNames (t.actions.flatMap fun row => row.map Prod.fst)
  let nonterminals := sortNames (t.gotos.flatMap fun row => row.map Prod.fst)
  let header := line "    " (columns 6 terminals) (columns 5 nonterminals)
  let rowText (i : Nat) (rows : Row × GotoRow) : String :=
    line (Text.padEnd 4 (toString i))
      (columns 6 (terminals.map fun x => ((rows.1.lookup x).map Move.code).getD ""))
      (columns 5 (nonterminals.map fun n => ((rows.2.lookup n).map toString).getD ""))
  let rules := t.productions.filter fun p => 0 < p.index
  "\n".intercalate (header :: String.ofList (List.replicate header.length '-') ::
    ((t.actions.zip t.gotos).mapIdx rowText ++
      "" :: rules.map fun p => "r" ++ toString p.index ++ ": " ++ p.text))

end Table

end Slr
