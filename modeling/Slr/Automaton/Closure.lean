import Slr.Automaton.Item
import Slr.Reachability

/-!
Sets of items. An item whose next symbol is a nonterminal brings with it the first items of all
productions of that nonterminal. A set is the list of its members in the grammar's order of items, so
equal sets are equal lists.
-/

namespace Slr

abbrev ItemSet := List Item

namespace Grammar

/-- The nonterminals that productions of a nonterminal begin with. -/
def leads (g : Grammar) (name : String) : List String :=
  (g.productionsFor name).filterMap fun p => p.rhs.head?.bind Symbol.nonterminalName?

/-- The nonterminals that may have to be recognised next. -/
def predicted (g : Grammar) (seeds : List Item) : List String :=
  Reachability.reach g.leads g.productions.length
    (seeds.filterMap fun it => it.next.bind Symbol.nonterminalName?)

def closure (g : Grammar) (seeds : List Item) : ItemSet :=
  let names := g.predicted seeds
  g.items.filter fun it => it ∈ seeds || it.dot == 0 && it.production.lhs ∈ names

/-- Where the items of a set are after one symbol; empty if none of them expects it. -/
def goto (g : Grammar) (items : ItemSet) (x : Symbol) : ItemSet :=
  g.closure (items.filterMap fun it => if it.next = some x then it.advance? else none)

end Grammar

end Slr
