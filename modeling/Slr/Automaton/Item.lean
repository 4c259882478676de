import Slr.Grammar.Basic

/-!
Items: a production and a place in its right hand side. What is left of the place has been seen, what is
right of it is still to come. The items of a grammar are listed by production and then by place, and sets
of items are kept in that order.
-/

namespace Slr

structure Item where
  production : Production
  dot : Nat
  dot_le : dot ≤ production.rhs.length
  deriving DecidableEq

namespace Item

def at? (p : Production) (dot : Int) : Option Item :=
  if h : 0 ≤ dot ∧ dot.toNat ≤ p.rhs.length then some ⟨p, dot.toNat, h.2⟩ else none

def start (p : Production) : Item := ⟨p, 0, Nat.zero_le _⟩

/-- The symbol right behind the place. -/
def next (it : Item) : Option Symbol := it.production.rhs[it.dot]?

def atEnd (it : Item) : Bool := it.dot == it.production.rhs.length

def rest (it : Item) : List Symbol := it.production.rhs.drop (it.dot + 1)

def advance? (it : Item) : Option Item :=
  if h : it.dot < it.production.rhs.length then some ⟨it.production, it.dot + 1, h⟩ else none

/-- The items of one production, from left to right. -/
def ofProduction (p : Production) : List Item :=
  List.ofFn fun i : Fin (p.rhs.length + 1) => ⟨p, i, Nat.le_of_lt_succ i.isLt⟩

theorem mem_ofProduction {p : Production} {it : Item} : it ∈ ofProduction p ↔ it.production = p := by
  constructor
  · intro h
    obtain ⟨i, rfl⟩ := List.mem_ofFn.mp h
    rfl
  · rintro rfl
    exact List.mem_ofFn.mpr ⟨⟨it.dot, Nat.lt_succ_of_le it.dot_le⟩, rfl⟩

/-- Of the two spaces between an arrow and a star one is dropped, wherever they stand. -/
def tighten : List Char → List Char
  | '-' :: '>' :: ' ' :: ' ' :: '*' :: rest => '-' :: '>' :: ' ' :: '*' :: tighten rest
  | c :: rest => c :: tighten rest
  | [] => []

/-- `A -> x * y`: a star before the next symbol, or at the end. -/
def text (it : Item) : String :=
  let mark (i : Nat) (x : Symbol) : String := if i = it.dot then "* " ++ x.name else x.name
  let names := it.production.rhs.mapIdx mark
  let plain := it.production.lhs ++ " -> " ++ " ".intercalate names ++ if it.atEnd then " *" else ""
  String.ofList (tighten plain.toList)

def describe (it : Item) : String := "<Item " ++ it.text ++ ">"

end Item

namespace Grammar

/-- Every item of the grammar, in order. -/
def items (g : Grammar) : List Item := g.productions.flatMap Item.ofProduction

theorem mem_items {g : Grammar} {it : Item} : it ∈ g.items ↔ it.production ∈ g.productions := by
  simp [items, Item.mem_ofProduction]

end Grammar

end Slr
