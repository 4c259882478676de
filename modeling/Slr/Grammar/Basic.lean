import Slr.Symbol

/-!
Context-free grammars. Production 0 is `__goal -> start $`; the others are the user's, in their order.
A `Grammar` holds the facts that every later stage relies on: production `i` has index `i`, only the
goal mentions the end of the input, no rule occurs twice, every nonterminal on a right hand side has a
production, and no name belongs to both a terminal and a nonterminal.
-/

namespace Slr

structure Production where
  index : Nat
  lhs : String
  rhs : List Symbol
  deriving DecidableEq, Inhabited

namespace Production

def goal (start : String) : Production :=
  ⟨0, goalName, [.nonterminal start, .terminal endName]⟩

/-- A production without its place among the others. -/
def rule (p : Production) : String × List Symbol := (p.lhs, p.rhs)

def size (p : Production) : Nat := p.rhs.length

def isGoal (p : Production) : Bool := p.index == 0

/-- `A -> x y`, or `A -> <empty>`. -/
def textOf (lhs : String) (rhs : List String) : String :=
  lhs ++ " -> " ++ if rhs.isEmpty then "<empty>" else " ".intercalate rhs

def text (p : Production) : String := textOf p.lhs (p.rhs.map Symbol.name)

end Production

structure WellFormed (start : String) (productions : List Production) : Prop where
  goal_first : productions.head? = some (.goal start)
  index_eq : productions.map Production.index = List.range productions.length
  distinct : (productions.map Production.rule).Nodup
  unreserved : ∀ p ∈ productions.tail,
    isReserved p.lhs = false ∧ ∀ x ∈ p.rhs, isReserved x.name = false
  defined : ∀ p ∈ productions, ∀ n, .nonterminal n ∈ p.rhs → n ∈ productions.map Production.lhs
  apart : ∀ p ∈ productions, ∀ t, .terminal t ∈ p.rhs → t ∉ productions.map Production.lhs

structure Grammar where
  start : String
  productions : List Production
  wellFormed : WellFormed start productions

namespace Grammar

def goal (g : Grammar) : Production := .goal g.start

def productionsFor (g : Grammar) (name : String) : List Production :=
  g.productions.filter fun p => p.lhs == name

def nonterminals (g : Grammar) : List String := sortNames (g.productions.map Production.lhs)

def terminals (g : Grammar) : List String :=
  sortNames (g.productions.flatMap fun p => p.rhs.filterMap Symbol.terminalName?)

/-- Every symbol, in the order of names. -/
def alphabet (g : Grammar) : List Symbol :=
  let byName (x y : Symbol) : Bool := decide (x.name ≤ y.name)
  (g.terminals.map Symbol.terminal ++ g.nonterminals.map Symbol.nonterminal).mergeSort byName

/-- The names of the alphabet with their places in it. -/
def symbolKeys (g : Grammar) : List (String × Nat) := g.alphabet.mapIdx fun i x => (x.name, i)

/-- The place of a name in the alphabet. -/
def symbolKey? (g : Grammar) (name : String) : Option Nat := g.symbolKeys.lookup name

theorem goal_mem (g : Grammar) : g.goal ∈ g.productions := by
  have h := g.wellFormed.goal_first
  cases hp : g.productions with
  | nil => simp [hp] at h
  | cons p ps => simp_all [goal]

end Grammar

end Slr
