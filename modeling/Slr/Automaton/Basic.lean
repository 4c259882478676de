import Slr.Automaton.Closure
import Slr.Log

/-!
The automaton of item sets. State 0 is the closure of the goal's first item. States are taken up in the
order of their numbers; for each symbol that one of its items expects, in the order of the alphabet, a
state gets a successor, and a set of items that was not met before gets the next number. The end of the
input has no successor. There are no more states than sets of items, which bounds the search.
-/

namespace Slr

/-- The states that symbols lead to. -/
abbrev Successors := List (Symbol × Nat)

structure Automaton where
  grammar : Grammar
  states : List ItemSet
  successors : List Successors

namespace Automaton

/-- The symbols that items of a set expect, the end of the input apart. -/
def expected (g : Grammar) (items : ItemSet) : List Symbol :=
  g.alphabet.filter fun x => x != .terminal endName && items.any fun it => it.next == some x

/-- The number of a set of items, which is added if it is new. -/
def intern (states : List ItemSet) (items : ItemSet) : List ItemSet × Nat :=
  match states.findIdx? (· == items) with
  | some i => (states, i)
  | none => (states ++ [items], states.length)

def addSuccessor (g : Grammar) (items : ItemSet) (known : List ItemSet × Successors) (x : Symbol) :
    List ItemSet × Successors :=
  let (states, i) := intern known.1 (g.goto items x)
  (states, known.2 ++ [(x, i)])

/-- Takes up the first state that has no successors yet, until there is none. -/
def explore (g : Grammar) : Nat → List ItemSet → List Successors → Automaton
  | 0, states, successors => ⟨g, states, successors⟩
  | fuel + 1, states, successors =>
    match states[successors.length]? with
    | none => ⟨g, states, successors⟩
    | some items =>
      let (states, row) := (expected g items).foldl (addSuccessor g items) (states, [])
      explore g fuel states (successors ++ [row])

def initial (g : Grammar) : ItemSet := g.closure [Item.start g.goal]

def build (g : Grammar) : Automaton :=
  explore g (Nat.pow 2 g.items.length) [initial g] []

def size (a : Automaton) : Nat := a.states.length

def items (a : Automaton) (state : Nat) : ItemSet := (a.states[state]?).getD []

def successorsOf (a : Automaton) (state : Nat) : Successors := (a.successors[state]?).getD []

def shifts (a : Automaton) (state : Nat) : List (String × Nat) :=
  (a.successorsOf state).filterMap fun e => e.1.terminalName?.map (·, e.2)

def gotos (a : Automaton) (state : Nat) : List (String × Nat) :=
  (a.successorsOf state).filterMap fun e => e.1.nonterminalName?.map (·, e.2)

/-- The items that are not there because of others. -/
def kernel (a : Automaton) (state : Nat) : ItemSet :=
  (a.items state).filter fun it => 0 < it.dot || it.production.isGoal

/-- How many symbols below the top of the stack the items of a state know about. -/
def depthOf (items : ItemSet) : Nat := (items.map Item.dot).foldl max 0

def depth (a : Automaton) (state : Nat) : Nat := depthOf (a.items state)

/-- The nonterminals without an item in any state. -/
def unreachable (a : Automaton) : List String :=
  let reached := a.states.flatMap fun items => items.map fun it => it.production.lhs
  a.grammar.nonterminals.filter (· ∉ reached)

/-- What is said about a finished automaton. -/
def notes (a : Automaton) : List Note :=
  let warnings := match a.unreachable with
    | [] => []
    | names =>
      [⟨.warning, .build, "Unreachable nonterminals: " ++ ", ".intercalate names⟩]
  warnings ++ [⟨.info, .build, "Built " ++ toString a.states.length ++ " states for " ++
    toString a.grammar.productions.length ++ " productions"⟩]

end Automaton

end Slr
