import Slr.Automaton.Basic

/-!
The automaton made by worklists. A set of items that is met is registered: it gets the next number and an
empty row, unless it has a number already. The new ones wait in a queue, and one that is taken up puts its
successors into the row of its number. What is looked up on the way may be missing, and a successor must
not be empty; either stops the construction. A closure is made with a stack of items.
-/

namespace Slr

/-! ## Closures -/

namespace Item

/-- Items stand in the order of their productions, and within one by their places. -/
def upTo (it it' : Item) : Bool :=
  it.production.index < it'.production.index ||
    it.production.index == it'.production.index && it.dot ≤ it'.dot

end Item

namespace Grammar

/-- The first items of what may come next, the last on top. -/
def stacked (g : Grammar) (it : Item) : List Item :=
  match it.next with
  | some (.nonterminal n) => ((g.productionsFor n).map Item.start).reverse
  | _ => []

/-- Takes items from a stack until it is empty, and puts on it what each new one brings; `none` if so many
steps are not enough. -/
def unstack (g : Grammar) : Nat → List Item → List Item → Option (List Item)
  | _, found, [] => some found
  | 0, _, _ :: _ => none
  | steps + 1, found, it :: stack =>
    if it ∈ found then unstack g steps found stack
    else unstack g steps (found ++ [it]) (g.stacked it ++ stack)

def closureBy (g : Grammar) (steps : Nat) (seeds : List Item) : Option ItemSet :=
  (g.unstack steps [] seeds.reverse).map fun found => found.mergeSort Item.upTo

end Grammar

/-! ## States -/

inductive BuildError where
  /-- A set of items without a number. -/
  | unregistered (items : ItemSet)
  /-- A symbol without a place in the alphabet. -/
  | unknownSymbol (name : String)
  | emptySuccessor (state : Nat) (x : Symbol)
  /-- A number without a row. -/
  | noRow (state : Nat)

/-- Puts a state under a symbol: in the place of an old one, or behind all others. -/
def Successors.put (row : Successors) (x : Symbol) (state : Nat) : Successors :=
  if row.any (·.1 == x) then row.map fun e => if e.1 = x then (x, state) else e
  else row ++ [(x, state)]

structure Worklist where
  grammar : Grammar
  states : List ItemSet
  /-- The numbers of the sets of items. -/
  keys : List (ItemSet × Nat)
  successors : List Successors
  /-- The sets of items that wait. -/
  pending : List ItemSet

namespace Worklist

def automaton (w : Worklist) : Automaton := ⟨w.grammar, w.states, w.successors⟩

/-- The number of a set of items, and whether it is new. -/
def register (w : Worklist) (items : ItemSet) : Worklist × Nat × Bool :=
  match w.keys.lookup items with
  | some i => (w, i, false)
  | none =>
    let i := w.states.length
    ({ w with
        states := w.states ++ [items]
        keys := w.keys ++ [(items, i)]
        successors := w.successors ++ [[]] }, i, true)

def addSuccessor (w : Worklist) (state : Nat) (x : Symbol) (successor : Nat) :
    Except BuildError Worklist :=
  match w.successors[state]? with
  | none => .error (.noRow state)
  | some row => .ok { w with successors := w.successors.set state (row.put x successor) }

/-- The symbols that items of a set expect, the end of the input apart, each once. -/
def nextSymbols (items : ItemSet) : List Symbol :=
  ((items.filterMap Item.next).filter (· != .terminal endName)).eraseDups

def placed (g : Grammar) (x : Symbol) : Except BuildError (Nat × Symbol) :=
  match g.symbolKey? x.name with
  | some place => .ok (place, x)
  | none => .error (.unknownSymbol x.name)

/-- The symbols that a set of items has successors for, by their places in the alphabet. -/
def possible (g : Grammar) (items : ItemSet) : Except BuildError (List Symbol) := do
  let symbols ← (nextSymbols items).mapM (placed g)
  return (symbols.mergeSort fun a b => decide (a.1 ≤ b.1)).map Prod.snd

/-- Takes a set of items over one symbol. -/
def connect (items : ItemSet) (state : Nat) (w : Worklist) (x : Symbol) : Except BuildError Worklist :=
  let successor := w.grammar.goto items x
  if successor.isEmpty then .error (.emptySuccessor state x)
  else
    let (w, i, isNew) := w.register successor
    let w := if isNew then { w with pending := w.pending ++ [successor] } else w
    w.addSuccessor state x i

/-- Takes up a set of items, which does not wait any more. -/
def takeUp (w : Worklist) (items : ItemSet) : Except BuildError Worklist :=
  match w.keys.lookup items with
  | none => .error (.unregistered items)
  | some state => do
    let symbols ← possible w.grammar items
    symbols.foldlM (connect items state) w

def start (g : Grammar) : Worklist :=
  let initial := g.closure [Item.start g.goal]
  let (w, _) := register ⟨g, [], [], [], []⟩ initial
  { w with pending := [initial] }

/-- Takes up what waits, first come first served; `none` if so many rounds are not enough. -/
def run : Nat → Worklist → Option (Except BuildError Worklist)
  | 0, w => if w.pending.isEmpty then some (.ok w) else none
  | rounds + 1, w =>
    match w.pending with
    | [] => some (.ok w)
    | items :: rest =>
      match takeUp { w with pending := rest } items with
      | .error e => some (.error e)
      | .ok w => run rounds w

end Worklist

end Slr
