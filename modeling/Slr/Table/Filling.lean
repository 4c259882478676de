import Slr.Table.Builder

/-!
A table filled by a builder, state by state: first the votes of the items in their order, then the gotos.
What an item needs for its vote is looked up, and the builder may refuse what it is given; either stops
the filling.
-/

namespace Slr

inductive FillError where
  | builder (error : Builder.Error)
  /-- An item at its end whose left hand side has no lookahead set. -/
  | noLookahead (nonterminal : String)
  /-- An item before a terminal that its state has no successor on. -/
  | noShift (terminal : String)
  /-- An item before the end of the input that is not the goal's. -/
  | notGoal (item : Item)

namespace Builder

/-- What a step comes to for somebody who does not go on after an error. -/
def Step.result : Step → Except FillError Builder
  | (b, none) => .ok b
  | (_, some e) => .error (.builder e)

def fillReductions (follow : Lookahead) (b : Builder) (it : Item) : Except FillError Builder :=
  match follow.lookup it.production.lhs with
  | none => .error (.noLookahead it.production.lhs)
  | some ts =>
    match ts.find? fun t => (b.automaton.grammar.symbolKey? t).isNone with
    | some t => .error (.builder (.unknownTerminal t))
    | none => (sortNames ts).foldlM (fun b t => Step.result (b.reduce t it)) b

def fillItem (follow : Lookahead) (state : Nat) (b : Builder) (it : Item) : Except FillError Builder :=
  match it.next with
  | none => b.fillReductions follow it
  | some (.nonterminal _) => .ok b
  | some (.terminal t) =>
    if t = endName then
      if it.production = b.automaton.grammar.goal then Step.result (b.accept t it)
      else .error (.notGoal it)
    else
      match (b.automaton.shifts state).lookup t with
      | none => .error (.noShift t)
      | some target => Step.result (b.shift t target it)

def fillGotos (gotos : GotoRow) (b : Builder) : Except FillError Builder :=
  gotos.foldlM (fun b e => Step.result (b.goto e.1 e.2)) b

def fillRow (follow : Lookahead) (b : Builder) (state : Nat) : Except FillError Builder := do
  let b ← Step.result (b.newRow state)
  let b ← (b.automaton.items state).foldlM (fillItem follow state) b
  b.fillGotos (b.automaton.gotos state)

end Builder

/-- The table of an automaton, as a builder makes it. -/
def Automaton.fill (a : Automaton) (follow : Lookahead) : Except FillError Table := do
  let b ← (List.range a.size).foldlM (Builder.fillRow follow) (.ofAutomaton a)
  b.flush.2.mapError .builder

end Slr
