import Slr.Lookahead.First

/-!
Which terminals may stand behind a nonterminal. `B` is followed by whatever begins the rest of a right
hand side behind an occurrence of `B`; where that rest can vanish, also by whatever follows the left hand
side. So FOLLOW of `B` collects the first kind over all nonterminals reached by the second.
-/

namespace Slr

/-- Terminals for each nonterminal, by name. -/
abbrev Lookahead := List (String × List String)

namespace Grammar

/-- What stands behind each occurrence of a nonterminal in a word. -/
def rests (name : String) : List Symbol → List (List Symbol)
  | [] => []
  | x :: xs => if x = .nonterminal name then xs :: rests name xs else rests name xs

/-- Every occurrence of a nonterminal: the left hand side, and the rest behind it. -/
def occurrences (g : Grammar) (name : String) : List (String × List Symbol) :=
  g.productions.flatMap fun p => (rests name p.rhs).map (p.lhs, ·)

/-- The nonterminals that end in `name` after vanishing symbols: what follows them follows it. -/
def enclosing (g : Grammar) (nullable : List String) (name : String) : List String :=
  (g.occurrences name).filterMap fun o => if o.2.all (vanishes nullable) then some o.1 else none

/-- The terminals that begin a rest behind `name`. -/
def directFollow (g : Grammar) (f : FirstSets) (name : String) : List String :=
  (g.occurrences name).flatMap fun o =>
    (openings f.nullable o.2).flatMap fun x => (f.first? x).getD []

def followOf (g : Grammar) (f : FirstSets) (name : String) : List String :=
  let reached := Reachability.reach (g.enclosing f.nullable) g.nonterminals.length [name]
  let found := reached.flatMap (g.directFollow f)
  g.terminals.filter (· ∈ found)

/-- FOLLOW of every nonterminal, the goal with them, in the order of names. -/
def allFollow (g : Grammar) : Lookahead :=
  let f := FirstSets.ofGrammar g
  g.nonterminals.map fun n => (n, g.followOf f n)

/-- FOLLOW of every nonterminal but the goal. -/
def follow (g : Grammar) : Lookahead := g.allFollow.filter fun e => e.1 != goalName

end Grammar

end Slr
