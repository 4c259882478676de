import Slr.Grammar.Basic
import Slr.Grammar.Error
import Slr.Reachability

/-!
Which nonterminals derive the empty word, and which terminals a symbol's derivations begin with. The
empty ones are found in rounds, each of which looks at every production; one round for each nonterminal
is enough. A terminal begins a derivation of `X` exactly when it is reached from `X` over the symbols
that stand in a right hand side behind empty ones only.
-/

namespace Slr

def vanishes (nullable : List String) : Symbol → Bool
  | .terminal _ => false
  | .nonterminal n => n ∈ nullable

namespace Grammar

/-- The nonterminals with a production of vanishing symbols only. -/
def nullableRound (g : Grammar) (known : List String) : List String :=
  g.nonterminals.filter fun n => (g.productionsFor n).any fun p => p.rhs.all (vanishes known)

def nullable (g : Grammar) : List String :=
  Nat.repeat g.nullableRound g.nonterminals.length []

/-- The symbols that a word may begin with, once those before them have vanished. -/
def openings (nullable : List String) : List Symbol → List Symbol
  | [] => []
  | x :: xs => if vanishes nullable x then x :: openings nullable xs else [x]

/-- The symbols at the left edge of the right hand sides of a symbol. -/
def corners (g : Grammar) (nullable : List String) : Symbol → List Symbol
  | .terminal _ => []
  | .nonterminal n => (g.productionsFor n).flatMap fun p => openings nullable p.rhs

def firstOf (g : Grammar) (nullable : List String) (x : Symbol) : List String :=
  let reached := Reachability.reach (g.corners nullable) g.alphabet.length [x]
  g.terminals.filter fun t => .terminal t ∈ reached

end Grammar

/-- FIRST of every symbol of a grammar, in the order of its alphabet, and the nullable ones. -/
structure FirstSets where
  nullable : List String
  firsts : List (Symbol × List String)

namespace FirstSets

def ofGrammar (g : Grammar) : FirstSets :=
  let nullable := g.nullable
  ⟨nullable, g.alphabet.map fun x => (x, g.firstOf nullable x)⟩

def first? (f : FirstSets) (x : Symbol) : Option (List String) := f.firsts.lookup x

/-- The terminals that begin a word and whether it can vanish; the error is an unknown symbol. -/
def ofWord (f : FirstSets) : List Candidate → Except Candidate (List String × Bool)
  | [] => .ok ([], true)
  | x :: xs =>
    match x.symbol? with
    | none => .error x
    | some s =>
      match f.first? s with
      | none => .error x
      | some ts =>
        if vanishes f.nullable s then
          (f.ofWord xs).map fun r => (sortNames (ts ++ r.1), r.2)
        else .ok (ts, false)

end FirstSets

end Slr
