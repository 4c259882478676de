import Slr.Lookahead.Follow

/-!
FIRST and FOLLOW by sweeps. A sweep goes over the productions in their order and adds to tables what each
of them shows; what one production adds, the next one reads already. A flag says whether anything was
added; the sweep that adds nothing is the last.
-/

namespace Slr

/-- Sweeps until one adds nothing; `none` if so many are not enough. -/
def repeatSweeps {α : Type} (sweep : α → α × Bool) : Nat → α → Option α
  | 0, _ => none
  | sweeps + 1, a =>
    match sweep a with
    | (b, true) => repeatSweeps sweep sweeps b
    | (b, false) => some b

/-- Adds names to a set, and says whether the set grew. -/
def merge (names more : List String) : List String × Bool :=
  let all := names ++ (more.filter (· ∉ names)).eraseDups
  (all, all.length != names.length)

/-! ## FIRST -/

/-- The terminals that each symbol is known to begin with, and the symbols known to vanish. -/
structure FirstTable where
  firsts : Symbol → List String
  empty : Symbol → Bool

namespace FirstTable

/-- Before the first sweep a terminal begins with itself, and nothing vanishes. -/
def initial : FirstTable where
  firsts
    | .terminal t => [t]
    | .nonterminal _ => []
  empty _ := false

/-- Adds to the terminals of `n` those of `x`. -/
def absorb (n x : Symbol) (s : FirstTable × Bool) : FirstTable × Bool :=
  let (all, grew) := merge (s.1.firsts n) (s.1.firsts x)
  ({ s.1 with firsts := fun y => if y = n then all else s.1.firsts y }, grew || s.2)

def markEmpty (n : Symbol) (s : FirstTable × Bool) : FirstTable × Bool :=
  ({ s.1 with empty := fun y => y = n || s.1.empty y }, s.2 || !s.1.empty n)

/-- Goes along a right hand side of `n` as far as its symbols vanish; behind the last one, `n` does. -/
def along (n : Symbol) : List Symbol → FirstTable × Bool → FirstTable × Bool
  | [], s => markEmpty n s
  | x :: xs, s =>
    let s := absorb n x s
    if s.1.empty x then along n xs s else s

def sweep (g : Grammar) (t : FirstTable) : FirstTable × Bool :=
  g.productions.foldl (fun s p => along (.nonterminal p.lhs) p.rhs s) (t, false)

/-- The table as a list, in the order of the alphabet. -/
def listed (t : FirstTable) (g : Grammar) : FirstSets where
  nullable := g.nonterminals.filter fun n => t.empty (.nonterminal n)
  firsts := g.alphabet.map fun x => (x, g.terminals.filter (· ∈ t.firsts x))

end FirstTable

/-! ## FOLLOW -/

/-- The terminals that are known to stand behind each nonterminal. -/
abbrev FollowTable := String → List String

namespace FollowTable

def initial (g : Grammar) : FollowTable := fun n => if n = g.start then [endName] else []

/-- Adds to what stands behind `n`. -/
def add (n : String) (more : List String) (s : FollowTable × Bool) : FollowTable × Bool :=
  let (all, grew) := merge (s.1 n) more
  (fun m => if m = n then all else s.1 m, grew || s.2)

/-- A right hand side is walked from its end. What lies behind can vanish, or cannot, and begins with
these terminals. -/
structure Behind where
  vanishes : Bool
  begins : List String

/-- A symbol has come in front of what lies behind. -/
def Behind.pass (b : Behind) (f : FirstSets) (x : Symbol) : Behind :=
  let ts := (f.first? x).getD []
  if Slr.vanishes f.nullable x then { b with begins := (merge b.begins ts).1 } else ⟨false, ts⟩

/-- Adds what is known to stand behind `n` inside a right hand side of `lhs`. -/
def meet (lhs n : String) (b : Behind) (s : FollowTable × Bool) : FollowTable × Bool :=
  let s := if b.vanishes then add n (s.1 lhs) s else s
  add n b.begins s

/-- A symbol of a right hand side of `lhs`, with what lies behind it. -/
def step (f : FirstSets) (lhs : String) (x : Symbol) (b : Behind) (s : FollowTable × Bool) :
    Behind × FollowTable × Bool :=
  (b.pass f x, match x with
    | .terminal _ => s
    | .nonterminal n => meet lhs n b s)

def along (f : FirstSets) (lhs : String) (rhs : List Symbol) (s : FollowTable × Bool) :
    Behind × FollowTable × Bool :=
  rhs.foldr (fun x w => step f lhs x w.1 w.2) (⟨true, []⟩, s)

def sweep (g : Grammar) (f : FirstSets) (t : FollowTable) : FollowTable × Bool :=
  g.productions.foldl (fun s p => (along f p.lhs p.rhs s).2) (t, false)

/-- The table as a list, in the order of names. -/
def listed (t : FollowTable) (g : Grammar) : Lookahead :=
  g.nonterminals.map fun n => (n, g.terminals.filter (· ∈ t n))

end FollowTable

end Slr
