import Slr.Parser.Session

/-! # Derivation trees

A leaf of a tree is a token, a node a production with a tree for each symbol of
its right hand side. From a tree one reads the tokens it stands over, its value
under given semantic actions, and the operations of a parser that builds it from
left to right: each leaf is shifted, each node is reduced behind its children. -/

namespace Slr

inductive ParseTree where
  | leaf (token : Token)
  | node (production : Production) (children : List ParseTree)

/-- What a parser does to its stack in a step, whatever the states. -/
inductive Operation where
  | shift (kind : String)
  | reduce (production : Production)
  | accept
  deriving DecidableEq

def Step.operation (s : Step) : Operation :=
  match s.move with
  | .shift _ => .shift s.terminal
  | .reduce p => .reduce p
  | .accept => .accept

/-- The productions of the reductions among operations. -/
def reductions (ops : List Operation) : List Production :=
  ops.filterMap fun
    | .reduce p => some p
    | _ => none

/-- The value of a production over the values of its right hand side, or how the
parse fails there. -/
def Semantics.value (semantics : Semantics) (p : Production) (values : List Value) :
    Except ParseError Value :=
  match semantics p with
  | none => .ok (.tree p.lhs values)
  | some action =>
    match action.apply values with
    | .ok v => .ok v
    | .error (.ordinary kind message) => .error (.actionFailed p (.ordinary kind message))
    | .error f => .error (.fault f)

/-- A production has no value only where its action has a fault. -/
theorem Semantics.fault_of_value {semantics : Semantics} {p : Production} {values : List Value}
    {e : ParseError} (h : semantics.value p values = .error e) :
    ∃ action f, semantics p = some action ∧ action.apply values = .error f ∧
      (e = .actionFailed p f ∨ e = .fault f) := by
  unfold value at h
  cases haction : semantics p with
  | none => simp [haction] at h
  | some action =>
    cases happly : action.apply values with
    | ok v => simp [haction, happly] at h
    | error f =>
      refine ⟨action, f, rfl, happly, ?_⟩
      cases f <;> simp_all [eq_comm]

/-- No production has an action of its own. -/
def Semantics.default : Semantics := fun _ => none

namespace ParseTree

def root : ParseTree → Symbol
  | leaf t => .terminal t.kind
  | node p _ => .nonterminal p.lhs

mutual

/-- The tokens a tree stands over. -/
def tokens : ParseTree → List Token
  | leaf t => [t]
  | node _ children => tokensOf children

def tokensOf : List ParseTree → List Token
  | [] => []
  | t :: ts => tokens t ++ tokensOf ts

end

mutual

def operations : ParseTree → List Operation
  | leaf t => [.shift t.kind]
  | node p children => operationsOf children ++ [.reduce p]

def operationsOf : List ParseTree → List Operation
  | [] => []
  | t :: ts => operations t ++ operationsOf ts

end

mutual

/-- The value of a tree without semantic actions: its nodes, over the values of its leaves. -/
def value : ParseTree → Value
  | leaf t => t.value
  | node p children => .tree p.lhs (valuesOf children)

def valuesOf : List ParseTree → List Value
  | [] => []
  | t :: ts => value t :: valuesOf ts

end

mutual

/-- The value of a tree under semantic actions, or the first failure from the left. -/
def eval (semantics : Semantics) : ParseTree → Except ParseError Value
  | leaf t => .ok t.value
  | node p children =>
    match evalAll semantics children with
    | .error e => .error e
    | .ok values => semantics.value p values

def evalAll (semantics : Semantics) : List ParseTree → Except ParseError (List Value)
  | [] => .ok []
  | t :: ts =>
    match eval semantics t with
    | .error e => .error e
    | .ok v =>
      match evalAll semantics ts with
      | .error e => .error e
      | .ok vs => .ok (v :: vs)

end

def kinds (t : ParseTree) : List String := t.tokens.map Token.kind

/-- Every node is a production of the grammar over the roots of its children. -/
inductive Valid (g : Grammar) : ParseTree → Prop
  | leaf (t : Token) : Valid g (leaf t)
  | node {p : Production} {children : List ParseTree} (hp : p ∈ g.productions)
      (roots : children.map root = p.rhs) (valid : ∀ t ∈ children, Valid g t) :
      Valid g (node p children)

end ParseTree

/-- A word is a sentence if it is the word of a derivation tree from the start symbol. -/
def Grammar.Sentence (g : Grammar) (word : List String) : Prop :=
  ∃ t : ParseTree, t.Valid g ∧ t.root = .nonterminal g.start ∧ t.kinds = word

/-- Every nonterminal derives some word of terminals. -/
def Grammar.Productive (g : Grammar) : Prop :=
  ∀ n ∈ g.nonterminals, ∃ t : ParseTree, t.Valid g ∧ t.root = .nonterminal n

/-- The nonterminals that derivations from the start symbol come to. -/
inductive Grammar.Reached (g : Grammar) : String → Prop
  | start : Grammar.Reached g g.start
  | part {p : Production} {n : String} (h : Grammar.Reached g p.lhs) (hp : p ∈ g.productions)
      (hn : .nonterminal n ∈ p.rhs) : Grammar.Reached g n

/-- Every nonterminal that derivations come to derives some word of terminals. -/
def Grammar.Grounded (g : Grammar) : Prop :=
  ∀ n, g.Reached n → ∃ t : ParseTree, t.Valid g ∧ t.root = .nonterminal n

/-! ## Trees by their children -/

namespace ParseTree

variable {g : Grammar} {semantics : Semantics} {t : ParseTree} {ts us : List ParseTree}
  {p : Production}

/-- Induction on a tree, with the hypothesis for all children of a node at once. -/
theorem rec_children {motive : ParseTree → Prop} (leaf : ∀ token, motive (leaf token))
    (node : ∀ p children, (∀ c ∈ children, motive c) → motive (node p children)) :
    ∀ t, motive t := by
  intro t
  refine ParseTree.rec (motive_1 := motive) (motive_2 := fun ts => ∀ c ∈ ts, motive c)
    leaf node ?_ ?_ t
  · intro c hc
    cases hc
  · intro t ts ht hts c hc
    rcases List.mem_cons.mp hc with rfl | hc
    · exact ht
    · exact hts c hc

theorem tokensOf_append : tokensOf (ts ++ us) = tokensOf ts ++ tokensOf us := by
  induction ts with
  | nil => rfl
  | cons t ts ih => simp [tokensOf, ih]

theorem operationsOf_append : operationsOf (ts ++ us) = operationsOf ts ++ operationsOf us := by
  induction ts with
  | nil => rfl
  | cons t ts ih => simp [operationsOf, ih]

@[simp] theorem tokensOf_singleton : tokensOf [t] = t.tokens := by simp [tokensOf]

@[simp] theorem operationsOf_singleton : operationsOf [t] = t.operations := by simp [operationsOf]

theorem Valid.of_node (h : Valid g (.node p ts)) :
    p ∈ g.productions ∧ ts.map root = p.rhs ∧ ∀ c ∈ ts, Valid g c := by
  cases h with
  | node hp roots valid => exact ⟨hp, roots, valid⟩

/-! ## Values -/

theorem eval_node {vs : List Value} (h : evalAll semantics ts = .ok vs) :
    eval semantics (.node p ts) = semantics.value p vs := by
  rw [eval, h]

theorem evalAll_cons_inv {vs : List Value} (h : evalAll semantics (t :: ts) = .ok vs) :
    ∃ w ws, eval semantics t = .ok w ∧ evalAll semantics ts = .ok ws ∧ vs = w :: ws := by
  unfold evalAll at h
  cases hw : eval semantics t with
  | error e => simp [hw] at h
  | ok w =>
    cases hws : evalAll semantics ts with
    | error e => simp [hw, hws] at h
    | ok ws => exact ⟨w, ws, rfl, rfl, by simpa [hw, hws, eq_comm] using h⟩

theorem evalAll_append {vs ws : List Value} (hts : evalAll semantics ts = .ok vs)
    (hus : evalAll semantics us = .ok ws) : evalAll semantics (ts ++ us) = .ok (vs ++ ws) := by
  induction ts generalizing vs with
  | nil =>
    cases hts
    exact hus
  | cons t ts ih =>
    obtain ⟨v, vs, hv, hvs, rfl⟩ := evalAll_cons_inv hts
    simp [evalAll, hv, ih hvs]

/-- A forest that has values has them part by part. -/
theorem evalAll_append_inv {vs : List Value} (h : evalAll semantics (ts ++ us) = .ok vs) :
    ∃ vs₁ vs₂, evalAll semantics ts = .ok vs₁ ∧ evalAll semantics us = .ok vs₂ ∧
      vs = vs₁ ++ vs₂ := by
  induction ts generalizing vs with
  | nil => exact ⟨[], vs, rfl, h, rfl⟩
  | cons t ts ih =>
    obtain ⟨v, vs, hv, hvs, rfl⟩ := evalAll_cons_inv h
    obtain ⟨vs₁, vs₂, h₁, h₂, rfl⟩ := ih hvs
    exact ⟨v :: vs₁, vs₂, by simp [evalAll, hv, h₁], h₂, rfl⟩

theorem evalAll_singleton {v : Value} (h : eval semantics t = .ok v) :
    evalAll semantics [t] = .ok [v] := by
  simp [evalAll, h]

theorem evalAll_length {vs : List Value} (h : evalAll semantics ts = .ok vs) :
    vs.length = ts.length := by
  induction ts generalizing vs with
  | nil =>
    cases h
    rfl
  | cons t ts ih =>
    obtain ⟨v, vs, -, hvs, rfl⟩ := evalAll_cons_inv h
    simp [ih hvs]

theorem evalAll_default_of (h : ∀ c ∈ ts, eval .default c = .ok c.value) :
    evalAll .default ts = .ok (valuesOf ts) := by
  induction ts with
  | nil => rfl
  | cons t ts ih =>
    rw [evalAll, h t (by simp), ih fun c hc => h c (by simp [hc])]
    rfl

/-- Without actions the value of a tree is the tree itself, over the values of its leaves. -/
theorem eval_default (t : ParseTree) : eval .default t = .ok t.value := by
  induction t using rec_children with
  | leaf token => rfl
  | node p children ih =>
    rw [eval, evalAll_default_of ih]
    rfl

end ParseTree

end Slr
