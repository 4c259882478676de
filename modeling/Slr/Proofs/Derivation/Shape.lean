import Slr.Proofs.Derivation.Tree
import Slr.Proofs.Grammar.Symbols

/-! # Trees over other tokens, and the roots that operations leave

A tree may be put over any other tokens of the same kinds: its operations and
its validity do not depend on the values. Replaying operations on the roots of a
stack alone gives the roots of the forest that the operations build. -/

namespace Slr

open ParseTree

namespace ParseTree

mutual

/-- The same tree over the first of these tokens. -/
def relabel : ParseTree → List Token → ParseTree
  | leaf t, tokens => leaf (tokens.headD t)
  | node p children, tokens => node p (relabelOf children tokens)

def relabelOf : List ParseTree → List Token → List ParseTree
  | [], _ => []
  | t :: ts, tokens => relabel t tokens :: relabelOf ts (tokens.drop t.tokens.length)

end

variable {g : Grammar} {t u : ParseTree} {ts us : List ParseTree} {toks rest : List Token}

/-- What a tree has in common with the same tree over other tokens. -/
structure Relabels (g : Grammar) (t u : ParseTree) (toks : List Token) : Prop where
  root : u.root = t.root
  tokens : u.tokens = toks
  operations : u.operations = t.operations
  valid : t.Valid g → u.Valid g

theorem relabelOf_spec (rest : List Token)
    (h : ∀ t ∈ ts, ∀ toks rest, toks.map Token.kind = t.kinds →
      Relabels g t (t.relabel (toks ++ rest)) toks)
    (hkinds : toks.map Token.kind = (tokensOf ts).map Token.kind) :
    (relabelOf ts (toks ++ rest)).map root = ts.map root ∧
      tokensOf (relabelOf ts (toks ++ rest)) = toks ∧
      operationsOf (relabelOf ts (toks ++ rest)) = operationsOf ts ∧
      ((∀ t ∈ ts, t.Valid g) → ∀ u ∈ relabelOf ts (toks ++ rest), u.Valid g) := by
  induction ts generalizing toks with
  | nil =>
    obtain rfl : toks = [] := by simpa [tokensOf] using hkinds
    simp [relabelOf, tokensOf]
  | cons t ts ih =>
    rw [tokensOf, List.map_append] at hkinds
    obtain ⟨toks₁, toks₂, rfl, h₁, h₂⟩ := List.map_eq_append_iff.mp hkinds
    have hlen : t.tokens.length = toks₁.length := by simpa using congrArg List.length h₁.symm
    have ht := h t (by simp) toks₁ (toks₂ ++ rest) h₁
    obtain ⟨hroots, htokens, hops, hvalid⟩ := ih (fun u hu => h u (by simp [hu])) h₂
    rw [List.append_assoc, relabelOf, hlen, List.drop_left]
    refine ⟨by simp [ht.root, hroots], by simp [tokensOf, ht.tokens, htokens],
      by simp [operationsOf, ht.operations, hops], ?_⟩
    intro hv u hu
    rcases List.mem_cons.mp hu with rfl | hu
    · exact ht.valid (hv t (by simp))
    · exact hvalid (fun c hc => hv c (by simp [hc])) u hu

/-- A tree over tokens of its own kinds keeps its shape. -/
theorem relabel_spec (g : Grammar) (t : ParseTree) (toks rest : List Token)
    (hkinds : toks.map Token.kind = t.kinds) : Relabels g t (t.relabel (toks ++ rest)) toks := by
  induction t using rec_children generalizing toks rest with
  | leaf token =>
    obtain ⟨tok, rfl, hkind⟩ : ∃ tok, toks = [tok] ∧ tok.kind = token.kind := by
      simpa [kinds, ParseTree.tokens, List.map_eq_singleton_iff] using hkinds
    exact ⟨by simp [relabel, ParseTree.root, hkind], rfl,
      by simp [relabel, ParseTree.operations, hkind], fun _ => .leaf _⟩
  | node p children ih =>
    obtain ⟨hroots, htokens, hops, hvalid⟩ := relabelOf_spec rest ih hkinds
    refine ⟨rfl, htokens, by simp [relabel, ParseTree.operations, hops], ?_⟩
    intro hv
    obtain ⟨hp, hchildren, hall⟩ := hv.of_node
    exact .node hp (hroots.trans hchildren) (hvalid hall)

end ParseTree

/-! ## Replaying operations on roots -/

/-- What an operation does to the roots on a stack, the last first. -/
def Operation.onRoots (roots : List Symbol) : Operation → List Symbol
  | shift kind => .terminal kind :: roots
  | reduce p => .nonterminal p.lhs :: roots.drop p.size
  | accept => roots

variable {g : Grammar} {t : ParseTree} {ts us : List ParseTree}

theorem foldl_onRoots_forest
    (h : ∀ t ∈ ts, ∀ xs, t.operations.foldl Operation.onRoots xs = t.root :: xs)
    (xs : List Symbol) :
    (operationsOf ts).foldl Operation.onRoots xs = (ts.map root).reverse ++ xs := by
  induction ts generalizing xs with
  | nil => rfl
  | cons t ts ih =>
    rw [operationsOf, List.foldl_append, h t (by simp), ih fun u hu => h u (by simp [hu])]
    simp

theorem foldl_onRoots (ht : t.Valid g) (xs : List Symbol) :
    t.operations.foldl Operation.onRoots xs = t.root :: xs := by
  induction t using rec_children generalizing xs with
  | leaf token => rfl
  | node p children ih =>
    obtain ⟨-, hroots, hvalid⟩ := ht.of_node
    have hforest := foldl_onRoots_forest (fun c hc => ih c hc (hvalid c hc)) xs
    have hsize : p.size = (children.map root).reverse.length := by simp [Production.size, ← hroots]
    rw [operations, List.foldl_append, hforest]
    simp [Operation.onRoots, hsize, root]

/-- Forests that are built by the same operations have the same roots. -/
theorem roots_eq_of_operations (hts : ∀ t ∈ ts, t.Valid g) (hus : ∀ u ∈ us, u.Valid g)
    (h : operationsOf ts = operationsOf us) : ts.map root = us.map root := by
  have hl := foldl_onRoots_forest (fun t ht => foldl_onRoots (hts t ht)) []
  have hr := foldl_onRoots_forest (fun u hu => foldl_onRoots (hus u hu)) []
  rw [h, hr] at hl
  simpa using hl.symm

/-- The kinds that operations shift. -/
def shifts (ops : List Operation) : List String :=
  ops.filterMap fun
    | .shift k => some k
    | _ => none

theorem shifts_append (as bs : List Operation) : shifts (as ++ bs) = shifts as ++ shifts bs := by
  simp [shifts]

theorem shifts_forest (h : ∀ t ∈ ts, shifts t.operations = t.kinds) :
    shifts (operationsOf ts) = (tokensOf ts).map Token.kind := by
  induction ts with
  | nil => rfl
  | cons t ts ih =>
    rw [operationsOf, shifts_append, h t (by simp), ih fun u hu => h u (by simp [hu]), tokensOf,
      List.map_append, kinds]

/-- The leaves of a tree are what its operations shift. -/
theorem shifts_operations (t : ParseTree) : shifts t.operations = t.kinds := by
  induction t using rec_children with
  | leaf token => rfl
  | node p children ih =>
    rw [operations, shifts_append, shifts_forest ih]
    simp [shifts, kinds, tokens]

theorem shifts_operationsOf (ts : List ParseTree) :
    shifts (operationsOf ts) = (tokensOf ts).map Token.kind :=
  shifts_forest fun t _ => shifts_operations t

/-! ## The words of trees -/

theorem kinds_node {p : Production} {k : String} :
    k ∈ (ParseTree.node p ts).kinds ↔ ∃ t ∈ ts, k ∈ t.kinds := by
  have hof (us : List ParseTree) : k ∈ (tokensOf us).map Token.kind ↔ ∃ t ∈ us, k ∈ t.kinds := by
    induction us with
    | nil => simp [tokensOf]
    | cons u us ih =>
      rw [tokensOf, List.map_append, List.mem_append, ih]
      simp [kinds]
  exact hof ts

theorem ParseTree.Valid.kind_mem_terminals (ht : t.Valid g) (hroot : t.root ∈ g.alphabet)
    {k : String} (hk : k ∈ t.kinds) : k ∈ g.terminals := by
  induction t using rec_children with
  | leaf token =>
    obtain rfl : k = token.kind := by simpa [kinds, tokens] using hk
    exact Grammar.terminal_mem_alphabet.mp hroot
  | node p children ih =>
    obtain ⟨hp, hroots, hvalid⟩ := ht.of_node
    obtain ⟨c, hc, hkc⟩ := kinds_node.mp hk
    refine ih c hc (hvalid c hc) (Grammar.mem_alphabet_of_mem_rhs hp ?_) hkc
    rw [← hroots]
    exact List.mem_map_of_mem hc

/-- Only the goal's production derives the end of the input. -/
theorem ParseTree.Valid.end_not_mem_kinds (ht : t.Valid g) (hgoal : g.start ≠ goalName)
    (hroot : t.root ≠ .terminal endName ∧ t.root ≠ .nonterminal goalName) :
    endName ∉ t.kinds := by
  induction t using rec_children with
  | leaf token => simpa [kinds, tokens, root, eq_comm] using hroot.1
  | node p children ih =>
    intro hend
    obtain ⟨hp, hroots, hvalid⟩ := ht.of_node
    obtain ⟨c, hc, hkc⟩ := kinds_node.mp hend
    have hmem : c.root ∈ p.rhs := by
      rw [← hroots]
      exact List.mem_map_of_mem hc
    refine ih c hc (hvalid c hc) ⟨?_, ?_⟩ hkc
    · intro h
      apply hroot.2
      rw [Grammar.eq_goal_of_end_mem hp (h ▸ hmem)]
      rfl
    · intro h
      exact hgoal (Grammar.start_eq_goalName_of_mem_rhs hp (h ▸ hmem))

/-! ## A goal that starts with itself -/

/-- A goal that is its own start symbol derives nothing. -/
theorem ParseTree.Valid.root_ne_start (ht : t.Valid g) (hgoal : g.start = goalName) :
    t.root ≠ .nonterminal g.start := by
  induction t using rec_children with
  | leaf token => simp [root]
  | node p children ih =>
    intro hroot
    obtain ⟨hp, hroots, hvalid⟩ := ht.of_node
    obtain rfl : p = g.goal := by
      refine Grammar.eq_goal_of_lhs hp ?_
      simpa [root, hgoal] using hroot
    have hfirst : Symbol.nonterminal g.start ∈ children.map root := by
      rw [hroots]
      simp [Grammar.goal, Production.goal]
    obtain ⟨c, hc, hstart⟩ := List.mem_map.mp hfirst
    exact ih c hc (hvalid c hc) hstart

theorem Grammar.Reached.mem_nonterminals {n : String} (h : g.Reached n) :
    n ∈ g.nonterminals := by
  cases h with
  | start => exact g.start_mem_nonterminals
  | part _ hp hn => exact Grammar.defined_of_mem_rhs hp hn

theorem Grammar.Productive.grounded (hg : g.Productive) : g.Grounded :=
  fun n hn => hg n hn.mem_nonterminals

theorem Grammar.Grounded.start_ne_goalName (hg : g.Grounded) : g.start ≠ goalName := by
  intro hgoal
  obtain ⟨t, ht, hroot⟩ := hg g.start .start
  exact ht.root_ne_start hgoal hroot

/-- The end of the input is in no sentence. -/
theorem ParseTree.Valid.end_not_mem_sentence (ht : t.Valid g)
    (hroot : t.root = .nonterminal g.start) : endName ∉ t.kinds := by
  have hgoal : g.start ≠ goalName := fun h => ht.root_ne_start h hroot
  exact ht.end_not_mem_kinds hgoal (by simp [hroot, hgoal])

end Slr
