import Slr.Proofs.Derivation.Visits

/-! # A tree is known from its operations and its tokens

Replaying the operations of a tree on a stack of trees, with the tree's tokens at
hand for the shifts, puts the tree on the stack and comes by its nodes, children
first. Two valid trees over the same tokens are therefore one tree if they are
built by the same operations, and what was reduced by some of the operations are
the first nodes of the tree. -/

namespace Slr

open ParseTree

/-- What operations have come to: trees, the last first, the tokens at hand, how many
were taken before, and the nodes that were made. -/
structure Replay where
  trees : List ParseTree
  tokens : List Token
  taken : Nat
  visits : List Visit

def Operation.replay (r : Replay) : Operation → Replay
  | shift _ =>
    match r.tokens with
    | [] => r
    | token :: tokens => ⟨.leaf token :: r.trees, tokens, r.taken + 1, r.visits⟩
  | reduce p =>
    let children := (r.trees.take p.size).reverse
    { r with
      trees := .node p children :: r.trees.drop p.size
      visits := r.visits ++ [⟨p, children, r.taken⟩] }
  | accept => r

variable {g : Grammar} {t u : ParseTree} {ts : List ParseTree} {ops : List Operation}
  {p : Production}

theorem foldl_replay_forest
    (h : ∀ t ∈ ts, ∀ trees rest n vs, t.operations.foldl Operation.replay
      ⟨trees, t.tokens ++ rest, n, vs⟩ = ⟨t :: trees, rest, n + t.tokens.length, vs ++ t.visits n⟩)
    (trees : List ParseTree) (rest : List Token) (n : Nat) (vs : List Visit) :
    (operationsOf ts).foldl Operation.replay ⟨trees, tokensOf ts ++ rest, n, vs⟩ =
      ⟨ts.reverse ++ trees, rest, n + (tokensOf ts).length, vs ++ visitsOf n ts⟩ := by
  induction ts generalizing trees n vs with
  | nil => simp [operationsOf, tokensOf, visitsOf]
  | cons t ts ih =>
    rw [operationsOf, tokensOf, List.foldl_append, List.append_assoc, h t (by simp),
      ih fun u hu => h u (by simp [hu])]
    simp [visitsOf, Nat.add_assoc]

/-- The operations of a tree take its tokens, put the tree on top and come by its nodes. -/
theorem foldl_replay (ht : t.Valid g) (trees : List ParseTree) (rest : List Token) (n : Nat)
    (vs : List Visit) :
    t.operations.foldl Operation.replay ⟨trees, t.tokens ++ rest, n, vs⟩ =
      ⟨t :: trees, rest, n + t.tokens.length, vs ++ t.visits n⟩ := by
  induction t using rec_children generalizing trees rest n vs with
  | leaf token => simp [operations, tokens, visits, Operation.replay]
  | node p children ih =>
    obtain ⟨-, hroots, hvalid⟩ := ht.of_node
    have hforest := foldl_replay_forest (fun c hc => ih c hc (hvalid c hc)) trees rest n vs
    have hsize : p.size = children.reverse.length := by simp [Production.size, ← hroots]
    rw [operations, tokens, List.foldl_append, hforest]
    simp [Operation.replay, visits, hsize]

theorem eq_of_operations (ht : t.Valid g) (hu : u.Valid g) (hops : t.operations = u.operations)
    (htokens : t.tokens = u.tokens) : t = u := by
  have hreplay := foldl_replay ht [] [] 0 []
  rw [hops, htokens, foldl_replay hu [] [] 0 []] at hreplay
  simpa using (congrArg Replay.trees hreplay).symm

theorem visits_prefix_foldl (ops : List Operation) (r : Replay) :
    r.visits <+: (ops.foldl Operation.replay r).visits := by
  induction ops generalizing r with
  | nil => exact List.prefix_refl _
  | cons op ops ih =>
    refine List.IsPrefix.trans ?_ (ih (op.replay r))
    cases op with
    | shift kind =>
      rw [Operation.replay]
      split
      · exact List.prefix_refl _
      · exact List.prefix_refl _
    | reduce p => exact List.prefix_append _ _
    | accept => exact List.prefix_refl _

/-- A forest that is built by the first operations of a tree, with a reduction of its last
trees as the next, has the first nodes of the tree, and the reduced one is the next. -/
theorem visits_of_operations (ht : t.Valid g) {rest children : List ParseTree}
    {tokens : List Token} (hforest : ∀ u ∈ rest ++ children, u.Valid g)
    (hsize : children.length = p.size)
    (hops : t.operations = operationsOf (rest ++ children) ++ .reduce p :: ops)
    (htokens : t.tokens = tokensOf (rest ++ children) ++ tokens) :
    ∃ after, t.visits 0 = visitsOf 0 (rest ++ children) ++
      ⟨p, children, (tokensOf (rest ++ children)).length⟩ :: after := by
  have hwhole := foldl_replay ht [] [] 0 []
  have hfirst := foldl_replay_forest (fun u hu => foldl_replay (hforest u hu)) [] tokens 0 []
  rw [List.append_nil, hops, htokens, List.foldl_append, hfirst, List.foldl_cons] at hwhole
  have hprefix := visits_prefix_foldl ops (Operation.replay
    ⟨(rest ++ children).reverse ++ [], tokens, 0 + (tokensOf (rest ++ children)).length,
      [] ++ visitsOf 0 (rest ++ children)⟩ (.reduce p))
  rw [hwhole] at hprefix
  obtain ⟨after, hafter⟩ := hprefix
  refine ⟨after, ?_⟩
  have htake : (children.reverse ++ rest.reverse).take p.size = children.reverse := by
    rw [← hsize, ← List.length_reverse, List.take_left]
  simpa [Operation.replay, htake] using hafter.symm

end Slr
