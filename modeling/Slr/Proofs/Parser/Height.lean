import Mathlib.Data.Nat.Find
import Slr.Proofs.Derivation.Room
import Slr.Proofs.Parser.Completeness
import Slr.Proofs.Parser.Forgiving

/-! # How high a parse builds its stack

A stack has a state for each root of the forest that it stands over, and one below.
No move adds more than one state, so a parse that ends keeps below some height; over a
sentence it has no more states at once than the tree of the sentence takes room, and
the lowest. -/

namespace Slr.StackParser

open ParseTree

variable {g : Grammar} {semantics : Semantics} {follow : Lookahead} {t : Table} {stack : Stack}
  {s s' s'' : Session} {limit n : Nat} {T : ParseTree} {e : Token}

/-- Before the `n`-th move and at every moment until then, a stack has at most `limit` states. -/
def Low (t : Table) (semantics : Semantics) (limit : Nat) (s : Session) (n : Nat) : Prop :=
  ∀ m < n, ∀ stack s', (next t semantics)^[m] (.running bottom, s) = (.running stack, s') →
    stack.length ≤ limit

/-- At no moment of a parse has a stack more than `limit` states. -/
def Within (t : Table) (semantics : Semantics) (limit : Nat) (s : Session) : Prop :=
  ∀ n, Low t semantics limit s n

/-- The first stack of a parse with more than `limit` states is there in the session `s'`. -/
def Outgrows (t : Table) (semantics : Semantics) (limit : Nat) (s s' : Session) : Prop :=
  ∃ n stack, Low t semantics limit s n ∧
    (next t semantics)^[n] (.running bottom, s) = (.running stack, s') ∧ limit < stack.length

theorem within_or_outgrows (t : Table) (semantics : Semantics) (limit : Nat) (s : Session) :
    Within t semantics limit s ∨ ∃ s', Outgrows t semantics limit s s' := by
  by_cases h : ∃ n stack s', (next t semantics)^[n] (.running bottom, s) = (.running stack, s') ∧
      limit < stack.length
  · classical
    obtain ⟨stack, s', hrun, hhigh⟩ := Nat.find_spec h
    refine Or.inr ⟨s', Nat.find h, stack, ?_, hrun, hhigh⟩
    intro m hm stack' s'' hrun'
    by_contra hlt
    exact Nat.find_min h hm ⟨stack', s'', hrun', Nat.lt_of_not_le hlt⟩
  · refine Or.inl ?_
    intro n m _ stack s' hrun
    by_contra hlt
    exact h ⟨m, stack, s', hrun, Nat.lt_of_not_le hlt⟩

theorem Outgrows.not_within (h : Outgrows t semantics limit s s') : ¬ Within t semantics limit s := by
  intro hwithin
  obtain ⟨n, stack, -, hrun, hhigh⟩ := h
  exact Nat.not_le_of_lt hhigh (hwithin (n + 1) n (Nat.lt_succ_self n) stack s' hrun)

theorem Outgrows.unique (h : Outgrows t semantics limit s s')
    (h' : Outgrows t semantics limit s s'') : s' = s'' := by
  obtain ⟨n, stack, hlow, hrun, hhigh⟩ := h
  obtain ⟨m, stack', hlow', hrun', hhigh'⟩ := h'
  rcases Nat.lt_trichotomy n m with hlt | rfl | hlt
  · exact absurd (hlow' n hlt stack s' hrun) (Nat.not_le_of_lt hhigh)
  · exact congrArg Prod.snd (hrun.symm.trans hrun')
  · exact absurd (hlow m hlt stack' s'' hrun') (Nat.not_le_of_lt hhigh')

theorem Within.mono {limit' : Nat} (h : Within t semantics limit s) (hle : limit ≤ limit') :
    Within t semantics limit' s :=
  fun n m hm stack s' hrun => Nat.le_trans (h n m hm stack s' hrun) hle

/-! ## Stacks and forests -/

/-- The roots under a stack are what the operations of the parse leave. -/
theorem roots_of_reads {s₀ : Session} {forest : List ParseTree} {ops : List Operation}
    (h : Reads g semantics s₀ n stack s forest) (htrace : s.trace = s₀.trace ++ ops) :
    forest.map root = ops.foldl Operation.onRoots [] := by
  obtain rfl := List.append_cancel_left (h.trace.symm.trans htrace)
  have hforest := foldl_onRoots_forest
    (fun T hT => foldl_onRoots (h.represents.valid T (List.mem_reverse.mp hT))) []
  simpa using hforest.symm

theorem length_of_reads {s₀ : Session} {forest : List ParseTree}
    (h : Reads g semantics s₀ n stack s forest) : stack.length = forest.length + 1 := by
  simpa using h.represents.way.length

/-- A move adds at most one state. -/
theorem length_le_of_iterate (hr : t.Renders (Automaton.build g) follow)
    (hrun : (next t semantics)^[n] (.running bottom, s) = (.running stack, s')) :
    stack.length ≤ n + 1 := by
  obtain ⟨forest, hreads⟩ := reads_iterate hr hrun
  have hroots := congrArg List.length (roots_of_reads hreads hreads.trace)
  have hops := length_foldl_onRoots_le_length (operationsOf forest.reverse) []
  rw [hreads.count, ← hroots, List.length_map, List.length_nil] at hops
  rw [length_of_reads hreads]
  omega

/-- A parse that ends has a height. -/
theorem exists_within (hr : t.Renders (Automaton.build g) follow) {o : Outcome Value}
    (hends : Ends t semantics (.running bottom, s) o) : ∃ calls, Within t semantics calls s := by
  obtain ⟨n, hn⟩ := hends
  refine ⟨n, ?_⟩
  intro _ m _ stack s' hrun
  have hlt : m < n := by
    by_contra hle
    have hended := outcome?_mono (Nat.le_of_not_lt hle) hn
    rw [hrun] at hended
    cases hended
  exact Nat.le_trans (length_le_of_iterate hr hrun) hlt

/-- Over a sentence a stack has a state for each root that lies there while the tree is
read, and the lowest, whatever the actions. -/
theorem within_of_sentence (hr : t.Renders (Automaton.build g) g.follow) (semantics : Semantics)
    (hT : T.Valid g) (hroot : T.root = .nonterminal g.start)
    (hfeed : s.stream.feed = ⟨T.tokens, .ok e⟩) : Within t semantics (T.room + 1) s := by
  intro _ n _ stack s' hrun
  obtain ⟨w, hw⟩ := semantics.exists_forgiving_eval T
  obtain ⟨stack₁, s₁, s₂, hleads, haccept, -⟩ := sentence_reads hr hT hroot hw hfeed
  have hforgiven :
      (next t semantics.forgiving)^[n] (.running bottom, s) = (.running stack, s') := by
    rcases iterate_forgiving t semantics (.running bottom, s) n with
      hsame | ⟨m, hm, q, v, below, sₘ, p, error, -, hbroken, hbreaks⟩
    · exact hsame.trans hrun
    · -- an action that fails ends the parse
      obtain ⟨stack', s'', hlater⟩ := running_of_iterate hrun (Nat.succ_le_of_lt hm)
      obtain ⟨tok, ahead, hmove⟩ := hbreaks.reduces
      rw [Function.iterate_succ_apply', hbroken, next_reduce ahead hmove, hbreaks.fails] at hlater
      cases hlater
  have hle : n ≤ T.operations.length := by
    by_contra hlt
    obtain ⟨stack', s'', hlater⟩ := running_of_iterate hforgiven (Nat.lt_of_not_le hlt)
    rw [Function.iterate_succ_apply', hleads.moves, haccept] at hlater
    cases hlater
  obtain ⟨forest, hreads⟩ := reads_iterate hr hrun
  have hops := trace_later t semantics.forgiving (.running bottom, s) hle
  rw [hforgiven, hleads.moves, hleads.trace, hreads.trace] at hops
  have hroom := length_foldl_onRoots_le hT ((List.prefix_append_right_inj _).mp hops) []
  rw [← roots_of_reads hreads hreads.trace, List.length_map, List.length_nil] at hroom
  rw [length_of_reads hreads]
  omega

end Slr.StackParser
