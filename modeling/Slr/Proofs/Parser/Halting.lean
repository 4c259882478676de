import Slr.Proofs.Automaton.Extension
import Slr.Proofs.Parser.Completeness
import Slr.Proofs.Parser.Lockstep

/-! # A parse of a grounded grammar ends

An SLR(1) table may reduce on a token that cannot follow, but not for ever if every
nonterminal that derivations come to derives a word. The
moves that a parse has made are the first moves over some sentence, which has
some terminal next; another sentence with the same terminal next is parsed by the
same moves up to there, and its parse ends. There are finitely many terminals, so
the moves over any one word are bounded, and so are those over all words that an
input begins with. -/

namespace Slr.StackParser

open ParseTree

variable {g : Grammar} {t : Table} {T : ParseTree} {s : Session} {e : Token}
  {ops : List Operation}

/-- A session that has the tokens of a sentence's tree in store. -/
theorem exists_session (hT : T.Valid g) (hroot : T.root = .nonterminal g.start) :
    ∃ (s : Session) (e : Token), s.stream.feed = ⟨T.tokens, .ok e⟩ ∧ s.trace = [] := by
  obtain ⟨e, he⟩ := TokenStream.ofItems_tokens T.tokens (fun tok htok hk =>
    hT.end_not_mem_sentence hroot (List.mem_map.mpr ⟨tok, htok, hk⟩)) 0 0
  exact ⟨.ofStream (.ofItems (T.tokens.map .token) false), e, he, rfl⟩

/-- The parse of a sentence makes the first operations of its tree. -/
theorem begins_reads (ht : g.table = .ok t) (hT : T.Valid g)
    (hroot : T.root = .nonterminal g.start) (hops : ops <+: T.operations)
    (hfeed : s.stream.feed = ⟨T.tokens, .ok e⟩) (htrace : s.trace = []) :
    ∃ stack s' forest,
      (next t .default)^[ops.length] (.running bottom, s) = (.running stack, s') ∧
      Reads g .default s ops.length stack s' forest ∧ operationsOf forest.reverse = ops := by
  have hr := Grammar.table_renders ht
  obtain ⟨stack, s', s'', hleads, -, -⟩ := sentence_reads hr hT hroot (eval_default T) hfeed
  obtain ⟨stackₙ, sₙ, hn⟩ := running_of_iterate hleads.moves hops.length_le
  obtain ⟨forest, hreads⟩ := reads_iterate hr hn
  refine ⟨stackₙ, sₙ, forest, hn, hreads, ?_⟩
  have hpre := trace_later t .default (.running bottom, s) hops.length_le
  rw [hn, hleads.moves, hleads.trace, hreads.trace, htrace, List.nil_append, List.nil_append] at hpre
  exact (List.prefix_of_prefix_length_le hpre hops hreads.count.le).eq_of_length hreads.count

/-- It has then consumed what they shift. -/
theorem begins_iterate (ht : g.table = .ok t) (hT : T.Valid g)
    (hroot : T.root = .nonterminal g.start) (hops : ops <+: T.operations)
    (hfeed : s.stream.feed = ⟨T.tokens, .ok e⟩) (htrace : s.trace = []) :
    ∃ stack s', (next t .default)^[ops.length] (.running bottom, s) = (.running stack, s') ∧
      s.stream.feed.word.length = s'.stream.feed.word.length + (shifts ops).length := by
  obtain ⟨stack, s', forest, hn, hreads, heq⟩ := begins_reads ht hT hroot hops hfeed htrace
  refine ⟨stack, s', hn, ?_⟩
  simp [Feed.word, hreads.tokens, ← heq, shifts_operationsOf, Nat.add_comm, Nat.add_left_comm]

/-- A sentence with the same terminal next bounds the moves over a word. -/
theorem begins_length_le (ht : g.table = .ok t) {T₀ : ParseTree} (hT₀ : T₀.Valid g)
    (hroot₀ : T₀.root = .nonterminal g.start) (hT : T.Valid g)
    (hroot : T.root = .nonterminal g.start) (hops : ops <+: T.operations) {k : String}
    (hword₀ : shifts ops ++ [k] <+: T₀.kinds ++ [endName])
    (hword : shifts ops ++ [k] <+: T.kinds ++ [endName]) :
    ops.length ≤ T₀.operations.length := by
  have hr := Grammar.table_renders ht
  obtain ⟨s, e, hfeed, htrace⟩ := exists_session hT hroot
  obtain ⟨s₀, e₀, hfeed₀, -⟩ := exists_session hT₀ hroot₀
  obtain ⟨stack, s', hrun, hlength⟩ := begins_iterate ht hT hroot hops hfeed htrace
  have halike : Alike (shifts ops ++ [k]) bottom s bottom s₀ :=
    ⟨rfl, by rwa [hfeed], by rwa [hfeed₀], e₀, by rw [hfeed₀]⟩
  obtain ⟨stack₀, s₀', -, hrun₀, -, -⟩ := alike_iterate hr halike hrun (by simp [hlength])
  obtain ⟨stack₁, s₁, s₂, hleads, haccept, -⟩ :=
    sentence_reads hr hT₀ hroot₀ (eval_default T₀) hfeed₀
  -- after its acceptance the other parse would not run any more
  by_contra hlt
  obtain ⟨m, hm⟩ := Nat.exists_eq_add_of_lt (Nat.lt_of_not_le hlt)
  rw [show ops.length = m + 1 + T₀.operations.length by omega, Function.iterate_add_apply,
    hleads.moves, Function.iterate_succ_apply, haccept,
    next_iterate_of_ended (o := (.ok T₀.value, s₂)) rfl] at hrun₀
  cases hrun₀

theorem exists_bound {α : Type} {P : α → Nat → Prop} (l : List α)
    (h : ∀ a ∈ l, ∃ M, ∀ n, P a n → n ≤ M) : ∃ M, ∀ a ∈ l, ∀ n, P a n → n ≤ M := by
  induction l with
  | nil => exact ⟨0, by simp⟩
  | cons a l ih =>
    obtain ⟨M, hM⟩ := h a (by simp)
    obtain ⟨N, hN⟩ := ih fun b hb => h b (by simp [hb])
    refine ⟨max M N, ?_⟩
    intro b hb n hn
    rcases List.mem_cons.mp hb with rfl | hb
    · exact Nat.le_trans (hM n hn) (Nat.le_max_left _ _)
    · exact Nat.le_trans (hN b hb n hn) (Nat.le_max_right _ _)

/-- What may come behind the first kinds of a sentence. -/
theorem exists_next_kind (hT : T.Valid g) (hroot : T.root = .nonterminal g.start)
    {word : List String} (hword : word <+: T.kinds) :
    ∃ k ∈ g.terminals, word ++ [k] <+: T.kinds ++ [endName] := by
  obtain ⟨rest, hrest⟩ := hword
  cases rest with
  | nil =>
    refine ⟨endName, Grammar.mem_terminals.mpr ⟨g.goal, g.goal_mem, ?_⟩, ?_⟩
    · simp [Grammar.goal, Production.goal]
    · exact ⟨[], by simp [← hrest]⟩
  | cons k rest =>
    refine ⟨k, hT.kind_mem_terminals ?_ (by rw [← hrest]; simp), ?_⟩
    · rw [hroot]
      exact Grammar.nonterminal_mem_alphabet.mpr g.start_mem_nonterminals
    · rw [← hrest]
      exact ⟨rest ++ [endName], by simp⟩

/-- There is a bound on the moves over a word that sentences begin with. -/
theorem exists_moves_bound (ht : g.table = .ok t) (word : List String) :
    ∃ M, ∀ n, (∃ ops, g.Begins ops ∧ shifts ops = word ∧ ops.length = n) → n ≤ M := by
  have hkind : ∀ k ∈ g.terminals, ∃ M, ∀ n, (∃ (T : ParseTree) (ops : List Operation),
      T.Valid g ∧ T.root = .nonterminal g.start ∧ ops <+: T.operations ∧ shifts ops = word ∧
      word ++ [k] <+: T.kinds ++ [endName] ∧ ops.length = n) → n ≤ M := by
    intro k _
    by_cases h : ∃ T₀ : ParseTree, T₀.Valid g ∧ T₀.root = .nonterminal g.start ∧
        word ++ [k] <+: T₀.kinds ++ [endName]
    · obtain ⟨T₀, hT₀, hroot₀, hword₀⟩ := h
      refine ⟨T₀.operations.length, ?_⟩
      intro n hn
      obtain ⟨T, ops, hT, hroot, hops, rfl, hword, rfl⟩ := hn
      exact begins_length_le ht hT₀ hroot₀ hT hroot hops hword₀ hword
    · refine ⟨0, ?_⟩
      intro n hn
      obtain ⟨T, ops, hT, hroot, -, -, hword, -⟩ := hn
      exact absurd ⟨T, hT, hroot, hword⟩ h
  obtain ⟨M, hM⟩ := exists_bound g.terminals hkind
  refine ⟨M, ?_⟩
  intro n hn
  obtain ⟨ops, ⟨T, hT, hroot, hops⟩, rfl, rfl⟩ := hn
  have hword : shifts ops <+: T.kinds := by
    rw [← shifts_operations]
    exact hops.filterMap _
  obtain ⟨k, hk, hnext⟩ := exists_next_kind hT hroot hword
  exact hM k hk _ ⟨T, ops, hT, hroot, hops, rfl, hnext, rfl⟩

/-- Whatever the input and the actions, a parse ends. -/
theorem ends_of_grounded (hg : g.Grounded) (ht : g.table = .ok t) (semantics : Semantics)
    (s : Session) : ∃ o, Ends t semantics (.running bottom, s) o := by
  have hr := Grammar.table_renders ht
  by_contra hnever
  have hruns (n : Nat) :
      ∃ stack s', (next t semantics)^[n] (.running bottom, s) = (.running stack, s') := by
    rcases hc : (next t semantics)^[n] (.running bottom, s) with ⟨status, s'⟩
    cases status with
    | running stack => exact ⟨stack, s', rfl⟩
    | accepted v => exact absurd ⟨(.ok v, s'), n, by rw [hc]; rfl⟩ hnever
    | failed e => exact absurd ⟨(.error e, s'), n, by rw [hc]; rfl⟩ hnever
  let kinds := s.stream.feed.tokens.map Token.kind
  obtain ⟨M, hM⟩ := exists_bound (List.range (kinds.length + 1)) fun c _ =>
    exists_moves_bound ht (kinds.take c)
  obtain ⟨stack, s', hrun⟩ := hruns (M + 1)
  obtain ⟨forest, hrep, htokens, -, -, hcount⟩ := reads_iterate hr hrun
  have hshifts : shifts (operationsOf forest.reverse) =
      kinds.take (shifts (operationsOf forest.reverse)).length := by
    refine List.prefix_iff_eq_take.mp ?_
    rw [shifts_operationsOf]
    exact ⟨s'.stream.feed.tokens.map Token.kind, by simp [kinds, htokens]⟩
  have hle : (shifts (operationsOf forest.reverse)).length ≤ kinds.length := by
    rw [hshifts]
    exact List.length_take_le' _ _
  have hbound := hM _ (List.mem_range.mpr (Nat.lt_succ_of_le hle)) (M + 1)
    ⟨_, hrep.way.begins hg hrep.valid, hshifts, hcount⟩
  omega

/-- Whatever the input, a parse without actions ends. -/
theorem exists_ends (hg : g.Productive) (ht : g.table = .ok t) (s : Session) :
    ∃ o, Ends t .default (.running bottom, s) o :=
  ends_of_grounded hg.grounded ht .default s

end Slr.StackParser
