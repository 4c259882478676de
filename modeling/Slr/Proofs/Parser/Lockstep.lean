import Slr.Proofs.Parser.Soundness

/-! # Parses of inputs that begin alike

As long as no action fails, the states of a parse depend on the kinds of the tokens
alone, and on no more of them than the one ahead. Two parses whose inputs begin with
the same kinds go through the same states as long as they have not consumed what the
inputs have in common. The second parse makes its values without actions, so nothing
can fail in it; the first may have any actions. -/

namespace Slr.StackParser

variable {g : Grammar} {semantics : Semantics} {follow : Lookahead} {t : Table}
  {stack stack₁ stack₂ stack' : Stack} {s s' s₁ s₂ : Session} {tok₁ tok₂ : Token} {u : List String} {n : Nat}

theorem head_of_next
    (h : next t semantics (.running stack, s) = (.running stack', s')) :
    ∃ tok, s.stream.feed.head = .ok tok := by
  cases ahead : s.stream.feed.head with
  | ok tok => exact ⟨tok, rfl⟩
  | error f =>
    cases stack with
    | nil => simp [next, step] at h
    | cons e below => simp [next_fault ahead] at h

/-! ## One move of two parses -/

theorem push_alike {name : String} {v w : Value} (hstates : stack₁.map Prod.fst = stack₂.map Prod.fst)
    (h : push t name v stack₁ = .running stack') :
    ∃ stack₂', push t name w stack₂ = .running stack₂' ∧
      stack'.map Prod.fst = stack₂'.map Prod.fst := by
  cases stack₁ with
  | nil => cases h
  | cons e₁ below₁ =>
    cases stack₂ with
    | nil => cases hstates
    | cons e₂ below₂ =>
      obtain ⟨hstate, hbelow⟩ := List.cons.inj hstates
      simp only [push] at h ⊢
      rw [← hstate]
      cases hgoto : t.goto? e₁.1 name with
      | none => simp [hgoto] at h
      | some r =>
        simp only [hgoto, Status.running.injEq] at h
        subst h
        exact ⟨_, rfl, by simp [hstate, hbelow]⟩

theorem next_alike (hr : t.Renders (Automaton.build g) follow)
    (hstates : stack₁.map Prod.fst = stack₂.map Prod.fst)
    (ahead₁ : s₁.stream.feed.head = .ok tok₁) (ahead₂ : s₂.stream.feed.head = .ok tok₂)
    (hkind : tok₁.kind = tok₂.kind)
    (h : next t semantics (.running stack₁, s₁) = (.running stack', s')) :
    ∃ stack₂' s₂', next t .default (.running stack₂, s₂) = (.running stack₂', s₂') ∧
      stack'.map Prod.fst = stack₂'.map Prod.fst ∧
      ((tok₁.kind ≠ endName ∧ s'.stream.feed = s₁.stream.feed.tail ∧
          s₂'.stream.feed = s₂.stream.feed.tail) ∨
        (s'.stream.feed = s₁.stream.feed ∧ s₂'.stream.feed = s₂.stream.feed)) := by
  cases stack₁ with
  | nil => simp [next, step] at h
  | cons e₁ below₁ =>
    cases stack₂ with
    | nil => cases hstates
    | cons e₂ below₂ =>
      obtain ⟨q, v₁⟩ := e₁
      obtain ⟨q₂, v₂⟩ := e₂
      obtain ⟨rfl, hbelow⟩ : q = q₂ ∧ below₁.map Prod.fst = below₂.map Prod.fst :=
        List.cons.inj hstates
      cases hm : t.move? q tok₁.kind with
      | none => simp [next_unexpected ahead₁ hm] at h
      | some m =>
        cases m with
        | accept => simp [next_accept ahead₁ hm] at h
        | shift r =>
          rw [next_shift ahead₁ hm, Prod.mk.injEq, Status.running.injEq] at h
          obtain ⟨rfl, rfl⟩ := h
          exact ⟨_, _, next_shift ahead₂ (hkind ▸ hm), by simp [hbelow],
            Or.inl ⟨(hr.shift hm).1, passed_feed ahead₁, passed_feed ahead₂⟩⟩
        | reduce p =>
          rw [next_reduce ahead₁ hm, Prod.mk.injEq] at h
          obtain ⟨hpush, rfl⟩ := h
          have hdrop : (((q, v₁) :: below₁).drop p.size).map Prod.fst =
              (((q, v₂) :: below₂).drop p.size).map Prod.fst := by
            rw [List.map_drop, List.map_drop, hstates]
          cases hv : semantics.value p (topValues p.size ((q, v₁) :: below₁)) with
          | error e => simp [hv] at hpush
          | ok v =>
            rw [hv] at hpush
            obtain ⟨stack₂', hpush₂, hsame⟩ := push_alike
              (w := .tree p.lhs (topValues p.size ((q, v₂) :: below₂))) hdrop hpush
            have hstep : next t .default (.running ((q, v₂) :: below₂), s₂) = _ :=
              next_reduce ahead₂ (hkind ▸ hm)
            simp only [Semantics.value, Semantics.default, hpush₂] at hstep
            exact ⟨stack₂', _, hstep, hsame, Or.inr ⟨looked_feed ahead₁, looked_feed ahead₂⟩⟩

/-! ## Many moves of two parses -/

/-- Two parses in the same states, with the same kinds ahead for a while. -/
structure Alike (u : List String) (stack₁ : Stack) (s₁ : Session) (stack₂ : Stack)
    (s₂ : Session) : Prop where
  states : stack₁.map Prod.fst = stack₂.map Prod.fst
  left : u <+: s₁.stream.feed.word
  right : u <+: s₂.stream.feed.word
  closed : ∃ e, s₂.stream.feed.ending = .ok e

/-- What is ahead of the second parse, if the first has something ahead. -/
theorem Alike.head {k : String} (h : Alike (k :: u) stack₁ s₁ stack₂ s₂)
    (ahead : s₁.stream.feed.head = .ok tok₁) :
    tok₁.kind = k ∧ ∃ tok₂, s₂.stream.feed.head = .ok tok₂ ∧ tok₂.kind = k := by
  obtain ⟨w, hw⟩ := TokenStream.word_of_head ahead
  obtain ⟨e, he⟩ := h.closed
  obtain ⟨tok₂, ahead₂⟩ : ∃ tok₂, s₂.stream.feed.head = .ok tok₂ := by
    rw [Feed.head, he]
    split
    · exact ⟨_, rfl⟩
    · exact ⟨e, rfl⟩
  obtain ⟨w₂, hw₂⟩ := TokenStream.word_of_head ahead₂
  have hleft := h.left
  have hright := h.right
  rw [hw, List.cons_prefix_cons] at hleft
  rw [hw₂, List.cons_prefix_cons] at hright
  exact ⟨hleft.1.symm, tok₂, ahead₂, hright.1.symm⟩

theorem Alike.next {k : String} (hr : t.Renders (Automaton.build g) follow)
    (h : Alike (k :: u) stack₁ s₁ stack₂ s₂)
    (hrun : next t semantics (.running stack₁, s₁) = (.running stack', s')) :
    ∃ stack₂' s₂', StackParser.next t .default (.running stack₂, s₂) = (.running stack₂', s₂') ∧
      ((s'.stream.feed.word.length = s₁.stream.feed.word.length ∧
          Alike (k :: u) stack' s' stack₂' s₂') ∨
        (s'.stream.feed.word.length + 1 = s₁.stream.feed.word.length ∧
          Alike u stack' s' stack₂' s₂')) := by
  obtain ⟨tok, ahead⟩ := head_of_next hrun
  obtain ⟨rfl, tok₂, ahead₂, hkind⟩ := h.head ahead
  obtain ⟨stack₂', s₂', hrun₂, hstates, hfeed⟩ :=
    next_alike hr h.states ahead ahead₂ hkind.symm hrun
  refine ⟨stack₂', s₂', hrun₂, ?_⟩
  rcases hfeed with ⟨hend, hfeed, hfeed₂⟩ | ⟨hfeed, hfeed₂⟩
  · have hleft := h.left
    have hright := h.right
    have hword := TokenStream.word_tail ahead hend
    rw [hword, List.cons_prefix_cons] at hleft
    rw [TokenStream.word_tail ahead₂ (hkind ▸ hend), List.cons_prefix_cons] at hright
    refine Or.inr ⟨by rw [hfeed, hword, List.length_cons], hstates, hfeed ▸ hleft.2,
      hfeed₂ ▸ hright.2, ?_⟩
    rw [hfeed₂]
    exact h.closed
  · exact Or.inl ⟨by rw [hfeed], hstates, hfeed ▸ h.left, hfeed₂ ▸ h.right, hfeed₂ ▸ h.closed⟩

theorem word_length_next (hr : t.Renders (Automaton.build g) follow)
    (h : next t semantics (.running stack, s) = (.running stack', s')) :
    s'.stream.feed.word.length ≤ s.stream.feed.word.length := by
  obtain ⟨tok, ahead⟩ := head_of_next h
  obtain ⟨-, -, -, -, ⟨-, hfeed, -⟩ | ⟨hfeed, -⟩⟩ := next_alike hr rfl ahead ahead rfl h
  · simp [hfeed, Feed.word, Feed.tail]
  · rw [hfeed]

/-- As long as the first parse has not consumed what the inputs have in common,
the second is where the first is. -/
theorem alike_iterate (hr : t.Renders (Automaton.build g) follow)
    (h : Alike u stack₁ s₁ stack₂ s₂)
    (hrun : (StackParser.next t semantics)^[n] (.running stack₁, s₁) = (.running stack', s'))
    (hleft : s₁.stream.feed.word.length < s'.stream.feed.word.length + u.length) :
    ∃ stack₂' s₂' u', (StackParser.next t .default)^[n] (.running stack₂, s₂) =
        (.running stack₂', s₂') ∧ Alike u' stack' s' stack₂' s₂' ∧
      s'.stream.feed.word.length + u.length = s₁.stream.feed.word.length + u'.length := by
  induction n generalizing stack' s' with
  | zero =>
    cases hrun
    exact ⟨stack₂, s₂, u, rfl, h, rfl⟩
  | succ n ih =>
    rw [Function.iterate_succ_apply'] at hrun
    obtain ⟨stackₙ, sₙ, hn⟩ := running_of_next hrun
    rw [hn] at hrun
    have hshrinks := word_length_next hr hrun
    obtain ⟨stack₂', s₂', u', hrun₂, halike, hlength⟩ := ih hn (by omega)
    cases u' with
    | nil => simp at hlength; omega
    | cons k u' =>
      obtain ⟨stack₂'', s₂'', hnext₂, hcases⟩ := halike.next hr hrun
      rw [Function.iterate_succ_apply', hrun₂]
      rcases hcases with ⟨hsame, halike'⟩ | ⟨hless, halike'⟩
      · exact ⟨stack₂'', s₂'', k :: u', hnext₂, halike', by omega⟩
      · exact ⟨stack₂'', s₂'', u', hnext₂, halike', by simp at hlength; omega⟩

end Slr.StackParser
