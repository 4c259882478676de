import Slr.Proofs.Stream.Feed

/-! # What has been pulled from a source

A stream asks its source for items one by one, each when it is looked for and not
before: when `c` tokens have been passed, the items up to `c` have been asked for,
that one only if it was looked at. Behind the end of the input nothing is asked for
any more. -/

namespace Slr

/-- What is seen when item `i` of a source is asked for. -/
def pullOf (items : List RawToken) (i : Nat) : Event :=
  if i < items.length then .pulled i else .ended

def Event.isPull : Event → Bool
  | .called .. => false
  | _ => true

/-- What is seen when the first `n` items of a source are asked for. -/
def pullsOf (items : List RawToken) (n : Nat) : List Event := (List.range n).map (pullOf items)

theorem pullsOf_succ (items : List RawToken) (n : Nat) :
    pullsOf items (n + 1) = pullsOf items n ++ [pullOf items n] := by
  simp [pullsOf, List.range_succ]

theorem pullOf_of_drop_nil {items : List RawToken} {n : Nat} (h : items.drop n = []) :
    pullOf items n = .ended := by
  rw [pullOf, if_neg (Nat.not_lt.mpr (List.drop_eq_nil_iff.mp h))]

theorem pullOf_of_drop_cons {items rest : List RawToken} {raw : RawToken} {n : Nat}
    (h : items.drop n = raw :: rest) : pullOf items n = .pulled n ∧ rest = items.drop (n + 1) := by
  have hlt : n < items.length := by
    apply Nat.lt_of_not_le
    intro hle
    rw [List.drop_eq_nil_iff.mpr hle] at h
    cases h
  refine ⟨by rw [pullOf, if_pos hlt], ?_⟩
  rw [List.drop_eq_getElem_cons hlt] at h
  exact (List.cons.inj h).2.symm

namespace TokenStream

variable {items : List RawToken} {n : Nat} {s : TokenStream} {t : Token}

/-- A stream over a watched source, `n` items of which it has asked for. -/
inductive Asked (items : List RawToken) : Nat → TokenStream → Prop
  | fresh {s : TokenStream} (ahead : s.ahead = none)
      (source : s.source = some ⟨items.drop s.position, s.position, true, false⟩) :
      Asked items s.position s
  | looked {s : TokenStream} {t : Token} (ahead : s.ahead = some t) (goes_on : t.kind ≠ endName)
      (source : s.source = some ⟨items.drop (s.position + 1), s.position + 1, true, false⟩) :
      Asked items (s.position + 1) s
  | ended {s : TokenStream} {t : Token} (ahead : s.ahead = some t) (ends : t.kind = endName)
      (source : s.source = none) : Asked items (s.position + 1) s

theorem asked_ofItems (items : List RawToken) : Asked items 0 (.ofItems items true) := by
  have hfresh : Asked items (ofItems items true).position _ := .fresh rfl rfl
  exact hfresh

theorem isPull_of_mem_pull {e : Event} (h : e ∈ s.pull.events) : e.isPull = true := by
  unfold pull finish at h
  cases hsrc : s.source with
  | none => simp [hsrc] at h
  | some src =>
    have hwatched (event : Event) (hevent : event.isPull = true)
        (h : e ∈ if src.watched then [event] else []) : e.isPull = true := by
      split at h
      · rw [List.mem_singleton.mp h, hevent]
      · cases h
    cases hitems : src.items with
    | nil =>
      simp only [hsrc, hitems] at h
      exact hwatched .ended rfl h
    | cons raw rest =>
      refine hwatched (.pulled src.index) rfl ?_
      cases raw <;> simpa [hsrc, hitems, RawToken.token?] using h

/-- Looking calls nothing. -/
theorem isPull_of_mem_peek {e : Event} (h : e ∈ s.peek.events) : e.isPull = true := by
  unfold peek at h
  cases ha : s.ahead with
  | some t => simp [ha] at h
  | none => cases hpull : s.pull.result <;> exact isPull_of_mem_pull (by simpa [ha, hpull] using h)

theorem peek_of_ahead (h : s.ahead = some t) : s.peek = ⟨.ok t, s, []⟩ := by
  simp [TokenStream.peek, h]

namespace Asked

/-- A look that finds nothing asks for the item at the place of the stream. -/
theorem peek_fresh (ahead : s.ahead = none)
    (source : s.source = some ⟨items.drop s.position, s.position, true, false⟩)
    (hhead : s.feed.head = .ok t) :
    Asked items (s.position + 1) s.peek.stream ∧ s.peek.stream.position = s.position ∧
      s.peek.events = [pullOf items s.position] := by
  have hresult := s.peek_result.trans hhead
  have hahead := peek_ahead hresult
  have hpeek : s.peek.stream.position = s.position ∧ s.peek.events = [pullOf items s.position] ∧
      s.peek.stream.source = if t.kind = endName then none
        else some ⟨items.drop (s.position + 1), s.position + 1, true, false⟩ := by
    cases hdrop : items.drop s.position with
    | nil =>
      simp only [TokenStream.peek, ahead, pull, source, hdrop, finish, Except.ok.injEq] at hresult ⊢
      subst hresult
      simp [pullOf_of_drop_nil hdrop, Token.atEnd]
    | cons raw rest =>
      obtain ⟨hpull, rfl⟩ := pullOf_of_drop_cons hdrop
      have htoken {u : Token} (hu : raw.token? s.pulled = some u) :
          s.peek.stream.position = s.position ∧ s.peek.events = [pullOf items s.position] ∧
            s.peek.stream.source = if t.kind = endName then none
              else some ⟨items.drop (s.position + 1), s.position + 1, true, false⟩ := by
        simp only [TokenStream.peek, ahead, pull_of_token source hdrop hu,
          Except.ok.injEq] at hresult ⊢
        subst hresult
        simp [hpull]
      cases raw with
      | token u => exact htoken rfl
      | pair kind value => exact htoken rfl
      | fault f => simp [TokenStream.peek, ahead, pull, source, hdrop] at hresult
      | nothing =>
        simp only [TokenStream.peek, ahead, pull, source, hdrop, finish, RawToken.token?,
          Except.ok.injEq] at hresult ⊢
        subst hresult
        simp [hpull, Token.atEnd]
  obtain ⟨hposition, hevents, hsource⟩ := hpeek
  refine ⟨?_, hposition, hevents⟩
  rw [← hposition] at hsource ⊢
  by_cases hend : t.kind = endName
  · exact .ended hahead hend (by rwa [if_pos hend] at hsource)
  · exact .looked hahead hend (by rwa [if_neg hend] at hsource)

theorem peek (h : Asked items n s) (hhead : s.feed.head = .ok t) :
    Asked items (s.position + 1) s.peek.stream ∧ s.peek.stream.position = s.position ∧
      pullsOf items n ++ s.peek.events = pullsOf items (s.position + 1) := by
  cases h with
  | fresh ahead source =>
    obtain ⟨hasked, hposition, hevents⟩ := peek_fresh ahead source hhead
    exact ⟨hasked, hposition, by rw [hevents, pullsOf_succ]⟩
  | looked ahead goes_on source =>
    rw [peek_of_ahead ahead]
    exact ⟨.looked ahead goes_on source, rfl, List.append_nil _⟩
  | ended ahead ends source =>
    rw [peek_of_ahead ahead]
    exact ⟨.ended ahead ends source, rfl, List.append_nil _⟩

theorem pass (h : Asked items n s) (ahead : s.ahead = some t) (hend : t.kind ≠ endName) :
    Asked items n (s.pass t) := by
  cases h with
  | fresh hahead => simp [hahead] at ahead
  | looked _ _ source =>
    have hfresh : Asked items (s.pass t).position (s.pass t) :=
      .fresh (by simp [TokenStream.pass, hend]) source
    exact hfresh
  | ended hahead ends =>
    obtain rfl := Option.some.inj (hahead.symm.trans ahead)
    exact absurd ends hend

end Asked

end TokenStream

end Slr
