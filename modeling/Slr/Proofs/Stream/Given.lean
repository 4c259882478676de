import Slr.Stream.Basic

/-! # What a source has to give

The items of a source come to tokens and faults, one after another, up to the item that
ends the input. Behind the last token there is the end for ever. -/

namespace Slr

/-- What items come to when they are pulled one after another, up to the one that ends the
input: a token or a fault each. So many tokens have been pulled before them, and a pair takes
up the place from that number to the next. -/
def givenBy (resumes : Bool) : List RawToken → Nat → List (Except Fault Token)
  | .token t :: rest, n =>
    .ok t :: if t.kind = endName then [] else givenBy resumes rest (n + 1)
  | .pair kind value :: rest, n =>
    .ok ⟨kind, value, n, n + 1⟩ :: if kind = endName then [] else givenBy resumes rest (n + 1)
  | .fault f :: rest, n => .error f :: if resumes then givenBy resumes rest n else []
  | [], _ | .nothing :: _, _ => []

def tokensIn (given : List (Except Fault Token)) : List Token := given.filterMap Except.toOption

def faultsIn (given : List (Except Fault Token)) : List Fault :=
  given.filterMap fun
    | .error f => some f
    | .ok _ => none

/-- Where the last token ends. -/
def lastStop (given : List (Except Fault Token)) : Int :=
  ((tokensIn given).getLast?.map Token.stop).getD 0

namespace Source

def given (src : Source) : List (Except Fault Token) := givenBy src.resumes src.items 0

/-- The token behind all others: the end of the input that is among the items, or one where
the last token ends. -/
def final (src : Source) : Token :=
  match (tokensIn src.given).find? fun t => t.kind = endName with
  | some t => t
  | none => ⟨endName, .none, lastStop src.given, lastStop src.given⟩

/-- The tokens of a source, with the last one for ever. -/
def nth (src : Source) (k : Nat) : Token := ((tokensIn src.given)[k]?).getD src.final

end Source

/-! ## Results apart -/

section

variable {given given' : List (Except Fault Token)} {t : Token} {f : Fault} {resumes : Bool}
  {n : Nat} {raw : RawToken} {rest : List RawToken}

@[simp] theorem tokensIn_append : tokensIn (given ++ given') = tokensIn given ++ tokensIn given' :=
  List.filterMap_append

@[simp] theorem tokensIn_ok : tokensIn (.ok t :: given) = t :: tokensIn given := rfl

@[simp] theorem tokensIn_error : tokensIn (.error f :: given) = tokensIn given := rfl

@[simp] theorem faultsIn_append : faultsIn (given ++ given') = faultsIn given ++ faultsIn given' :=
  List.filterMap_append

@[simp] theorem faultsIn_ok : faultsIn (.ok t :: given) = faultsIn given := rfl

@[simp] theorem faultsIn_error : faultsIn (.error f :: given) = f :: faultsIn given := rfl

@[simp] theorem tokensIn_nil : tokensIn [] = [] := rfl

@[simp] theorem faultsIn_nil : faultsIn [] = [] := rfl

theorem length_given (given : List (Except Fault Token)) :
    (tokensIn given).length + (faultsIn given).length = given.length := by
  induction given with
  | nil => rfl
  | cons r given ih =>
    cases r with
    | ok t => simp [← ih]; omega
    | error f => simp [← ih]; omega

theorem lastStop_snoc_ok : lastStop (given ++ [.ok t]) = t.stop := by simp [lastStop]

theorem lastStop_snoc_error (f : Fault) : lastStop (given ++ [.error f]) = lastStop given := by
  simp [lastStop]

theorem forall_mem_tokensIn_snoc {P : Token → Prop} (h : ∀ u ∈ tokensIn given, P u) (ht : P t) :
    ∀ u ∈ tokensIn (given ++ [.ok t]), P u := by
  intro u hu
  rcases List.mem_append.mp (tokensIn_append ▸ hu) with hu | hu
  · exact h u hu
  · obtain rfl := List.mem_singleton.mp hu
    exact ht

/-! ## Items and what they come to -/

theorem givenBy_of_token (h : raw.token? n = some t) :
    givenBy resumes (raw :: rest) n =
      .ok t :: if t.kind = endName then [] else givenBy resumes rest (n + 1) := by
  cases raw with
  | token u =>
    cases h
    rfl
  | pair kind value =>
    cases h
    rfl
  | nothing | fault f => cases h

/-- Where something is given, it is what the item there comes to. -/
theorem givenBy_at {items : List RawToken} {i : Nat} {r : Except Fault Token}
    (hraw : items[i]? = some raw)
    (hr : (givenBy resumes items n)[i]? = some r) :
    (∃ f, raw = .fault f ∧ r = .error f) ∨
      ∃ t, raw.token? (n + (tokensIn ((givenBy resumes items n).take i)).length) = some t ∧
        r = .ok t := by
  induction items generalizing n i with
  | nil => cases hraw
  | cons first rest ih =>
    have htoken {t : Token} (ht : first.token? n = some t) :
        (∃ f, raw = .fault f ∧ r = .error f) ∨
          ∃ t, raw.token?
              (n + (tokensIn ((givenBy resumes (first :: rest) n).take i)).length) = some t ∧
            r = .ok t := by
      rw [givenBy_of_token ht] at hr ⊢
      cases i with
      | zero =>
        cases hraw
        cases hr
        exact .inr ⟨t, by simpa using ht, rfl⟩
      | succ i =>
        by_cases hend : t.kind = endName
        · simp [hend] at hr
        · simp only [hend, if_false, List.getElem?_cons_succ] at hraw hr ⊢
          simpa [Nat.add_assoc, Nat.add_comm 1] using ih hraw hr
    cases first with
    | token t => exact htoken rfl
    | pair kind value => exact htoken rfl
    | nothing => simp [givenBy] at hr
    | fault f =>
      rw [givenBy] at hr ⊢
      cases i with
      | zero =>
        cases hraw
        cases hr
        exact .inl ⟨f, rfl, rfl⟩
      | succ i =>
        cases resumes with
        | false => simp at hr
        | true =>
          simp only [if_true, List.getElem?_cons_succ] at hraw hr
          simpa using ih hraw hr

/-! ## Behind the tokens -/

theorem find?_end_eq_none {ts : List Token} (h : ∀ t ∈ ts, t.kind ≠ endName) :
    ts.find? (fun t => t.kind = endName) = none := by
  rw [List.find?_eq_none]
  intro t ht
  simp [h t ht]

theorem Source.final_of_goes_on {src : Source}
    (h : ∀ t ∈ tokensIn src.given, t.kind ≠ endName) :
    src.final = ⟨endName, .none, lastStop src.given, lastStop src.given⟩ := by
  rw [Source.final, find?_end_eq_none h]

theorem Source.final_of_end {src : Source} (h : src.given = given ++ [.ok t])
    (goes_on : ∀ u ∈ tokensIn given, u.kind ≠ endName) (ht : t.kind = endName) :
    src.final = t := by
  rw [Source.final, h, tokensIn_append, List.find?_append, find?_end_eq_none goes_on]
  simp [ht]

end

end Slr
