import Slr.Proofs.Stream.Feed

/-! # A stream of kinds with values

Token `i` of such a stream takes up the place from `i` to `i + 1`. A stream that
has given `c` tokens away has pulled these and perhaps the next one, and nothing
behind it. -/

namespace Slr

/-- The token for the pair at index `i`. -/
def Token.ofPair (i : Nat) (p : String × Value) : Token := ⟨p.1, p.2, i, i + 1⟩

namespace TokenStream

/-- What a source of pairs yields. -/
def pairItems (pairs : List (String × Value)) : List RawToken :=
  pairs.map fun p => .pair p.1 p.2

/-- The tokens of pairs, with the end behind them. -/
def pairTokens (pairs : List (String × Value)) : List Token :=
  pairs.mapIdx Token.ofPair ++ [⟨endName, .none, pairs.length, pairs.length⟩]

/-- The states of a stream of pairs that has given `c` tokens away: the next one
was not looked at, it was, or it is the end. -/
inductive Along (pairs : List (String × Value)) (watched : Bool) : Nat → TokenStream → Prop
  | fresh {c : Nat} (h : c ≤ pairs.length) :
      Along pairs watched c ⟨some ⟨(pairItems pairs).drop c, c, watched, false⟩, none, c, c, c⟩
  | looked {c : Nat} {p : String × Value} (h : pairs[c]? = some p) :
      Along pairs watched c
        ⟨some ⟨(pairItems pairs).drop (c + 1), c + 1, watched, false⟩, some (.ofPair c p),
          c + 1, c + 1, c⟩
  | ended :
      Along pairs watched pairs.length
        ⟨none, some ⟨endName, .none, pairs.length, pairs.length⟩, pairs.length, pairs.length,
          pairs.length⟩

variable {pairs : List (String × Value)} {watched : Bool} {c : Nat} {s : TokenStream} {t : Token}

theorem along_ofItems : Along pairs watched 0 (.ofItems (pairItems pairs) watched) :=
  .fresh (Nat.zero_le _)

namespace Along

variable (h : Along pairs watched c s)

include h

theorem position_eq : s.position = c := by
  cases h <;> rfl

theorem le_length : c ≤ pairs.length := by
  cases h with
  | fresh h => exact h
  | looked h => exact Nat.le_of_lt (List.getElem?_eq_some_iff.mp h).1
  | ended => exact Nat.le_refl _

theorem pulled_le : s.pulled ≤ c + 1 := by
  cases h <;> simp

/-- When the token at `c` was looked at, nothing behind it has been pulled. -/
theorem source_eq (ht : s.ahead = some t) {src : Source} (hsrc : s.source = some src) :
    src.items = (pairItems pairs).drop (c + 1) := by
  cases h with
  | fresh h => cases ht
  | looked h =>
    cases hsrc
    rfl
  | ended => cases hsrc

theorem start_eq (ht : s.ahead = some t) : t.start = c := by
  cases h with
  | fresh h => cases ht
  | looked h =>
    cases ht
    rfl
  | ended =>
    cases ht
    rfl

/-- Passing the token ahead is what moves a stream on. -/
theorem pass (ht : s.ahead = some t) (hend : t.kind ≠ endName) :
    Along pairs watched (c + 1) (s.pass t) := by
  cases h with
  | fresh h => cases ht
  | @looked c p h =>
    cases ht
    have hlt := (List.getElem?_eq_some_iff.mp h).1
    have hkind : p.1 ≠ endName := hend
    have hfresh : Along pairs watched (c + 1) _ := .fresh hlt
    simpa [TokenStream.pass, Token.ofPair, hkind] using hfresh
  | ended =>
    cases ht
    exact absurd rfl hend

/-- Looking pulls at most the token at `c`. -/
theorem peek (hpairs : ∀ p ∈ pairs, p.1 ≠ endName) :
    Along pairs watched c s.peek.stream ∧ s.pulled ≤ s.peek.stream.pulled ∧
      ∀ i, .pulled i ∈ s.peek.events → i < s.peek.stream.pulled := by
  cases h with
  | looked h => exact ⟨.looked h, Nat.le_refl _, by simp [TokenStream.peek]⟩
  | ended => exact ⟨.ended, Nat.le_refl _, by simp [TokenStream.peek]⟩
  | fresh h =>
    cases hc : pairs[c]? with
    | none =>
      obtain rfl : c = pairs.length := Nat.le_antisymm h (List.getElem?_eq_none_iff.mp hc)
      have hitems : (pairItems pairs).drop pairs.length = [] := by simp [pairItems]
      have hended : Along pairs watched pairs.length _ := .ended
      cases watched <;> simpa [TokenStream.peek, pull, hitems, finish, Token.atEnd] using hended
    | some p =>
      obtain ⟨hlt, hp⟩ := List.getElem?_eq_some_iff.mp hc
      have hitems : (pairItems pairs).drop c =
          .pair p.1 p.2 :: (pairItems pairs).drop (c + 1) := by
        rw [List.drop_eq_getElem_cons (by simpa [pairItems] using hlt)]
        simp [pairItems, hp]
      have hkind : p.1 ≠ endName := hpairs p (List.mem_of_getElem? hc)
      have hlooked : Along pairs watched c _ := .looked hc
      have hpeek : (TokenStream.peek
            ⟨some ⟨(pairItems pairs).drop c, c, watched, false⟩, none, c, c, c⟩) =
          ⟨.ok (.ofPair c p), ⟨some ⟨(pairItems pairs).drop (c + 1), c + 1, watched, false⟩,
            some (.ofPair c p), c + 1, c + 1, c⟩, if watched then [.pulled c] else []⟩ := by
        simp [TokenStream.peek, pull, hitems, RawToken.token?, hkind, Token.ofPair]
      rw [hpeek]
      refine ⟨hlooked, Nat.le_succ _, ?_⟩
      intro i hi
      cases watched with
      | false => simp at hi
      | true =>
        obtain rfl : i = c := by simpa using hi
        exact Nat.lt_succ_self _

end Along

/-! ## What a stream of pairs has in store -/

theorem ofItems_pairItems (hpairs : ∀ p ∈ pairs, p.1 ≠ endName) (n : Nat) :
    Feed.ofItems (pairItems pairs) n n =
      ⟨pairs.mapIdx fun i => Token.ofPair (n + i),
        .ok ⟨endName, .none, (n + pairs.length : Nat), (n + pairs.length : Nat)⟩⟩ := by
  induction pairs generalizing n with
  | nil => rfl
  | cons p pairs ih =>
    have hkind : p.1 ≠ endName := hpairs p (by simp)
    have hrest := ih (fun q hq => hpairs q (by simp [hq])) (n + 1)
    simp only [pairItems, List.map_cons, Feed.ofItems]
    rw [Feed.before, if_neg hkind,
      show (n : Int) + 1 = (n + 1 : Nat) from rfl, ← pairItems, hrest]
    simp [Feed.cons, Token.ofPair, List.mapIdx_cons, Nat.add_assoc, Nat.add_comm 1]

theorem feed_ofItems (hpairs : ∀ p ∈ pairs, p.1 ≠ endName) :
    (TokenStream.ofItems (pairItems pairs) watched).feed =
      ⟨pairs.mapIdx Token.ofPair, .ok ⟨endName, .none, pairs.length, pairs.length⟩⟩ := by
  have h := ofItems_pairItems hpairs 0
  simp only [Nat.zero_add] at h
  exact h

end TokenStream

end Slr
