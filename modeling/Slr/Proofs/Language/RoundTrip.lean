import Slr.Proofs.Language.Arrays
import Slr.Proofs.Language.Decimal
import Slr.Proofs.Language.Scanner

/-! # Arrays that are written come back

Numbers and arrays of them, at any depth, are written in words, and the words in a text
with any blanks around them. The text is cut into the words again, a written value is
what either grammar yields over its tokens, and so either parser gives it back. The
calls that this takes grow with how deep arrays stand in arrays, and not with how long
they are. -/

namespace Slr.Language.Arrays

open Lexicon

/-! ## Values and their words -/

/-- A number, or an array of such. -/
inductive Nested where
  | number (n : Int)
  | array (items : List Nested)

namespace Nested

mutual

/-- The value that a parse is to give. -/
def value : Nested → Value
  | number n => .number (.int n)
  | array items => .array (.list (values items))

def values : List Nested → List Value
  | [] => []
  | x :: xs => x.value :: values xs

end

theorem values_append (xs ys : List Nested) : values (xs ++ ys) = values xs ++ values ys := by
  induction xs with
  | nil => rfl
  | cons x xs ih => rw [List.cons_append, values, ih, values, List.cons_append]

mutual

/-- How many arrays stand in one another. -/
def depth : Nested → Nat
  | number _ => 0
  | array items => depthOf items + 1

def depthOf : List Nested → Nat
  | [] => 0
  | x :: xs => max x.depth (depthOf xs)

end

theorem depthOf_append (xs ys : List Nested) :
    depthOf (xs ++ ys) = max (depthOf xs) (depthOf ys) := by
  induction xs with
  | nil => exact (Nat.zero_max _).symm
  | cons x xs ih => rw [List.cons_append, depthOf, ih, depthOf, Nat.max_assoc]

end Nested

/-- A number in decimal, behind a minus or not. -/
inductive Numeral : Int → List Char → Prop
  | plain {n : Nat} {word : List Char} (h : Decimal n word) : Numeral n word
  | minus {n : Nat} {word : List Char} (h : Decimal n word) : Numeral (-n) ('-' :: word)

mutual

/-- The words of a value. -/
inductive Written : Nested → List (List Char) → Prop
  | number {n : Int} {word : List Char} (h : Numeral n word) : Written (.number n) [word]
  | empty : Written (.array []) [['['], [']']]
  | array {items : List Nested} {words : List (List Char)} (h : WrittenItems items words) :
      Written (.array items) (['['] :: (words ++ [[']']]))

/-- The words of one value or more, with a comma between any two. -/
inductive WrittenItems : List Nested → List (List Char) → Prop
  | one {x : Nested} {words : List (List Char)} (h : Written x words) : WrittenItems [x] words
  | more {xs : List Nested} {x : Nested} {words words' : List (List Char)}
      (h : WrittenItems xs words) (hx : Written x words') :
      WrittenItems (xs ++ [x]) (words ++ [','] :: words')

end

/-! ## The words in a text -/

variable {n : Int} {x : Nested} {xs : List Nested} {c : Char} {word cs : List Char}
  {words : List (List Char)} {toks : List Token} {tok : Token} {kind : String} {v : Value}

theorem isMark (h : isPunctuation c = true) : lexicon.IsMark c := by
  simp only [isPunctuation, Bool.or_eq_true, beq_iff_eq] at h
  rcases h with (rfl | rfl) | rfl <;> exact ⟨by decide, fun _ => rfl, _, _, rfl, by decide⟩

theorem wordLength_of_isDigit (h : Number.isDigit c = true) :
    wordLength (c :: cs) = countDigits (c :: cs) := by
  have hpunctuation : isPunctuation c = false := by
    by_contra hp
    simp only [isPunctuation, Bool.not_eq_false, Bool.or_eq_true, beq_iff_eq] at hp
    rcases hp with (rfl | rfl) | rfl <;> cases h
  have hminus : c ≠ '-' := by
    rintro rfl
    cases h
  simp [wordLength, hpunctuation]

theorem not_isDigit_of_bounds (h : lexicon.Bounds cs) :
    ∀ c ∈ cs.head?, Number.isDigit c = false := by
  refine h.not_isDigit ?_
  intro c hdigit
  show wordLength [c, c] = 2
  simp [wordLength_of_isDigit hdigit, countDigits, hdigit]

theorem token_numeral (h : Numeral n word) : token word = .ok (numberKind, .int n) := by
  cases h with
  | plain h =>
    rw [token, if_pos h.toDigits.any_isDigit, h.readInt]
    rfl
  | @minus n word h =>
    rw [token, if_pos (by simp [h.toDigits.any_isDigit]), h.readInt_minus]
    rfl

theorem isWord_numeral (h : Numeral n word) : lexicon.IsWord word where
  nonempty := by
    cases h with
    | plain h => exact h.nonempty
    | minus h => simp
  solid := by
    cases h with
    | plain h => exact h.toDigits.solid
    | minus h => simpa using ⟨by decide, h.toDigits.solid⟩
  ends := by
    intro cs hcs
    show wordLength (word ++ cs) = word.length
    cases h with
    | plain h =>
      obtain ⟨c, rest, rfl⟩ := List.exists_cons_of_ne_nil h.nonempty
      rw [List.cons_append, wordLength_of_isDigit (h.isDigit c (by simp))]
      exact countDigits_append h.isDigit (not_isDigit_of_bounds hcs)
    | minus h =>
      rw [List.cons_append, wordLength,
        countDigits_append h.isDigit (not_isDigit_of_bounds hcs), if_neg (by simp [h.nonempty])]
      rfl
  read := ⟨_, _, token_numeral h, by decide⟩

mutual

/-- Two numerals never stand side by side. -/
theorem Written.separable {x : Nested} {words : List (List Char)} :
    Written x words → lexicon.Separable words
  | .number h => .one (isWord_numeral h)
  | .empty => .mark_cons (isMark rfl) (.one (isMark rfl).isWord)
  | .array h => .mark_cons (isMark rfl) (h.separable.append_mark (isMark rfl) .nil)

theorem WrittenItems.separable {xs : List Nested} {words : List (List Char)} :
    WrittenItems xs words → lexicon.Separable words
  | .one h => h.separable
  | .more h hx => h.separable.append_mark (isMark rfl) hx.separable

end

/-! ## The tokens of the words -/

/-- Values and elements are put together from tokens and each other, an array with room for
three symbols more than its elements' values. -/
structure Builds (M : Nat → Meaning) : Prop where
  number : ∀ {tok : Token}, tok.kind = numberKind → M 1 "value" (.number tok.value) [tok]
  empty : ∀ {l r : Token}, l.kind = "[" → r.kind = "]" →
    M 3 "value" (.array (.list [])) [l, r]
  array : ∀ {room : Nat} {l r : Token} {v : Value} {ts : List Token}, l.kind = "[" →
    M (room + 2) "elements" v ts → r.kind = "]" → M (room + 3) "value" (.array v) (l :: (ts ++ [r]))
  one : ∀ {room : Nat} {v : Value} {ts : List Token}, M room "value" v ts →
    M room "elements" (.list [v]) ts
  more : ∀ {room : Nat} {c : Token} {v : Value} {vs : List Value} {ts us : List Token},
    M (room + 3) "elements" (.list vs) ts → c.kind = "," → M (room + 1) "value" v us →
    M (room + 3) "elements" (.list (vs ++ [v])) (ts ++ c :: us)
  mono : ∀ {room room' : Nat} {n : String} {v : Value} {ts : List Token}, M room n v ts →
    room ≤ room' → M room' n v ts

theorem spelled_builds : Builds Spelled where
  number := .number
  empty := fun hl hr => Grammar.YieldsIn.mono (Spelled.value (.empty hl hr)) (Nat.le_succ 2)
  array := fun hl h hr => .value (.array hl h hr)
  one := .one
  more := .more
  mono := .mono

theorem vanishing_builds : Builds Vanishing where
  number := .number
  empty := fun hl hr => .value (.array hl .absent hr)
  array := fun hl h hr => .value (.array hl (.present h) hr)
  one := .one
  more := .more
  mono := .mono

section

variable {M : Nat → Meaning} (hM : Builds M)

include hM

mutual

/-- What is written is put together from its tokens. -/
theorem Written.yields {x : Nested} {words : List (List Char)} {toks : List Token} :
    Written x words → List.Forall₂ lexicon.Stands words toks →
      M (3 * x.depth + 1) "value" x.value toks
  | .number h, hs => by
    obtain ⟨tok, hstands, rfl⟩ := exists_one_of_stands hs
    obtain ⟨hkind, hvalue⟩ := hstands.reads (token_numeral h)
    rw [Nested.value, ← hvalue]
    exact hM.number hkind
  | .empty, hs => by
    obtain ⟨l, _, r, hl, hnone, hr, rfl⟩ := @exists_between_of_stands _ _ [] _ _ hs
    obtain rfl := List.forall₂_nil_left_iff.mp hnone
    exact hM.mono (hM.empty (hl.reads rfl).1 (hr.reads rfl).1) (Nat.le_succ 3)
  | .array h, hs => by
    obtain ⟨l, us, r, hl, hwords, hr, rfl⟩ := exists_between_of_stands hs
    have harray := hM.array (hl.reads rfl).1 (h.yields hwords) (hr.reads rfl).1
    exact hM.mono harray (by rw [Nested.depth]; omega)

theorem WrittenItems.yields {xs : List Nested} {words : List (List Char)} {toks : List Token} :
    WrittenItems xs words → List.Forall₂ lexicon.Stands words toks →
      M (3 * Nested.depthOf xs + 3) "elements" (.list (Nested.values xs)) toks
  | .one h, hs => hM.mono (hM.one (h.yields hs)) (by rw [Nested.depthOf]; omega)
  | @WrittenItems.more xs x _ _ h hx, hs => by
    obtain ⟨us, c, us', hwords, hc, hwords', rfl⟩ := exists_joined_of_stands hs
    have hdepth : Nested.depthOf (xs ++ [x]) = max (Nested.depthOf xs) x.depth := by
      rw [Nested.depthOf_append, Nested.depthOf, Nested.depthOf, Nat.max_zero]
    rw [Nested.values_append, hdepth]
    exact hM.more (hM.mono (h.yields hwords) (by omega)) (hc.reads rfl).1
      (hM.mono (hx.yields hwords') (by omega))

end

end

/-! ## The text comes back -/

/-- Whatever the blanks around the words, either parser of either grammar gives back what
was written, if as many calls may be open as its arrays take: three for each that stands in
another, and two. -/
theorem parse_written {x : Nested} {words : List (List Char)} (h : Written x words) (text : String)
    (hs : Spaced words text.toList) (watched : Bool) :
    Parses grammar (.ofItems (tokenize text) watched) (3 * x.depth + 2) (Returns x.value) ∧
      Parses emptyGrammar (.ofItems (tokenize text) watched) (3 * x.depth + 2)
        (Returns x.value) := by
  obtain ⟨t, ht⟩ := spelled_covered.exists_table
  obtain ⟨t', ht'⟩ := vanishing_covered.exists_table
  obtain ⟨toks, e, hstands, hfeed⟩ := exists_feed_spaced h.separable hs watched
  have hspelled := h.yields spelled_builds hstands
  have hvanishing := h.yields vanishing_builds hstands
  exact ⟨⟨_, t, grammar_eq, ht, returns_of_yields ht hfeed hspelled⟩,
    _, t', emptyGrammar_eq, ht', returns_of_yields ht' hfeed hvanishing⟩

theorem parse_written_pair :
    (Written (.array [.number (-12), .array []])
        [['['], ['-', '1', '2'], [','], ['['], [']'], [']']] ∧
      Spaced [['['], ['-', '1', '2'], [','], ['['], [']'], [']']] " [-12 ,[] ]".toList) ∧
    (Parses grammar (.ofItems (tokenize " [-12 ,[] ]") true) 8
        (Returns (.array (.list [.number (.int (-12)), .array (.list [])]))) ∧
      Parses emptyGrammar (.ofItems (tokenize " [-12 ,[] ]") true) 8
        (Returns (.array (.list [.number (.int (-12)), .array (.list [])])))) := by
  have hdecimal : Decimal 12 ['1', '2'] := ⟨⟨[2, 1], by decide, by decide, rfl, rfl⟩, by decide⟩
  have hwritten : Written (.array [.number (-12), .array []]) _ :=
    .array (.more (.one (.number (.minus hdecimal))) .empty)
  have hnone : ∀ c ∈ ([] : List Char), Text.isBlank c = true := by simp
  have hblank : ∀ c ∈ [' '], Text.isBlank c = true := by simp only [List.forall_mem_singleton]; rfl
  have hspaced : Spaced _ " [-12 ,[] ]".toList :=
    @Spaced.cons [' '] ['['] _ _ hblank <| @Spaced.cons [] ['-', '1', '2'] _ _ hnone <|
    @Spaced.cons [' '] [','] _ _ hblank <| @Spaced.cons [] ['['] _ _ hnone <|
    @Spaced.cons [] [']'] _ _ hnone <| @Spaced.cons [' '] [']'] _ _ hblank <| .nil hnone
  exact ⟨⟨hwritten, hspaced⟩, parse_written hwritten _ hspaced true⟩

end Slr.Language.Arrays
