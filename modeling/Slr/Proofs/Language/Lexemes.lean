import Slr.Proofs.Language.Arithmetic
import Slr.Proofs.Language.RoundTrip
import Slr.Proofs.Language.Tiling

/-! # The words of the example languages

Either language has numbers and marks for words, and no mark is a character of a number. So a
word runs on into what stands behind it only if both are numbers. Either lexicon cuts off a
longest word, and reads it as what it stands for. -/

namespace Slr.Language

/-- An integer, written with or without a minus. -/
inductive Integer : List Char → Int → Prop
  | plain {ds : List Char} (h : Digits ds) : Integer ds (Number.ofDigits ds)
  | minus {ds : List Char} (h : Digits ds) : Integer ('-' :: ds) (-(Number.ofDigits ds : Int))

namespace Arrays

/-- The words of arrays: integers, brackets and the comma. -/
inductive Lexeme : List Char → String → Value → Prop
  | number {word : List Char} {n : Int} (h : Integer word n) : Lexeme word numberKind (.int n)
  | mark {c : Char} (h : c ∈ ['[', ']', ',']) :
      Lexeme [c] (String.ofList [c]) (.str (String.ofList [c]))

end Arrays

namespace Arithmetic

/-- The words of arithmetic: digits, digits with places behind a point, operators and
parentheses. A minus is a word of its own. -/
inductive Lexeme : List Char → String → Value → Prop
  | whole {ds : List Char} (h : Digits ds) : Lexeme ds numberKind (.int (Number.ofDigits ds))
  | pointed {ds places : List Char} (h : Digits ds) (hplaces : Digits places) :
      Lexeme (ds ++ '.' :: places) numberKind (.float (Number.ofPointed (ds ++ '.' :: places)))
  | mark {c : Char} (h : c ∈ ['-', '+', '*', '/', '(', ')']) :
      Lexeme [c] (String.ofList [c]) (.str (String.ofList [c]))

end Arithmetic

/-- Words are numbers and marks, and no mark is a character of a number. -/
structure Words.Parted (words : Words) (numeric : Char → Bool) : Prop where
  solid : ∀ c, numeric c = true → Text.isBlank c = false
  parts : ∀ {word kind value}, words word kind value →
    (word ≠ [] ∧ kind = numberKind ∧ ∀ c ∈ word, numeric c = true) ∨
      ∃ m, word = [m] ∧ numeric m = false ∧ Text.isBlank m = false

variable {words : Words} {numeric : Char → Bool} {ds cs word : List Char} {c : Char}
  {n : Int} {kind : String} {value : Value}

namespace Words.Parted

variable (h : words.Parted numeric)

include h

theorem word_ne_nil (hword : words word kind value) : word ≠ [] := by
  rcases h.parts hword with ⟨hne, -, -⟩ | ⟨m, rfl, -, -⟩
  · exact hne
  · exact List.cons_ne_nil m []

theorem word_solid (hword : words word kind value) : ∀ c ∈ word, Text.isBlank c = false := by
  intro c hc
  rcases h.parts hword with ⟨-, -, hnumeric⟩ | ⟨m, rfl, -, hm⟩
  · exact h.solid c (hnumeric c hc)
  · obtain rfl := List.mem_singleton.mp hc
    exact hm

/-- What begins with a character of a number is a number. -/
theorem number_of_numeric {more : List Char} (hc : numeric c = true)
    (hword : words (c :: more) kind value) : kind = numberKind := by
  rcases h.parts hword with ⟨-, hkind, -⟩ | ⟨m, hm, hmark, -⟩
  · exact hkind
  · obtain rfl : c = m := (List.cons.inj hm).1
    simp [hc] at hmark

theorem word_longer {more : List Char} {kind' : String} {value' : Value}
    (hword : words word kind value) (hlonger : words (word ++ c :: more) kind' value') :
    kind = numberKind ∧ Text.isBlank c = false ∧
      ∀ more' kind'' value'', words (c :: more') kind'' value'' → kind'' = numberKind := by
  obtain ⟨d, ds, rfl⟩ := List.exists_cons_of_ne_nil (h.word_ne_nil hword)
  rcases h.parts hlonger with ⟨-, -, hnumeric⟩ | ⟨m, hm, -, -⟩
  · have hc : numeric c = true := hnumeric c (by simp)
    exact ⟨h.number_of_numeric (hnumeric d (by simp)) hword, h.solid c hc,
      fun _ _ _ => h.number_of_numeric hc⟩
  · simp at hm

end Words.Parted

/-- Digits and one more character, such as stand in numbers. -/
theorem not_isBlank_of_numeric {d : Char} (hd : Text.isBlank d = false)
    (hc : (Number.isDigit c || c == d) = true) : Text.isBlank c = false := by
  rcases Bool.or_eq_true_iff.mp hc with hdigit | heq
  · exact not_isBlank_of_isDigit hdigit
  · obtain rfl := eq_of_beq heq
    exact hd

/-! ## Integers -/

namespace Integer

theorem point_not_mem (h : Integer word n) : '.' ∉ word := by
  cases h with
  | plain h => exact h.not_mem rfl
  | minus h => simpa using h.not_mem rfl

theorem any_isDigit (h : Integer word n) : word.any Number.isDigit = true := by
  cases h with
  | plain h => exact h.any_isDigit
  | minus h => simp [h.any_isDigit]

/-- The digits of an integer say whether it can be read. -/
theorem readInt_eq (h : Integer word n) :
    readInt word = if digitLimit < (word.filter Number.isDigit).length then .error (oversize word)
      else .ok n := by
  cases h with
  | plain h =>
    rw [h.readInt_plain, oversize, h.filter_isDigit, readNat]
    split <;> rfl
  | @minus ds h =>
    have hfilter : ('-' :: ds).filter Number.isDigit = ds := by
      rw [List.filter_cons_of_neg (by decide), h.filter_isDigit]
    rw [readInt, oversize, hfilter, readNat]
    split <;> rfl

theorem readInt_of_fits (h : Integer word n) (hfits : ¬ Oversized word) : readInt word = .ok n := by
  rw [h.readInt_eq, if_neg fun hlt => hfits ⟨h.point_not_mem, hlt⟩]

theorem readInt_of_oversized (h : Integer word n) (hover : Oversized word) :
    readInt word = .error (oversize word) := by
  rw [h.readInt_eq, if_pos hover.2]

end Integer

theorem not_oversized_singleton (c : Char) : ¬ Oversized [c] := by
  rintro ⟨-, hover⟩
  have hlength : ([c].filter Number.isDigit).length ≤ 1 := List.length_filter_le _ _
  unfold digitLimit at hover
  omega

/-! ## Arrays -/

namespace Arrays

theorem isPunctuation_iff : isPunctuation c = true ↔ c ∈ ['[', ']', ','] := by
  simp [isPunctuation, or_assoc]

theorem lexeme_parted : Words.Parted Lexeme fun c => Number.isDigit c || c == '-' where
  solid := fun _ => not_isBlank_of_numeric rfl
  parts := by
    intro word kind value hword
    cases hword with
    | number h =>
      left
      cases h with
      | plain h => exact ⟨h.nonempty, rfl, fun c hc => by simp [h.isDigit c hc]⟩
      | minus h =>
        refine ⟨List.cons_ne_nil _ _, rfl, ?_⟩
        intro c hc
        rcases List.mem_cons.mp hc with rfl | hc
        · rfl
        · simp [h.isDigit c hc]
    | @mark c h =>
      right
      refine ⟨c, rfl, ?_⟩
      simp only [List.mem_cons, List.not_mem_nil, or_false] at h
      rcases h with rfl | rfl | rfl <;> decide

theorem lexeme_of_wordLength (h : wordLength cs ≠ 0) :
    wordLength cs ≤ cs.length ∧ ∃ kind value, Lexeme (cs.take (wordLength cs)) kind value := by
  cases cs with
  | nil => exact absurd rfl h
  | cons c cs =>
    by_cases hminus : c = '-'
    · subst hminus
      have hcount : countDigits cs ≠ 0 := fun hzero => h (if_pos hzero)
      have hlength : wordLength ('-' :: cs) = countDigits cs + 1 := if_neg hcount
      rw [hlength, List.take_succ_cons]
      exact ⟨Nat.succ_le_succ (countDigits_le cs), _, _, .number (.minus (digits_take hcount))⟩
    · by_cases hmark : isPunctuation c = true
      · have hlength : wordLength (c :: cs) = 1 := (isMark hmark).alone cs
        rw [hlength]
        exact ⟨by simp, _, _, .mark (isPunctuation_iff.mp hmark)⟩
      · have hlength : wordLength (c :: cs) = countDigits (c :: cs) := by
          simp [wordLength, hmark]
        rw [hlength] at h ⊢
        exact ⟨countDigits_le _, _, _, .number (.plain (digits_take h))⟩

theorem length_le_wordLength (hword : Lexeme word kind value) (hpre : word <+: cs) :
    word.length ≤ wordLength cs := by
  obtain ⟨rest, rfl⟩ := hpre
  cases hword with
  | number h =>
    cases h with
    | plain h =>
      obtain ⟨d, more, rfl, hd⟩ := h.exists_cons
      rw [List.cons_append, wordLength_of_isDigit hd]
      exact h.length_le_countDigits (List.prefix_append _ _)
    | @minus ds h =>
      have hcount := h.length_le_countDigits (List.prefix_append ds rest)
      have hpos : 0 < ds.length := List.length_pos_iff.mpr h.nonempty
      rw [List.cons_append, wordLength, if_neg (by omega), List.length_cons]
      exact Nat.succ_le_succ hcount
  | mark h => exact ((isMark (isPunctuation_iff.mpr h)).alone rest).ge

theorem lexicon_cuts : lexicon.Cuts Lexeme where
  nonempty := lexeme_parted.word_ne_nil
  solid := lexeme_parted.word_solid
  longer := lexeme_parted.word_longer
  cuts := lexeme_of_wordLength
  longest := length_le_wordLength
  reads := by
    intro word kind value hword hfits
    show token word = _
    cases hword with
    | number h => rw [token, if_pos h.any_isDigit, h.readInt_of_fits hfits]; rfl
    | mark h =>
      simp only [List.mem_cons, List.not_mem_nil, or_false] at h
      rcases h with rfl | rfl | rfl <;> rfl
  refuses := by
    intro word kind value hword hover
    show token word = _
    cases hword with
    | number h => rw [token, if_pos h.any_isDigit, h.readInt_of_oversized hover]; rfl
    | mark h => exact absurd hover (not_oversized_singleton _)

end Arrays

/-! ## Arithmetic -/

namespace Arithmetic

theorem isOperator_iff_mem : isOperator c = true ↔ c ∈ ['-', '+', '*', '/', '(', ')'] := by
  simp [isOperator_iff]

theorem lexeme_parted : Words.Parted Lexeme fun c => Number.isDigit c || c == '.' where
  solid := fun _ => not_isBlank_of_numeric rfl
  parts := by
    intro word kind value hword
    cases hword with
    | whole h => exact Or.inl ⟨h.nonempty, rfl, fun c hc => by simp [h.isDigit c hc]⟩
    | pointed h hplaces =>
      refine Or.inl ⟨by simp, rfl, ?_⟩
      intro c hc
      rcases List.mem_append.mp hc with hc | hc
      · simp [h.isDigit c hc]
      · rcases List.mem_cons.mp hc with rfl | hc
        · rfl
        · simp [hplaces.isDigit c hc]
    | @mark c h =>
      refine Or.inr ⟨c, rfl, ?_⟩
      simp only [List.mem_cons, List.not_mem_nil, or_false] at h
      rcases h with rfl | rfl | rfl | rfl | rfl | rfl <;> decide

/-- A number ends behind its digits, or behind the places of a point among them. -/
theorem lexeme_of_numberLength (h : countDigits cs ≠ 0) :
    numberLength cs ≤ cs.length ∧ ∃ value, Lexeme (cs.take (numberLength cs)) numberKind value := by
  have hwhole := digits_take h
  have hle := countDigits_le cs
  fun_cases numberLength cs with
  | case1 => exact ⟨hle, _, .whole hwhole⟩
  | case2 whole rest hrest hplaces =>
    have hlength := congrArg List.length hrest
    rw [List.length_drop, List.length_cons] at hlength
    have hle' := countDigits_le rest
    refine ⟨by omega, ?_⟩
    rw [Nat.add_assoc, List.take_add, hrest, Nat.add_comm 1, List.take_succ_cons]
    exact ⟨_, .pointed hwhole (digits_take hplaces)⟩
  | case3 => exact ⟨hle, _, .whole hwhole⟩

theorem countDigits_le_numberLength (cs : List Char) : countDigits cs ≤ numberLength cs := by
  fun_cases numberLength cs <;> omega

theorem lexeme_of_wordLength (h : wordLength cs ≠ 0) :
    wordLength cs ≤ cs.length ∧ ∃ kind value, Lexeme (cs.take (wordLength cs)) kind value := by
  cases cs with
  | nil => exact absurd rfl h
  | cons c cs =>
    by_cases hmark : isOperator c = true
    · have hlength : wordLength (c :: cs) = 1 := (isMark hmark).alone cs
      rw [hlength]
      exact ⟨by simp, _, _, .mark (isOperator_iff_mem.mp hmark)⟩
    · by_cases hdigit : Number.isDigit c = true
      · rw [wordLength_of_isDigit hdigit]
        have hcount : countDigits (c :: cs) ≠ 0 := by simp [countDigits, hdigit]
        obtain ⟨hle, value, hword⟩ := lexeme_of_numberLength hcount
        exact ⟨hle, _, value, hword⟩
      · exact absurd (by rw [wordLength, if_neg hmark, if_neg hdigit]) h

theorem length_le_wordLength (hword : Lexeme word kind value) (hpre : word <+: cs) :
    word.length ≤ wordLength cs := by
  obtain ⟨rest, rfl⟩ := hpre
  cases hword with
  | whole h =>
    obtain ⟨d, more, rfl, hd⟩ := h.exists_cons
    rw [List.cons_append, wordLength_of_isDigit hd]
    exact (h.length_le_countDigits (List.prefix_append _ _)).trans (countDigits_le_numberLength _)
  | @pointed ds places h hplaces =>
    have hcount : countDigits (ds ++ '.' :: (places ++ rest)) = ds.length :=
      countDigits_append h.isDigit (by simp; rfl)
    have hmore := hplaces.length_le_countDigits (List.prefix_append places rest)
    have hpos : 0 < places.length := List.length_pos_iff.mpr hplaces.nonempty
    have hnumber : numberLength (ds ++ '.' :: (places ++ rest)) =
        ds.length + 1 + countDigits (places ++ rest) := by
      simp only [numberLength, hcount, List.drop_left]
      rw [if_neg (by omega)]
    obtain ⟨d, more, rfl, hd⟩ := h.exists_cons
    simp only [List.append_assoc, List.cons_append] at hnumber ⊢
    rw [wordLength_of_isDigit hd, hnumber]
    simp only [List.length_cons, List.length_append]
    omega
  | mark h => exact ((isMark (isOperator_iff_mem.mpr h)).alone rest).ge

theorem token_whole (h : Digits ds) :
    token ds = (readInt ds).map fun n => (numberKind, .int n) := by
  rw [token, if_pos h.any_isDigit, if_neg (h.not_mem rfl)]

theorem lexicon_cuts : lexicon.Cuts Lexeme where
  nonempty := lexeme_parted.word_ne_nil
  solid := lexeme_parted.word_solid
  longer := lexeme_parted.word_longer
  cuts := lexeme_of_wordLength
  longest := length_le_wordLength
  reads := by
    intro word kind value hword hfits
    show token word = _
    cases hword with
    | whole h => rw [token_whole h, (Integer.plain h).readInt_of_fits hfits]; rfl
    | pointed h hplaces => rw [token, if_pos (by simp [h.any_isDigit]), if_pos (by simp)]
    | mark h =>
      simp only [List.mem_cons, List.not_mem_nil, or_false] at h
      rcases h with rfl | rfl | rfl | rfl | rfl | rfl <;> rfl
  refuses := by
    intro word kind value hword hover
    show token word = _
    cases hword with
    | whole h => rw [token_whole h, (Integer.plain h).readInt_of_oversized hover]; rfl
    | pointed h hplaces => exact absurd (List.mem_append_right _ List.mem_cons_self) hover.1
    | mark h => exact absurd hover (not_oversized_singleton _)

end Arithmetic

/-! ## Integers as they are written -/

theorem digits_toString (n : Nat) :
    Digits (toString n).toList ∧ Number.ofDigits (toString n).toList = n := by
  rw [Nat.toString_eq_ofList_toDigits, String.toList_ofList]
  refine ⟨⟨Nat.toDigits_ne_nil, ?_⟩, Nat.ofDigitChars_ten_toDigits⟩
  intro c hc
  exact Nat.isDigit_of_mem_toDigits (by decide) (by decide) hc

theorem integer_toString (n : Int) : Integer (toString n).toList n := by
  cases n with
  | ofNat n =>
    obtain ⟨hdigits, hvalue⟩ := digits_toString n
    have hplain := Integer.plain hdigits
    rw [hvalue] at hplain
    exact hplain
  | negSucc n =>
    obtain ⟨hdigits, hvalue⟩ := digits_toString (n + 1)
    have hminus := Integer.minus hdigits
    rw [hvalue] at hminus
    have htext : (toString (Int.negSucc n)).toList = '-' :: (toString (n + 1)).toList := by
      show ("-" ++ (n + 1).repr).toList = _
      rw [String.toList_append]
      rfl
    rw [htext]
    exact hminus

/-- Texts of either language are tiled by their tokens, and renderings of tokens are cut into them
again. Any integer has a rendering among arrays; in arithmetic, where a minus is a mark, any natural
number has one. -/
structure TokensTile : Prop where
  arrays : Tiles Arrays.tokenize Arrays.Lexeme
  arithmetic : Tiles Arithmetic.tokenize Arithmetic.Lexeme
  integer : ∀ n : Int, Arrays.Lexeme (toString n).toList numberKind (.int n)
  natural : ∀ n : Nat, Arithmetic.Lexeme (toString n).toList numberKind (.int n)

end Slr.Language
