import Mathlib.Data.List.Chain
import Mathlib.Data.List.Forall2
import Slr.Language.Scanner
import Slr.Proofs.Stream.Feed

/-! # Scanning gives back the words that a text was put together from

A mark is a character that is a word whatever stands behind it; any other word ends
where a blank, a mark or nothing is behind it. If of two words side by side one is a
mark, the words can be written with any blanks before, between and behind them, or
with none, and are cut apart again. -/

namespace Slr

namespace Text

variable {c : Char} {cs blanks word : List Char}

theorem trimEnd_eq_nil_of_blank (h : ∀ c ∈ cs, isBlank c = true) : trimEnd cs = [] := by
  induction cs with
  | nil => rfl
  | cons c cs ih =>
    rw [trimEnd, ih fun d hd => h d (by simp [hd])]
    simp [h c (by simp)]

theorem trimEnd_append_of_solid (h : ∀ c ∈ word, isBlank c = false) :
    trimEnd (word ++ cs) = word ++ trimEnd cs := by
  induction word with
  | nil => rfl
  | cons c word ih =>
    rw [List.cons_append, trimEnd_cons_of_not_blank (h c (by simp)),
      ih fun d hd => h d (by simp [hd])]
    rfl

/-- Only what is at the very end is trimmed. -/
theorem trimEnd_append_of_ne_nil (h : trimEnd cs ≠ []) :
    trimEnd (blanks ++ cs) = blanks ++ trimEnd cs := by
  induction blanks with
  | nil => rfl
  | cons b blanks ih =>
    have hne : blanks ++ trimEnd cs ≠ [] := by simp [h]
    rw [List.cons_append, trimEnd, ih]
    cases hrest : blanks ++ trimEnd cs with
    | nil => exact absurd hrest hne
    | cons d ds => rw [List.cons_append, hrest]

theorem skipBlanks_append (hblanks : ∀ c ∈ blanks, isBlank c = true)
    (hword : ∀ c ∈ word.head?, isBlank c = false) : skipBlanks (blanks ++ word) = word := by
  rw [skipBlanks, List.dropWhile_append_of_pos hblanks]
  cases word with
  | nil => rfl
  | cons c word => simp [hword c (by simp)]

end Text

namespace Language

/-- Words with any blanks before, between and behind them. -/
inductive Spaced : List (List Char) → List Char → Prop
  | nil {blanks : List Char} (hblanks : ∀ c ∈ blanks, Text.isBlank c = true) : Spaced [] blanks
  | cons {blanks word cs : List Char} {words : List (List Char)}
      (hblanks : ∀ c ∈ blanks, Text.isBlank c = true) (rest : Spaced words cs) :
      Spaced (word :: words) (blanks ++ (word ++ cs))

namespace Lexicon

/-- A character that is a word, whatever stands behind it. -/
structure IsMark (l : Lexicon) (c : Char) : Prop where
  solid : Text.isBlank c = false
  alone : ∀ cs, l.wordLength (c :: cs) = 1
  read : ∃ kind value, l.token [c] = .ok (kind, value) ∧ kind ≠ endName

/-- What any word may end before: a blank, a mark, or nothing. -/
def Bounds (l : Lexicon) (cs : List Char) : Prop :=
  ∀ c ∈ cs.head?, Text.isBlank c = true ∨ l.IsMark c

structure IsWord (l : Lexicon) (word : List Char) : Prop where
  nonempty : word ≠ []
  solid : ∀ c ∈ word, Text.isBlank c = false
  ends : ∀ cs, l.Bounds cs → l.wordLength (word ++ cs) = word.length
  read : ∃ kind value, l.token word = .ok (kind, value) ∧ kind ≠ endName

/-- Of two words one is a mark. -/
def Apart (l : Lexicon) (word word' : List Char) : Prop :=
  (∃ c, word = [c] ∧ l.IsMark c) ∨ ∃ c, word' = [c] ∧ l.IsMark c

/-- Words that are cut apart again wherever they stand side by side. -/
structure Separable (l : Lexicon) (words : List (List Char)) : Prop where
  isWord : ∀ word ∈ words, l.IsWord word
  apart : words.IsChain l.Apart

variable {l : Lexicon} {c : Char} {cs word : List Char} {words words' : List (List Char)}
  {fuel place : Nat} {tok : Token} {toks : List Token} {kind : String} {value : Value}

theorem IsMark.isWord (h : l.IsMark c) : l.IsWord [c] where
  nonempty := by simp
  solid := by simpa using h.solid
  ends := fun cs _ => h.alone cs
  read := h.read

namespace Separable

theorem nil : l.Separable [] := ⟨by simp, .nil⟩

theorem one (h : l.IsWord word) : l.Separable [word] := ⟨by simpa using h, .singleton _⟩

/-- Two parts with a mark between them. -/
theorem append_mark (h : l.Separable words) (hc : l.IsMark c) (h' : l.Separable words') :
    l.Separable (words ++ [c] :: words') where
  isWord := fun word hword => by
    rcases List.mem_append.mp hword with hword | hword
    · exact h.isWord word hword
    · rcases List.mem_cons.mp hword with rfl | hword
      · exact hc.isWord
      · exact h'.isWord word hword
  apart := by
    refine List.isChain_append.mpr ⟨h.apart, List.isChain_cons.mpr ⟨?_, h'.apart⟩, ?_⟩
    · intro word _
      exact Or.inl ⟨c, rfl, hc⟩
    · intro word _ word' hword'
      obtain rfl : [c] = word' := by simpa using hword'
      exact Or.inr ⟨c, rfl, hc⟩

theorem mark_cons (hc : l.IsMark c) (h : l.Separable words) : l.Separable ([c] :: words) :=
  nil.append_mark hc h

theorem tail (h : l.Separable (word :: words)) : l.Separable words where
  isWord := fun w hw => h.isWord w (List.mem_cons_of_mem _ hw)
  apart := h.apart.tail

end Separable

/-! ## One word -/

/-- What stands behind a word, the blanks at the end of the text apart, lets it end. -/
theorem wordLength_of_spaced (h : l.Separable (word :: words)) (hs : Spaced words cs) :
    l.wordLength (word ++ Text.trimEnd cs) = word.length := by
  have hword := h.isWord word (by simp)
  cases hs with
  | nil hblanks =>
    rw [Text.trimEnd_eq_nil_of_blank hblanks]
    exact hword.ends [] (by simp [Bounds])
  | @cons blanks next cs words hblanks rest =>
    obtain ⟨hnonempty, hsolid, -, -⟩ := h.isWord next (by simp)
    have hrest : Text.trimEnd (next ++ cs) = next ++ Text.trimEnd cs :=
      Text.trimEnd_append_of_solid hsolid
    rw [Text.trimEnd_append_of_ne_nil (by simp [hrest, hnonempty]), hrest]
    cases blanks with
    | cons b blanks => exact hword.ends _ (by simp [Bounds, hblanks b (by simp)])
    | nil =>
      rcases (List.isChain_cons_cons.mp h.apart).1 with ⟨c, rfl, hc⟩ | ⟨c, rfl, hc⟩
      · exact hc.alone _
      · exact hword.ends _ (by simp [Bounds, hc])

/-! ## All words -/

/-- A token is what a word says. -/
def Stands (l : Lexicon) (word : List Char) (tok : Token) : Prop :=
  l.token word = .ok (tok.kind, tok.value)

theorem Stands.reads (hs : l.Stands word tok) (h : l.token word = .ok (kind, value)) :
    tok.kind = kind ∧ tok.value = value := by
  simpa using hs.symm.trans h

theorem exists_word_of_stands (hs : List.Forall₂ l.Stands words toks) (htok : tok ∈ toks) :
    ∃ word ∈ words, l.Stands word tok := by
  induction hs with
  | nil => cases htok
  | cons hword hs ih =>
    rcases List.mem_cons.mp htok with rfl | htok
    · exact ⟨_, by simp, hword⟩
    · obtain ⟨word, hmem, hword⟩ := ih htok
      exact ⟨word, List.mem_cons_of_mem _ hmem, hword⟩

/-! The tokens of a word, of words between two others, and of words on both sides of one. -/

theorem exists_one_of_stands (hs : List.Forall₂ l.Stands [word] toks) :
    ∃ tok, l.Stands word tok ∧ toks = [tok] := by
  obtain ⟨tok, _, hword, hnil, rfl⟩ := List.forall₂_cons_left_iff.mp hs
  obtain rfl := List.forall₂_nil_left_iff.mp hnil
  exact ⟨tok, hword, rfl⟩

theorem exists_joined_of_stands (hs : List.Forall₂ l.Stands (words ++ word :: words') toks) :
    ∃ us tok us', List.Forall₂ l.Stands words us ∧ l.Stands word tok ∧
      List.Forall₂ l.Stands words' us' ∧ toks = us ++ tok :: us' := by
  have hflip : List.Forall₂ (flip l.Stands) toks (words ++ word :: words') := hs.flip
  have hright := (List.forall₂_drop_append _ _ _ hflip).flip
  obtain ⟨tok, us', hword, hwords', hus⟩ := List.forall₂_cons_left_iff.mp hright
  refine ⟨_, tok, us', (List.forall₂_take_append _ _ _ hflip).flip, hword, hwords', ?_⟩
  rw [← hus, List.take_append_drop]

theorem exists_between_of_stands {word' : List Char}
    (hs : List.Forall₂ l.Stands (word :: (words ++ [word'])) toks) :
    ∃ tok us tok', l.Stands word tok ∧ List.Forall₂ l.Stands words us ∧ l.Stands word' tok' ∧
      toks = tok :: (us ++ [tok']) := by
  obtain ⟨tok, _, hword, hrest, rfl⟩ := List.forall₂_cons_left_iff.mp hs
  obtain ⟨us, tok', _, hwords, hword', hnil, rfl⟩ := exists_joined_of_stands hrest
  obtain rfl := List.forall₂_nil_left_iff.mp hnil
  exact ⟨tok, us, tok', hword, hwords, hword', rfl⟩

/-- A word behind blanks is cut off, and what is behind it comes next. -/
theorem scan_word {blanks : List Char} (hblanks : ∀ c ∈ blanks, Text.isBlank c = true)
    (hne : word ≠ []) (hsolid : ∀ c ∈ word, Text.isBlank c = false)
    (hlength : l.wordLength (word ++ cs) = word.length) :
    scan l (fuel + 1) place (blanks ++ (word ++ cs)) =
      tokenAt l (place + blanks.length) word ::
        scan l fuel (place + blanks.length + word.length) cs := by
  obtain ⟨d, ds, rfl⟩ := List.exists_cons_of_ne_nil hne
  have hd : Text.isBlank d = false := hsolid d (by simp)
  have hskip : Text.skipBlanks (blanks ++ (d :: ds ++ cs)) = d :: ds ++ cs :=
    Text.skipBlanks_append hblanks (by simpa using hd)
  have hwidth : ((blanks ++ (d :: ds ++ cs)).takeWhile Text.isBlank).length = blanks.length := by
    rw [List.takeWhile_append_of_pos hblanks]
    simp [hd]
  obtain ⟨e, es, he⟩ : ∃ e es, blanks ++ (d :: ds ++ cs) = e :: es :=
    List.exists_cons_of_ne_nil (by simp)
  rw [he] at hskip hwidth ⊢
  rw [scan, hskip, hlength, hwidth]
  simp only [List.length_cons, List.cons_append, List.take_succ_cons, List.drop_succ_cons,
    List.take_left, List.drop_left]

theorem scan_spaced (h : l.Separable words) (hs : Spaced words cs) (place : Nat)
    (hfuel : (Text.trimEnd cs).length ≤ fuel) :
    ∃ (toks : List Token) (stop : Nat), List.Forall₂ l.Stands words toks ∧
      scan l fuel place (Text.trimEnd cs) = toks.map .token ++ [.token ⟨endName, .none, stop, stop⟩] := by
  induction hs generalizing fuel place with
  | nil hblanks =>
    refine ⟨[], place, .nil, ?_⟩
    rw [Text.trimEnd_eq_nil_of_blank hblanks]
    cases fuel <;> rfl
  | @cons blanks word cs words hblanks rest ih =>
    obtain ⟨hnonempty, hsolid, -, kind, value, hread, -⟩ := h.isWord word (by simp)
    have hlength := wordLength_of_spaced h rest
    have htrim : Text.trimEnd (word ++ cs) = word ++ Text.trimEnd cs :=
      Text.trimEnd_append_of_solid hsolid
    rw [Text.trimEnd_append_of_ne_nil (by simp [htrim, hnonempty]), htrim] at hfuel ⊢
    have hpos : word.length ≠ 0 := by simpa using hnonempty
    simp only [List.length_append] at hfuel
    cases fuel with
    | zero => omega
    | succ fuel =>
      have hrest : (Text.trimEnd cs).length ≤ fuel := by omega
      obtain ⟨toks, stop, hstands, hscan⟩ :=
        ih h.tail (place + blanks.length + word.length) hrest
      refine ⟨⟨kind, value, place + blanks.length, place + blanks.length + word.length⟩ :: toks,
        stop, .cons hread hstands, ?_⟩
      rw [scan_word hblanks hnonempty hsolid hlength, hscan, tokenAt, hread]
      rfl

/-- A text that is put together from words holds their tokens. -/
theorem exists_feed_spaced (h : l.Separable words) {text : String} (hs : Spaced words text.toList)
    (watched : Bool) :
    ∃ (toks : List Token) (e : Token), List.Forall₂ l.Stands words toks ∧
      (TokenStream.ofItems (tokenize l text) watched).feed = ⟨toks, .ok e⟩ := by
  obtain ⟨toks, stop, hstands, htokens⟩ := scan_spaced h hs 0 (Nat.le_refl _)
  have hkinds : ∀ tok ∈ toks, tok.kind ≠ endName := by
    intro tok htok
    obtain ⟨word, hword, hstands⟩ := exists_word_of_stands hstands htok
    obtain ⟨kind, value, hread, hkind⟩ := (h.isWord word hword).read
    rw [(hstands.reads hread).1]
    exact hkind
  refine ⟨toks, ⟨endName, .none, stop, stop⟩, hstands, ?_⟩
  show Feed.ofItems (tokenize l text) 0 0 = _
  rw [tokenize, htokens]
  exact TokenStream.ofItems_tokens_end toks hkinds rfl 0 0

end Lexicon

end Language

end Slr
