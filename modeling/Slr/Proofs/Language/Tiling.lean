import Mathlib.Data.List.TakeWhile
import Slr.Proofs.Language.Scanner

/-! # Tokens tile their text

From each place on, blanks are passed over and a longest word is cut off, up to the end of
the text or to a place behind which no word stands. What is put together from words, with
any blanks between them that keep numbers apart, is cut into their tokens again. -/

namespace Slr.Language

/-- The words of a language, with the kinds and values of their tokens. -/
abbrev Words := List Char → String → Value → Prop

/-- An integer with more digits than can be read. -/
def Oversized (word : List Char) : Prop :=
  '.' ∉ word ∧ digitLimit < (word.filter Number.isDigit).length

def oversize (word : List Char) : Fault :=
  .tooManyDigits (": value has " ++ toString (word.filter Number.isDigit).length ++ " digits")

/-- From a place on there are blanks, and then a longest word from its start to its stop. -/
structure Cut (words : Words) (text : List Char) (place start stop : Nat) (kind : String)
    (value : Value) : Prop where
  place_le : place ≤ start
  lt : start < stop
  le : stop ≤ text.length
  gap : ∀ c ∈ text.extract place start, Text.isBlank c = true
  word : words (text.extract start stop) kind value
  longest : ∀ stop', stop < stop' → stop' ≤ text.length →
    ∀ kind value, ¬ words (text.extract start stop') kind value

/-- What a text is cut into from a place on: one token behind the other, and then the end of the
input, or what is wrong. -/
inductive Tiled (words : Words) (text : List Char) : Nat → List RawToken → Prop
  | finish : Tiled words text text.length
      [.token ⟨endName, .none, text.length, text.length⟩]
  | stuck {place : Nat} (hlt : place < text.length)
      (hnone : ∀ word, word <+: Text.skipBlanks (text.drop place) →
        ∀ kind value, ¬ words word kind value) :
      Tiled words text place [.fault (tokenError place (text.drop place))]
  | token {place start stop : Nat} {kind : String} {value : Value} {items : List RawToken}
      (cut : Cut words text place start stop kind value)
      (hfits : ¬ Oversized (text.extract start stop)) (rest : Tiled words text stop items) :
      Tiled words text place (.token ⟨kind, value, start, stop⟩ :: items)
  /-- Behind a fault there is nothing that anyone gets. -/
  | oversized {place start stop : Nat} {kind : String} {value : Value} {items : List RawToken}
      (cut : Cut words text place start stop kind value)
      (hover : Oversized (text.extract start stop)) :
      Tiled words text place (.fault (oversize (text.extract start stop)) :: items)

/-- Words for tokens, with any blanks between them; between two numbers there is one. -/
inductive Rendered (words : Words) : List (String × Value) → List Char → Prop
  | nil {blanks : List Char} (hblanks : ∀ c ∈ blanks, Text.isBlank c = true) :
      Rendered words [] blanks
  | cons {blanks word cs : List Char} {kind : String} {value : Value} {toks : List (String × Value)}
      (hblanks : ∀ c ∈ blanks, Text.isBlank c = true) (hword : words word kind value)
      (hfits : ¬ Oversized word) (rest : Rendered words toks cs)
      (hapart : kind = numberKind → toks.head?.map Prod.fst = some numberKind →
        ∃ c ∈ cs.head?, Text.isBlank c = true) :
      Rendered words ((kind, value) :: toks) (blanks ++ (word ++ cs))

/-- A lexicon that cuts off and reads the words of a language. -/
structure Lexicon.Cuts (l : Lexicon) (words : Words) : Prop where
  nonempty : ∀ {word kind value}, words word kind value → word ≠ []
  solid : ∀ {word kind value}, words word kind value → ∀ c ∈ word, Text.isBlank c = false
  cuts : ∀ {cs}, l.wordLength cs ≠ 0 →
    l.wordLength cs ≤ cs.length ∧ ∃ kind value, words (cs.take (l.wordLength cs)) kind value
  longest : ∀ {word cs kind value}, words word kind value → word <+: cs →
    word.length ≤ l.wordLength cs
  reads : ∀ {word kind value}, words word kind value → ¬ Oversized word →
    l.token word = .ok (kind, value)
  refuses : ∀ {word kind value}, words word kind value → Oversized word →
    l.token word = .error (oversize word)
  /-- Only a number goes on, and with nothing that could begin anything but a number. -/
  longer : ∀ {word kind value c more kind' value'}, words word kind value →
    words (word ++ c :: more) kind' value' → kind = numberKind ∧ Text.isBlank c = false ∧
      ∀ more' kind'' value'', words (c :: more') kind'' value'' → kind'' = numberKind

/-- Every text is tiled by its tokens, and every rendering of tokens is cut into them again. -/
structure Tiles (tokenize : String → List RawToken) (words : Words) : Prop where
  tiled : ∀ text : String, Tiled words (Text.trimEnd text.toList) 0 (tokenize text)
  rendered : ∀ toks (text : String), Rendered words toks text.toList → ∃ ts : List Token,
    tokenize text = ts.map .token ++ [.token ⟨endName, .none,
        (Text.trimEnd text.toList).length, (Text.trimEnd text.toList).length⟩] ∧
      ts.map (fun t => (t.kind, t.value)) = toks

variable {l : Lexicon} {words : Words} {text cs word : List Char} {fuel place : Nat}
  {kind : String} {value : Value} {toks : List (String × Value)}

/-! ## Tiling -/

theorem extract_prefix_drop (text : List Char) (start stop : Nat) :
    text.extract start stop <+: text.drop start := by
  rw [List.extract_eq_take_drop]
  exact List.take_prefix _ _

theorem length_extract {start stop : Nat} (hle : stop ≤ text.length) :
    (text.extract start stop).length = stop - start := by
  rw [List.extract_eq_take_drop, List.length_take, List.length_drop]
  omega

theorem extract_blanks (text : List Char) (place : Nat) :
    text.extract place (place + ((text.drop place).takeWhile Text.isBlank).length) =
      (text.drop place).takeWhile Text.isBlank := by
  rw [List.extract_eq_take_drop, Nat.add_sub_cancel_left]
  exact (List.prefix_iff_eq_take.mp (List.takeWhile_prefix _)).symm

theorem skipBlanks_drop (text : List Char) (place : Nat) :
    Text.skipBlanks (text.drop place) =
      text.drop (place + ((text.drop place).takeWhile Text.isBlank).length) := by
  rw [← List.drop_drop, Text.skipBlanks]
  conv =>
    rhs
    arg 2
    rw [← List.takeWhile_append_dropWhile (p := Text.isBlank) (l := text.drop place)]
  rw [List.drop_left]

namespace Lexicon.Cuts

variable (h : l.Cuts words)

include h

/-- No word begins where none is cut off. -/
theorem not_word_of_wordLength_eq_zero (hzero : l.wordLength cs = 0) (hpre : word <+: cs)
    (kind : String) (value : Value) : ¬ words word kind value := by
  intro hword
  have hlength := h.longest hword hpre
  rw [hzero, Nat.le_zero, List.length_eq_zero_iff] at hlength
  exact h.nonempty hword hlength

/-- The word that is cut off behind the blanks. -/
theorem cut {start : Nat}
    (hstart : start = place + ((text.drop place).takeWhile Text.isBlank).length)
    (hpos : l.wordLength (text.drop start) ≠ 0) :
    ∃ kind value, Cut words text place start (start + l.wordLength (text.drop start)) kind value := by
  obtain ⟨hle, kind, value, hword⟩ := h.cuts hpos
  rw [List.length_drop] at hle
  refine ⟨kind, value, by omega, by omega, by omega, ?gap, ?word, ?longest⟩
  case gap =>
    subst hstart
    rw [extract_blanks]
    intro c hc
    exact List.mem_takeWhile_imp hc
  case word => simpa [List.extract_eq_take_drop] using hword
  case longest =>
    intro stop' hlt hle' kind' value' hword'
    have hlonger := h.longest hword' (extract_prefix_drop text start stop')
    rw [length_extract hle'] at hlonger
    omega

/-- One token and what follows it, or what is wrong. -/
theorem tiled_cons {start stop : Nat} {items : List RawToken}
    (hcut : Cut words text place start stop kind value) (hrest : Tiled words text stop items) :
    Tiled words text place (tokenAt l start (text.extract start stop) :: items) := by
  have hlt := hcut.lt
  by_cases hover : Oversized (text.extract start stop)
  · rw [tokenAt, h.refuses hcut.word hover]
    exact .oversized hcut hover
  · have hstop : ((start : Int) + ((text.extract start stop).length : Int)) = (stop : Int) := by
      rw [length_extract hcut.le]
      omega
    simp only [tokenAt, h.reads hcut.word hover]
    rw [hstop]
    exact .token hcut hover hrest

theorem scan_tiled (hplace : place ≤ text.length) (hfuel : text.length ≤ place + fuel) :
    Tiled words text place (scan l fuel place (text.drop place)) := by
  induction fuel generalizing place with
  | zero =>
    obtain rfl : place = text.length := by omega
    exact .finish
  | succ fuel ih =>
    cases hrest : text.drop place with
    | nil =>
      obtain rfl : place = text.length := by
        have := List.drop_eq_nil_iff.mp hrest
        omega
      exact .finish
    | cons c cs =>
      have hlt : place < text.length := by
        have hlength := congrArg List.length hrest
        rw [List.length_drop, List.length_cons] at hlength
        omega
      obtain ⟨start, hstart⟩ :
          ∃ start, start = place + ((text.drop place).takeWhile Text.isBlank).length := ⟨_, rfl⟩
      have hskip : Text.skipBlanks (text.drop place) = text.drop start := by
        rw [skipBlanks_drop, hstart]
      rw [scan, ← hrest, hskip, ← hstart]
      cases hn : l.wordLength (text.drop start) with
      | zero =>
        refine .stuck hlt ?_
        rw [hskip]
        intro word hpre
        exact h.not_word_of_wordLength_eq_zero hn hpre
      | succ n =>
        obtain ⟨kind, value, hcut⟩ := h.cut hstart (by rw [hn]; exact Nat.succ_ne_zero n)
        rw [hn] at hcut
        have hword : text.extract start (start + (n + 1)) = (text.drop start).take (n + 1) := by
          rw [List.extract_eq_take_drop, Nat.add_sub_cancel_left]
        have hlength : (text.extract start (start + (n + 1))).length = n + 1 := by
          rw [length_extract hcut.le, Nat.add_sub_cancel_left]
        simp only [← hword, hlength, List.drop_drop]
        exact h.tiled_cons hcut (ih hcut.le (by omega))

theorem tiled (text : String) :
    Tiled words (Text.trimEnd text.toList) 0 (tokenize l text) :=
  h.scan_tiled (Nat.zero_le _) (by omega)

/-! ## Renderings -/

/-- Behind a word, only blanks at the end of the text are trimmed. -/
theorem trimEnd_word {blanks : List Char} (hword : words word kind value) :
    Text.trimEnd (blanks ++ (word ++ cs)) = blanks ++ (word ++ Text.trimEnd cs) := by
  have htrim : Text.trimEnd (word ++ cs) = word ++ Text.trimEnd cs :=
    Text.trimEnd_append_of_solid (h.solid hword)
  rw [Text.trimEnd_append_of_ne_nil (by simp [htrim, h.nonempty hword]), htrim]

/-- Only a number is cut off with more behind it, and only if that could be the next number. -/
theorem number_of_lt_wordLength (hword : words word kind value)
    (hlt : word.length < l.wordLength (word ++ cs)) :
    ∃ c more, cs = c :: more ∧ kind = numberKind ∧ Text.isBlank c = false ∧
      ∀ more' kind' value', words (c :: more') kind' value' → kind' = numberKind := by
  obtain ⟨hle, kind', value', hlonger⟩ := h.cuts (Nat.ne_zero_of_lt hlt)
  obtain ⟨n, hn⟩ := Nat.exists_eq_add_of_lt hlt
  rw [hn, Nat.add_assoc, List.length_append] at hle
  cases cs with
  | nil =>
    rw [List.length_nil] at hle
    omega
  | cons c more =>
    rw [hn, Nat.add_assoc, List.take_length_add_append, List.take_succ_cons] at hlonger
    exact ⟨c, more, rfl, h.longer hword hlonger⟩

/-- A word ends where it was rendered: only a number could make it longer, and that one stands
behind a blank. -/
theorem wordLength_rendered (hword : words word kind value) (rest : Rendered words toks cs)
    (hapart : kind = numberKind → toks.head?.map Prod.fst = some numberKind →
      ∃ c ∈ cs.head?, Text.isBlank c = true) :
    l.wordLength (word ++ Text.trimEnd cs) = word.length := by
  refine Nat.le_antisymm (Nat.le_of_not_lt fun hlt => ?_) (h.longest hword (List.prefix_append _ _))
  obtain ⟨c, more, hc, hkind, hsolid, hnumber⟩ := h.number_of_lt_wordLength hword hlt
  cases rest with
  | nil hblanks => simp [Text.trimEnd_eq_nil_of_blank hblanks] at hc
  | @cons blanks next cs nextKind nextValue toks hblanks hnext hfits rest hapart' =>
    rw [h.trimEnd_word hnext] at hc
    cases blanks with
    | cons b blanks =>
      obtain rfl : b = c := (List.cons.inj hc).1
      simp [hblanks b (by simp)] at hsolid
    | nil =>
      obtain ⟨d, ds, rfl⟩ := List.exists_cons_of_ne_nil (h.nonempty hnext)
      obtain rfl : d = c := (List.cons.inj hc).1
      obtain ⟨b, hb, hblank⟩ := hapart hkind (by simp [hnumber ds nextKind nextValue hnext])
      obtain rfl : d = b := by simpa using hb
      simp [hblank] at hsolid

theorem scan_rendered (hr : Rendered words toks cs) (place : Nat)
    (hfuel : (Text.trimEnd cs).length ≤ fuel) : ∃ ts : List Token,
    scan l fuel place (Text.trimEnd cs) =
        ts.map .token ++ [.token ⟨endName, .none, (place + (Text.trimEnd cs).length : Nat),
          (place + (Text.trimEnd cs).length : Nat)⟩] ∧
      ts.map (fun t => (t.kind, t.value)) = toks := by
  induction hr generalizing fuel place with
  | nil hblanks =>
    refine ⟨[], ?_, rfl⟩
    rw [Text.trimEnd_eq_nil_of_blank hblanks]
    cases fuel <;> rfl
  | @cons blanks word cs kind value toks hblanks hword hfits rest hapart ih =>
    have hlength := h.wordLength_rendered hword rest hapart
    have hpos : word.length ≠ 0 := by simpa using h.nonempty hword
    rw [h.trimEnd_word hword] at hfuel ⊢
    simp only [List.length_append] at hfuel
    cases fuel with
    | zero => omega
    | succ fuel =>
      have hrest : (Text.trimEnd cs).length ≤ fuel := by omega
      obtain ⟨ts, hscan, hts⟩ := ih (place + blanks.length + word.length) hrest
      refine ⟨⟨kind, value, place + blanks.length, place + blanks.length + word.length⟩ :: ts,
        ?_, by simp [hts]⟩
      rw [scan_word hblanks (h.nonempty hword) (h.solid hword) hlength, hscan, tokenAt,
        h.reads hword hfits]
      simp only [List.length_append, List.map_cons, List.cons_append, Nat.add_assoc,
        Int.natCast_add]

end Lexicon.Cuts

/-- A lexicon that cuts off the words of a language tiles its texts with them. -/
theorem Lexicon.Cuts.tiles (h : l.Cuts words) : Tiles (tokenize l) words where
  tiled := h.tiled
  rendered := fun toks text hr => by
    obtain ⟨ts, hscan, hts⟩ := h.scan_rendered hr 0 (Nat.le_refl _)
    rw [Nat.zero_add] at hscan
    exact ⟨ts, hscan, hts⟩

end Slr.Language
