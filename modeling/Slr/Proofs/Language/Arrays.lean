import Slr.Language.Arrays
import Slr.Proofs.Language.Made
import Slr.Proofs.Table.Cover

/-! # The two grammars of nested arrays

Either grammar of the array language is made, has a table, and yields the same values
over the same tokens. So their parsers are interchangeable. -/

namespace Slr.Language.Arrays

open ParseTree

/-! ## The grammars -/

/-- The drafts that the rules come to. -/
def spelledDrafts : List Draft :=
  [draft "value" [.terminal numberKind] number,
    draft "value" [.nonterminal "array"] (same "value.<locals>.<lambda>" "a"),
    draft "array" [.terminal "[", .terminal "]"] emptyArray,
    draft "array" [.terminal "[", .nonterminal "elements", .terminal "]"]
      (array "array.<locals>.<lambda>"),
    draft "elements" [.nonterminal "value"] (oneElement "elements.<locals>.<lambda>"),
    draft "elements" [.nonterminal "elements", .terminal ",", .nonterminal "value"] moreElements]

def spelledRules : List (String × List Symbol) :=
  [(goalName, [.nonterminal "value", .terminal endName]),
    ("value", [.terminal numberKind]), ("value", [.nonterminal "array"]),
    ("array", [.terminal "[", .terminal "]"]),
    ("array", [.terminal "[", .nonterminal "elements", .terminal "]"]),
    ("elements", [.nonterminal "value"]),
    ("elements", [.nonterminal "elements", .terminal ",", .nonterminal "value"])]

def vanishingRules : List (String × List Symbol) :=
  [(goalName, [.nonterminal "value", .terminal endName]),
    ("value", [.terminal numberKind]), ("value", [.nonterminal "array"]),
    ("array", [.terminal "[", .nonterminal "elements_opt", .terminal "]"]),
    ("elements_opt", []), ("elements_opt", [.nonterminal "elements"]),
    ("elements", [.nonterminal "value"]),
    ("elements", [.nonterminal "elements", .terminal ",", .nonterminal "value"])]

theorem spelled_shape :
    Draft.shape spelledDrafts (.nonterminal "value") = .ok ("value", spelledRules) := by
  cbv

theorem vanishing_shape :
    Draft.shape emptyDrafts (.nonterminal "value") = .ok ("value", vanishingRules) := by
  cbv

/-- The grammar with a production for the empty array. -/
def spelled : AttributedGrammar :=
  ⟨⟨"value", Draft.number 0 spelledRules, Draft.wellFormed_of_shape spelled_shape⟩,
    none :: spelledDrafts.map Draft.action⟩

/-- The grammar in which the elements may vanish. -/
def vanishing : AttributedGrammar :=
  ⟨⟨"value", Draft.number 0 vanishingRules, Draft.wellFormed_of_shape vanishing_shape⟩,
    none :: emptyDrafts.map Draft.action⟩

theorem gather_eq :
    (Workshop.gather ((Workshop.empty family).refTo (.written valueRule)) (.empty family)).1 =
      .ok spelledDrafts := by
  rfl

theorem grammar_eq : grammar = .ok spelled :=
  (Workshop.grammar_of_gather gather_eq).trans (AttributedGrammar.ofDrafts_eq spelled_shape)

theorem emptyGrammar_eq : emptyGrammar = .ok vanishing :=
  AttributedGrammar.ofDrafts_eq vanishing_shape

/-! ## Their tables -/

def spelledCover : List (List Place) :=
  [[(0, 0), (1, 0), (2, 0), (3, 0), (4, 0)], [(0, 1)], [(1, 1)], [(2, 1)],
    [(1, 0), (2, 0), (3, 0), (3, 1), (4, 0), (4, 1), (5, 0), (6, 0)], [(3, 2)], [(4, 2), (6, 1)],
    [(4, 3)], [(5, 1)], [(1, 0), (2, 0), (3, 0), (4, 0), (6, 2)], [(6, 3)]]

def vanishingCover : List (List Place) :=
  [[(0, 0), (1, 0), (2, 0), (3, 0)], [(0, 1)], [(1, 1)], [(2, 1)],
    [(1, 0), (2, 0), (3, 0), (3, 1), (4, 0), (5, 0), (6, 0), (7, 0)], [(3, 2)], [(3, 3)],
    [(5, 1), (7, 1)], [(6, 1)], [(1, 0), (2, 0), (3, 0), (7, 2)], [(7, 3)]]

theorem spelled_covered : spelled.grammar.Cover spelledCover := by decide

theorem vanishing_covered : vanishing.grammar.Cover vanishingCover := by decide

theorem mem_spelled {p : Production} (h : p ∈ spelled.grammar.productions) :
    p = .goal "value" ∨ p = ⟨1, "value", [.terminal numberKind]⟩ ∨
      p = ⟨2, "value", [.nonterminal "array"]⟩ ∨ p = ⟨3, "array", [.terminal "[", .terminal "]"]⟩ ∨
      p = ⟨4, "array", [.terminal "[", .nonterminal "elements", .terminal "]"]⟩ ∨
      p = ⟨5, "elements", [.nonterminal "value"]⟩ ∨
      p = ⟨6, "elements", [.nonterminal "elements", .terminal ",", .nonterminal "value"]⟩ := by
  simpa [spelled, spelledRules, Draft.number, Production.goal] using h

theorem mem_vanishing {p : Production} (h : p ∈ vanishing.grammar.productions) :
    p = .goal "value" ∨ p = ⟨1, "value", [.terminal numberKind]⟩ ∨
      p = ⟨2, "value", [.nonterminal "array"]⟩ ∨
      p = ⟨3, "array", [.terminal "[", .nonterminal "elements_opt", .terminal "]"]⟩ ∨
      p = ⟨4, "elements_opt", []⟩ ∨ p = ⟨5, "elements_opt", [.nonterminal "elements"]⟩ ∨
      p = ⟨6, "elements", [.nonterminal "value"]⟩ ∨
      p = ⟨7, "elements", [.nonterminal "elements", .terminal ",", .nonterminal "value"]⟩ := by
  simpa [vanishing, vanishingRules, Draft.number, Production.goal] using h

/-! ## What they yield -/

/-- What nonterminals stand for, with so much room, if the empty array is spelled out. -/
abbrev Spelled (room : Nat) : Meaning := spelled.grammar.YieldsIn spelled.semantics room

/-- What nonterminals stand for, with so much room, if the elements may vanish. -/
abbrev Vanishing (room : Nat) : Meaning := vanishing.grammar.YieldsIn vanishing.semantics room

variable {v : Value} {vs : List Value} {ts us : List Token} {tok l r c : Token} {room : Nat}

namespace Spelled

theorem number (hk : tok.kind = numberKind) : Spelled (room + 1) "value" (.number tok.value) [tok] :=
  .node ⟨1, "value", [.terminal numberKind]⟩ (by decide) (.terminal hk .nil) rfl

theorem value (h : Spelled room "array" v ts) : Spelled room "value" v ts :=
  .unit ⟨2, "value", [.nonterminal "array"]⟩ (by decide) rfl h rfl rfl

theorem empty (hl : l.kind = "[") (hr : r.kind = "]") :
    Spelled (room + 2) "array" (.array (.list [])) [l, r] :=
  .node ⟨3, "array", [.terminal "[", .terminal "]"]⟩ (by decide)
    (.terminal hl (.terminal hr .nil)) rfl

theorem array (hl : l.kind = "[") (h : Spelled (room + 2) "elements" v ts) (hr : r.kind = "]") :
    Spelled (room + 3) "array" (.array v) (l :: (ts ++ [r])) :=
  .node ⟨4, "array", [.terminal "[", .nonterminal "elements", .terminal "]"]⟩ (by decide)
    (.terminal hl (.nonterminal h (.terminal hr .nil))) rfl

theorem one (h : Spelled room "value" v ts) : Spelled room "elements" (.list [v]) ts :=
  .unit ⟨5, "elements", [.nonterminal "value"]⟩ (by decide) rfl h rfl rfl

theorem more (h : Spelled (room + 3) "elements" (.list vs) ts) (hc : c.kind = ",")
    (hv : Spelled (room + 1) "value" v us) :
    Spelled (room + 3) "elements" (.list (vs ++ [v])) (ts ++ c :: us) :=
  .node ⟨6, "elements", [.nonterminal "elements", .terminal ",", .nonterminal "value"]⟩
    (by decide) (.nonterminal h (.terminal hc hv.parts_one)) rfl

end Spelled

namespace Vanishing

theorem number (hk : tok.kind = numberKind) :
    Vanishing (room + 1) "value" (.number tok.value) [tok] :=
  .node ⟨1, "value", [.terminal numberKind]⟩ (by decide) (.terminal hk .nil) rfl

theorem value (h : Vanishing room "array" v ts) : Vanishing room "value" v ts :=
  .unit ⟨2, "value", [.nonterminal "array"]⟩ (by decide) rfl h rfl rfl

theorem array (hl : l.kind = "[") (h : Vanishing (room + 2) "elements_opt" v ts)
    (hr : r.kind = "]") : Vanishing (room + 3) "array" (.array v) (l :: (ts ++ [r])) :=
  .node ⟨3, "array", [.terminal "[", .nonterminal "elements_opt", .terminal "]"]⟩ (by decide)
    (.terminal hl (.nonterminal h (.terminal hr .nil))) rfl

theorem absent : Vanishing (room + 1) "elements_opt" (.list []) [] :=
  .node ⟨4, "elements_opt", []⟩ (by decide) .nil rfl

theorem present (h : Vanishing room "elements" v ts) : Vanishing room "elements_opt" v ts :=
  .unit ⟨5, "elements_opt", [.nonterminal "elements"]⟩ (by decide) rfl h rfl rfl

theorem one (h : Vanishing room "value" v ts) : Vanishing room "elements" (.list [v]) ts :=
  .unit ⟨6, "elements", [.nonterminal "value"]⟩ (by decide) rfl h rfl rfl

theorem more (h : Vanishing (room + 3) "elements" (.list vs) ts) (hc : c.kind = ",")
    (hv : Vanishing (room + 1) "value" v us) :
    Vanishing (room + 3) "elements" (.list (vs ++ [v])) (ts ++ c :: us) :=
  .node ⟨7, "elements", [.nonterminal "elements", .terminal ",", .nonterminal "value"]⟩
    (by decide) (.nonterminal h (.terminal hc hv.parts_one)) rfl

end Vanishing

/-- What the nonterminals of the grammar with vanishing elements stand for in the other,
which has none for elements that may vanish. -/
def asSpelled : Meaning := fun n v ts =>
  match n with
  | "value" | "array" => ∃ room, Spelled room n v ts
  | "elements" => ∃ vs room, v = .list vs ∧ Spelled room "elements" v ts
  | "elements_opt" => v = .list [] ∧ ts = [] ∨ ∃ room, Spelled room "elements" v ts
  | _ => True

/-- What the nonterminals of the grammar that spells out the empty array stand for in the other. -/
def asVanishing : Meaning := fun n v ts =>
  match n with
  | "value" | "array" => ∃ room, Vanishing room n v ts
  | "elements" => ∃ vs room, v = .list vs ∧ Vanishing room "elements" v ts
  | _ => True

theorem asSpelled_kept : vanishing.grammar.Keeps vanishing.semantics asSpelled := by
  intro p hp vs ts hparts
  rcases mem_vanishing hp with rfl | rfl | rfl | rfl | rfl | rfl | rfl | rfl <;>
    simp only [Production.goal, parts_nil_iff, parts_terminal_iff, parts_nonterminal_iff] at hparts
  · exact ⟨_, rfl, trivial⟩
  · obtain ⟨tok, _, _, hk, rfl, rfl, rfl, rfl⟩ := hparts
    exact ⟨_, rfl, 1, .number hk⟩
  · obtain ⟨v, us, _, _, ⟨room, hv⟩, rfl, rfl, rfl, rfl⟩ := hparts
    rw [List.append_nil]
    exact ⟨_, rfl, room, .value hv⟩
  · obtain ⟨l, _, _, hl, rfl, rfl, v, us, _, _, hv, rfl, rfl, r, _, _, hr, rfl, rfl, rfl, rfl⟩ :=
      hparts
    refine ⟨_, rfl, ?_⟩
    rcases hv with ⟨rfl, rfl⟩ | ⟨room, hv⟩
    · exact ⟨2, .empty hl hr⟩
    · exact ⟨room + 3, .array hl (hv.mono (Nat.le_add_right room 2)) hr⟩
  · obtain ⟨rfl, rfl⟩ := hparts
    exact ⟨_, rfl, Or.inl ⟨rfl, rfl⟩⟩
  · obtain ⟨v, us, _, _, ⟨_, room, -, hv⟩, rfl, rfl, rfl, rfl⟩ := hparts
    rw [List.append_nil]
    exact ⟨_, rfl, Or.inr ⟨room, hv⟩⟩
  · obtain ⟨v, us, _, _, ⟨room, hv⟩, rfl, rfl, rfl, rfl⟩ := hparts
    rw [List.append_nil]
    exact ⟨_, rfl, _, room, rfl, .one hv⟩
  · obtain ⟨_, us, _, _, ⟨vs, room, rfl, hvs⟩, rfl, rfl, c, _, _, hc, rfl, rfl, v, us', _, _,
      ⟨room', hv⟩, rfl, rfl, rfl, rfl⟩ := hparts
    rw [List.append_nil]
    have hvs' := hvs.mono (show room ≤ room + room' + 3 by omega)
    have hv' := hv.mono (show room' ≤ room + room' + 1 by omega)
    exact ⟨_, rfl, _, _, rfl, Spelled.more hvs' hc hv'⟩

theorem asVanishing_kept : spelled.grammar.Keeps spelled.semantics asVanishing := by
  intro p hp vs ts hparts
  rcases mem_spelled hp with rfl | rfl | rfl | rfl | rfl | rfl | rfl <;>
    simp only [Production.goal, parts_nil_iff, parts_terminal_iff, parts_nonterminal_iff] at hparts
  · exact ⟨_, rfl, trivial⟩
  · obtain ⟨tok, _, _, hk, rfl, rfl, rfl, rfl⟩ := hparts
    exact ⟨_, rfl, 1, .number hk⟩
  · obtain ⟨v, us, _, _, ⟨room, hv⟩, rfl, rfl, rfl, rfl⟩ := hparts
    rw [List.append_nil]
    exact ⟨_, rfl, room, .value hv⟩
  · obtain ⟨l, _, _, hl, rfl, rfl, r, _, _, hr, rfl, rfl, rfl, rfl⟩ := hparts
    exact ⟨_, rfl, 3, .array hl .absent hr⟩
  · obtain ⟨l, _, _, hl, rfl, rfl, v, us, _, _, ⟨vs, room, rfl, hv⟩, rfl, rfl, r, _, _, hr, rfl, rfl,
      rfl, rfl⟩ := hparts
    have hopt := (Vanishing.present hv).mono (Nat.le_add_right room 2)
    exact ⟨_, rfl, room + 3, .array hl hopt hr⟩
  · obtain ⟨v, us, _, _, ⟨room, hv⟩, rfl, rfl, rfl, rfl⟩ := hparts
    rw [List.append_nil]
    exact ⟨_, rfl, _, room, rfl, .one hv⟩
  · obtain ⟨_, us, _, _, ⟨vs, room, rfl, hvs⟩, rfl, rfl, c, _, _, hc, rfl, rfl, v, us', _, _,
      ⟨room', hv⟩, rfl, rfl, rfl, rfl⟩ := hparts
    rw [List.append_nil]
    have hvs' := hvs.mono (show room ≤ room + room' + 3 by omega)
    have hv' := hv.mono (show room' ≤ room + room' + 1 by omega)
    exact ⟨_, rfl, _, _, rfl, Vanishing.more hvs' hc hv'⟩

/-- The grammars yield the same values over the same tokens. -/
theorem yields_iff :
    (∃ room, Spelled room "value" v ts) ↔ ∃ room, Vanishing room "value" v ts :=
  ⟨asVanishing_kept.of_yields, asSpelled_kept.of_yields⟩

theorem sentence_iff (word : List String) :
    spelled.grammar.Sentence word ↔ vanishing.grammar.Sentence word := by
  rw [asVanishing_kept.sentence_iff, asSpelled_kept.sentence_iff]
  exact exists_congr fun v => exists_congr fun ts => and_congr_left fun _ => yields_iff

/-! ## They are interchangeable -/

theorem spelled_grounded : spelled.grammar.Grounded := by
  have hnumber : Spelled 1 "value" _ [⟨numberKind, .none, 0, 0⟩] := .number rfl
  have hempty : Spelled 2 "array" _ [⟨"[", .none, 0, 0⟩, ⟨"]", .none, 0, 0⟩] := .empty rfl rfl
  refine Grammar.grounded_of_yields spelled.semantics (by decide) ?_
  intro p hp hgoal
  rcases mem_spelled hp with rfl | rfl | rfl | rfl | rfl | rfl | rfl
  · exact absurd rfl hgoal
  · exact ⟨_, _, _, hnumber⟩
  · exact ⟨_, _, _, hnumber⟩
  · exact ⟨_, _, _, hempty⟩
  · exact ⟨_, _, _, hempty⟩
  · exact ⟨_, _, _, hnumber.one⟩
  · exact ⟨_, _, _, hnumber.one⟩

theorem vanishing_grounded : vanishing.grammar.Grounded := by
  have hnumber : Vanishing 1 "value" _ [⟨numberKind, .none, 0, 0⟩] := .number rfl
  have habsent : Vanishing 2 "elements_opt" _ [] := .absent
  have hempty : Vanishing 3 "array" _ [⟨"[", .none, 0, 0⟩, ⟨"]", .none, 0, 0⟩] :=
    .array rfl habsent rfl
  refine Grammar.grounded_of_yields vanishing.semantics (by decide) ?_
  intro p hp hgoal
  rcases mem_vanishing hp with rfl | rfl | rfl | rfl | rfl | rfl | rfl | rfl
  · exact absurd rfl hgoal
  · exact ⟨_, _, _, hnumber⟩
  · exact ⟨_, _, _, hnumber⟩
  · exact ⟨_, _, _, hempty⟩
  · exact ⟨_, _, _, habsent⟩
  · exact ⟨_, _, _, habsent⟩
  · exact ⟨_, _, _, hnumber.one⟩
  · exact ⟨_, _, _, hnumber.one⟩

/-- Over any tokens, whatever they are, the parsers of the two grammars return the same
value, or they refuse the same token at the same place, if as many calls may be open as the
tokens take. -/
theorem grammars_interchangeable (items : List RawToken) (watched : Bool)
    (hitems : ∀ f, .fault f ∉ items) :
    ∃ calls, (∃ v, Parses grammar (.ofItems items watched) calls (Returns v) ∧
        Parses emptyGrammar (.ofItems items watched) calls (Returns v)) ∨
      ∃ tok position, Parses grammar (.ofItems items watched) calls (Refuses tok position) ∧
        Parses emptyGrammar (.ofItems items watched) calls (Refuses tok position) := by
  obtain ⟨t, ht⟩ := spelled_covered.exists_table
  obtain ⟨t', ht'⟩ := vanishing_covered.exists_table
  obtain ⟨ts, e, hfeed⟩ := TokenStream.exists_feed hitems watched
  have hposition : (TokenStream.ofItems items watched).position = 0 := rfl
  have hspelled {calls : Nat} {P : Outcome Value → Prop} (more : Nat)
      (h : BothEnd t spelled.semantics (.ofStream (.ofItems items watched)) calls P) :
      Parses grammar (.ofItems items watched) (calls + more) P :=
    ⟨_, t, grammar_eq, ht, h.imp (Nat.le_add_right calls more) fun _ ho => ho⟩
  have hvanishing {calls : Nat} {P : Outcome Value → Prop} (more : Nat)
      (h : BothEnd t' vanishing.semantics (.ofStream (.ofItems items watched)) calls P) :
      Parses emptyGrammar (.ofItems items watched) (more + calls) P :=
    ⟨_, t', emptyGrammar_eq, ht', h.imp (Nat.le_add_left calls more) fun _ ho => ho⟩
  rcases asVanishing_kept.bothEnd spelled_grounded ht hfeed hposition with
    ⟨calls, v, hy, hparse⟩ | ⟨calls, p, tok, hstops, hparse⟩
  · obtain ⟨room, hy'⟩ := yields_iff.mp hy
    exact ⟨_, Or.inl ⟨v, hspelled _ hparse, hvanishing _ (returns_of_yields ht' hfeed hy')⟩⟩
  · rcases asSpelled_kept.bothEnd vanishing_grounded ht' hfeed hposition with
      ⟨calls', v, hy, hparse'⟩ | ⟨calls', p', tok', hstops', hparse'⟩
    · obtain ⟨room, hy'⟩ := yields_iff.mpr hy
      exact ⟨_, Or.inl ⟨v, hspelled _ (returns_of_yields ht hfeed hy'), hvanishing _ hparse'⟩⟩
    · obtain ⟨rfl, rfl⟩ := hstops.unique hstops' sentence_iff
      exact ⟨_, Or.inr ⟨tok, p, hspelled _ hparse, hvanishing _ hparse'⟩⟩

theorem grammars_interchangeable_comma :
    (∀ f, .fault f ∉ [RawToken.pair "[" .none, .pair "," .none]) ∧
      ∃ calls,
        (∃ v, Parses grammar (.ofItems [.pair "[" .none, .pair "," .none] false) calls (Returns v) ∧
          Parses emptyGrammar (.ofItems [.pair "[" .none, .pair "," .none] false) calls
            (Returns v)) ∨
        ∃ tok position,
          Parses grammar (.ofItems [.pair "[" .none, .pair "," .none] false) calls
              (Refuses tok position) ∧
            Parses emptyGrammar (.ofItems [.pair "[" .none, .pair "," .none] false) calls
              (Refuses tok position) :=
  ⟨by simp, grammars_interchangeable _ false (by simp)⟩

end Slr.Language.Arrays
