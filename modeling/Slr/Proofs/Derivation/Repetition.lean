import Slr.Proofs.Derivation.Forests
import Slr.Proofs.Rule.Unrolling

/-! # What a repetition stands over, and its value

A nonterminal that repeats words has productions that begin, go on, or stand alone. A tree
of it falls into rounds: going on, it has itself in front, and the round behind. So it
stands over as many words one after the other as it has rounds, and its value is made of
one item for each round, in their order. -/

namespace Slr

open ParseTree

/-- How many times a repetition may repeat. -/
def Repetition.Allows : Repetition → Nat → Prop
  | .optional, k => k ≤ 1
  | .oneOrMore, k => 1 ≤ k
  | .zeroOrMore, _ => True

/-- The value of a repetition over these items. -/
def Repetition.valueOf : Repetition → List Value → Value
  | .optional, [] => .none
  | .optional, item :: _ => item
  | .oneOrMore, items | .zeroOrMore, items => .list items

/-- A turn that a repetition takes over this word. -/
inductive Repetition.Takes {α : Type} (self : α) (words : List (List α)) :
    Repetition → Turn → List α → Prop
  | absent : Takes self words .optional .absent []
  | present {w : List α} (hw : w ∈ words) : Takes self words .optional .present w
  | empty : Takes self words .zeroOrMore .empty []
  | first {w : List α} (hw : w ∈ words) : Takes self words .oneOrMore .first w
  | more {repetition : Repetition} (hmany : repetition ≠ .optional) {w : List α} (hw : w ∈ words) :
      Takes self words repetition .more (self :: w)

/-- The productions of a nonterminal repeat these words. -/
structure Grammar.Repeats (g : Grammar) (semantics : Semantics) (n : String)
    (repetition : Repetition) (words : List (List Symbol)) : Prop where
  turn : ∀ p ∈ g.productions, p.lhs = n → ∃ turn,
    repetition.Takes (.nonterminal n) words turn p.rhs ∧ semantics p = some turn.action
  production : ∀ turn rhs, repetition.Takes (.nonterminal n) words turn rhs →
    ∃ p ∈ g.productions, p.lhs = n ∧ p.rhs = rhs ∧ semantics p = some turn.action

/-- The rounds that a tree of a repetition is over: each is the trees of one word. -/
inductive Rounds (semantics : Semantics) (n : String) :
    Repetition → ParseTree → List (List ParseTree) → Prop
  | absent {p : Production} (lhs : p.lhs = n) (acts : semantics p = some (Turn.action .absent)) :
      Rounds semantics n .optional (.node p []) []
  | present {p : Production} {round : List ParseTree} (lhs : p.lhs = n)
      (acts : semantics p = some (Turn.action .present)) :
      Rounds semantics n .optional (.node p round) [round]
  | empty {p : Production} (lhs : p.lhs = n) (acts : semantics p = some (Turn.action .empty)) :
      Rounds semantics n .zeroOrMore (.node p []) []
  | first {p : Production} {round : List ParseTree} (lhs : p.lhs = n)
      (acts : semantics p = some (Turn.action .first)) :
      Rounds semantics n .oneOrMore (.node p round) [round]
  | more {repetition : Repetition} {p : Production} {T : ParseTree}
      {rounds : List (List ParseTree)} {round : List ParseTree} (lhs : p.lhs = n)
      (acts : semantics p = some (Turn.action .more)) (hmany : repetition ≠ .optional)
      (before : Rounds semantics n repetition T rounds) :
      Rounds semantics n repetition (.node p (T :: round)) (rounds ++ [round])

/-- The item of a round: the value of its one tree, or the tuple of the values. -/
def Round.Gives (semantics : Semantics) (round : List ParseTree) (item : Value) : Prop :=
  ∃ vs, evalAll semantics round = .ok vs ∧ item = Workshop.itemOf vs

variable {g : Grammar} {semantics : Semantics} {n : String} {repetition : Repetition}
  {words : List (List Symbol)} {T : ParseTree} {rounds : List (List ParseTree)} {v : Value}
  {word : List String} {base : List Symbol} {parts : List (List String)}

theorem Repetition.mem_turns_iff {α : Type} {self : α} {words : List (List α)} {turn : Turn}
    {w : List α} : (turn, w) ∈ repetition.turns self words ↔ repetition.Takes self words turn w := by
  constructor
  · intro h
    cases repetition with
    | optional =>
      rcases List.mem_append.mp h with h | h
      · obtain ⟨w, hw, rfl, rfl⟩ := List.mem_map.mp h
        exact .present hw
      · obtain ⟨rfl, rfl⟩ := Prod.mk.inj (List.mem_singleton.mp h)
        exact .absent
    | oneOrMore =>
      rcases List.mem_append.mp h with h | h
      · obtain ⟨w, hw, rfl, rfl⟩ := List.mem_map.mp h
        exact .first hw
      · obtain ⟨w, hw, rfl, rfl⟩ := List.mem_map.mp h
        exact .more (by simp) hw
    | zeroOrMore =>
      rcases List.mem_cons.mp h with h | h
      · obtain ⟨rfl, rfl⟩ := Prod.mk.inj h
        exact .empty
      · obtain ⟨w, hw, rfl, rfl⟩ := List.mem_map.mp h
        exact .more (by simp) hw
  · intro h
    cases h with
    | absent | empty => simp [turns]
    | present hw | first hw => simp [turns, hw]
    | more hmany hw =>
      cases repetition with
      | optional => exact absurd rfl hmany
      | oneOrMore | zeroOrMore => simp [turns, hw]

theorem ParseTree.eval_node_eq_ok_iff {p : Production} {children : List ParseTree} :
    eval semantics (.node p children) = .ok v ↔
      ∃ vs, evalAll semantics children = .ok vs ∧ semantics.value p vs = .ok v := by
  rw [eval]
  cases evalAll semantics children <;> simp

theorem Semantics.value_eq_ok_iff {p : Production} {action : Action} {vs : List Value}
    (acts : semantics p = some action) : semantics.value p vs = .ok v ↔ action.apply vs = .ok v := by
  rw [value, acts]
  cases happly : action.apply vs with
  | ok w => simp [happly]
  | error f => cases f <;> simp [happly]

theorem Repetition.valueOf_of_ne (h : repetition ≠ .optional) (items : List Value) :
    repetition.valueOf items = .list items := by
  cases repetition with
  | optional => exact absurd rfl h
  | oneOrMore | zeroOrMore => rfl

/-! ## Rounds -/

theorem forestKinds_flatten (rounds : List (List ParseTree)) :
    forestKinds rounds.flatten = (rounds.map forestKinds).flatten := by
  induction rounds with
  | nil => rfl
  | cons round rounds ih => simp [ih]

theorem exists_one_item {P : List ParseTree → Value → Prop} {Q : List Value → Prop}
    {round : List ParseTree} : (∃ items, List.Forall₂ P [round] items ∧ Q items) ↔
      ∃ item, P round item ∧ Q [item] := by
  constructor
  · intro h
    obtain ⟨items, hitems, hQ⟩ := h
    cases hitems with
    | cons hitem hnil =>
      cases hnil
      exact ⟨_, hitem, hQ⟩
  · intro h
    obtain ⟨item, hitem, hQ⟩ := h
    exact ⟨[item], .cons hitem .nil, hQ⟩

theorem exists_last_item {P : List ParseTree → Value → Prop} {round : List ParseTree}
    {items : List Value} (h : List.Forall₂ P (rounds ++ [round]) items) :
    ∃ before item, List.Forall₂ P rounds before ∧ P round item ∧ items = before ++ [item] := by
  induction rounds generalizing items with
  | nil =>
    obtain ⟨item, hitem, rfl⟩ := exists_one_item.mp ⟨items, h, rfl⟩
    exact ⟨[], item, .nil, hitem, rfl⟩
  | cons first rounds ih =>
    cases h with
    | cons hfirst hrest =>
      obtain ⟨before, item, hbefore, hitem, rfl⟩ := ih hrest
      exact ⟨_ :: before, item, .cons hfirst hbefore, hitem, rfl⟩

namespace Rounds

theorem allowed (h : Rounds semantics n repetition T rounds) : repetition.Allows rounds.length := by
  cases h with
  | absent => exact Nat.zero_le 1
  | present => exact Nat.le_refl 1
  | empty => trivial
  | first => exact Nat.le_refl 1
  | more lhs acts hmany before =>
    cases repetition with
    | optional => exact absurd rfl hmany
    | oneOrMore => simp [Repetition.Allows]
    | zeroOrMore => trivial

/-- The rounds stand over what the tree stands over, in order. -/
theorem tokens (h : Rounds semantics n repetition T rounds) : tokensOf rounds.flatten = T.tokens := by
  induction h with
  | absent | empty => rfl
  | present | first => simp [ParseTree.tokens]
  | more lhs acts hmany before ih =>
    simp [tokensOf_append, ih, ParseTree.tokens, tokensOf]

/-- A tree of a repetition has a value if every round gives an item, and then it is made of the
items. -/
theorem eval_eq_ok_iff (h : Rounds semantics n repetition T rounds) : eval semantics T = .ok v ↔
    ∃ items, List.Forall₂ (Round.Gives semantics) rounds items ∧ v = repetition.valueOf items := by
  induction h generalizing v with
  | @absent p lhs acts =>
    have hvalue : semantics.value p [] = .ok .none := (Semantics.value_eq_ok_iff acts).mpr rfl
    simp [eval, evalAll, hvalue, Repetition.valueOf, eq_comm]
  | @empty p lhs acts =>
    have hvalue : semantics.value p [] = .ok (.list []) := (Semantics.value_eq_ok_iff acts).mpr rfl
    simp [eval, evalAll, hvalue, Repetition.valueOf, eq_comm]
  | @present p round lhs acts =>
    have hvalue (vs : List Value) : semantics.value p vs = .ok (Workshop.itemOf vs) :=
      (Semantics.value_eq_ok_iff acts).mpr rfl
    rw [eval_node_eq_ok_iff, exists_one_item]
    simp [hvalue, Round.Gives, Repetition.valueOf, eq_comm]
  | @first p round lhs acts =>
    have hvalue (vs : List Value) : semantics.value p vs = .ok (.list [Workshop.itemOf vs]) :=
      (Semantics.value_eq_ok_iff acts).mpr rfl
    rw [eval_node_eq_ok_iff, exists_one_item]
    simp [hvalue, Round.Gives, Repetition.valueOf, eq_comm]
  | @more repetition p T rounds round lhs acts hmany before ih =>
    have hvalue (items vs : List Value) :
        semantics.value p (.list items :: vs) = .ok (.list (items ++ [Workshop.itemOf vs])) :=
      (Semantics.value_eq_ok_iff acts).mpr rfl
    rw [eval_node_eq_ok_iff]
    constructor
    · intro h
      obtain ⟨vs, hvs, hv⟩ := h
      obtain ⟨w, ws, hw, hws, rfl⟩ := evalAll_cons_inv hvs
      obtain ⟨items, hitems, rfl⟩ := ih.mp hw
      rw [Repetition.valueOf_of_ne hmany, hvalue] at hv
      obtain rfl := Except.ok.inj hv
      exact ⟨items ++ [Workshop.itemOf ws], List.rel_append hitems (.cons ⟨ws, hws, rfl⟩ .nil),
        (Repetition.valueOf_of_ne hmany _).symm⟩
    · intro h
      obtain ⟨all, hall, rfl⟩ := h
      obtain ⟨items, last, hitems, hlast, rfl⟩ := exists_last_item hall
      obtain ⟨ws, hws, rfl⟩ := hlast
      have hT : eval semantics T = .ok (repetition.valueOf items) := ih.mpr ⟨items, hitems, rfl⟩
      refine ⟨repetition.valueOf items :: ws, by simp [evalAll, hT, hws], ?_⟩
      rw [Repetition.valueOf_of_ne hmany, Repetition.valueOf_of_ne hmany, hvalue]

end Rounds

namespace Grammar.Repeats

/-- Every tree of a repetition falls into rounds, each over one of the words. -/
theorem exists_rounds (h : g.Repeats semantics n repetition words) (hT : T.Valid g)
    (hroot : T.root = .nonterminal n) : ∃ rounds, Rounds semantics n repetition T rounds ∧
      ∀ round ∈ rounds, round.map root ∈ words ∧ ∀ U ∈ round, U.Valid g := by
  induction T using rec_children with
  | leaf token => cases hroot
  | node p children ih =>
    obtain ⟨hp, hroots, hvalid⟩ := hT.of_node
    have hlhs : p.lhs = n := Symbol.nonterminal.inj hroot
    obtain ⟨turn, hturn, hacts⟩ := h.turn p hp hlhs
    have hone {w : List Symbol} (hw : w ∈ words) (hrhs : children.map root = w) :
        ∀ round ∈ [children], round.map root ∈ words ∧ ∀ U ∈ round, U.Valid g := by
      intro round hround
      obtain rfl := List.mem_singleton.mp hround
      exact ⟨hrhs ▸ hw, hvalid⟩
    generalize p.rhs = rhs at hroots hturn
    cases hturn with
    | absent =>
      obtain rfl := List.map_eq_nil_iff.mp hroots
      exact ⟨[], .absent hlhs hacts, by simp⟩
    | empty =>
      obtain rfl := List.map_eq_nil_iff.mp hroots
      exact ⟨[], .empty hlhs hacts, by simp⟩
    | present hw => exact ⟨[children], .present hlhs hacts, hone hw hroots⟩
    | first hw => exact ⟨[children], .first hlhs hacts, hone hw hroots⟩
    | more hmany hw =>
      obtain ⟨T, round, rfl, hT, rfl⟩ := List.map_eq_cons_iff.mp hroots
      obtain ⟨rounds, hrounds, hall⟩ := ih T List.mem_cons_self (hvalid T List.mem_cons_self) hT
      refine ⟨rounds ++ [round], .more hlhs hacts hmany hrounds, ?_⟩
      intro r hr
      rcases List.mem_append.mp hr with hr | hr
      · exact hall r hr
      · obtain rfl := List.mem_singleton.mp hr
        exact ⟨hw, fun U hU => hvalid U (List.mem_cons_of_mem _ hU)⟩

/-! ## Language -/

theorem derives_turn (h : g.Repeats semantics n repetition words) {turn : Turn} {rhs : List Symbol}
    (hturn : repetition.Takes (.nonterminal n) words turn rhs) : g.Derives [.nonterminal n] rhs := by
  obtain ⟨p, hp, rfl, rfl, -⟩ := h.production turn rhs hturn
  exact derives_rhs hp

/-- What has begun can go on with any of the words. -/
theorem derives_more (h : g.Repeats semantics n repetition words) (hmany : repetition ≠ .optional)
    (hbase : g.Derives [.nonterminal n] base)
    (hparts : ∀ part ∈ parts, ∃ w ∈ words, g.Derives w (part.map .terminal)) :
    g.Derives [.nonterminal n] (base ++ parts.flatten.map .terminal) := by
  induction parts generalizing base with
  | nil => simpa using hbase
  | cons part parts ih =>
    obtain ⟨w, hw, hpart⟩ := hparts part List.mem_cons_self
    have hnext : g.Derives [.nonterminal n] (base ++ part.map .terminal) :=
      (h.derives_turn (.more hmany hw)).trans (hbase.append hpart)
    simpa using ih hnext fun part hpart => hparts part (List.mem_cons_of_mem _ hpart)

/-- A repetition derives just the words that are put together from as many as it allows. -/
theorem derives_iff (h : g.Repeats semantics n repetition words) :
    g.Derives [.nonterminal n] (word.map .terminal) ↔
      ∃ parts : List (List String), repetition.Allows parts.length ∧ parts.flatten = word ∧
        ∀ part ∈ parts, ∃ w ∈ words, g.Derives w (part.map .terminal) := by
  constructor
  · intro hderives
    obtain ⟨forest, hvalid, hroots, rfl⟩ := exists_over hderives
    obtain ⟨T, rfl, hroot⟩ := List.map_eq_singleton_iff.mp hroots
    obtain ⟨rounds, hrounds, hall⟩ := h.exists_rounds (hvalid T List.mem_cons_self) hroot
    refine ⟨rounds.map forestKinds, by simpa using hrounds.allowed, ?_, ?_⟩
    · rw [← forestKinds_flatten, forestKinds, hrounds.tokens, forestKinds, tokensOf_singleton]
    · intro part hpart
      obtain ⟨round, hround, rfl⟩ := List.mem_map.mp hpart
      obtain ⟨hword, hvalid⟩ := hall round hround
      exact ⟨_, hword, Over.derives ⟨hvalid, rfl, rfl⟩⟩
  · intro hparts
    obtain ⟨parts, hallows, rfl, hparts⟩ := hparts
    cases repetition with
    | optional =>
      cases parts with
      | nil => exact h.derives_turn .absent
      | cons part parts =>
        obtain rfl : parts = [] := by simpa [Repetition.Allows] using hallows
        obtain ⟨w, hw, hpart⟩ := hparts part List.mem_cons_self
        simpa using (h.derives_turn (.present hw)).trans hpart
    | oneOrMore =>
      cases parts with
      | nil => exact absurd hallows (by simp [Repetition.Allows])
      | cons part parts =>
        obtain ⟨w, hw, hpart⟩ := hparts part List.mem_cons_self
        have hfirst := (h.derives_turn (.first hw)).trans hpart
        simpa using h.derives_more (by simp) hfirst
          fun part hpart => hparts part (List.mem_cons_of_mem _ hpart)
    | zeroOrMore =>
      simpa using h.derives_more (by simp) (h.derives_turn .empty) hparts

end Grammar.Repeats

end Slr
