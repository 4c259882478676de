import Slr.Proofs.Rule.Owned

/-! # What stands in memory is the value

A thing reads as a value if its lists have items in memory that do. Where actions leave
lists that are there as they are, and make what they make as they would without memory, a
run comes to something that reads as the value of the tree. Only repetitions change lists,
and the one that is changed has nobody else who could read it. -/

namespace Slr

open ParseTree

namespace Memory

mutual

inductive Reads (m : Memory) : Thing → Value → Prop
  | plain (v : Value) : Reads m (.plain v) v
  | list {c : Nat} {things : List Thing} {vs : List Value} (content : m[c]? = some things)
      (all : ReadsAll m things vs) : Reads m (.list c) (.list vs)
  | tuple {things : List Thing} {vs : List Value} (all : ReadsAll m things vs) :
      Reads m (.tuple things) (.tuple vs)
  | tree (name : String) {things : List Thing} {vs : List Value} (all : ReadsAll m things vs) :
      Reads m (.tree name things) (.tree name vs)

inductive ReadsAll (m : Memory) : List Thing → List Value → Prop
  | nil : ReadsAll m [] []
  | cons {t : Thing} {v : Value} {things : List Thing} {vs : List Value} (first : Reads m t v)
      (rest : ReadsAll m things vs) : ReadsAll m (t :: things) (v :: vs)

end

variable {m m' : Memory} {t : Thing} {v : Value} {things rest : List Thing} {vs ws : List Value}
  {c : Nat} {P : Nat → Prop}

mutual

/-- A thing reads the same where the lists that can be come to are the same. -/
theorem Reads.transport (hsame : ∀ c items, P c → m[c]? = some items →
      m'[c]? = some items ∧ ∀ d ∈ Thing.cellsOf items, P d) :
    ∀ {t : Thing} {v : Value}, Reads m t v → (∀ c ∈ t.cells, P c) → Reads m' t v
  | _, _, .plain v, _ => .plain v
  | _, _, .list content all, hP =>
    have hc := hsame _ _ (hP _ List.mem_cons_self) content
    .list hc.1 (all.transport hsame hc.2)
  | _, _, .tuple all, hP => .tuple (all.transport hsame hP)
  | _, _, .tree name all, hP => .tree name (all.transport hsame hP)

theorem ReadsAll.transport (hsame : ∀ c items, P c → m[c]? = some items →
      m'[c]? = some items ∧ ∀ d ∈ Thing.cellsOf items, P d) :
    ∀ {things : List Thing} {vs : List Value}, ReadsAll m things vs →
      (∀ c ∈ Thing.cellsOf things, P c) → ReadsAll m' things vs
  | _, _, .nil, _ => .nil
  | _, _, .cons first rest, hP =>
    .cons (first.transport hsame fun c hc => hP c (List.mem_append_left _ hc))
      (rest.transport hsame fun c hc => hP c (List.mem_append_right _ hc))

end

theorem same_of_longer (h : m <+: m') (c : Nat) (items : List Thing) (_ : True)
    (hc : m[c]? = some items) : m'[c]? = some items ∧ ∀ c ∈ Thing.cellsOf items, True := by
  obtain ⟨new, rfl⟩ := h
  obtain ⟨hlt, -⟩ := List.getElem?_eq_some_iff.mp hc
  exact ⟨(List.getElem?_append_left hlt).trans hc, fun _ _ => trivial⟩

/-- More lists make no difference. -/
theorem Reads.mono (h : Reads m t v) (hm : m <+: m') : Reads m' t v :=
  h.transport (same_of_longer hm) fun _ _ => trivial

theorem ReadsAll.mono (h : ReadsAll m things vs) (hm : m <+: m') : ReadsAll m' things vs :=
  h.transport (same_of_longer hm) fun _ _ => trivial

/-- A list that nobody else holds can change. -/
theorem ReadsAll.set {own : Nat} (h : ReadsAll m things vs) (hlone : m.Lone own c)
    (hc : c ∉ Thing.cellsOf things) (items : List Thing) : ReadsAll (m.set c items) things vs := by
  refine h.transport (P := (· ≠ c)) ?_ fun d hd heq => hc (heq ▸ hd)
  intro d list hd hlist
  refine ⟨(List.getElem?_set_ne (Ne.symm hd)).trans hlist, ?_⟩
  intro e he heq
  exact hlone.lists list (List.mem_of_getElem? hlist) (heq ▸ he)

theorem ReadsAll.append (h : ReadsAll m things vs) (h' : ReadsAll m rest ws) :
    ReadsAll m (things ++ rest) (vs ++ ws) := by
  induction things generalizing vs with
  | nil =>
    cases h
    exact h'
  | cons t things ih =>
    cases h with
    | cons first h => exact .cons first (ih h)

theorem ReadsAll.itemOf (h : ReadsAll m things vs) :
    Reads m (Deed.itemOf things) (Workshop.itemOf vs) := by
  cases h with
  | nil => exact .tuple .nil
  | cons first h =>
    cases h with
    | nil => exact first
    | cons second h => exact .tuple (.cons first (.cons second h))

end Memory

/-- An action in memory that leaves lists as they are, and gives what `f` gives. -/
def Deed.Does (d : Deed) (f : List Value → Except ParseError Value) : Prop :=
  ∀ m handed vs v, Memory.ReadsAll m handed vs → f vs = .ok v →
    ∃ t m', d handed m = .ok (t, m') ∧ m <+: m' ∧ m'.Reads t v

open Memory

variable {g : Grammar} {semantics : Semantics} {own : Nat} {deeds : Production → Deed} {T : ParseTree}
  {Ts : List ParseTree} {m : Memory} {v : Value} {vs : List Value} {p : Production} {turn : Turn}

theorem Deed.reads_newList {things : List Thing} (h : ReadsAll m things vs) :
    m <+: (newList things m).2 ∧ (newList things m).2.Reads (newList things m).1 (.list vs) := by
  have hm : m <+: m ++ [things] := List.prefix_append _ _
  exact ⟨hm, .list (by simp [newList]) (h.mono hm)⟩

theorem Deed.does_node (acts : semantics p = none) : (node p.lhs).Does (semantics.value p) := by
  intro m handed vs v hreads hvalue
  rw [Semantics.value, acts] at hvalue
  cases hvalue
  exact ⟨_, _, rfl, List.prefix_refl _, .tree p.lhs hreads⟩

/-- A turn that does not go on does in memory what it does without. -/
theorem Turn.does (hturn : turn ≠ .more) (acts : semantics p = some turn.action) :
    turn.deed.Does (semantics.value p) := by
  intro m handed vs v hreads hvalue
  have hok {w : Value} (h : turn.action.apply vs = .ok w) : v = w :=
    Except.ok.inj (((Semantics.value_eq_ok_iff acts).mp hvalue).symm.trans h)
  cases turn with
  | absent =>
    obtain rfl := hok rfl
    exact ⟨_, _, rfl, List.prefix_refl _, .plain _⟩
  | present =>
    obtain rfl := hok rfl
    exact ⟨_, _, rfl, List.prefix_refl _, hreads.itemOf⟩
  | empty =>
    obtain rfl := hok rfl
    exact ⟨_, _, rfl, Deed.reads_newList hreads⟩
  | first =>
    obtain rfl := hok rfl
    exact ⟨_, _, rfl, Deed.reads_newList (.cons hreads.itemOf .nil)⟩
  | more => exact absurd rfl hturn

/-- Each action is one of a repetition, or makes in memory what it makes without. -/
structure Faithful (g : Grammar) (semantics : Semantics) (own : Nat) (deeds : Production → Deed) :
    Prop where
  careful : ∀ p ∈ g.productions, (deeds p).Careful own
  does : ∀ p ∈ g.productions, (deeds p).Does (semantics.value p) ∨
    ∃ repetition words, g.Repeats semantics p.lhs repetition words ∧
      Deeds g semantics p.lhs own deeds

/-- What a run comes to, and what it reads as. -/
def Reaches (deeds : Production → Deed) (T : ParseTree) (m : Memory) (v : Value) : Prop :=
  ∃ t m', run deeds T m = .ok (t, m') ∧ m <+: m' ∧ m'.Reads t v

theorem reaches_all (h : ∀ T ∈ Ts, ∀ (m : Memory) v, m.Tidy [] → own ≤ m.length →
      eval semantics T = .ok v → Reaches deeds T m v)
    (hdeeds : ∀ p ∈ g.productions, (deeds p).Careful own) (hvalid : ∀ T ∈ Ts, T.Valid g)
    (htidy : m.Tidy []) (hown : own ≤ m.length) (hvs : evalAll semantics Ts = .ok vs) :
    ∃ things m', runAll deeds Ts m = .ok (things, m') ∧ m <+: m' ∧ m'.ReadsAll things vs := by
  induction Ts generalizing m vs with
  | nil =>
    cases hvs
    exact ⟨[], m, rfl, List.prefix_refl m, .nil⟩
  | cons T Ts ih =>
    obtain ⟨v, ws, hv, hws, rfl⟩ := evalAll_cons_inv hvs
    obtain ⟨t, m₁, hrun, hm₁, hreads⟩ := h T List.mem_cons_self m v htidy hown hv
    have hcareful := careful_run hdeeds (hvalid T List.mem_cons_self) hrun
    obtain ⟨things, m', hrest, hm', hall⟩ := ih (fun U hU => h U (List.mem_cons_of_mem _ hU))
      (fun U hU => hvalid U (List.mem_cons_of_mem _ hU))
      ⟨by simp [Thing.cellsOf], (hcareful.tidy htidy).lists⟩ (Nat.le_trans hown hcareful.grows) hws
    exact ⟨t :: things, m', runAll_cons_iff.mpr ⟨t, things, m₁, hrun, hrest, rfl⟩, hm₁.trans hm',
      .cons (hreads.mono hm') hall⟩

/-- A list that is newer than what was there can grow. -/
theorem prefix_set {m₁ : Memory} {c : Nat} (h : m <+: m₁) (hc : m.length ≤ c) (items : List Thing) :
    m <+: m₁.set c items := by
  obtain ⟨new, rfl⟩ := h
  rw [List.set_append_right _ _ hc]
  exact List.prefix_append _ _

/-- Going on, a repetition changes only its own list. -/
theorem Grammar.Repeats.reaches_more {n : String} {repetition : Repetition}
    {words : List (List Symbol)} {m₁ : Memory} {things : List Thing}
    (h : g.Repeats semantics n repetition words) (hdeeds : Deeds g semantics n own deeds)
    (hvalid : ∀ U ∈ T :: Ts, U.Valid g) (hroot : T.root = .nonterminal n)
    (hmany : repetition ≠ .optional) (htidy : m.Tidy []) (hown : own ≤ m.length)
    (hrun : runAll deeds (T :: Ts) m = .ok (things, m₁)) (hm₁ : m <+: m₁)
    (hreads : m₁.ReadsAll things vs) (hvalue : Workshop.extendList.apply vs = .ok v) :
    ∃ t m', Deed.extendList things m₁ = .ok (t, m') ∧ m <+: m' ∧ m'.Reads t v := by
  obtain ⟨before, m₂, rounds, items, t, hbefore, -, ht, howns⟩ :=
    h.owns hdeeds hvalid htidy hown hrun (j := 0) rfl hroot
  cases howns with
  | absent | present => exact absurd rfl hmany
  | @list _ _ c _ new lone content alone =>
    cases hreads with
    | nil => cases ht
    | @cons _ w rest ws first others =>
      obtain rfl := Option.some.inj ht
      cases first with
      | @list _ items' us content' all =>
        obtain rfl := Option.some.inj (content.symm.trans content')
        obtain rfl : .list (us ++ [Workshop.itemOf ws]) = v := Except.ok.inj hvalue
        refine ⟨.list c, _, Deed.extendList_eq_ok_iff.mpr ⟨c, rest, items, rfl, content, rfl, rfl⟩,
          prefix_set hm₁ new _, ?_⟩
        have hitems : c ∉ Thing.cellsOf items := lone.lists items (List.mem_of_getElem? content)
        have hset {us : List Thing} {ws : List Value} (h : m₁.ReadsAll us ws)
            (hc : c ∉ Thing.cellsOf us) := h.set lone hc (items ++ [Deed.itemOf rest])
        refine .list (List.getElem?_set_self lone.there) ?_
        exact (hset all hitems).append (.cons (hset others alone).itemOf .nil)

/-- A run in memory comes to what reads as the value. -/
theorem Faithful.reaches (h : Faithful g semantics own deeds) (hT : T.Valid g) (htidy : m.Tidy [])
    (hown : own ≤ m.length) (hv : eval semantics T = .ok v) : Reaches deeds T m v := by
  induction T using rec_children generalizing m v with
  | leaf token =>
    cases hv
    exact ⟨.plain token.value, m, rfl, List.prefix_refl m, .plain _⟩
  | node p children ih =>
    obtain ⟨hp, hroots, hvalid⟩ := hT.of_node
    obtain ⟨vs, hvs, hvalue⟩ := eval_node_eq_ok_iff.mp hv
    obtain ⟨things, m₁, hchildren, hm₁, hreads⟩ := reaches_all
      (fun U hU m v htidy hown hv => ih U hU (hvalid U hU) htidy hown hv) h.careful hvalid htidy hown hvs
    have hdone : ∃ t m', deeds p things m₁ = .ok (t, m') ∧ m <+: m' ∧ m'.Reads t v := by
      have hdoes (h : (deeds p).Does (semantics.value p)) :
          ∃ t m', deeds p things m₁ = .ok (t, m') ∧ m <+: m' ∧ m'.Reads t v := by
        obtain ⟨t, m', hdeed, hm', ht⟩ := h m₁ things vs v hreads hvalue
        exact ⟨t, m', hdeed, hm₁.trans hm', ht⟩
      rcases h.does p hp with hplain | ⟨repetition, words, hrepeats, hdeeds⟩
      · exact hdoes hplain
      · obtain ⟨turn, htakes, hacts⟩ := hrepeats.turn p hp rfl
        have hturn := hdeeds.turns p hp rfl turn hacts
        by_cases hmore : turn = .more
        · subst hmore
          generalize p.rhs = rhs at hroots htakes
          cases htakes with
          | more hmany hw =>
            obtain ⟨U, round, rfl, hU, -⟩ := List.map_eq_cons_iff.mp hroots
            rw [hturn]
            exact hrepeats.reaches_more hdeeds hvalid hU hmany htidy hown hchildren hm₁ hreads
              ((Semantics.value_eq_ok_iff hacts).mp hvalue)
        · exact hdoes (hturn ▸ Turn.does hmore hacts)
    obtain ⟨t, m', hdeed, hm', ht⟩ := hdone
    exact ⟨t, m', run_node_iff.mpr ⟨things, m₁, hchildren, hdeed⟩, hm', ht⟩

end Slr
