import Slr.Proofs.Derivation.Repetition
import Slr.Proofs.Derivation.Running

/-! # A repetition has its list to itself

The list of a repetition is made when its first round is over, or before, and from then on
it is handed to the repetition alone, until that is complete. So no other list holds it,
and nothing else that has been made by then, whatever the other actions do with the lists
they can get at: it holds the items of the rounds, and nothing has come between. -/

namespace Slr

open ParseTree

/-- What a turn does in memory. -/
def Turn.deed : Turn → Deed
  | absent => .constant .none
  | present => .item
  | empty => .list
  | first => .startList
  | more => .extendList

theorem Turn.careful (turn : Turn) (own : Nat) : turn.deed.Careful own := by
  cases turn with
  | absent => exact Deed.careful_constant .none
  | present => exact Deed.careful_item
  | empty => exact Deed.careful_list
  | first => exact Deed.careful_startList
  | more => exact Deed.careful_extendList

/-- The items that come of the rounds of a tree when it is run, each from what its round was run
in: what the rounds before it have left. -/
inductive Fills (semantics : Semantics) (n : String) (deeds : Production → Deed) (m : Memory) :
    Repetition → ParseTree → List (List ParseTree) → List Thing → Prop
  | absent {p : Production} (lhs : p.lhs = n) (acts : semantics p = some (Turn.action .absent)) :
      Fills semantics n deeds m .optional (.node p []) [] []
  | present {p : Production} {round : List ParseTree} {things : List Thing} {m' : Memory}
      (lhs : p.lhs = n) (acts : semantics p = some (Turn.action .present))
      (runs : runAll deeds round m = .ok (things, m')) :
      Fills semantics n deeds m .optional (.node p round) [round] [Deed.itemOf things]
  | empty {p : Production} (lhs : p.lhs = n) (acts : semantics p = some (Turn.action .empty)) :
      Fills semantics n deeds m .zeroOrMore (.node p []) [] []
  | first {p : Production} {round : List ParseTree} {things : List Thing} {m' : Memory}
      (lhs : p.lhs = n) (acts : semantics p = some (Turn.action .first))
      (runs : runAll deeds round m = .ok (things, m')) :
      Fills semantics n deeds m .oneOrMore (.node p round) [round] [Deed.itemOf things]
  | more {repetition : Repetition} {p : Production} {T : ParseTree} {rounds : List (List ParseTree)}
      {round : List ParseTree} {items things : List Thing} {t : Thing} {m₁ m' : Memory}
      (lhs : p.lhs = n) (acts : semantics p = some (Turn.action .more))
      (hmany : repetition ≠ .optional)
      (before : Fills semantics n deeds m repetition T rounds items)
      (runs_before : run deeds T m = .ok (t, m₁))
      (runs : runAll deeds round m₁ = .ok (things, m')) :
      Fills semantics n deeds m repetition (.node p (T :: round)) (rounds ++ [round])
        (items ++ [Deed.itemOf things])

/-- What a repetition has made of its items: the item, or nothing; or a list of them, made since
memory was `m₀`, which neither another list nor one of the other things holds. -/
inductive Owns (own : Nat) (m₀ m : Memory) (others : List Thing) :
    Repetition → Thing → List Thing → Prop
  | absent : Owns own m₀ m others .optional (.plain .none) []
  | present (item : Thing) : Owns own m₀ m others .optional item [item]
  | list {repetition : Repetition} (hmany : repetition ≠ .optional) {c : Nat} {items : List Thing}
      (new : m₀.length ≤ c) (lone : Memory.Lone own m c) (content : m[c]? = some items)
      (alone : c ∉ Thing.cellsOf others) : Owns own m₀ m others repetition (.list c) items

variable {g : Grammar} {semantics : Semantics} {n : String} {repetition : Repetition}
  {words : List (List Symbol)} {T : ParseTree} {Ts : List ParseTree} {rounds : List (List ParseTree)}
  {own : Nat} {deeds : Production → Deed} {m m₀ m₁ m' : Memory} {t : Thing}
  {items things others rest : List Thing}

theorem Fills.shape (h : Fills semantics n deeds m repetition T rounds items) :
    Rounds semantics n repetition T rounds := by
  induction h with
  | absent lhs acts => exact .absent lhs acts
  | present lhs acts => exact .present lhs acts
  | empty lhs acts => exact .empty lhs acts
  | first lhs acts => exact .first lhs acts
  | more lhs acts hmany _ _ _ ih => exact .more lhs acts hmany ih

/-- What is made later does not get at the list. -/
theorem Owns.careful (h : Owns own m₀ m others repetition t items) (hrest : Memory.Careful own m [] m' rest) :
    Owns own m₀ m' (others ++ rest) repetition t items := by
  cases h with
  | absent => exact .absent
  | present => exact .present t
  | list hmany new lone content alone =>
    obtain ⟨hlone, hc, hsame⟩ := hrest.spares _ lone (by simp [Thing.cellsOf])
    exact .list hmany new hlone (hsame.trans content) (by simp [alone, hc])

/-- A deed for each production, those of a repetition as it has them. -/
structure Deeds (g : Grammar) (semantics : Semantics) (n : String) (own : Nat)
    (deeds : Production → Deed) : Prop where
  careful : ∀ p ∈ g.productions, (deeds p).Careful own
  turns : ∀ p ∈ g.productions, p.lhs = n → ∀ turn : Turn,
    semantics p = some turn.action → deeds p = turn.deed

/-- A list in a new cell is nobody else's. -/
theorem Owns.newList (hmany : repetition ≠ .optional) (htidy : m.Tidy items)
    (hnew : m₀.length ≤ m.length) (hown : own ≤ m.length) :
    Owns own m₀ (Deed.newList items m).2 [] repetition (Deed.newList items m).1 items := by
  refine .list hmany hnew ⟨hown, by simp [Deed.newList], ?_⟩ (by simp [Deed.newList]) (by simp [Thing.cellsOf])
  intro list hlist hc
  rcases List.mem_append.mp hlist with hlist | hlist
  · exact Nat.lt_irrefl _ (htidy.lists list hlist _ hc)
  · obtain rfl := List.mem_singleton.mp hlist
    exact Nat.lt_irrefl _ (htidy.things _ hc)

/-- When a repetition is complete, it has made of its items what it should. -/
theorem Rounds.owns (h : Rounds semantics n repetition T rounds) (hT : T.Valid g)
    (hdeeds : Deeds g semantics n own deeds) (htidy : m.Tidy []) (hown : own ≤ m.length)
    (hrun : run deeds T m = .ok (t, m')) : ∃ items,
      Fills semantics n deeds m repetition T rounds items ∧ Owns own m m' [] repetition t items := by
  induction h generalizing t m' with
  | absent lhs acts =>
    obtain ⟨hp, -, -⟩ := hT.of_node
    obtain ⟨things, m₁, hchildren, hdeed⟩ := run_node_iff.mp hrun
    cases hchildren
    rw [hdeeds.turns _ hp lhs .absent acts] at hdeed
    cases hdeed
    exact ⟨[], .absent lhs acts, .absent⟩
  | present lhs acts =>
    obtain ⟨hp, -, -⟩ := hT.of_node
    obtain ⟨things, m₁, hchildren, hdeed⟩ := run_node_iff.mp hrun
    rw [hdeeds.turns _ hp lhs .present acts] at hdeed
    cases hdeed
    exact ⟨_, .present lhs acts hchildren, .present _⟩
  | empty lhs acts =>
    obtain ⟨hp, -, -⟩ := hT.of_node
    obtain ⟨things, m₁, hchildren, hdeed⟩ := run_node_iff.mp hrun
    cases hchildren
    rw [hdeeds.turns _ hp lhs .empty acts] at hdeed
    cases hdeed
    exact ⟨[], .empty lhs acts, .newList (by simp) htidy (Nat.le_refl _) hown⟩
  | first lhs acts =>
    obtain ⟨hp, -, hvalid⟩ := hT.of_node
    obtain ⟨things, m₁, hchildren, hdeed⟩ := run_node_iff.mp hrun
    have hcareful := careful_runAll (fun c hc _ _ _ => careful_run hdeeds.careful (hvalid c hc)) hchildren
    have htidy₁ := hcareful.tidy htidy
    rw [hdeeds.turns _ hp lhs .first acts] at hdeed
    cases hdeed
    refine ⟨_, .first lhs acts hchildren, .newList (by simp) ?_ hcareful.grows
      (Nat.le_trans hown hcareful.grows)⟩
    exact ⟨by simpa using htidy₁.things, htidy₁.lists⟩
  | @more repetition p T rounds round lhs acts hmany before ih =>
    obtain ⟨hp, -, hvalid⟩ := hT.of_node
    obtain ⟨things, m₂, hchildren, hdeed⟩ := run_node_iff.mp hrun
    obtain ⟨t₁, rest, m₁, hbefore, hround, rfl⟩ := runAll_cons_iff.mp hchildren
    obtain ⟨items, hfills, howns⟩ := ih (hvalid T List.mem_cons_self) hbefore
    have hcareful := careful_runAll
      (fun c hc _ _ _ => careful_run hdeeds.careful (hvalid c (List.mem_cons_of_mem _ hc))) hround
    rw [hdeeds.turns _ hp lhs .more acts, Turn.deed] at hdeed
    obtain ⟨c, rest', items', heq, hitems', rfl, rfl⟩ := Deed.extendList_eq_ok_iff.mp hdeed
    obtain ⟨rfl, rfl⟩ := List.cons.inj heq
    refine ⟨_, .more lhs acts hmany hfills hbefore hround, ?_⟩
    -- what was a list of its own when the round began still is
    cases howns.careful hcareful with
    | present => exact absurd rfl hmany
    | list _ new lone content alone =>
      obtain rfl := Option.some.inj (hitems'.symm.trans content)
      exact .list hmany new
        (Deed.lone_of_extended lone (List.mem_of_getElem? content) (by simpa using alone))
        (List.getElem?_set_self lone.there) (by simp [Thing.cellsOf])

/-- What was there before does not hold a list that was made since. -/
theorem Owns.behind (h : Owns own m₁ m' others repetition t items) {first : Thing}
    (hfirst : m₁.Tidy [first]) (hgrows : m.length ≤ m₁.length) :
    Owns own m m' (first :: others) repetition t items := by
  cases h with
  | absent => exact .absent
  | present => exact .present t
  | @list _ hmany c _ new lone content alone =>
    refine .list hmany (Nat.le_trans hgrows new) lone content ?_
    rw [Thing.cellsOf, List.mem_append, not_or]
    refine ⟨?_, alone⟩
    intro hc
    exact Nat.not_lt_of_le new (hfirst.things c (by simpa using hc))

/-- Among the trees of a forest, each that repeats has a list to itself. -/
theorem Grammar.Repeats.owns (h : g.Repeats semantics n repetition words)
    (hdeeds : Deeds g semantics n own deeds) (hvalid : ∀ T ∈ Ts, T.Valid g) (htidy : m.Tidy [])
    (hown : own ≤ m.length) (hrun : runAll deeds Ts m = .ok (things, m')) {j : Nat}
    (hj : Ts[j]? = some T) (hroot : T.root = .nonterminal n) :
    ∃ before m₁ rounds items t, runAll deeds (Ts.take j) m = .ok (before, m₁) ∧
      Fills semantics n deeds m₁ repetition T rounds items ∧ things[j]? = some t ∧
      Owns own m m' (things.eraseIdx j) repetition t items := by
  induction Ts generalizing m things j with
  | nil => cases hj
  | cons U Ts ih =>
    obtain ⟨u, rest, m₁, hU, hTs, rfl⟩ := runAll_cons_iff.mp hrun
    have hcareful := careful_run hdeeds.careful (hvalid U List.mem_cons_self) hU
    have htidy₁ := hcareful.tidy htidy
    cases j with
    | zero =>
      obtain rfl := Option.some.inj hj
      obtain ⟨rounds, hrounds, -⟩ := h.exists_rounds (hvalid U List.mem_cons_self) hroot
      obtain ⟨items, hfills, howns⟩ :=
        hrounds.owns (hvalid U List.mem_cons_self) hdeeds htidy hown hU
      have hlater := careful_runAll (fun c hc _ _ _ =>
        careful_run hdeeds.careful (hvalid c (List.mem_cons_of_mem _ hc))) hTs
      exact ⟨[], m, rounds, items, u, rfl, hfills, rfl, howns.careful hlater⟩
    | succ j =>
      obtain ⟨before, m₂, rounds, items, t, hbefore, hfills, ht, howns⟩ :=
        ih (fun V hV => hvalid V (List.mem_cons_of_mem _ hV)) ⟨by simp [Thing.cellsOf], htidy₁.lists⟩
          (Nat.le_trans hown hcareful.grows) hTs hj
      refine ⟨u :: before, m₂, rounds, items, t, ?_, hfills, ht, howns.behind htidy₁ hcareful.grows⟩
      exact runAll_cons_iff.mpr ⟨u, before, m₁, hU, hbefore, rfl⟩

end Slr
