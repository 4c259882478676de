import Slr.Proofs.Lookahead.Follow
import Slr.Proofs.Table.Exactness

/-! # A grammar with a cover has a table

A cover lists sets of places in a grammar, such that the items of each state lie
within one of them. To see that, one looks at the sets and the productions only: from
a set no place leads out, and every step over a symbol leads into another set. If in
no set a place at the end of its production meets one that may vote on the same
terminal, no cell of the table is contested. Whether sets are a cover is decided by
computation. -/

namespace Slr

/-- The index of a production, and how much of its right hand side has been seen. -/
abbrev Place := Nat × Nat

def Item.place (it : Item) : Place := (it.production.index, it.dot)

namespace Grammar

def symbolAt? (g : Grammar) (a : Place) : Option Symbol :=
  g.productions[a.1]?.bind fun p => p.rhs[a.2]?

/-- Behind each occurrence of a nonterminal stands a terminal, and another one than `t`. -/
def excludes (g : Grammar) (name t : String) : Bool :=
  (g.occurrences name).all fun o =>
    match o.2 with
    | .terminal u :: _ => u != t
    | _ => false

/-- A place does not vote on a terminal that may follow a nonterminal. -/
def givesWay (g : Grammar) (name : String) (a : Place) : Bool :=
  match g.symbolAt? a with
  | none => false
  | some (.nonterminal _) => true
  | some (.terminal t) => g.excludes name t

/-- Sets of places that the items of states lie within, and that show no conflict. -/
structure Cover (g : Grammar) (sets : List (List Place)) : Prop where
  start : ∃ K ∈ sets, (0, 0) ∈ K
  predict : ∀ K ∈ sets, ∀ a ∈ K, ∀ p ∈ g.productions,
    g.symbolAt? a = some (.nonterminal p.lhs) → (p.index, 0) ∈ K
  advance : ∀ K ∈ sets, ∀ x ∈ K.filterMap g.symbolAt?, x ≠ .terminal endName →
    ∃ K' ∈ sets, ∀ a ∈ K, g.symbolAt? a = some x → (a.1, a.2 + 1) ∈ K'
  clear : ∀ K ∈ sets, ∀ p ∈ g.productions, (p.index, p.size) ∈ K →
    ∀ a ∈ K, a = (p.index, p.size) ∨ g.givesWay p.lhs a = true

set_option synthInstance.maxSize 400 in
instance (g : Grammar) (sets : List (List Place)) : Decidable (g.Cover sets) :=
  decidable_of_iff (_ ∧ _ ∧ _ ∧ _)
    ⟨fun h => ⟨h.1, h.2.1, h.2.2.1, h.2.2.2⟩, fun h => ⟨h.start, h.predict, h.advance, h.clear⟩⟩

variable {g : Grammar} {sets : List (List Place)} {it it' : Item} {p : Production} {n k : String}
  {q : Nat} {m m' : Move} {x : Symbol}

/-! ## Places of items -/

theorem symbolAt?_place (hit : it.production ∈ g.productions) : g.symbolAt? it.place = it.next := by
  simp [symbolAt?, Item.place, getElem?_index hit, Item.next]

theorem eq_of_place (hit : it.production ∈ g.productions) (hit' : it'.production ∈ g.productions)
    (h : it.place = it'.place) : it = it' := by
  obtain ⟨hindex, hdot⟩ := Prod.mk.inj h
  exact Item.ext_of (eq_of_index hit hit' hindex) hdot

/-! ## States lie within the sets -/

theorem Cover.validItem (h : g.Cover sets) (xs : List Symbol) :
    ∃ K ∈ sets, ∀ it, ValidItem g xs it → it.place ∈ K := by
  induction xs with
  | nil =>
    obtain ⟨K, hK, hstart⟩ := h.start
    refine ⟨K, hK, ?_⟩
    intro it hit
    generalize hnil : ([] : List Symbol) = xs at hit
    induction hit with
    | goal => exact hstart
    | predict hvalid hnext hp ih =>
      exact h.predict K hK _ (ih hnil) _ hp ((symbolAt?_place hvalid.production_mem).trans hnext)
    | advance => cases hnil
  | cons x xs ih =>
    obtain ⟨K, hK, hwithin⟩ := ih
    by_cases hsome : ∃ it, ValidItem g xs it ∧ it.next = some x ∧ x ≠ .terminal endName
    · obtain ⟨it₀, hvalid₀, hnext₀, hx⟩ := hsome
      have hsymbol := (symbolAt?_place hvalid₀.production_mem).trans hnext₀
      obtain ⟨K', hK', hstep⟩ := h.advance K hK x
        (List.mem_filterMap.mpr ⟨_, hwithin _ hvalid₀, hsymbol⟩) hx
      refine ⟨K', hK', ?_⟩
      intro it hit
      generalize hcons : x :: xs = zs at hit
      induction hit with
      | goal => cases hcons
      | predict hvalid hnext hp ih =>
        exact h.predict K' hK' _ (ih hcons) _ hp
          ((symbolAt?_place hvalid.production_mem).trans hnext)
      | @advance _ it it' _ hvalid hnext _ hadv =>
        obtain ⟨rfl, rfl⟩ := List.cons.inj hcons
        obtain ⟨hprod, hdot⟩ := Item.advance?_eq_some_iff.mp hadv
        have hplace : it'.place = (it.place.1, it.place.2 + 1) := by
          simp [Item.place, hprod, hdot]
        rw [hplace]
        exact hstep _ (hwithin _ hvalid) ((symbolAt?_place hvalid.production_mem).trans hnext)
    · -- nothing steps over `x`, so any set will do
      refine ⟨K, hK, ?_⟩
      intro it hit
      generalize hcons : x :: xs = zs at hit
      exfalso
      induction hit with
      | goal => cases hcons
      | predict _ _ _ ih => exact ih hcons
      | advance hvalid hnext hx =>
        obtain ⟨rfl, rfl⟩ := List.cons.inj hcons
        exact hsome ⟨_, hvalid, hnext, hx⟩

/-! ## No two votes differ -/

/-- A terminal that never stands behind a nonterminal does not follow it. -/
theorem not_mem_followOf_of_excludes (h : g.excludes n k = true) (hn : n ∈ g.nonterminals) :
    k ∉ g.followOf (FirstSets.ofGrammar g) n := by
  intro hk
  obtain ⟨hterm, m, path, hdirect⟩ := (mem_followOf_iff hn).mp hk
  have hbehind : ∀ lhs ys, (lhs, ys) ∈ g.occurrences n →
      ∃ u rest, ys = .terminal u :: rest ∧ u ≠ k := by
    intro lhs ys hys
    have hys := List.all_eq_true.mp h _ hys
    split at hys
    · rename_i u rest heq
      exact ⟨u, rest, heq, by simpa using hys⟩
    · cases hys
  -- what stands behind `n` never vanishes, so nothing else is asked what follows it
  obtain rfl : m = n := by
    refine path.eq_of_stuck (List.eq_nil_iff_forall_not_mem.mpr ?_)
    intro b hb
    obtain ⟨ys, hys, hall⟩ := mem_enclosing_iff.mp hb
    obtain ⟨u, rest, rfl, -⟩ := hbehind _ _ hys
    simp [vanishes] at hall
  obtain ⟨lhs, ys, hys, x, hx, hfirst⟩ := mem_directFollow_iff.mp hdirect
  obtain ⟨u, rest, rfl, hu⟩ := hbehind _ _ hys
  obtain rfl : x = .terminal u := by simpa [openings, vanishes] using hx
  obtain ⟨p, hp, -, xs, hrhs⟩ := mem_occurrences_iff.mp hys
  have hmem : Symbol.terminal u ∈ g.alphabet := mem_alphabet_of_mem_rhs hp (by simp [hrhs])
  rw [first?_eq hmem, Option.getD_some, mem_firstOf_iff hmem] at hfirst
  exact hu (Symbol.terminal.inj (hfirst.2.eq_of_stuck rfl)).symm

/-- Where an item at its end votes, no other item within a set of the cover does. -/
theorem Cover.vote_unique (h : g.Cover sets) {K : List Place} (hK : K ∈ sets) {xs : List Symbol}
    (hvalid : ValidItem g xs it) (hvalid' : ValidItem g xs it') (hit : it.place ∈ K)
    (hit' : it'.place ∈ K) (hnone : it.next = none) (hvote : g.vote? q k it = some m)
    (hvote' : g.vote? q k it' = some m') : it' = it := by
  have hend : it.place = (it.production.index, it.production.size) :=
    Prod.ext rfl (Item.next_eq_none_iff.mp hnone)
  rcases h.clear K hK _ hvalid.production_mem (hend ▸ hit) _ hit' with heq | hgives
  · exact eq_of_place hvalid'.production_mem hvalid.production_mem (heq.trans hend.symm)
  · exfalso
    have hlhs : it.production.lhs ∈ g.nonterminals :=
      mem_nonterminals.mpr ⟨_, hvalid.production_mem, rfl⟩
    have hgoal : it.production.lhs ≠ goalName := fun hgoal =>
      hvalid.production_ne_goal hnone (eq_goal_of_lhs hvalid.production_mem hgoal)
    simp only [vote?, hnone, follow_lookup hlhs hgoal, Option.ite_none_right_eq_some] at hvote
    simp only [givesWay, symbolAt?_place hvalid'.production_mem] at hgives
    unfold vote? at hvote'
    cases hnext' : it'.next with
    | none => simp [hnext'] at hgives
    | some x =>
      simp only [hnext', ne_eq, ite_not, Option.ite_none_right_eq_some] at hvote'
      obtain ⟨rfl, -⟩ := hvote'
      simp only [hnext'] at hgives
      exact not_mem_followOf_of_excludes hgives hlhs hvote.1

/-- An item before a symbol votes on that terminal only, and as its state and the terminal say. -/
theorem vote?_before (hnext : it.next = some x) (hvote : g.vote? q k it = some m) :
    x = .terminal k ∧ some m = if k = endName then some .accept else
      (((Automaton.build g).successorsOf q).lookup (.terminal k)).map .shift := by
  simp only [vote?, hnext, ne_eq, ite_not, Option.ite_none_right_eq_some] at hvote
  obtain ⟨rfl, hvote⟩ := hvote
  refine ⟨rfl, ?_⟩
  split at hvote
  · rename_i hk
    rw [if_pos hk]
    exact (Option.ite_none_right_eq_some.mp hvote).2.symm
  · rename_i hk
    rw [if_neg hk, hvote]

/-- The cells of a covered grammar are not contested, so it has a table. -/
theorem Cover.exists_table (h : g.Cover sets) : ∃ t, g.table = .ok t := by
  refine Grammar.exists_table ?_
  intro q k hcontested
  have hc := Automaton.build_canonical g
  obtain ⟨qs, xs, way⟩ := hc.reached q hcontested.lt
  obtain ⟨K, hK, hwithin⟩ := h.validItem xs
  obtain ⟨v, hv, w, hw, hne⟩ := hcontested
  obtain ⟨it, hit, hvote⟩ := List.mem_filterMap.mp hv
  obtain ⟨it', hit', hvote'⟩ := List.mem_filterMap.mp hw
  obtain ⟨m, hm, rfl⟩ := Option.map_eq_some_iff.mp hvote
  obtain ⟨m', hm', rfl⟩ := Option.map_eq_some_iff.mp hvote'
  have hvalid := (hc.mem_items_iff way).mp hit
  have hvalid' := (hc.mem_items_iff way).mp hit'
  have hplace := hwithin _ hvalid
  have hplace' := hwithin _ hvalid'
  refine hne ?_
  cases hnext : it.next with
  | none =>
    obtain rfl := h.vote_unique hK hvalid hvalid' hplace hplace' hnext hm hm'
    exact Option.some.inj (hm.symm.trans hm')
  | some x =>
    cases hnext' : it'.next with
    | none =>
      obtain rfl := h.vote_unique hK hvalid' hvalid hplace' hplace hnext' hm' hm
      exact Option.some.inj (hm.symm.trans hm')
    | some x' =>
      have hsame := (vote?_before hnext hm).2.trans (vote?_before hnext' hm').2.symm
      exact Option.some.inj hsame

end Grammar

end Slr
