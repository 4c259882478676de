import Mathlib.Computability.Primrec.List
import Mathlib.Computability.TuringMachine.StackTuringMachine
import Mathlib.Data.List.Permutation
import Slr.Proofs.Parser.Rounds
import Slr.Proofs.Table.Shared

/-! # Return sets by items

The calls of a table are the edges of its automaton, so items go over them one symbol
forward, and one level less comes back. What is in the set of a state comes from an
item of the state that does not go on in the state itself (`Grammar.Leaves`), since
from itself a state takes nothing new. The other way round every item whose
nonterminal may be followed gets to the end of its production, and its pair
comes back.

A state that calls itself over an item leaves the sets undefined unless the item's
pair is already there. It always is where another item, as far along, ends; it never
is where all others, as far along, also go on in the state. In between it depends on
the order of the calls. -/

namespace Slr

variable {g : Grammar} {a : Automaton} {t : Table} {q r c k : Nat} {x : Symbol} {it : Item}
  {n s : String} {m : Move} {sets : Returns.Sets}

/-! ## Items on both sides of an edge -/

namespace Automaton.Canonical

variable (hc : Canonical g a)

include hc

theorem mem_successorsOf_iff :
    (x, r) ∈ a.successorsOf q ↔ (a.successorsOf q).lookup x = some r := by
  constructor
  · intro h
    have hq : q < a.states.length := by
      by_contra hge
      simp [hc.successorsOf_of_le (Nat.le_of_not_lt hge)] at h
    exact (hc.row_of_lt hq).lookup_of_mem hc.nodup h
  · exact Association.mem_of_lookup

theorem exists_item_behind (edge : (a.successorsOf q).lookup x = some r) (hit : it ∈ a.items q)
    (hnext : it.next = some x) :
    ∃ it' ∈ a.items r, it'.production = it.production ∧ it'.dot = it.dot + 1 := by
  obtain ⟨hq, -, -, hstate⟩ := hc.edge_spec edge
  obtain ⟨it', hadv⟩ := Item.exists_advance hnext
  obtain ⟨hp, hdot⟩ := Item.advance?_eq_some_iff.mp hadv
  refine ⟨it', ?_, hp, hdot⟩
  rw [items_eq hstate, Grammar.mem_goto_iff (hc.sublist_items hq)]
  exact .seed (Item.mem_advanced_iff.mpr ⟨it, hit, hnext, hadv⟩)

theorem exists_item_before (edge : (a.successorsOf q).lookup x = some r) (hit : it ∈ a.items r)
    (hdot : it.dot = k + 1) :
    ∃ it' ∈ a.items q, it'.production = it.production ∧ it'.dot = k ∧ it'.next = some x := by
  obtain ⟨hq, -, -, hstate⟩ := hc.edge_spec edge
  rw [items_eq hstate, Grammar.mem_goto_iff (hc.sublist_items hq)] at hit
  cases hit with
  | seed h =>
    obtain ⟨it', hit', hnext, hadv⟩ := Item.mem_advanced_iff.mp h
    obtain ⟨hp, hdot'⟩ := Item.advance?_eq_some_iff.mp hadv
    exact ⟨it', hit', hp.symm, by omega, hnext⟩
  | predict => cases hdot

end Automaton.Canonical

/-! ## Calls and reductions of a state -/

namespace Returns

open Automaton

theorem mem_own_of_move {p : Production} (h : t.move? q s = some (.reduce p))
    (hsize : p.size = k + 1) : (p.lhs, k) ∈ own t q := by
  unfold own
  rw [List.mem_eraseDups, List.mem_filterMap]
  exact ⟨_, Association.mem_of_lookup h, by simp [hsize]⟩

variable (ht : g.table = .ok t)

include ht

theorem gotoRow_eq (q : Nat) : t.gotoRow q = (build g).gotos q := by
  rw [Table.gotoRow, (Grammar.exact_of_table ht).gotos, gotos, successorsOf, List.getElem?_map]
  cases (build g).successors[q]? <;> rfl

theorem mem_callees_iff :
    c ∈ callees t q ↔ ∃ x, ((build g).successorsOf q).lookup x = some c := by
  have hc := build_canonical g
  have hr := Grammar.table_renders ht
  have hexact := Grammar.exact_of_table ht
  unfold callees
  rw [List.mem_append]
  constructor
  · rintro (h | h)
    · obtain ⟨⟨s, m⟩, hrow, hm⟩ := List.mem_filterMap.mp h
      cases m with
      | shift target =>
        obtain rfl : target = c := by simpa using hm
        exact ⟨_, (hr.shift (hexact.mem_row_iff.mp hrow)).2⟩
      | reduce p => cases hm
      | accept => cases hm
    · rw [gotoRow_eq ht] at h
      obtain ⟨⟨n, c'⟩, hgoto, rfl⟩ := List.mem_map.mp h
      obtain ⟨⟨x, c''⟩, hmem, hname⟩ := List.mem_filterMap.mp hgoto
      obtain ⟨n', -, hpair⟩ := Option.map_eq_some_iff.mp hname
      obtain ⟨rfl, rfl⟩ := Prod.mk.inj hpair
      exact ⟨x, hc.mem_successorsOf_iff.mp hmem⟩
  · rintro ⟨x, edge⟩
    cases x with
    | terminal s =>
      obtain ⟨-, hs, ⟨it, hit, hnext⟩, -⟩ := hc.edge_spec edge
      have hmove := hr.shift_of hit hnext (fun h => hs (congrArg _ h)) edge
      exact Or.inl (List.mem_filterMap.mpr ⟨_, hexact.mem_row_iff.mpr hmove, rfl⟩)
    | nonterminal n =>
      rw [gotoRow_eq ht]
      refine Or.inr (List.mem_map.mpr ⟨(n, c), ?_, rfl⟩)
      exact List.mem_filterMap.mpr ⟨_, Association.mem_of_lookup edge, rfl⟩

/-- The calls are the edges. -/
theorem mem_calls_iff :
    (q, c) ∈ calls t ↔ ∃ x, ((build g).successorsOf q).lookup x = some c := by
  rw [mem_calls, mem_callees_iff ht]
  constructor
  · exact And.right
  · intro h
    obtain ⟨x, edge⟩ := h
    refine ⟨?_, x, edge⟩
    rw [Table.size, (Grammar.exact_of_table ht).size]
    exact ((build_canonical g).edge_spec edge).1

/-- The reductions that leave a state are those of its complete items that may be followed. -/
theorem mem_own_iff : (n, k) ∈ own t q ↔
    (∃ s, g.Follows n s) ∧ ∃ it ∈ (build g).items q,
      it.production.lhs = n ∧ it.dot = k + 1 ∧ it.next = none := by
  have hexact := Grammar.exact_of_table ht
  constructor
  · intro h
    unfold own at h
    rw [List.mem_eraseDups, List.mem_filterMap] at h
    obtain ⟨⟨s, m⟩, hrow, hm⟩ := h
    cases m with
    | reduce p =>
      obtain ⟨hpos, hpair⟩ := Option.ite_none_right_eq_some.mp hm
      obtain ⟨rfl, rfl⟩ := Prod.mk.inj (Option.some.inj hpair)
      obtain ⟨v, hv, hmove⟩ := (hexact.move q s _).mp (hexact.mem_row_iff.mp hrow)
      obtain ⟨it, hit, rfl, hnext, hs⟩ := Grammar.item_of_reduce_vote hv hmove
      have hdot := Item.next_eq_none_iff.mp hnext
      rw [Production.size] at hpos ⊢
      exact ⟨⟨s, hs⟩, it, hit, rfl, by omega, hnext⟩
    | shift target => cases hm
    | accept => cases hm
  · intro h
    obtain ⟨⟨s, hs⟩, it, hit, rfl, hdot, hnext⟩ := h
    have hmove : t.move? q s = some (.reduce it.production) :=
      (hexact.move q s _).mpr ⟨_, Grammar.reduce_vote hit hnext hs, rfl⟩
    exact mem_own_of_move hmove ((Item.next_eq_none_iff.mp hnext).symm.trans hdot)

end Returns

/-! ## The sets of a grammar -/

namespace Grammar

open Automaton Returns

/-- An item that has been begun, over whose next symbol the state calls itself, for a
nonterminal that something may follow. -/
structure Recurs (g : Grammar) (q : Nat) (it : Item) : Prop where
  mem : it ∈ (build g).items q
  begun : 0 < it.dot
  followed : ∃ s, g.Follows it.production.lhs s
  loops : ∃ x, it.next = some x ∧ ((build g).successorsOf q).lookup x = some q

/-- The pair belongs to an item of the state that does not go on in the state itself. -/
def Leaves (g : Grammar) (q : Nat) (r : Pair) : Prop :=
  (∃ s, g.Follows r.1 s) ∧ ∃ it ∈ (build g).items q,
    it.production.lhs = r.1 ∧ it.dot = r.2 + 1 ∧ ¬ g.Recurs q it

section

variable (ht : g.table = .ok t)

include ht

theorem productions_eq : t.productions = g.productions := by
  obtain ⟨all, -, -, rfl⟩ := table_ok ht
  exact congrArg Grammar.productions (build_canonical g).grammar_eq

theorem accounts_leaves : Accounts t g.Leaves where
  own := fun q r hr => by
    obtain ⟨hs, it, hit, hlhs, hdot, hnext⟩ := (mem_own_iff ht).mp hr
    refine ⟨hs, it, hit, hlhs, hdot, fun h => ?_⟩
    obtain ⟨x, hx, -⟩ := h.loops
    rw [hnext] at hx
    cases hx
  passed := fun q c n k hcall hne h => by
    obtain ⟨hs, it, hit, hlhs, hdot, -⟩ := h
    obtain ⟨x, edge⟩ := (mem_calls_iff ht).mp hcall
    obtain ⟨it', hit', hp, hdot', hnext⟩ := (build_canonical g).exists_item_before edge hit hdot
    refine ⟨hs, it', hit', hp ▸ hlhs, hdot', fun h => ?_⟩
    obtain ⟨y, hy, hloop⟩ := h.loops
    obtain rfl : x = y := Option.some.inj (hnext.symm.trans hy)
    exact hne (Option.some.inj (hloop.symm.trans edge))
  within := fun q r h => by
    obtain ⟨-, it, hit, hlhs, hdot, -⟩ := h
    have hp : it.production ∈ t.productions := by
      rw [productions_eq ht]
      exact (build_canonical g).production_mem hit
    have hle := it.dot_le
    exact List.mem_flatMap.mpr ⟨_, hp, List.mem_map.mpr
      ⟨r.2, List.mem_range.mpr (by rw [Production.size]; omega), by rw [hlhs]⟩⟩

/-- Items lead to the end of their production over calls, and back come their reductions. -/
theorem mem_setOf_of_item {P : Nat → Pair → Prop} (hk : Known t P sets) (hclosed : Closed t sets)
    (hs : ∃ s, g.Follows it.production.lhs s) (hit : it ∈ (build g).items q)
    (hdot : it.dot = k + 1) : (it.production.lhs, k) ∈ setOf sets q := by
  generalize hrest : it.production.size - it.dot = rest
  induction rest generalizing q it k with
  | zero =>
    have hnext : it.next = none := by
      have hle := it.dot_le
      rw [Production.size] at hrest
      exact Item.next_eq_none_iff.mpr (by omega)
    exact hk.own q _ ((mem_own_iff ht).mpr ⟨hs, it, hit, rfl, hdot, hnext⟩)
  | succ rest ih =>
    have hc := build_canonical g
    obtain ⟨x, hnext⟩ : ∃ x, it.next = some x := by
      rw [Production.size] at hrest
      exact ⟨_, List.getElem?_eq_getElem (by omega)⟩
    have hx : x ≠ .terminal endName := by
      rintro rfl
      obtain ⟨s, hs⟩ := hs
      have hgoal := eq_goal_of_end_mem (hc.production_mem hit) (Item.next_mem_rhs hnext)
      exact (follows_iff.mp hs).1 (congrArg Production.lhs hgoal)
    obtain ⟨c, edge⟩ := hc.exists_edge hit hnext hx
    obtain ⟨it', hit', hp, hdot'⟩ := hc.exists_item_behind edge hit hnext
    have hback : (it'.production.lhs, k + 1) ∈ setOf sets c :=
      ih (hp ▸ hs) hit' (by omega) (by rw [hp]; omega)
    rw [hp] at hback
    exact hclosed q c ((mem_calls_iff ht).mpr ⟨x, edge⟩) _ (mem_passedOn.mpr hback)

end

end Grammar

/-! ## When the sets are defined -/

namespace Returns

open Automaton

/-- The sets are defined if every item over which a state calls itself has one beside it, of
the same nonterminal and as far along, that is at its end. They are not if some such item has only
items beside it over which the state calls itself too. -/
theorem sets_defined (ht : g.table = .ok t) :
    ((∀ q it, g.Recurs q it → ∃ it' ∈ (build g).items q,
        it'.production.lhs = it.production.lhs ∧ it'.dot = it.dot ∧ it'.next = none) →
      ∃ sets, sets? t = some sets ∧ sets.length = t.size) ∧
    ∀ q it, g.Recurs q it →
      (∀ it' ∈ (build g).items q, it'.production.lhs = it.production.lhs → it'.dot = it.dot →
        g.Recurs q it') →
      sets? t = none := by
  have ha := Grammar.accounts_leaves ht
  constructor
  · intro hends
    have hself : ∀ q n k, (q, q) ∈ calls t → g.Leaves q (n, k + 1) → (n, k) ∈ own t q := by
      intro q n k hcall hleaves
      obtain ⟨hfollowed, it, hit, hlhs, hdot, -⟩ := hleaves
      obtain ⟨x, edge⟩ := (mem_calls_iff ht).mp hcall
      obtain ⟨it', hit', hp, hdot', hnext⟩ :=
        (build_canonical g).exists_item_before edge hit hdot
      have hlhs' : it'.production.lhs = n := hp ▸ hlhs
      obtain ⟨it'', hit'', hsame, hplace, hend⟩ :=
        hends q it' ⟨hit', by omega, hlhs' ▸ hfollowed, x, hnext, edge⟩
      exact (mem_own_iff ht).mpr
        ⟨hfollowed, it'', hit'', hsame.trans hlhs', hplace.trans hdot', hend⟩
    obtain ⟨sets, hs⟩ := exists_sets ha hself
    exact ⟨sets, hs, (sets?_spec ha hs).1.length⟩
  · intro q it hrecurs hbeside
    rw [Option.eq_none_iff_forall_ne_some]
    intro sets hs
    obtain ⟨hk, hclosed⟩ := sets?_spec ha hs
    obtain ⟨k, hdot⟩ := Nat.exists_eq_succ_of_ne_zero (Nat.pos_iff_ne_zero.mp hrecurs.begun)
    have hmem := Grammar.mem_setOf_of_item ht hk hclosed hrecurs.followed hrecurs.mem hdot
    obtain ⟨-, it', hit', hlhs, hdot', hnot⟩ := hk.holds q _ hmem
    exact hnot (hbeside it' hit' hlhs (hdot'.trans hdot.symm))

/-! ## States that call themselves -/

/-- Some `X` and then two as a pair. -/
def pairLast : Grammar where
  start := "list"
  productions :=
    [.goal "list", ⟨1, "list", [.terminal "X", .nonterminal "list"]⟩,
      ⟨2, "list", [.nonterminal "pair"]⟩, ⟨3, "pair", [.terminal "X", .terminal "X"]⟩]
  wellFormed :=
    ⟨rfl, by decide, by decide, by decide, by simp [Production.goal],
      by simp [Production.goal, endName, goalName]⟩

def pairLastTable : Table where
  actions :=
    let more : Move := .reduce ⟨1, "list", [.terminal "X", .nonterminal "list"]⟩
    let last : Move := .reduce ⟨2, "list", [.nonterminal "pair"]⟩
    let pair : Move := .reduce ⟨3, "pair", [.terminal "X", .terminal "X"]⟩
    [[("X", .shift 1)], [("X", .shift 4)], [("$", .accept)], [("$", last)],
      [("$", pair), ("X", .shift 4)], [("$", more)]]
  gotos := [[("list", 2), ("pair", 3)], [("list", 5), ("pair", 3)], [], [],
    [("list", 5), ("pair", 3)], []]
  depths := [0, 1, 1, 1, 2, 2]
  productions := pairLast.productions
  states :=
    [["__goal -> * list $", "list -> * X list", "list -> * pair", "pair -> * X X"],
      ["list -> * X list", "list -> X * list", "list -> * pair", "pair -> * X X",
        "pair -> X * X"],
      ["__goal -> list * $"], ["list -> pair *"],
      ["list -> * X list", "list -> X * list", "list -> * pair", "pair -> * X X",
        "pair -> X * X", "pair -> X X *"],
      ["list -> X list *"]]

theorem pairLast_build : build pairLast = explore pairLast 2048 [initial pairLast] [] := by
  have hitems : pairLast.items.length = 11 := by decide
  rw [build, hitems]

theorem pairLast_table : pairLast.table = .ok pairLastTable := by
  rw [Grammar.table, pairLast_build]
  cbv

/-- A table without sets: the state behind two `X` passes its pair to itself. -/
theorem pairLast_undefined : pairLast.table = .ok pairLastTable ∧ sets? pairLastTable = none :=
  ⟨pairLast_table, by decide +kernel⟩

/-- Some `X` and then a single one or a pair with a `Y` behind it. -/
def pairOrSingle : Grammar where
  start := "list"
  productions :=
    [.goal "list", ⟨1, "list", [.terminal "X", .nonterminal "list"]⟩,
      ⟨2, "list", [.nonterminal "pair"]⟩,
      ⟨3, "pair", [.terminal "X", .terminal "X", .terminal "Y"]⟩, ⟨4, "pair", [.terminal "X"]⟩]
  wellFormed :=
    ⟨rfl, by decide, by decide, by decide, by simp [Production.goal],
      by simp [Production.goal, endName, goalName]⟩

theorem pairOrSingle_build :
    build pairOrSingle = explore pairOrSingle 16384 [initial pairOrSingle] [] := by
  have hitems : pairOrSingle.items.length = 14 := by decide
  rw [build, hitems]

theorem pairOrSingle_table : ∃ t, pairOrSingle.table = .ok t := by
  have hok : pairOrSingle.table.toOption.isSome = true := by
    rw [Grammar.table, pairOrSingle_build]
    cbv
  cases ht : pairOrSingle.table with
  | ok t => exact ⟨t, rfl⟩
  | error e =>
    rw [ht] at hok
    cases hok

/-- Behind two `X` the state calls itself only over pairs of which one `X` has been read. -/
theorem pairLast_recurs : ∃ it, pairLast.Recurs 4 it ∧ ∀ it' ∈ (build pairLast).items 4,
    it'.production.lhs = it.production.lhs → it'.dot = it.dot → pairLast.Recurs 4 it' := by
  have hloop : ((build pairLast).successorsOf 4).lookup (.terminal "X") = some 4 := by
    rw [pairLast_build]
    cbv
  have hbegun : (((build pairLast).items 4).filter fun it =>
      it.production.lhs == "pair" && it.dot == 1).map Item.next = [some (.terminal "X")] := by
    rw [pairLast_build]
    cbv
  have hfollow : pairLast.Follows "pair" "$" := by
    have hlookup : pairLast.follow.lookup "pair" = some ["$"] := by cbv
    simp [Grammar.Follows, hlookup]
  have hrecurs : ∀ it ∈ (build pairLast).items 4, it.production.lhs = "pair" → it.dot = 1 →
      pairLast.Recurs 4 it := by
    intro it hit hlhs hdot
    have hnext : it.next ∈ [some (Symbol.terminal "X")] := by
      rw [← hbegun]
      exact List.mem_map_of_mem (List.mem_filter.mpr ⟨hit, by simp [hlhs, hdot]⟩)
    exact ⟨hit, by omega, ⟨_, hlhs ▸ hfollow⟩, _, List.mem_singleton.mp hnext, hloop⟩
  obtain ⟨it, hmem, -⟩ : ∃ it ∈ ((build pairLast).items 4).filter fun it =>
      it.production.lhs == "pair" && it.dot == 1, it.next = some (.terminal "X") :=
    List.mem_map.mp (by rw [hbegun]; exact List.mem_singleton_self _)
  obtain ⟨hit, hlhs, hdot⟩ :
      it ∈ (build pairLast).items 4 ∧ it.production.lhs = "pair" ∧ it.dot = 1 := by
    simpa using hmem
  exact ⟨it, hrecurs it hit hlhs hdot, fun it' hit' hlhs' hdot' =>
    hrecurs it' hit' (hlhs'.trans hlhs) (hdot'.trans hdot)⟩

/-- Where one `X` of a pair has been read, a single one has been read to its end. -/
theorem pairOrSingle_ends (q : Nat) (it : Item) (h : pairOrSingle.Recurs q it) :
    ∃ it' ∈ (build pairOrSingle).items q,
      it'.production.lhs = it.production.lhs ∧ it'.dot = it.dot ∧ it'.next = none := by
  have hsize : (build pairOrSingle).size = 7 := by
    rw [pairOrSingle_build]
    cbv
  have hcheck : ((List.range 7).all fun q => ((build pairOrSingle).items q).all fun it =>
      it.dot == 0 ||
        (it.next.bind fun x => ((build pairOrSingle).successorsOf q).lookup x) != some q ||
        ((build pairOrSingle).items q).any fun it' =>
          it'.production.lhs == it.production.lhs && it'.dot == it.dot && it'.next == none) =
        true := by
    rw [pairOrSingle_build]
    cbv
  have hq : q < 7 := hsize ▸ lt_of_mem_items h.mem
  have hit := List.all_eq_true.mp (List.all_eq_true.mp hcheck q (List.mem_range.mpr hq)) it h.mem
  obtain ⟨x, hnext, hloop⟩ := h.loops
  simpa [Nat.pos_iff_ne_zero.mp h.begun, hnext, hloop, and_assoc] using hit

/-- Behind two `X` a state calls itself. With a single `X` to end at, the sets of all states are
defined; with pairs only they are not. -/
theorem sets_defined_pairs :
    (∃ t, pairOrSingle.table = .ok t ∧
      (∀ q it, pairOrSingle.Recurs q it → ∃ it' ∈ (build pairOrSingle).items q,
        it'.production.lhs = it.production.lhs ∧ it'.dot = it.dot ∧ it'.next = none) ∧
      ∃ sets, sets? t = some sets ∧ sets.length = t.size) ∧
    pairLast.table = .ok pairLastTable ∧
      (∃ it, pairLast.Recurs 4 it ∧ ∀ it' ∈ (build pairLast).items 4,
        it'.production.lhs = it.production.lhs → it'.dot = it.dot → pairLast.Recurs 4 it') ∧
      sets? pairLastTable = none := by
  obtain ⟨t, ht⟩ := pairOrSingle_table
  obtain ⟨it, hrecurs, hbeside⟩ := pairLast_recurs
  exact ⟨⟨t, ht, pairOrSingle_ends, (sets_defined ht).1 pairOrSingle_ends⟩,
    pairLast_table, ⟨it, hrecurs, hbeside⟩, (sets_defined pairLast_table).2 4 it hrecurs hbeside⟩

end Returns

end Slr
