import Mathlib.Computability.Primrec.List
import Mathlib.Data.List.Permutation
import Slr.Proofs.Automaton.Viable

/-! # The automaton recognises the viable prefixes

An item fits a word of symbols if a chain of productions from the goal down to
its own, each chosen for a nonterminal of the one before, leaves exactly the word
to the left of the item's place. State 0 has a way along a word when some item
fits it, and the state at the end of the way holds the items that do. -/

namespace Slr

/-- The word to the left of a production that was chosen for a nonterminal of
another, and so on from the goal. -/
inductive Grammar.Predicts (g : Grammar) : List Symbol → Production → Prop
  | goal : Predicts g [] g.goal
  | next {xs ys zs : List Symbol} {p r : Production} (h : Predicts g xs p)
      (hr : r ∈ g.productions) (hrhs : p.rhs = ys ++ .nonterminal r.lhs :: zs) :
      Predicts g (xs ++ ys) r

/-- A word is what lies to the left of an item's place in a chain of productions. -/
def Grammar.Fits (g : Grammar) (xs : List Symbol) (it : Item) : Prop :=
  ∃ ys, g.Predicts ys it.production ∧ xs = ys ++ it.production.rhs.take it.dot

/-- The state that a word leads to. -/
def Automaton.stateAfter? (a : Automaton) (q : Nat) : List Symbol → Option Nat
  | [] => some q
  | x :: xs => ((a.successorsOf q).lookup x).bind fun r => a.stateAfter? r xs

variable {g : Grammar} {a : Automaton} {q : Nat} {xs ys zs : List Symbol} {it : Item}
  {p : Production}

/-! ## Items that fit are valid -/

theorem Item.rhs_eq_of_next {x : Symbol} (h : it.next = some x) :
    it.production.rhs =
      it.production.rhs.take it.dot ++ x :: it.production.rhs.drop (it.dot + 1) := by
  rw [← Item.drop_eq_of_next h, List.take_append_drop]

theorem ValidItem.fits (h : ValidItem g xs it) : g.Fits xs.reverse it := by
  induction h with
  | goal => exact ⟨[], .goal, rfl⟩
  | predict _ hnext hp ih =>
    obtain ⟨ys, hys, heq⟩ := ih
    exact ⟨_, hys.next hp (Item.rhs_eq_of_next hnext), by simp [heq]⟩
  | advance _ hnext _ hadv ih =>
    obtain ⟨ys, hys, heq⟩ := ih
    refine ⟨ys, by rwa [(Item.advance?_eq_some_iff.mp hadv).1], ?_⟩
    rw [List.reverse_cons, heq, Item.take_of_advance hnext hadv, List.append_assoc]

/-- The first item of a production advances over the symbols that it begins with. -/
theorem ValidItem.over (h : ValidItem g xs (.start p)) (hrhs : p.rhs = ys ++ zs)
    (hend : .terminal endName ∉ ys) :
    ∃ it, ValidItem g (ys.reverse ++ xs) it ∧ it.production = p ∧ it.dot = ys.length := by
  induction ys using List.reverseRecOn generalizing zs with
  | nil => exact ⟨_, h, rfl, rfl⟩
  | append_singleton ys y ih =>
    obtain ⟨it, hvalid, rfl, hdot⟩ :=
      ih (by rw [hrhs, List.append_assoc]) fun hmem => hend (List.mem_append_left _ hmem)
    have hnext : it.next = some y := by simp [Item.next, hrhs, hdot]
    have hy : y ≠ .terminal endName := fun h => hend (by simp [h])
    obtain ⟨it', hadv⟩ := Item.exists_advance hnext
    obtain ⟨hprod, hdot'⟩ := Item.advance?_eq_some_iff.mp hadv
    refine ⟨it', by simpa using hvalid.advance hnext hy hadv, hprod, ?_⟩
    rw [hdot', hdot, List.length_append]
    rfl

theorem Grammar.Predicts.valid (h : g.Predicts xs p) (hend : .terminal endName ∉ xs) :
    ValidItem g xs.reverse (.start p) := by
  induction h with
  | goal => exact .goal
  | next _ hr hrhs ih =>
    obtain ⟨hxs, hys⟩ := not_or.mp (mt List.mem_append.mpr hend)
    obtain ⟨it, hvalid, rfl, hdot⟩ := (ih hxs).over hrhs hys
    rw [List.reverse_append]
    exact hvalid.predict (by simp [Item.next, hrhs, hdot]) hr

/-- Without the end of the input in a word, the items that fit it are the valid ones. -/
theorem fits_iff_valid (hend : .terminal endName ∉ xs) :
    g.Fits xs it ↔ ValidItem g xs.reverse it := by
  constructor
  · intro h
    obtain ⟨ys, hys, rfl⟩ := h
    obtain ⟨hys', hseen⟩ := not_or.mp (mt List.mem_append.mpr hend)
    obtain ⟨it', hvalid, hprod, hdot⟩ :=
      (hys.valid hys').over (List.take_append_drop it.dot _).symm hseen
    obtain rfl := Item.ext_of hprod (hdot.trans (List.length_take_of_le it.dot_le))
    rwa [List.reverse_append]
  · intro h
    simpa using h.fits

/-! ## Ways -/

theorem Automaton.stateAfter?_append :
    a.stateAfter? q (xs ++ ys) = (a.stateAfter? q xs).bind fun r => a.stateAfter? r ys := by
  induction xs generalizing q with
  | nil => rfl
  | cons x xs ih =>
    cases h : (a.successorsOf q).lookup x with
    | none => simp [stateAfter?, h]
    | some r => simpa [stateAfter?, h] using ih

/-- A word leads to a state when the state lies at the end of the way along it. -/
theorem Automaton.stateAfter?_eq_some_iff :
    a.stateAfter? 0 xs = some q ↔ ∃ qs, a.Spells (q :: qs) xs.reverse := by
  constructor
  · intro h
    induction xs using List.reverseRecOn generalizing q with
    | nil =>
      cases h
      exact ⟨[], .bottom⟩
    | append_singleton xs x ih =>
      rw [stateAfter?_append, Option.bind_eq_some_iff] at h
      obtain ⟨r, hr, hx⟩ := h
      obtain ⟨qs, way⟩ := ih hr
      rw [List.reverse_append]
      exact ⟨r :: qs, way.push (by simpa [stateAfter?] using hx)⟩
  · intro h
    obtain ⟨qs, way⟩ := h
    generalize hall : q :: qs = all at way
    generalize hrev : xs.reverse = rev at way
    induction way generalizing q qs xs with
    | bottom =>
      obtain ⟨rfl, -⟩ := List.cons.inj hall
      obtain rfl : xs = [] := by simpa using hrev
      rfl
    | @push q' r qs' x rest way edge ih =>
      obtain ⟨rfl, -⟩ := List.cons.inj hall
      obtain rfl : xs = rest.reverse ++ [x] := by simpa using congrArg List.reverse hrev
      rw [stateAfter?_append, ih _ rfl (List.reverse_reverse rest)]
      simp [stateAfter?, edge]

/-- Symbols that some item is valid for have a way. -/
theorem Automaton.Canonical.exists_way (hc : Automaton.Canonical g a) (h : ValidItem g xs it) :
    ∃ q qs, a.Spells (q :: qs) xs := by
  induction h with
  | goal => exact ⟨0, [], .bottom⟩
  | predict _ _ _ ih => exact ih
  | advance h hnext hx _ ih =>
    obtain ⟨q, qs, way⟩ := ih
    obtain ⟨r, edge⟩ := hc.exists_edge ((hc.mem_items_iff way).mpr h) hnext hx
    exact ⟨r, q :: qs, way.push edge⟩

/-! ## Recognition -/

/-- A word without the end of the input leads from state 0 to a state exactly when
some item fits it, and to the state that holds the items that fit. -/
theorem stateAfter?_recognises (hend : .terminal endName ∉ xs) :
    ((∃ q, (Automaton.build g).stateAfter? 0 xs = some q) ↔ ∃ it, g.Fits xs it) ∧
      ∀ q, (Automaton.build g).stateAfter? 0 xs = some q →
        ∀ it, it ∈ (Automaton.build g).items q ↔ g.Fits xs it := by
  have hc := Automaton.build_canonical g
  simp only [fits_iff_valid hend, Automaton.stateAfter?_eq_some_iff]
  refine ⟨⟨?_, ?_⟩, ?_⟩
  · intro h
    obtain ⟨q, qs, way⟩ := h
    obtain ⟨it, hit⟩ := hc.exists_item way
    exact ⟨it, (hc.mem_items_iff way).mp hit⟩
  · intro h
    obtain ⟨it, hvalid⟩ := h
    exact hc.exists_way hvalid
  · intro q h it
    obtain ⟨qs, way⟩ := h
    exact hc.mem_items_iff way

/-- Words in brackets. -/
def brackets : Grammar where
  start := "word"
  productions :=
    [.goal "word", ⟨1, "word", [.terminal "(", .nonterminal "word", .terminal ")"]⟩, ⟨2, "word", []⟩]
  wellFormed :=
    ⟨rfl, by decide, by decide, by decide, by simp [Production.goal],
      by simp [Production.goal, endName, goalName]⟩

theorem stateAfter?_recognises_brackets :
    Symbol.terminal endName ∉ [Symbol.terminal "(", .terminal "(", .nonterminal "word"] ∧
      (Automaton.build brackets).stateAfter? 0
        [.terminal "(", .terminal "(", .nonterminal "word"] = some 3 ∧
      ∀ it, it ∈ (Automaton.build brackets).items 3 ↔
        brackets.Fits [.terminal "(", .terminal "(", .nonterminal "word"] it := by
  have hstate : (Automaton.build brackets).stateAfter? 0
      [.terminal "(", .terminal "(", .nonterminal "word"] = some 3 := by cbv
  exact ⟨by decide, hstate, (stateAfter?_recognises (by decide)).2 3 hstate⟩

end Slr
