import Slr.Proofs.Derivation.Repetition
import Slr.Proofs.Grammar.Admitted
import Slr.Proofs.Rule.Gathering

/-! # Hidden rules repeat in a grammar what they repeat as written

No two rules that are gathered have one name, so the productions with a hidden rule's name
on the left are its own: one for each turn over each alternative of its sequence. -/

namespace Slr

theorem Candidate.map_ofSymbol_inj {xs ys : List Symbol}
    (h : xs.map Candidate.ofSymbol = ys.map Candidate.ofSymbol) : xs = ys := by
  refine List.map_injective_iff.mpr ?_ h
  intro x y hxy
  exact LooseSymbol.symbol.inj (Candidate.symbol.inj hxy)

/-- Every production but the goal was a draft. -/
theorem Draft.Makes.exists_draft {drafts : List Draft} {n : String} {G : AttributedGrammar}
    (h : Makes drafts n G) {p : Production} (hp : p ∈ G.grammar.productions) :
    p = .goal n ∨ ∃ d ∈ drafts, d.lhs = .nonterminal p.lhs ∧ d.rhs = p.rhs.map .ofSymbol ∧
      G.semantics p = d.action := by
  obtain ⟨k, hk⟩ := List.mem_iff_getElem?.mp hp
  cases k with
  | zero => exact Or.inl (Option.some.inj (hk.symm.trans h.goal))
  | succ k =>
    obtain ⟨hlt, -⟩ := List.getElem?_eq_some_iff.mp hk
    have hlength := h.length
    have hd : drafts[k]? = some drafts[k] := List.getElem?_eq_getElem (by omega)
    obtain ⟨p', hp', -, hlhs, hrhs, hacts⟩ := h.production k _ hd
    obtain rfl := Option.some.inj (hk.symm.trans hp')
    exact Or.inr ⟨_, List.mem_of_getElem? hd, hlhs, hrhs, hacts⟩

theorem Draft.Makes.exists_production {drafts : List Draft} {n : String} {G : AttributedGrammar}
    (h : Makes drafts n G) {d : Draft} (hd : d ∈ drafts) :
    ∃ p ∈ G.grammar.productions, d.lhs = .nonterminal p.lhs ∧ d.rhs = p.rhs.map .ofSymbol ∧
      G.semantics p = d.action := by
  obtain ⟨k, hk⟩ := List.mem_iff_getElem?.mp hd
  obtain ⟨p, hp, -, hlhs, hrhs, hacts⟩ := h.production k d hk
  exact ⟨p, List.mem_of_getElem? hp, hlhs, hrhs, hacts⟩

namespace Workshop

variable {f : RuleFamily} {w w₀ w' : Workshop} {start r : RuleRef} {rule : HiddenRule}
  {order : List RuleRef} {found : List Draft} {G : AttributedGrammar} {starts : List Nat} {i : Nat}

theorem hiddenName_ne_goalName (d : String) (n : Nat) : hiddenName d n ≠ goalName := by
  intro h
  have hlist := congrArg String.toList h
  simp [hiddenName, goalName] at hlist

/-- The alternatives of a hidden rule that was gathered. -/
theorem Sweep.alternatives (h : Sweep w₀ start [] order found w) (hbase : w₀.Base) (hr : r ∈ order)
    (hrule : (w₀.knowing r.id).hidden.lookup r.id = some rule) :
    (∃ d n, r.name = hiddenName d n) ∧ ∃ ys, sequenced rule.parts = .ok ys ∧
      w₀.listed r = (rule.repetition.turns (.rule r) (ys.map Alternative.parts)).map
        fun x => ⟨x.2, some x.1.action⟩ := by
  have hknown := h.known r (by simpa using hr)
  have hhas := h.since.has hbase hknown
  obtain ⟨alternatives, halternatives⟩ := h.flattened r hr
  obtain ⟨id, name⟩ := r
  cases id with
  | written i =>
    obtain ⟨n, -, hid, -⟩ := hbase.hidden _ _ (Association.mem_of_lookup hrule)
    cases hid
  | hidden owner serial =>
    refine ⟨?_, ?_⟩
    · cases hhas with
      | hidden | shared => exact ⟨_, _, rfl⟩
    · cases hknown with
      | written i hi heq => cases heq
      | hidden rule' hmem hname =>
        obtain rfl := Option.some.inj ((h.since.hidden _ _ hmem).symm.trans hrule)
        obtain rfl : rule'.name = name := hname
        have hbody := congrArg Prod.fst (body_of_hidden (hbase.knowing_bodies _) hrule)
        obtain ⟨ys, hys, rfl⟩ := alternatives_expand (hbody.symm.trans halternatives)
        exact ⟨ys, hys, hbase.listed_eq halternatives⟩

/-- The productions of a hidden rule are those of its turns. -/
theorem mem_productionsOf_turns {ys : List Alternative} {d : Draft}
    (hlisted : w.listed r = (rule.repetition.turns (.rule r) (ys.map Alternative.parts)).map
      fun x => ⟨x.2, some x.1.action⟩) : d ∈ w.productionsOf r ↔
      ∃ turn rhs, rule.repetition.Takes (.nonterminal r.name) (ys.map Alternative.symbols) turn rhs ∧
        d = ⟨.nonterminal r.name, rhs.map .ofSymbol, some turn.action⟩ := by
  have hturns : rule.repetition.turns (.nonterminal r.name) (ys.map Alternative.symbols) =
      (rule.repetition.turns (.rule r) (ys.map Alternative.parts)).map
        fun x => (x.1, x.2.map Part.symbol) := by
    rw [← Repetition.turns_map, List.map_map]
    rfl
  have hproductions : w.productionsOf r =
      (rule.repetition.turns (.nonterminal r.name) (ys.map Alternative.symbols)).map
        fun x => ⟨.nonterminal r.name, x.2.map .ofSymbol, some x.1.action⟩ := by
    rw [productionsOf, hlisted, hturns, List.map_map, List.map_map]
    rfl
  rw [hproductions, List.mem_map]
  constructor
  · intro h
    obtain ⟨x, hx, rfl⟩ := h
    exact ⟨x.1, x.2, Repetition.mem_turns_iff.mp hx, rfl⟩
  · intro h
    obtain ⟨turn, rhs, htakes, rfl⟩ := h
    exact ⟨(turn, rhs), Repetition.mem_turns_iff.mpr htakes, rfl⟩

/-- A hidden rule repeats its sequence in the grammar that it was gathered into. -/
theorem Sweep.repeats (h : Sweep w₀ start [] order found w) (hbase : w₀.Base) {n : String}
    (hG : Draft.Makes found n G) (hr : r ∈ order)
    (hrule : (w₀.knowing r.id).hidden.lookup r.id = some rule) :
    ∃ ys, sequenced rule.parts = .ok ys ∧
      G.grammar.Repeats G.semantics r.name rule.repetition (ys.map Alternative.symbols) := by
  obtain ⟨⟨d, serial, hname⟩, ys, hys, hlisted⟩ := h.alternatives hbase hr hrule
  refine ⟨ys, hys, ?_, ?_⟩
  · intro p hp hlhs
    rcases hG.exists_draft hp with rfl | ⟨d, hd, hdlhs, hdrhs, hacts⟩
    · exact absurd (hname.symm.trans hlhs.symm) (hiddenName_ne_goalName _ _)
    · obtain ⟨s, hs, hd⟩ := List.mem_flatMap.mp (h.found ▸ hd)
      have hsame : s.name = r.name := by
        obtain ⟨a, -, rfl⟩ := List.mem_map.mp hd
        have hsname : s.name = p.lhs := by simpa [Candidate.nonterminal] using hdlhs
        exact hsname.trans hlhs
      obtain rfl := List.inj_on_of_nodup_map h.names hs hr hsame
      obtain ⟨turn, rhs, htakes, rfl⟩ := (mem_productionsOf_turns hlisted).mp hd
      obtain rfl := Candidate.map_ofSymbol_inj hdrhs
      exact ⟨turn, htakes, hacts⟩
  · intro turn rhs htakes
    have hd : ⟨.nonterminal r.name, rhs.map .ofSymbol, some turn.action⟩ ∈ found := by
      rw [h.found]
      exact List.mem_flatMap.mpr ⟨r, hr, (mem_productionsOf_turns hlisted).mpr ⟨turn, rhs, htakes, rfl⟩⟩
    obtain ⟨p, hp, hlhs, hrhs, hacts⟩ := hG.exists_production hd
    refine ⟨p, hp, ?_, (Candidate.map_ofSymbol_inj hrhs).symm, hacts⟩
    simpa [Candidate.nonterminal, eq_comm] using hlhs

/-- A hidden rule repeats its sequence in every grammar that it is gathered into. -/
theorem repeats_of_grammar (hclosed : f.isClosed = true) (h : ofFamily f = .ok w)
    (hstarts : ∀ i ∈ starts, i < f.rules.length) (hi : i < f.rules.length)
    (hG : (grammar i (w.afterGathering starts)).1 = .ok G)
    (hr : w.Leads (w.refTo (.written i)) r)
    (hrule : (w.knowing r.id).hidden.lookup r.id = some rule) :
    ∃ ys, sequenced rule.parts = .ok ys ∧
      G.grammar.Repeats G.semantics r.name rule.repetition (ys.map Alternative.symbols) := by
  obtain ⟨hbase, rfl⟩ := base_of_ofFamily hclosed h
  have hsince := since_afterGathering hbase hbase.since hstarts
  have hswept := swept_gather hbase hsince hi
  rw [grammar, refTo_written_of_family hsince.family i] at hG
  generalize gather (w.refTo (.written i)) (w.afterGathering starts) = m at hswept hG
  cases hswept with
  | all sweep =>
    exact sweep.repeats hbase (AttributedGrammar.makes_of_ofDrafts (Or.inl rfl) hG)
      ((sweep.breadthFirst.mem r).mpr hr) hrule
  | twice => cases hG
  | wrong => cases hG

end Workshop

end Slr
