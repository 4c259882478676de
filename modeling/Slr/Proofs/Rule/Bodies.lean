import Mathlib.Algebra.Ring.Nat
import Slr.Proofs.Rule.Making

/-! # Bodies are what they are, whenever they are made

The alternatives of a rule can be read off a workshop that nothing was gathered in: those
of a written rule are made there, those of a hidden rule behind the body it is made with.
However far gathering has come, a body that is asked for is made, or was kept, with just
these alternatives, and the rules it mentions are known from then on. -/

namespace Slr.Workshop

/-- The workshop in which a rule is known: a hidden rule is made with the body of its owner. -/
def knowing (w : Workshop) : RuleId → Workshop
  | .hidden (some i) _ => (body (.written i) w).2
  | .written _ | .hidden none _ => w

/-- The alternatives of a rule. -/
def alternativesOf (w : Workshop) (id : RuleId) : Except GrammarError (List Alternative) :=
  (body id (w.knowing id)).1

/-- A rule that is written, or has been made. -/
inductive Knows (w : Workshop) (r : RuleRef) : Prop where
  | written (i : Nat) (hi : i < w.family.rules.length) (h : r = w.refTo (.written i))
  | hidden (rule : HiddenRule) (hmem : (r.id, rule) ∈ w.hidden) (hname : rule.name = r.name)

/-- A workshop before any body was made: hidden rules are there for shared expressions. -/
structure Base (w : Workshop) : Prop where
  closed : w.family.isClosed = true
  current : w.current = none
  bodies : w.bodies = []
  nodup : (w.hidden.map Prod.fst).Nodup
  hidden : ∀ id rule, (id, rule) ∈ w.hidden →
    ∃ n < Form.repetitionsOf w.family.shared, id = .hidden none n ∧
      rule.name = hiddenName "__global" n
  parts : ∀ id rule, (id, rule) ∈ w.hidden → ∀ e ∈ rule.parts, ∀ r ∈ e.refs, w.Knows r
  shared : ∀ e ∈ w.shared, ∀ r ∈ e.refs, w.Knows r

/-- A workshop in which bodies were made since. -/
structure Since (w₀ w : Workshop) : Prop where
  family : w.family = w₀.family
  shared : w.shared = w₀.shared
  current : w.current = w₀.current
  next : w.next = w₀.next
  old : ∀ x ∈ w₀.hidden, x ∈ w.hidden
  /-- A hidden rule is the one that its owner's body makes at the outset. -/
  hidden : ∀ id rule, (id, rule) ∈ w.hidden → (w₀.knowing id).hidden.lookup id = some rule
  parts : ∀ id rule, (id, rule) ∈ w.hidden → ∀ e ∈ rule.parts, ∀ r ∈ e.refs, w.Knows r
  bodies : ∀ id alternatives, w.bodies.lookup id = some alternatives →
    w₀.alternativesOf id = .ok alternatives ∧ ∀ r ∈ mentioned alternatives, w.Knows r

variable {w w' w₀ : Workshop} {new : List (RuleId × HiddenRule)} {r : RuleRef} {id : RuleId}
  {rule : HiddenRule} {i : Nat} {alternatives : List Alternative}

theorem Knows.mono (h : w.Knows r) (hfamily : w'.family = w.family)
    (hhidden : ∀ x ∈ w.hidden, x ∈ w'.hidden) : w'.Knows r := by
  cases h with
  | written i hi heq => exact .written i (hfamily ▸ hi) (heq.trans (refTo_written_of_family hfamily i).symm)
  | hidden rule hmem hname => exact .hidden rule (hhidden _ hmem) hname

/-! ## Making a written body -/

/-- The workshop as it is when the body of a written rule is made. -/
def opened (w : Workshop) (i : Nat) : Workshop := { w with current := some (.written i), next := 0 }

/-- What is left of making a body: the hidden rules, and the body if it went well. -/
def keep (w : Workshop) (id : RuleId) : Except GrammarError (List Alternative) → Workshop
  | .error _ => w
  | .ok alternatives => { w with bodies := (id, alternatives) :: w.bodies }

theorem plain_opened (w : Workshop) (i : Nat) : (w.opened i).Plain := by
  intro owner serial h
  cases h

theorem areClosed_iff {n : Nat} {forms : List Form} :
    Form.areClosed n forms = true ↔ ∀ form ∈ forms, form.isClosed n = true := by
  induction forms with
  | nil => simp [Form.areClosed]
  | cons form rest ih => simp [Form.areClosed, ih]

theorem repetitionsOf_eq (forms : List Form) :
    Form.repetitionsOf forms = (forms.map Form.repetitions).sum := by
  induction forms with
  | nil => rfl
  | cons form rest ih => simp [Form.repetitionsOf, ih]

theorem isClosed_of_mem (h : w.family.isClosed = true) {written : WrittenRule}
    (hi : w.family.rules[i]? = some written) :
    written.form.isClosed w.family.rules.length = true := by
  have hrules := (Bool.and_eq_true_iff.mp h).1
  exact areClosed_iff.mp hrules _ (List.mem_map_of_mem (List.mem_of_getElem? hi))

theorem body_eq (hmiss : w.bodies.lookup id = none) : body id w =
    (((makeRule id { w with current := some id, next := 0 }).1.bind Expr.alternatives),
      keep { (makeRule id { w with current := some id, next := 0 }).2 with
        current := w.current, next := w.next } id
        ((makeRule id { w with current := some id, next := 0 }).1.bind Expr.alternatives)) := by
  rw [body, hmiss]
  simp only
  split <;> rename_i heq <;> rw [heq] <;> rfl

/-- The body of a written rule is the same in all workshops over the same rules. -/
theorem body_of_makes {written : WrittenRule} {result : Except GrammarError Expr}
    (hmiss : w.bodies.lookup (.written i) = none) (hi : w.family.rules[i]? = some written)
    (h : Makes (w₀.opened i) (make written.form) Expr.refs result new)
    (hagrees : Agrees (w₀.opened i) (w.opened i)) : body (.written i) w =
      (result.bind Expr.alternatives,
        keep { w with hidden := new ++ w.hidden } (.written i) (result.bind Expr.alternatives)) := by
  have hmake : makeRule (.written i) (w.opened i) = (result, (w.opened i).grow new) := by
    simp only [makeRule, opened, hi]
    exact h.run _ hagrees
  rw [body_eq hmiss, show { w with current := some (RuleId.written i), next := 0 } = w.opened i from rfl,
    hmake]
  rfl

theorem hidden_keep (w : Workshop) (id : RuleId) (found : Except GrammarError (List Alternative)) :
    (w.keep id found).hidden = w.hidden := by
  cases found <;> rfl

theorem lookup_keep {id' : RuleId} (h : id' ≠ id) (found : Except GrammarError (List Alternative)) :
    (w.keep id found).bodies.lookup id' = w.bodies.lookup id' := by
  cases found with
  | error e => rfl
  | ok alternatives => exact Association.lookup_cons_ne h

theorem Knows.keep (h : w.Knows r) (id : RuleId) (found : Except GrammarError (List Alternative)) :
    (w.keep id found).Knows r :=
  h.mono (by cases found <;> rfl) fun x hx => (hidden_keep w id found).symm ▸ hx

/-- What a written rule comes to before any body was made. -/
theorem Base.opens (h : w₀.Base) {written : WrittenRule} (hi : w₀.family.rules[i]? = some written) :
    ∃ result new, Makes (w₀.opened i) (make written.form) Expr.refs result new ∧
      new.length ≤ written.form.repetitions ∧
      body (.written i) w₀ = (result.bind Expr.alternatives,
        keep { w₀ with hidden := new ++ w₀.hidden } (.written i) (result.bind Expr.alternatives)) := by
  obtain ⟨result, new, hmakes, hnew⟩ :=
    make_works written.form (w₀.opened i) (plain_opened w₀ i) (isClosed_of_mem h.closed hi)
  exact ⟨result, new, hmakes, hnew, body_of_makes (by simp [h.bodies]) hi hmakes ⟨rfl, rfl, rfl, rfl⟩⟩

/-- In a base, a hidden rule is found among those of its owner's body. -/
theorem Base.lookup_knowing (h : w₀.Base) {result : Except GrammarError (List Alternative)} {n : Nat}
    (hbody : body (.written i) w₀ =
      (result, keep { w₀ with hidden := new ++ w₀.hidden } (.written i) result)) :
    (w₀.knowing (.hidden (some i) n)).hidden.lookup (.hidden (some i) n) =
      new.lookup (.hidden (some i) n) := by
  have hold : w₀.hidden.lookup (.hidden (some i) n) = none := by
    rw [List.lookup_eq_none_iff]
    intro x hx
    obtain ⟨m, -, hid, -⟩ := h.hidden x.1 x.2 hx
    simp [hid]
  rw [knowing, hbody, hidden_keep, List.lookup_append, hold, Option.or_none]

/-! ## Making a hidden body -/

theorem refs_expand {e : Expr} (h : expand r rule = .ok e) {s : RuleRef} (hs : s ∈ e.refs) :
    s = r ∨ ∃ x ∈ rule.parts, s ∈ x.refs := by
  have hmore {x : Expr} (hx : (Expr.sequence (.rule r :: rule.parts)).map (Expr.act · extendList) = .ok x)
      (hs : s ∈ x.refs) : s = r ∨ ∃ x ∈ rule.parts, s ∈ x.refs := by
    obtain ⟨y, hy, rfl⟩ := Draft.map_eq_ok.mp hx
    rw [Expr.refs, Expr.refs_sequence hy] at hs
    simpa [Expr.refs] using hs
  have hfirst {x : Expr} (hx : Expr.sequence rule.parts = .ok x) (hs : s ∈ x.refs) :
      s = r ∨ ∃ x ∈ rule.parts, s ∈ x.refs := by
    rw [Expr.refs_sequence hx] at hs
    exact Or.inr (List.mem_flatMap.mp hs)
  unfold expand at h
  cases hrepetition : rule.repetition with
  | optional =>
    rw [hrepetition] at h
    obtain ⟨x, hx, rfl⟩ := Draft.map_eq_ok.mp h
    exact hfirst hx (by simpa [Expr.refs] using hs)
  | oneOrMore =>
    rw [hrepetition] at h
    cases hx : Expr.sequence rule.parts with
    | error err => simp [hx, bind, Except.bind] at h
    | ok x =>
      cases hy : (Expr.sequence (.rule r :: rule.parts)).map (Expr.act · extendList) with
      | error err => simp [hx, hy, bind, Except.bind] at h
      | ok y =>
        simp only [hx, hy, bind, Except.bind, pure, Except.pure, Except.ok.injEq] at h
        subst h
        rcases List.mem_append.mp hs with hs | hs
        · exact hfirst hx hs
        · exact hmore hy hs
  | zeroOrMore =>
    rw [hrepetition] at h
    cases hy : (Expr.sequence (.rule r :: rule.parts)).map (Expr.act · extendList) with
    | error err => simp [hy, bind, Except.bind] at h
    | ok y =>
      simp only [hy, bind, Except.bind, pure, Except.pure, Except.ok.injEq] at h
      subst h
      exact hmore hy (by simpa [Expr.refs] using hs)

/-- The body of a hidden rule needs nothing but the rule. -/
theorem body_of_hidden {owner : Option Nat} {serial : Nat}
    (hmiss : w.bodies.lookup (.hidden owner serial) = none)
    (hrule : w.hidden.lookup (.hidden owner serial) = some rule) :
    body (.hidden owner serial) w =
      ((expand ⟨.hidden owner serial, rule.name⟩ rule).bind Expr.alternatives,
        keep w (.hidden owner serial)
          ((expand ⟨.hidden owner serial, rule.name⟩ rule).bind Expr.alternatives)) := by
  rw [body_eq hmiss]
  simp [makeRule, hrule, refTo, nameOf]

/-- Where a rule is known at the outset, it has no body yet. -/
theorem Base.knowing_bodies (h : w₀.Base) (id : RuleId) :
    (w₀.knowing id).bodies.lookup id = none := by
  match id with
  | .written i => simp [knowing, h.bodies]
  | .hidden none serial => simp [knowing, h.bodies]
  | .hidden (some i) serial =>
    rw [knowing]
    cases hi : w₀.family.rules[i]? with
    | none =>
      rw [body_eq (by simp [h.bodies]), lookup_keep (by simp)]
      simp [makeRule, hi, h.bodies]
    | some written =>
      obtain ⟨result, new, -, -, hbody⟩ := h.opens hi
      rw [hbody, lookup_keep (by simp)]
      simp [h.bodies]

/-! ## Bodies in the course of gathering -/

theorem Base.since (h : w₀.Base) : Since w₀ w₀ where
  family := rfl
  shared := rfl
  current := rfl
  next := rfl
  old := fun _ hx => hx
  hidden := fun id rule hmem => by
    obtain ⟨n, -, rfl, -⟩ := h.hidden id rule hmem
    exact Association.lookup_of_mem h.nodup hmem
  parts := h.parts
  bodies := fun id alternatives hlookup => by simp [h.bodies] at hlookup

/-- What is given when a rule is asked for, and what is known from then on. -/
structure Answers (w₀ w : Workshop) (id : RuleId) : Prop where
  result : (body id w).1 = w₀.alternativesOf id
  since : Since w₀ (body id w).2
  known : ∀ s, w.Knows s → (body id w).2.Knows s
  mentioned : ∀ alternatives, w₀.alternativesOf id = .ok alternatives →
    ∀ s ∈ mentioned alternatives, (body id w).2.Knows s

namespace Since

/-- With hidden rules in front that their owner's body makes at the outset. -/
theorem make (h : Since w₀ w)
    (hnew : ∀ id rule, (id, rule) ∈ new → (w₀.knowing id).hidden.lookup id = some rule)
    (hparts : ∀ id rule, (id, rule) ∈ new → ∀ e ∈ rule.parts, ∀ r ∈ e.refs,
      Knows { w with hidden := new ++ w.hidden } r) :
    Since w₀ { w with hidden := new ++ w.hidden } := by
  have hmono {r : RuleRef} (hr : w.Knows r) : Knows { w with hidden := new ++ w.hidden } r :=
    hr.mono rfl fun x hx => List.mem_append_right _ hx
  refine ⟨h.family, h.shared, h.current, h.next, fun x hx => List.mem_append_right _ (h.old x hx),
    ?_, ?_, ?_⟩
  · intro id rule hmem
    rcases List.mem_append.mp hmem with hmem | hmem
    · exact hnew id rule hmem
    · exact h.hidden id rule hmem
  · intro id rule hmem e he r hr
    rcases List.mem_append.mp hmem with hmem | hmem
    · exact hparts id rule hmem e he r hr
    · exact hmono (h.parts id rule hmem e he r hr)
  · intro id alternatives hlookup
    obtain ⟨heq, hknown⟩ := h.bodies id alternatives hlookup
    exact ⟨heq, fun r hr => hmono (hknown r hr)⟩

theorem keep (h : Since w₀ w) (hknown : ∀ alternatives, w₀.alternativesOf id = .ok alternatives →
      ∀ r ∈ mentioned alternatives, w.Knows r) :
    Since w₀ (w.keep id (w₀.alternativesOf id)) := by
  cases hfound : w₀.alternativesOf id with
  | error e => exact h
  | ok alternatives =>
    refine ⟨h.family, h.shared, h.current, h.next, h.old, h.hidden, ?_, ?_⟩
    · intro id rule hmem e he r hr
      exact (h.parts id rule hmem e he r hr).keep _ _
    intro id' alternatives' hlookup
    by_cases hid : id' = id
    · subst hid
      obtain rfl : alternatives = alternatives' := by simpa [Workshop.keep] using hlookup
      exact ⟨hfound, fun r hr => (hknown alternatives hfound r hr).keep _ _⟩
    · rw [Workshop.keep, Association.lookup_cons_ne hid] at hlookup
      obtain ⟨heq, hknown'⟩ := h.bodies id' alternatives' hlookup
      exact ⟨heq, fun r hr => (hknown' r hr).keep _ _⟩

/-- What something made in the workshop mentions is known. -/
theorem knows_of_allowed (h : Since w₀ w) (hbase : w₀.Base) {owner : Workshop}
    (hr : Allowed owner new r) (hfamily : owner.family = w₀.family)
    (hshared : owner.shared = w₀.shared) : Knows { w with hidden := new ++ w.hidden } r := by
  have hfamily' : w.family = owner.family := h.family.trans hfamily.symm
  cases hr with
  | written i hi heq =>
    exact .written i (hfamily' ▸ hi) (heq.trans (refTo_written_of_family hfamily' i).symm)
  | shared e he hr =>
    exact (hbase.shared e (hshared ▸ he) r hr).mono h.family
      fun x hx => List.mem_append_right _ (h.old x hx)
  | hidden rule hmem hname => exact .hidden rule (List.mem_append_left _ hmem) hname

theorem answers_of_kept (h : Since w₀ w) (hlookup : w.bodies.lookup id = some alternatives) :
    Answers w₀ w id := by
  obtain ⟨heq, hknown⟩ := h.bodies id alternatives hlookup
  have hbody : Workshop.body id w = (.ok alternatives, w) := by rw [Workshop.body, hlookup]
  refine ⟨?_, hbody ▸ h, fun s hs => hbody ▸ hs, ?_⟩
  · rw [hbody, heq]
  · intro alternatives' heq'
    cases heq.symm.trans heq'
    exact hbody ▸ hknown

theorem answers_of_written (h : Since w₀ w) (hbase : w₀.Base)
    (hmiss : w.bodies.lookup (.written i) = none) (hi : i < w₀.family.rules.length) :
    Answers w₀ w (.written i) := by
  have hrule := List.getElem?_eq_getElem hi
  obtain ⟨result, new, hmakes, -, hbody₀⟩ := hbase.opens hrule
  have hstatic : w₀.alternativesOf (.written i) = result.bind Expr.alternatives := by
    rw [alternativesOf, knowing, hbody₀]
  have hbody := body_of_makes hmiss (by rwa [h.family]) hmakes ⟨h.family, h.shared, rfl, rfl⟩
  rw [← hstatic] at hbody
  have hallowed {s : RuleRef} (hs : Allowed (w₀.opened i) new s) :
      Knows { w with hidden := new ++ w.hidden } s := h.knows_of_allowed hbase hs rfl rfl
  have hmade : Since w₀ { w with hidden := new ++ w.hidden } := by
    refine h.make ?_ ?_
    · intro id rule hmem
      obtain ⟨⟨k, -, rfl, -⟩, -⟩ := hmakes.series.mem hmem
      exact (hbase.lookup_knowing hbody₀).trans (Association.lookup_of_mem hmakes.series.nodup hmem)
    · intro id rule hmem e he s hs
      exact hallowed ((hmakes.series.mem hmem).2 e he s hs)
  have hmentioned : ∀ alternatives, w₀.alternativesOf (.written i) = .ok alternatives →
      ∀ s ∈ mentioned alternatives, Knows { w with hidden := new ++ w.hidden } s := by
    intro alternatives heq s hs
    cases result with
    | error e => cases hstatic.symm.trans heq
    | ok e =>
      exact hallowed (hmakes.allowed e rfl s (Expr.mem_refs_of_mentioned (hstatic.symm.trans heq) hs))
  refine ⟨by rw [hbody], by rw [hbody]; exact hmade.keep hmentioned, ?_, ?_⟩
  · intro s hs
    have hgrown : Knows { w with hidden := new ++ w.hidden } s :=
      hs.mono rfl fun x hx => List.mem_append_right _ hx
    rw [hbody]
    exact hgrown.keep _ _
  · intro alternatives heq s hs
    rw [hbody]
    exact (hmentioned alternatives heq s hs).keep _ _

theorem answers_of_hidden (h : Since w₀ w) (hbase : w₀.Base) {owner : Option Nat} {serial : Nat}
    (hmiss : w.bodies.lookup (.hidden owner serial) = none)
    (hmem : (.hidden owner serial, rule) ∈ w.hidden) : Answers w₀ w (.hidden owner serial) := by
  have hrule₀ := h.hidden _ _ hmem
  have hrule : w.hidden.lookup (.hidden owner serial) = some rule := by
    obtain ⟨rule', hlookup⟩ := Association.exists_lookup hmem
    have hrule' := h.hidden _ _ (Association.mem_of_lookup hlookup)
    rw [hlookup, Option.some.inj (hrule'.symm.trans hrule₀)]
  have hstatic : w₀.alternativesOf (.hidden owner serial) =
      (expand ⟨.hidden owner serial, rule.name⟩ rule).bind Expr.alternatives :=
    congrArg Prod.fst (body_of_hidden (hbase.knowing_bodies _) hrule₀)
  have hbody := body_of_hidden hmiss hrule
  rw [← hstatic] at hbody
  have hmentioned : ∀ alternatives, w₀.alternativesOf (.hidden owner serial) = .ok alternatives →
      ∀ s ∈ mentioned alternatives, w.Knows s := by
    intro alternatives heq s hs
    cases hexpand : expand ⟨.hidden owner serial, rule.name⟩ rule with
    | error e =>
      rw [hexpand] at hstatic
      cases hstatic.symm.trans heq
    | ok e =>
      rw [hexpand] at hstatic
      have hrefs := Expr.mem_refs_of_mentioned (hstatic.symm.trans heq) hs
      rcases refs_expand hexpand hrefs with rfl | ⟨x, hx, hsx⟩
      · exact .hidden rule hmem rfl
      · exact h.parts _ _ hmem x hx s hsx
  refine ⟨by rw [hbody], by rw [hbody]; exact h.keep hmentioned, ?_, ?_⟩
  · intro s hs
    rw [hbody]
    exact hs.keep _ _
  · intro alternatives heq s hs
    rw [hbody]
    exact (hmentioned alternatives heq s hs).keep _ _

/-- Every rule that is known answers with its alternatives, in the course of gathering. -/
theorem answers (h : Since w₀ w) (hbase : w₀.Base) (hr : w.Knows r) : Answers w₀ w r.id := by
  cases hlookup : w.bodies.lookup r.id with
  | some alternatives => exact h.answers_of_kept hlookup
  | none =>
    cases hr with
    | written i hi heq =>
      rw [heq] at hlookup ⊢
      exact h.answers_of_written hbase hlookup (h.family ▸ hi)
    | hidden rule hmem hname =>
      cases hid : r.id with
      | written i =>
        rw [hid] at hmem
        have hrule := h.hidden _ _ hmem
        obtain ⟨n, -, hid', -⟩ := hbase.hidden _ _ (Association.mem_of_lookup hrule)
        cases hid'
      | hidden owner serial =>
        rw [hid] at hlookup hmem
        exact h.answers_of_hidden hbase hlookup hmem

end Since

/-! ## Shared expressions -/

/-- A workshop in which shared expressions were made, when others are still to be made. -/
structure Sharing (w : Workshop) (todo : List Form) : Prop where
  closed : Form.areClosed w.family.rules.length todo = true
  current : w.current = none
  bodies : w.bodies = []
  count : w.next + Form.repetitionsOf todo ≤ Form.repetitionsOf w.family.shared
  nodup : (w.hidden.map Prod.fst).Nodup
  hidden : ∀ id rule, (id, rule) ∈ w.hidden →
    ∃ n < w.next, id = .hidden none n ∧ rule.name = hiddenName "__global" n
  parts : ∀ id rule, (id, rule) ∈ w.hidden → ∀ e ∈ rule.parts, ∀ r ∈ e.refs, w.Knows r
  shared : ∀ e ∈ w.shared, ∀ r ∈ e.refs, w.Knows r

theorem sharing_empty (f : RuleFamily) (h : f.isClosed = true) : Sharing (empty f) f.shared where
  closed := (Bool.and_eq_true_iff.mp h).2
  current := rfl
  bodies := rfl
  count := by simp [empty]
  nodup := List.nodup_nil
  hidden := by simp [empty]
  parts := by simp [empty]
  shared := by simp [empty]

theorem Sharing.step {form : Form} {todo : List Form} {e : Expr} (h : Sharing w (form :: todo))
    (hmakes : Makes w (make form) Expr.refs (.ok e) new) (hnew : new.length ≤ form.repetitions) :
    Sharing { w.grow new with shared := w.shared ++ [e] } todo := by
  have hcurrent := h.current
  have hcount := h.count
  rw [Form.repetitionsOf] at hcount
  have hmono {r : RuleRef} (hr : w.Knows r) :
      Knows { w.grow new with shared := w.shared ++ [e] } r :=
    hr.mono rfl fun x hx => List.mem_append_right _ hx
  have hallowed {r : RuleRef} (hr : Allowed w new r) :
      Knows { w.grow new with shared := w.shared ++ [e] } r := by
    cases hr with
    | written i hi heq => exact .written i hi (heq.trans (refTo_written_of_family rfl i))
    | shared x hx hr => exact hmono (h.shared x hx r hr)
    | hidden rule hmem hname => exact .hidden rule (List.mem_append_left _ hmem) hname
  have hseries {id : RuleId} {rule : HiddenRule} (hmem : (id, rule) ∈ new) :
      ∃ k < new.length, id = .hidden none (w.next + k) ∧
        rule.name = hiddenName "__global" (w.next + k) := by
    obtain ⟨⟨k, hk, hid, hname⟩, -⟩ := hmakes.series.mem hmem
    have howner : w.owner = none := by simp [owner, hcurrent]
    have hdefinition : w.definition = "__global" := by simp [definition, hcurrent]
    exact ⟨k, hk, howner ▸ hid, hdefinition ▸ hname⟩
  refine ⟨(Bool.and_eq_true_iff.mp h.closed).2, hcurrent, h.bodies, ?_, ?_, ?_, ?_, ?_⟩
  · simp only [grow_next, grow_family]
    omega
  · rw [show ({ w.grow new with shared := w.shared ++ [e] } : Workshop).hidden = new ++ w.hidden from rfl,
      List.map_append]
    refine List.nodup_append.mpr ⟨hmakes.series.nodup, h.nodup, ?_⟩
    -- The numbers of the new ones go on behind those of the old ones.
    intro id hid id' hid' heq
    obtain ⟨⟨id, rule⟩, hmem, rfl⟩ := List.mem_map.mp hid
    obtain ⟨⟨id', rule'⟩, hmem', rfl⟩ := List.mem_map.mp hid'
    obtain ⟨k, -, hk, -⟩ := hseries hmem
    obtain ⟨n, hn, hn', -⟩ := h.hidden id' rule' hmem'
    obtain rfl : id = id' := heq
    obtain ⟨-, hserial⟩ := RuleId.hidden.inj (hk.symm.trans hn')
    omega
  · intro id rule hmem
    rcases List.mem_append.mp hmem with hmem | hmem
    · obtain ⟨k, hk, hid, hname⟩ := hseries hmem
      exact ⟨w.next + k, by simp only [grow_next]; omega, hid, hname⟩
    · obtain ⟨n, hn, hid, hname⟩ := h.hidden id rule hmem
      exact ⟨n, by simp only [grow_next]; omega, hid, hname⟩
  · intro id rule hmem x hx r hr
    rcases List.mem_append.mp hmem with hmem | hmem
    · exact hallowed ((hmakes.series.mem hmem).2 x hx r hr)
    · exact hmono (h.parts id rule hmem x hx r hr)
  · intro x hx r hr
    rcases List.mem_append.mp hx with hx | hx
    · exact hmono (h.shared x hx r hr)
    · obtain rfl := List.mem_singleton.mp hx
      exact hallowed (hmakes.allowed _ rfl r hr)

theorem Sharing.all {todo : List Form} (h : Sharing w todo) (hok : shareAll todo w = (.ok (), w')) :
    Sharing w' [] ∧ w'.family = w.family := by
  induction todo generalizing w with
  | nil =>
    obtain rfl := (Prod.mk.inj hok).2
    exact ⟨h, rfl⟩
  | cons form todo ih =>
    have hplain : w.Plain := by simp [Plain, h.current]
    obtain ⟨result, new, hmakes, hnew⟩ :=
      make_works form w hplain (Bool.and_eq_true_iff.mp h.closed).1
    rw [shareAll, hmakes.run w ⟨rfl, rfl, rfl, rfl⟩] at hok
    cases result with
    | error e => cases hok
    | ok e =>
      obtain ⟨hsharing, hfamily⟩ := ih (h.step hmakes hnew) hok
      exact ⟨hsharing, hfamily⟩

/-- A workshop that a family is taken up in. -/
theorem base_of_ofFamily {f : RuleFamily} (hclosed : f.isClosed = true) (h : ofFamily f = .ok w) :
    w.Base ∧ w.family = f := by
  unfold ofFamily at h
  split at h
  · cases h
  · rename_i w' hall
    cases h
    obtain ⟨hsharing, hfamily⟩ := (sharing_empty f hclosed).all hall
    have hf : w.family = f := hfamily
    refine ⟨⟨hf ▸ hclosed, hsharing.current, hsharing.bodies, hsharing.nodup, ?_, hsharing.parts,
      hsharing.shared⟩, hf⟩
    intro id rule hmem
    obtain ⟨n, hn, hid, hname⟩ := hsharing.hidden id rule hmem
    have hcount := hsharing.count
    rw [Form.repetitionsOf] at hcount
    exact ⟨n, by omega, hid, hname⟩

end Slr.Workshop
