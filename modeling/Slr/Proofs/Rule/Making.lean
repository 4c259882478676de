import Slr.Proofs.Association
import Slr.Rule.Gather

/-! # What is made of a form

What a form becomes depends on the rules and shared expressions of the workshop, on whose
body is being made and on how many hidden rules were made there, and on nothing else: in
workshops that agree on these, the same expression is made, or the same error, and the
same hidden rules. These come one after the other with the numbers that follow, and what
is made mentions only written rules, what shared expressions mention, and them. -/

namespace Slr

namespace Expr

/-- The rules that an expression mentions. -/
def refs : Expr → List RuleRef
  | nothing | terminal _ => []
  | rule r => [r]
  | either a b | both a b => a.refs ++ b.refs
  | act e _ => e.refs

variable {e : Expr} {es : List Expr} {r : RuleRef} {a : Alternative} {alternatives : List Alternative}

theorem refs_foldl_either (e : Expr) (es : List Expr) :
    (es.foldl either e).refs = e.refs ++ es.flatMap refs := by
  induction es generalizing e with
  | nil => simp
  | cons e' es ih => simp [ih, refs]

theorem refs_foldl_both (e : Expr) (es : List Expr) :
    (es.foldl both e).refs = e.refs ++ es.flatMap refs := by
  induction es generalizing e with
  | nil => simp
  | cons e' es ih => simp [ih, refs]

theorem refs_choice (h : choice es = .ok e) : e.refs = es.flatMap refs := by
  cases es with
  | nil => cases h
  | cons e' es =>
    cases h
    simp [refs_foldl_either]

theorem refs_sequence (h : sequence es = .ok e) : e.refs = es.flatMap refs := by
  cases es with
  | nil => cases h
  | cons e' es =>
    cases h
    simp [refs_foldl_both]

theorem parts_of_join {x y : Alternative} (h : join x y = .ok a) : a.parts = x.parts ++ y.parts := by
  unfold join at h
  split at h
  · cases h
  · cases h
    rfl

theorem parts_of_attach {action : Action} {x : Alternative} (h : attach action x = .ok a) :
    a.parts = x.parts := by
  unfold attach at h
  split at h
  · cases h
  · cases h
    rfl

/-- An alternative mentions what its expression mentions. -/
theorem mem_refs_of_flatten (h : .ok a ∈ e.flatten) (hr : .rule r ∈ a.parts) : r ∈ e.refs := by
  induction e generalizing a with
  | nothing =>
    obtain rfl := Except.ok.inj (List.mem_singleton.mp h)
    cases hr
  | terminal name =>
    obtain rfl := Except.ok.inj (List.mem_singleton.mp h)
    simp at hr
  | rule s =>
    obtain rfl := Except.ok.inj (List.mem_singleton.mp h)
    simpa [refs] using hr
  | either x y ihx ihy =>
    rcases List.mem_append.mp h with h | h
    · exact List.mem_append_left _ (ihx h hr)
    · exact List.mem_append_right _ (ihy h hr)
  | both x y ihx ihy =>
    obtain ⟨found, hfound, h⟩ := List.mem_flatMap.mp h
    cases found with
    | error err => simp at h
    | ok b =>
      obtain ⟨found', hfound', hjoin⟩ := List.mem_map.mp h
      cases found' with
      | error err => cases hjoin
      | ok c =>
        rw [parts_of_join hjoin] at hr
        rcases List.mem_append.mp hr with hr | hr
        · exact List.mem_append_left _ (ihx hfound hr)
        · exact List.mem_append_right _ (ihy hfound' hr)
  | act x action ih =>
    obtain ⟨found, hfound, hattach⟩ := List.mem_map.mp h
    cases found with
    | error err => cases hattach
    | ok b => exact ih hfound (parts_of_attach hattach ▸ hr)

theorem collect_eq_ok_iff {found : List Found} :
    collect found = .ok alternatives ↔ found = alternatives.map .ok := by
  induction found generalizing alternatives with
  | nil => cases alternatives <;> simp [collect]
  | cons x found ih =>
    cases x with
    | error err => cases alternatives <;> simp [collect]
    | ok a =>
      rw [collect, Draft.map_eq_ok]
      simp only [ih]
      constructor
      · intro h
        obtain ⟨rest, rfl, rfl⟩ := h
        rfl
      · intro h
        cases alternatives with
        | nil => cases h
        | cons b rest =>
          obtain ⟨hb, hrest⟩ := List.cons.inj h
          cases hb
          exact ⟨rest, hrest, rfl⟩

theorem error_of_collect {found : List Found} {e : GrammarError} (h : collect found = .error e) :
    .error e ∈ found := by
  induction found with
  | nil => cases h
  | cons x found ih =>
    cases x with
    | error err =>
      obtain rfl := Except.error.inj h
      exact List.mem_cons_self
    | ok a =>
      rw [collect] at h
      cases hrest : collect found with
      | ok rest => simp [hrest, Except.map] at h
      | error err =>
        rw [hrest] at h
        obtain rfl := Except.error.inj h
        exact List.mem_cons_of_mem _ (ih hrest)

theorem flatten_ne_nil (e : Expr) : e.flatten ≠ [] := by
  induction e with
  | nothing | terminal | rule => simp [flatten]
  | either a b iha => simp [flatten, iha]
  | both a b iha ihb =>
    obtain ⟨x, hx⟩ := List.exists_mem_of_ne_nil _ iha
    simp only [flatten, ne_eq, List.flatMap_eq_nil_iff, not_forall]
    refine ⟨x, hx, ?_⟩
    cases x with
    | error error => simp
    | ok x => simpa using ihb
  | act e action ih => simpa [flatten] using ih

theorem mem_refs_of_mentioned (h : e.alternatives = .ok alternatives)
    (hr : r ∈ Workshop.mentioned alternatives) : r ∈ e.refs := by
  obtain ⟨a, ha, hr⟩ := List.mem_flatMap.mp hr
  obtain ⟨part, hpart, hr⟩ := List.mem_filterMap.mp hr
  cases part with
  | terminal name => cases hr
  | rule s =>
    cases hr
    exact mem_refs_of_flatten (collect_eq_ok_iff.mp h ▸ List.mem_map_of_mem ha) hpart

end Expr

/-! ## Forms that refer to rules there are -/

mutual

/-- Whether a form mentions only the first `n` rules. -/
def Form.isClosed (n : Nat) : Form → Bool
  | .nothing | .terminal _ | .shared _ => true
  | .rule i => i < n
  | .choice parts | .sequence parts => Form.areClosed n parts
  | .act form _ | .actWith form _ => form.isClosed n
  | .repeated _ parts => Form.areClosed n parts

def Form.areClosed (n : Nat) : List Form → Bool
  | [] => true
  | form :: rest => form.isClosed n && Form.areClosed n rest

end

/-- Whether all rules that are mentioned are there. -/
def RuleFamily.isClosed (f : RuleFamily) : Bool :=
  Form.areClosed f.rules.length (f.rules.map WrittenRule.form) &&
    Form.areClosed f.rules.length f.shared

namespace Workshop

/-! ## Workshops in which the same is made -/

/-- Workshops with the same at hand for making expressions. -/
structure Agrees (w w' : Workshop) : Prop where
  family : w'.family = w.family
  shared : w'.shared = w.shared
  current : w'.current = w.current
  next : w'.next = w.next

/-- No body of a hidden rule is being made. -/
def Plain (w : Workshop) : Prop := ∀ owner serial, w.current ≠ some (.hidden owner serial)

/-- A workshop in which hidden rules were made, the last first. -/
def grow (w : Workshop) (new : List (RuleId × HiddenRule)) : Workshop :=
  { w with next := w.next + new.length, hidden := new ++ w.hidden }

def hiddenName (definition : String) (serial : Nat) : String :=
  "__gen_" ++ definition ++ "_" ++ toString serial

/-- A rule that something made in a workshop may mention. -/
inductive Allowed (w : Workshop) (new : List (RuleId × HiddenRule)) (r : RuleRef) : Prop where
  | written (i : Nat) (hi : i < w.family.rules.length) (h : r = w.refTo (.written i))
  | shared (e : Expr) (he : e ∈ w.shared) (h : r ∈ e.refs)
  | hidden (h : HiddenRule) (hmem : (r.id, h) ∈ new) (hname : h.name = r.name)

/-- Hidden rules made one after the other, the last first. -/
inductive Series (w : Workshop) : List (RuleId × HiddenRule) → Prop where
  | nil : Series w []
  | cons {new : List (RuleId × HiddenRule)} (tail : Series w new) (repetition : Repetition)
      (parts : List Expr) (hparts : ∀ e ∈ parts, ∀ r ∈ e.refs, Allowed w new r) :
      Series w ((.hidden w.owner (w.next + new.length),
        ⟨hiddenName w.definition (w.next + new.length), repetition, parts⟩) :: new)

/-- In all workshops that agree with this one, `m` gives this result and makes these hidden
rules. -/
structure Makes {α : Type} (w : Workshop) (m : Workshop → Made α) (refs : α → List RuleRef)
    (result : Except GrammarError α) (new : List (RuleId × HiddenRule)) : Prop where
  run : ∀ w', Agrees w w' → m w' = (result, w'.grow new)
  series : Series w new
  allowed : ∀ a, result = .ok a → ∀ r ∈ refs a, Allowed w new r

variable {w w' : Workshop} {new new' : List (RuleId × HiddenRule)} {r : RuleRef} {α β : Type}

@[simp] theorem grow_nil (w : Workshop) : w.grow [] = w := rfl

@[simp] theorem grow_family : (w.grow new).family = w.family := rfl

@[simp] theorem grow_shared : (w.grow new).shared = w.shared := rfl

@[simp] theorem grow_current : (w.grow new).current = w.current := rfl

@[simp] theorem grow_next : (w.grow new).next = w.next + new.length := rfl

@[simp] theorem grow_owner : (w.grow new).owner = w.owner := rfl

theorem grow_grow : (w.grow new).grow new' = w.grow (new' ++ new) := by
  simp [grow, Nat.add_assoc, Nat.add_comm]

theorem refTo_written_of_family (h : w'.family = w.family) (i : Nat) :
    w'.refTo (.written i) = w.refTo (.written i) := by
  simp [refTo, nameOf, h]

theorem definition_of_plain (hplain : w.Plain) (hfamily : w'.family = w.family)
    (hcurrent : w'.current = w.current) : w'.definition = w.definition := by
  unfold definition
  rw [hcurrent]
  split
  · rfl
  · rename_i id hid
    cases id with
    | written i => exact congrArg RuleRef.name (refTo_written_of_family hfamily i)
    | hidden owner serial => exact absurd hid (hplain owner serial)

theorem Agrees.grow (h : Agrees w w') (new : List (RuleId × HiddenRule)) :
    Agrees (w.grow new) (w'.grow new) :=
  ⟨h.family, h.shared, h.current, congrArg (· + new.length) h.next⟩

theorem Allowed.append (h : Allowed (w.grow new) new' r) : Allowed w (new' ++ new) r := by
  cases h with
  | written i hi heq => exact .written i hi (heq.trans (refTo_written_of_family rfl i))
  | shared e he hr => exact .shared e he hr
  | hidden rule hmem hname => exact .hidden rule (List.mem_append_left _ hmem) hname

theorem Allowed.mono (h : Allowed w new r) (new' : List (RuleId × HiddenRule)) :
    Allowed w (new' ++ new) r := by
  cases h with
  | written i hi heq => exact .written i hi heq
  | shared e he hr => exact .shared e he hr
  | hidden rule hmem hname => exact .hidden rule (List.mem_append_right _ hmem) hname

theorem Series.append (hplain : w.Plain) (h : Series w new) (h' : Series (w.grow new) new') :
    Series w (new' ++ new) := by
  induction h' with
  | nil => exact h
  | @cons new' tail repetition parts hparts ih =>
    have hcons := ih.cons repetition parts fun e he r hr => (hparts e he r hr).append
    have hdefinition : (w.grow new).definition = w.definition := definition_of_plain hplain rfl rfl
    have hnext : (w.grow new).next + new'.length = w.next + (new' ++ new).length := by
      simp [Nat.add_assoc, Nat.add_comm]
    rw [List.cons_append, grow_owner, hdefinition, hnext]
    exact hcons

/-- What is known of each hidden rule of a series. -/
theorem Series.mem (h : Series w new) {id : RuleId} {rule : HiddenRule} (hmem : (id, rule) ∈ new) :
    (∃ k < new.length, id = .hidden w.owner (w.next + k) ∧
      rule.name = hiddenName w.definition (w.next + k)) ∧
    ∀ e ∈ rule.parts, ∀ r ∈ e.refs, Allowed w new r := by
  induction h with
  | nil => cases hmem
  | @cons new tail repetition parts hparts ih =>
    rcases List.mem_cons.mp hmem with heq | hmem
    · obtain ⟨rfl, rfl⟩ := Prod.mk.inj heq
      exact ⟨⟨new.length, Nat.lt_succ_self _, rfl, rfl⟩, fun e he r hr => (hparts e he r hr).mono [_]⟩
    · obtain ⟨⟨k, hk, hid, hname⟩, hallowed⟩ := ih hmem
      exact ⟨⟨k, Nat.lt_succ_of_lt hk, hid, hname⟩, fun e he r hr => (hallowed e he r hr).mono [_]⟩

theorem Series.nodup (h : Series w new) : (new.map Prod.fst).Nodup := by
  induction h with
  | nil => exact List.nodup_nil
  | @cons new tail repetition parts hparts ih =>
    refine List.nodup_cons.mpr ⟨?_, ih⟩
    intro hmem
    obtain ⟨⟨id, rule⟩, hrule, hid⟩ := List.mem_map.mp hmem
    obtain ⟨⟨k, hk, hid', -⟩, -⟩ := tail.mem hrule
    obtain rfl : id = .hidden w.owner (w.next + new.length) := hid
    obtain ⟨-, hserial⟩ := RuleId.hidden.inj hid'
    omega

namespace Makes

variable {m : Workshop → Made α} {refs : α → List RuleRef} {refs' : β → List RuleRef}
  {result : Except GrammarError β} {a : α} {e : GrammarError}

/-- One thing made after the other. -/
def andThen (m : Workshop → Made α) (k : α → Workshop → Made β) (w : Workshop) : Made β :=
  match m w with
  | (.error e, w) => (.error e, w)
  | (.ok a, w) => k a w

theorem andThen_error (h : Makes w m refs (.error e) new) (k : α → Workshop → Made β) :
    Makes w (andThen m k) refs' (.error e) new where
  run := fun w' hw => by rw [andThen, h.run w' hw]
  series := h.series
  allowed := by simp

theorem andThen_ok (hplain : w.Plain) (h : Makes w m refs (.ok a) new) {k : α → Workshop → Made β}
    (hk : Makes (w.grow new) (k a) refs' result new') :
    Makes w (andThen m k) refs' result (new' ++ new) where
  run := fun w' hw => by
    rw [andThen, h.run w' hw]
    exact (hk.run _ (hw.grow new)).trans (by rw [grow_grow])
  series := h.series.append hplain hk.series
  allowed := fun b hb r hr => (hk.allowed b hb r hr).append

/-- What is not new mentions what it is made of. -/
theorem andThen_pure (h : Makes w m refs (.ok a) new)
    (f : α → Except GrammarError β) (hrefs : ∀ b, f a = .ok b → ∀ r ∈ refs' b, r ∈ refs a) :
    Makes w (andThen m fun a w => (f a, w)) refs' (f a) new where
  run := fun w' hw => by rw [andThen, h.run w' hw]
  series := h.series
  allowed := fun b hb r hr => h.allowed a rfl r (hrefs b hb r hr)

theorem of_pure {refs : α → List RuleRef} (h : ∀ r ∈ refs a, Allowed w [] r) :
    Makes w (fun w => (.ok a, w)) refs (.ok a) [] where
  run := fun _ _ => rfl
  series := .nil
  allowed := fun b hb r hr => by
    cases hb
    exact h r hr

theorem generate (hplain : w.Plain) (repetition : Repetition) {m : Workshop → Made (List Expr)}
    {es : List Expr} (h : Makes w m (List.flatMap Expr.refs) (.ok es) new) :
    Makes w (andThen m fun es w => (.ok (.rule (w.generate repetition es).1),
        (w.generate repetition es).2)) Expr.refs
      (.ok (.rule ⟨.hidden w.owner (w.next + new.length),
        hiddenName w.definition (w.next + new.length)⟩))
      ((.hidden w.owner (w.next + new.length),
        ⟨hiddenName w.definition (w.next + new.length), repetition, es⟩) :: new) where
  run := fun w' hw => by
    have hdefinition : (w'.grow new).definition = w.definition :=
      definition_of_plain hplain hw.family hw.current
    have howner : (w'.grow new).owner = w.owner := by simp [owner, hw.current]
    simp only [andThen, h.run w' hw, Workshop.generate, hdefinition, howner, grow_next, hw.next]
    simp [grow, hw.next, hiddenName, Nat.add_assoc]
  series := h.series.cons repetition es fun e he r hr =>
    h.allowed es rfl r (List.mem_flatMap.mpr ⟨e, he, hr⟩)
  allowed := fun b hb r hr => by
    cases hb
    obtain rfl := List.mem_singleton.mp hr
    exact .hidden _ List.mem_cons_self rfl

theorem cons (hplain : w.Plain) {m : Workshop → Made Expr} {x : Expr}
    (h : Makes w m Expr.refs (.ok x) new) {k : Workshop → Made (List Expr)} {xs : List Expr}
    (hk : Makes (w.grow new) k (List.flatMap Expr.refs) (.ok xs) new') :
    Makes w (andThen m fun x => andThen k fun xs w => (.ok (x :: xs), w)) (List.flatMap Expr.refs)
      (.ok (x :: xs)) (new' ++ new) where
  run := fun w' hw => by
    rw [andThen, h.run w' hw]
    simp only [andThen, hk.run _ (hw.grow new), grow_grow]
  series := h.series.append hplain hk.series
  allowed := fun ys hys r hr => by
    cases hys
    rcases List.mem_append.mp hr with hr | hr
    · exact (h.allowed x rfl r hr).mono new'
    · exact (hk.allowed xs rfl r hr).append

end Makes

/-- What is made is the same in all workshops that agree, and few hidden rules are made. -/
def Works (w : Workshop) (m : Workshop → Made α) (refs : α → List RuleRef) (bound : Nat) : Prop :=
  ∃ result new, Makes w m refs result new ∧ new.length ≤ bound

theorem Works.andThen_pure {m : Workshop → Made α} {refs : α → List RuleRef} {bound : Nat}
    (h : Works w m refs bound) {refs' : β → List RuleRef} (f : α → Except GrammarError β)
    (hrefs : ∀ a b, f a = .ok b → ∀ r ∈ refs' b, r ∈ refs a) :
    Works w (Makes.andThen m fun a w => (f a, w)) refs' bound := by
  obtain ⟨result, new, hmakes, hnew⟩ := h
  cases result with
  | error e => exact ⟨_, new, hmakes.andThen_error _, hnew⟩
  | ok a => exact ⟨_, new, hmakes.andThen_pure f (hrefs a), hnew⟩

section

variable (parts : List Form) (form : Form) (rest : List Form)

theorem make_choice : make (.choice parts) =
    Makes.andThen (makeAll parts) fun es w => (Expr.choice es, w) := by
  funext w
  rw [make, Makes.andThen]
  rcases makeAll parts w with ⟨_ | _, _⟩ <;> rfl

theorem make_sequence : make (.sequence parts) =
    Makes.andThen (makeAll parts) fun es w => (Expr.sequence es, w) := by
  funext w
  rw [make, Makes.andThen]
  rcases makeAll parts w with ⟨_ | _, _⟩ <;> rfl

theorem make_act (action : Action) : make (.act form action) =
    Makes.andThen (make form) fun e w => (.ok (.act e action), w) := by
  funext w
  rw [make, Makes.andThen]
  rcases make form w with ⟨_ | _, _⟩ <;> rfl

theorem make_actWith (value : Value) : make (.actWith form value) =
    Makes.andThen (make form) fun _ w => (.error (.notCallable value), w) := by
  funext w
  rw [make, Makes.andThen]
  rcases make form w with ⟨_ | _, _⟩ <;> rfl

theorem make_repeated (repetition : Repetition) : make (.repeated repetition parts) =
    Makes.andThen (makeAll parts) fun es w =>
      (.ok (.rule (w.generate repetition es).1), (w.generate repetition es).2) := by
  funext w
  rw [make, Makes.andThen]
  rcases makeAll parts w with ⟨_ | _, _⟩ <;> rfl

theorem makeAll_cons : makeAll (form :: rest) = Makes.andThen (make form) fun e =>
    Makes.andThen (makeAll rest) fun es w => (.ok (e :: es), w) := by
  funext w
  rw [makeAll, Makes.andThen]
  rcases make form w with ⟨_ | _, w'⟩
  · rfl
  · simp only [Makes.andThen]
    rcases makeAll rest w' with ⟨_ | _, _⟩ <;> rfl

end

mutual

theorem make_works : (form : Form) → (w : Workshop) → w.Plain →
    form.isClosed w.family.rules.length = true → Works w (make form) Expr.refs form.repetitions
  | .nothing, _, _, _ => ⟨_, [], .of_pure (by simp [Expr.refs]), Nat.le_refl _⟩
  | .terminal name, _, _, _ => ⟨_, [], .of_pure (by simp [Expr.refs]), Nat.le_refl _⟩
  | .rule i, w, _, hclosed =>
    have hi : i < w.family.rules.length := of_decide_eq_true hclosed
    ⟨.ok (.rule (w.refTo (.written i))), [],
      { run := fun w' hw => by rw [make, refTo_written_of_family hw.family, grow_nil]
        series := .nil
        allowed := fun e he r hr => by
          cases he
          exact .written i hi (List.mem_singleton.mp hr) }, Nat.le_refl _⟩
  | .shared i, w, _, _ =>
    ⟨.ok ((w.shared[i]?).getD .nothing), [],
      { run := fun w' hw => by rw [make, hw.shared, grow_nil]
        series := .nil
        allowed := fun e he r hr => by
          cases he
          cases hi : w.shared[i]? with
          | none => simp [hi, Expr.refs] at hr
          | some e => exact .shared e (List.mem_of_getElem? hi) (by simpa [hi] using hr) },
      Nat.le_refl _⟩
  | .choice parts, w, hplain, hclosed => by
    rw [make_choice, Form.repetitions]
    exact (makeAll_works parts w hplain hclosed).andThen_pure Expr.choice
      fun _ _ h r hr => Expr.refs_choice h ▸ hr
  | .sequence parts, w, hplain, hclosed => by
    rw [make_sequence, Form.repetitions]
    exact (makeAll_works parts w hplain hclosed).andThen_pure Expr.sequence
      fun _ _ h r hr => Expr.refs_sequence h ▸ hr
  | .act form action, w, hplain, hclosed => by
    rw [make_act, Form.repetitions]
    refine (make_works form w hplain hclosed).andThen_pure (fun e => .ok (Expr.act e action)) ?_
    intro e b h r hr
    cases h
    exact hr
  | .actWith form value, w, hplain, hclosed => by
    rw [make_actWith, Form.repetitions]
    refine (make_works form w hplain hclosed).andThen_pure (fun _ => .error (.notCallable value)) ?_
    intro e b h
    cases h
  | .repeated repetition parts, w, hplain, hclosed => by
    obtain ⟨result, new, hmakes, hnew⟩ := makeAll_works parts w hplain hclosed
    rw [make_repeated, Form.repetitions]
    cases result with
    | error e => exact ⟨_, new, hmakes.andThen_error _, Nat.le_succ_of_le hnew⟩
    | ok es =>
      exact ⟨_, _, hmakes.generate hplain repetition, Nat.succ_le_succ hnew⟩

theorem makeAll_works : (forms : List Form) → (w : Workshop) → w.Plain →
    Form.areClosed w.family.rules.length forms = true →
    Works w (makeAll forms) (List.flatMap Expr.refs) (Form.repetitionsOf forms)
  | [], _, _, _ => ⟨_, [], .of_pure (by simp), Nat.le_refl _⟩
  | form :: rest, w, hplain, hclosed => by
    obtain ⟨hfirst, hlater⟩ := Bool.and_eq_true_iff.mp hclosed
    obtain ⟨result, new, hmakes, hnew⟩ := make_works form w hplain hfirst
    rw [makeAll_cons, Form.repetitionsOf]
    cases result with
    | error e => exact ⟨_, new, hmakes.andThen_error _, Nat.le_add_right_of_le hnew⟩
    | ok e =>
      obtain ⟨result', new', hrest, hnew'⟩ := makeAll_works rest (w.grow new) hplain hlater
      have hlength : (new' ++ new).length ≤ form.repetitions + Form.repetitionsOf rest := by
        rw [List.length_append]
        omega
      cases result' with
      | error err => exact ⟨_, _, hmakes.andThen_ok hplain (hrest.andThen_error _), hlength⟩
      | ok es => exact ⟨_, _, hmakes.cons hplain hrest, hlength⟩

end

end Workshop

end Slr
