import Slr.Proofs.Derivation.Tree
import Slr.Rule.Memory

/-! # Trees with their lists in memory

A tree is run as it is evaluated, with actions that make lists in memory and change them
there. The first cells are those that actions have of their own, from before and for what
they remember. Any other list they can get at only if they are handed it, or something that
holds it, or if another list does; an action is careful if it keeps to this. Then a list that
nothing holds is left alone by all that is run. -/

namespace Slr

open ParseTree

namespace Thing

mutual

/-- The cells that a thing holds. -/
def cells : Thing → List Nat
  | plain _ => []
  | list cell => [cell]
  | tuple things | tree _ things => cellsOf things

def cellsOf : List Thing → List Nat
  | [] => []
  | t :: ts => cells t ++ cellsOf ts

end

variable {t : Thing} {ts : List Thing} {c : Nat}

@[simp] theorem cellsOf_append (ts us : List Thing) : cellsOf (ts ++ us) = cellsOf ts ++ cellsOf us := by
  induction ts with
  | nil => rfl
  | cons t ts ih => simp [cellsOf, ih]

@[simp] theorem cellsOf_singleton (t : Thing) : cellsOf [t] = t.cells := by simp [cellsOf]

@[simp] theorem cells_itemOf (ts : List Thing) : (Deed.itemOf ts).cells = cellsOf ts := by
  unfold Deed.itemOf
  split
  · simp
  · rfl

end Thing

namespace Memory

/-- All cells that are held somewhere are there. -/
structure Tidy (m : Memory) (things : List Thing) : Prop where
  things : ∀ c ∈ Thing.cellsOf things, c < m.length
  lists : ∀ items ∈ m, ∀ c ∈ Thing.cellsOf items, c < m.length

/-- It is none of the first `own` lists, and no list holds it. -/
structure Lone (own : Nat) (m : Memory) (c : Nat) : Prop where
  new : own ≤ c
  there : c < m.length
  lists : ∀ items ∈ m, c ∉ Thing.cellsOf items

/-- From what was handed over something has come, and no list was touched that could not be. -/
structure Careful (own : Nat) (m : Memory) (handed : List Thing) (m' : Memory)
    (given : List Thing) : Prop where
  grows : m.length ≤ m'.length
  tidy : m.Tidy handed → m'.Tidy given
  spares : ∀ c, Lone own m c → c ∉ Thing.cellsOf handed →
    Lone own m' c ∧ c ∉ Thing.cellsOf given ∧ m'[c]? = m[c]?

variable {own : Nat} {m m' m₁ m₂ : Memory} {handed given things rest : List Thing} {t : Thing} {c : Nat}

namespace Careful

theorem nothing (own : Nat) (m : Memory) : Careful own m handed m [] where
  grows := Nat.le_refl _
  tidy := fun h => ⟨by simp [Thing.cellsOf], h.lists⟩
  spares := fun c hlone _ => ⟨hlone, by simp [Thing.cellsOf], rfl⟩

/-- What was handed over is handed on. -/
theorem handed_on (h : ∀ c ∈ t.cells, c ∈ Thing.cellsOf handed) : Careful own m handed m [t] where
  grows := Nat.le_refl _
  tidy := fun htidy => ⟨fun c hc => htidy.things c (h c (by simpa using hc)), htidy.lists⟩
  spares := fun c hlone hc => ⟨hlone, fun hmem => hc (h c (by simpa using hmem)), rfl⟩

theorem trans (h : Careful own m handed m₁ things) (h' : Careful own m₁ things m₂ given) :
    Careful own m handed m₂ given where
  grows := Nat.le_trans h.grows h'.grows
  tidy := fun htidy => h'.tidy (h.tidy htidy)
  spares := fun c hlone hc => by
    obtain ⟨hlone₁, hc₁, hsame₁⟩ := h.spares c hlone hc
    obtain ⟨hlone₂, hc₂, hsame₂⟩ := h'.spares c hlone₁ hc₁
    exact ⟨hlone₂, hc₂, hsame₂.trans hsame₁⟩

/-- One thing after the other. -/
theorem cons (h : Careful own m [] m₁ [t]) (h' : Careful own m₁ [] m₂ rest) :
    Careful own m [] m₂ (t :: rest) where
  grows := Nat.le_trans h.grows h'.grows
  tidy := fun htidy => by
    have htidy₁ := h.tidy htidy
    have htidy₂ := h'.tidy ⟨by simp [Thing.cellsOf], htidy₁.lists⟩
    refine ⟨?_, htidy₂.lists⟩
    intro c hc
    rcases List.mem_append.mp hc with hc | hc
    · exact Nat.lt_of_lt_of_le (htidy₁.things c (by simpa using hc)) h'.grows
    · exact htidy₂.things c hc
  spares := fun c hlone hc => by
    obtain ⟨hlone₁, hc₁, hsame₁⟩ := h.spares c hlone hc
    obtain ⟨hlone₂, hc₂, hsame₂⟩ := h'.spares c hlone₁ hc
    refine ⟨hlone₂, ?_, hsame₂.trans hsame₁⟩
    rw [Thing.cellsOf, List.mem_append, not_or]
    exact ⟨by simpa using hc₁, hc₂⟩

end Careful

end Memory

/-- An action that gets at no list but those it can. -/
def Deed.Careful (own : Nat) (d : Deed) : Prop :=
  ∀ handed m t m', d handed m = .ok (t, m') → Memory.Careful own m handed m' [t]

/-! ## The actions of repetitions -/

namespace Deed

variable {own : Nat} {handed things : List Thing} {m : Memory} {c : Nat}

/-- A list in a new cell, of things that were handed over. -/
theorem careful_newList (h : ∀ c ∈ Thing.cellsOf things, c ∈ Thing.cellsOf handed) :
    Memory.Careful own m handed (newList things m).2 [(newList things m).1] where
  grows := by simp [newList]
  tidy := fun htidy => by
    refine ⟨by simp [newList, Thing.cells], ?_⟩
    intro items hitems c hc
    simp only [newList, List.length_append, List.length_singleton]
    rcases List.mem_append.mp hitems with hitems | hitems
    · exact Nat.lt_succ_of_lt (htidy.lists items hitems c hc)
    · obtain rfl := List.mem_singleton.mp hitems
      exact Nat.lt_succ_of_lt (htidy.things c (h c hc))
  spares := fun c hlone hc => by
    have hthere := hlone.there
    refine ⟨⟨hlone.new, by simp [newList]; omega, ?_⟩, by simp [newList, Thing.cells]; omega, ?_⟩
    · intro items hitems
      rcases List.mem_append.mp hitems with hitems | hitems
      · exact hlone.lists items hitems
      · obtain rfl := List.mem_singleton.mp hitems
        exact fun hmem => hc (h c hmem)
    · exact List.getElem?_append_left hthere

theorem careful_list : Careful own list := by
  intro handed m t m' h
  cases h
  exact careful_newList fun c hc => hc

theorem careful_startList : Careful own startList := by
  intro handed m t m' h
  cases h
  exact careful_newList fun c hc => by simpa using hc

theorem careful_node (name : String) : Careful own (node name) := by
  intro handed m t m' h
  cases h
  exact .handed_on fun c hc => by simpa [Thing.cells] using hc

theorem careful_constant (v : Value) : Careful own (constant v) := by
  intro handed m t m' h
  cases h
  exact .handed_on fun c hc => by simp [Thing.cells] at hc

theorem careful_item : Careful own item := by
  intro handed m t m' h
  cases h
  exact .handed_on fun c hc => by simpa using hc

theorem extendList_eq_ok_iff {t : Thing} {m' : Memory} : extendList handed m = .ok (t, m') ↔
    ∃ cell rest items, handed = .list cell :: rest ∧ m[cell]? = some items ∧ t = .list cell ∧
      m' = m.set cell (items ++ [itemOf rest]) := by
  constructor
  · intro h
    unfold extendList at h
    split at h
    · cases h
    · split at h
      · split at h
        · cases h
          exact ⟨_, _, _, rfl, ‹_›, rfl, rfl⟩
        · cases h
      · cases h
  · intro h
    obtain ⟨cell, rest, items, rfl, hitems, rfl, rfl⟩ := h
    simp [extendList, hitems]

/-- What the lists hold after one was extended, some list held before, or was handed over. -/
theorem held_of_extended {P : Nat → Prop} {cell : Nat} {items rest : List Thing} (hold : items ∈ m)
    (hlists : ∀ list ∈ m, ∀ c ∈ Thing.cellsOf list, P c) (hrest : ∀ c ∈ Thing.cellsOf rest, P c) :
    ∀ list ∈ m.set cell (items ++ [itemOf rest]), ∀ c ∈ Thing.cellsOf list, P c := by
  intro list hlist c hc
  rcases List.mem_or_eq_of_mem_set hlist with hlist | rfl
  · exact hlists list hlist c hc
  · rw [Thing.cellsOf_append, Thing.cellsOf_singleton, Thing.cells_itemOf] at hc
    rcases List.mem_append.mp hc with hc | hc
    · exact hlists items hold c hc
    · exact hrest c hc

/-- A list that was not handed over is held by no more lists when one is extended. -/
theorem lone_of_extended {cell : Nat} {items rest : List Thing} (h : Memory.Lone own m c) (hold : items ∈ m)
    (hrest : c ∉ Thing.cellsOf rest) : Memory.Lone own (m.set cell (items ++ [itemOf rest])) c where
  new := h.new
  there := by simpa using h.there
  lists := fun list hlist hc => held_of_extended (P := (· ≠ c)) hold
    (fun list hlist d hd heq => h.lists list hlist (heq ▸ hd)) (fun d hd heq => hrest (heq ▸ hd))
    list hlist c hc rfl

theorem careful_extendList : Careful own extendList := by
  intro handed m t m' h
  obtain ⟨cell, rest, items, rfl, hitems, rfl, rfl⟩ := extendList_eq_ok_iff.mp h
  have hold : items ∈ m := List.mem_of_getElem? hitems
  have hcells (c : Nat) : c ∈ Thing.cellsOf (.list cell :: rest) ↔ c = cell ∨ c ∈ Thing.cellsOf rest := by
    simp [Thing.cellsOf, Thing.cells]
  refine ⟨by simp, ?_, ?_⟩
  · intro htidy
    have hcell := htidy.things cell (by simp [hcells])
    refine ⟨by simpa [Thing.cells] using hcell, ?_⟩
    rw [List.length_set]
    exact held_of_extended hold htidy.lists fun c hc => htidy.things c (by simp [hcells, hc])
  · intro c hlone hc
    rw [hcells, not_or] at hc
    exact ⟨lone_of_extended hlone hold hc.2, by simpa [Thing.cells] using hc.1,
      List.getElem?_set_ne (Ne.symm hc.1)⟩

end Deed

/-! ## Running -/

namespace ParseTree

mutual

/-- Runs a tree, the children of a node first. -/
def run (deeds : Production → Deed) : ParseTree → Memory → Except Fault (Thing × Memory)
  | leaf t, m => .ok (.plain t.value, m)
  | node p children, m =>
    match runAll deeds children m with
    | .error e => .error e
    | .ok (things, m) => deeds p things m

def runAll (deeds : Production → Deed) : List ParseTree → Memory → Except Fault (List Thing × Memory)
  | [], m => .ok ([], m)
  | T :: Ts, m =>
    match run deeds T m with
    | .error e => .error e
    | .ok (t, m) =>
      match runAll deeds Ts m with
      | .error e => .error e
      | .ok (ts, m) => .ok (t :: ts, m)

end

variable {own : Nat} {deeds : Production → Deed} {g : Grammar} {T : ParseTree} {Ts : List ParseTree}
  {m m' : Memory} {t : Thing} {things : List Thing} {p : Production}

theorem run_node_iff : run deeds (.node p Ts) m = .ok (t, m') ↔
    ∃ things m₁, runAll deeds Ts m = .ok (things, m₁) ∧ deeds p things m₁ = .ok (t, m') := by
  rw [run]
  cases runAll deeds Ts m with
  | error e => simp
  | ok r =>
    constructor
    · intro h
      exact ⟨r.1, r.2, rfl, h⟩
    · intro h
      obtain ⟨things, m₁, hr, h⟩ := h
      obtain rfl := Except.ok.inj hr
      exact h

theorem runAll_cons_iff : runAll deeds (T :: Ts) m = .ok (things, m') ↔
    ∃ t rest m₁, run deeds T m = .ok (t, m₁) ∧ runAll deeds Ts m₁ = .ok (rest, m') ∧
      things = t :: rest := by
  rw [runAll]
  cases hT : run deeds T m with
  | error e => simp
  | ok r =>
    obtain ⟨t, m₁⟩ := r
    simp only [Except.ok.injEq, Prod.mk.injEq]
    constructor
    · intro h
      cases hTs : runAll deeds Ts m₁ with
      | error e => simp [hTs] at h
      | ok r =>
        obtain ⟨rest, m₂⟩ := r
        rw [hTs] at h
        cases h
        exact ⟨t, rest, m₁, ⟨rfl, rfl⟩, hTs, rfl⟩
    · intro h
      obtain ⟨t', rest, m₁', ⟨rfl, rfl⟩, hTs, rfl⟩ := h
      rw [hTs]

theorem length_runAll (h : runAll deeds Ts m = .ok (things, m')) : things.length = Ts.length := by
  induction Ts generalizing m things with
  | nil =>
    cases h
    rfl
  | cons T Ts ih =>
    obtain ⟨t, rest, m₁, -, hTs, rfl⟩ := runAll_cons_iff.mp h
    simp [ih hTs]

theorem careful_runAll
    (h : ∀ T ∈ Ts, ∀ (m : Memory) t m', run deeds T m = .ok (t, m') → Memory.Careful own m [] m' [t])
    (hrun : runAll deeds Ts m = .ok (things, m')) : Memory.Careful own m [] m' things := by
  induction Ts generalizing m things with
  | nil =>
    cases hrun
    exact .nothing own _
  | cons T Ts ih =>
    obtain ⟨t, rest, m₁, hT, hTs, rfl⟩ := runAll_cons_iff.mp hrun
    exact (h T List.mem_cons_self m t m₁ hT).cons
      (ih (fun U hU => h U (List.mem_cons_of_mem _ hU)) hTs)

/-- Careful actions make careful runs. -/
theorem careful_run (hdeeds : ∀ p ∈ g.productions, (deeds p).Careful own) (hT : T.Valid g)
    (hrun : run deeds T m = .ok (t, m')) : Memory.Careful own m [] m' [t] := by
  induction T using rec_children generalizing m t m' with
  | leaf token =>
    cases hrun
    exact .handed_on fun c hc => by simp [Thing.cells] at hc
  | node p children ih =>
    obtain ⟨hp, -, hvalid⟩ := hT.of_node
    obtain ⟨things, m₁, hchildren, hp'⟩ := run_node_iff.mp hrun
    have hcareful := careful_runAll (fun c hc m t m' h => ih c hc (hvalid c hc) h) hchildren
    exact hcareful.trans (hdeeds p hp things m₁ t m' hp')

end ParseTree

/-! ## A parse in memory -/

/-- What a parse holds: things, the last first, the tokens at hand, and memory. -/
structure Held where
  things : List Thing
  tokens : List Token
  memory : Memory

def Operation.perform (deeds : Production → Deed) (h : Held) : Operation → Except Fault Held
  | shift _ =>
    match h.tokens with
    | [] => .ok h
    | token :: tokens => .ok ⟨.plain token.value :: h.things, tokens, h.memory⟩
  | reduce p =>
    match deeds p (h.things.take p.size).reverse h.memory with
    | .error e => .error e
    | .ok (t, m) => .ok ⟨t :: h.things.drop p.size, h.tokens, m⟩
  | accept => .ok h

variable {g : Grammar} {deeds : Production → Deed} {T : ParseTree} {Ts : List ParseTree}

theorem perform_forest
    (h : ∀ T ∈ Ts, ∀ things rest m, T.operations.foldlM (Operation.perform deeds)
      ⟨things, T.tokens ++ rest, m⟩ = (run deeds T m).map fun r => ⟨r.1 :: things, rest, r.2⟩)
    (things : List Thing) (rest : List Token) (m : Memory) :
    (operationsOf Ts).foldlM (Operation.perform deeds) ⟨things, tokensOf Ts ++ rest, m⟩ =
      (runAll deeds Ts m).map fun r => ⟨r.1.reverse ++ things, rest, r.2⟩ := by
  induction Ts generalizing things m with
  | nil => rfl
  | cons T Ts ih =>
    rw [operationsOf, tokensOf, List.foldlM_append, List.append_assoc, h T List.mem_cons_self, runAll]
    cases run deeds T m with
    | error e => rfl
    | ok r =>
      obtain ⟨t, m₁⟩ := r
      simp only [Except.map, bind, Except.bind]
      rw [ih fun U hU => h U (List.mem_cons_of_mem _ hU)]
      cases runAll deeds Ts m₁ with
      | error e => rfl
      | ok r => simp [Except.map]

/-- The operations of a tree, one after the other, run it. -/
theorem perform_operations (hT : T.Valid g) (things : List Thing) (rest : List Token) (m : Memory) :
    T.operations.foldlM (Operation.perform deeds) ⟨things, T.tokens ++ rest, m⟩ =
      (run deeds T m).map fun r => ⟨r.1 :: things, rest, r.2⟩ := by
  induction T using rec_children generalizing things rest m with
  | leaf token => rfl
  | node p children ih =>
    obtain ⟨-, hroots, hvalid⟩ := hT.of_node
    have hforest := perform_forest (fun c hc => ih c hc (hvalid c hc)) things rest m
    rw [operations, tokens, List.foldlM_append, hforest, run]
    cases hrun : runAll deeds children m with
    | error e => rfl
    | ok r =>
      obtain ⟨ts, m₁⟩ := r
      have hsize : p.size = ts.reverse.length := by
        simp [Production.size, ← hroots, length_runAll hrun]
      simp only [Except.map, bind, Except.bind, List.foldlM_cons, List.foldlM_nil, Operation.perform,
        hsize, List.take_left, List.drop_left, List.reverse_reverse]
      cases deeds p ts m₁ <;> rfl

theorem perform_operationsOf (hTs : ∀ T ∈ Ts, T.Valid g) (things : List Thing) (rest : List Token)
    (m : Memory) :
    (operationsOf Ts).foldlM (Operation.perform deeds) ⟨things, tokensOf Ts ++ rest, m⟩ =
      (runAll deeds Ts m).map fun r => ⟨r.1.reverse ++ things, rest, r.2⟩ :=
  perform_forest (fun T hT => perform_operations (hTs T hT)) things rest m

end Slr
