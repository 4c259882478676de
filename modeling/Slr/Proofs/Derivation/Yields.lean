import Slr.Proofs.Derivation.Room

/-! # What nonterminals stand for

Read with its actions, a grammar says of each nonterminal over which tokens it may
stand, and with what value. Whatever its productions preserve holds of all that: a
relation between nonterminals, values and tokens is shown to hold of every tree by
looking at one production at a time. Where trees are put together, the room that they
take on a stack is kept in view: a tree needs less of it the further left it stands. -/

namespace Slr

open ParseTree

/-- A relation between nonterminals, values and tokens. -/
abbrev Meaning := String → Value → List Token → Prop

/-- The symbols of a word one by one: a terminal stands over a token of its kind, and
has its value; what a nonterminal stands over is up to the meaning. -/
inductive Parts (M : Meaning) : List Symbol → List Value → List Token → Prop
  | nil : Parts M [] [] []
  | terminal {k : String} {tok : Token} {xs : List Symbol} {vs : List Value} {ts : List Token}
      (hk : tok.kind = k) (h : Parts M xs vs ts) :
      Parts M (.terminal k :: xs) (tok.value :: vs) (tok :: ts)
  | nonterminal {n : String} {v : Value} {us : List Token} {xs : List Symbol} {vs : List Value}
      {ts : List Token} (hv : M n v us) (h : Parts M xs vs ts) :
      Parts M (.nonterminal n :: xs) (v :: vs) (us ++ ts)

/-- The actions keep a meaning: they give every nonterminal a value, and one that it may have. -/
def Grammar.Keeps (g : Grammar) (semantics : Semantics) (M : Meaning) : Prop :=
  ∀ p ∈ g.productions, ∀ vs ts, Parts M p.rhs vs ts →
    ∃ v, semantics.value p vs = .ok v ∧ M p.lhs v ts

/-- A nonterminal has a derivation tree over these tokens, with this value, that takes so much
room on a stack. -/
def Grammar.YieldsIn (g : Grammar) (semantics : Semantics) (room : Nat) : Meaning := fun n v ts =>
  ∃ T : ParseTree, T.Valid g ∧ T.root = .nonterminal n ∧ T.tokens = ts ∧
    eval semantics T = .ok v ∧ T.room ≤ room

/-- A nonterminal has a derivation tree over these tokens, with this value. -/
def Grammar.Yields (g : Grammar) (semantics : Semantics) : Meaning := fun n v ts =>
  ∃ room, g.YieldsIn semantics room n v ts

/-- What the symbols of a word stand over, if one after the other is put on a stack with so much
room. -/
inductive Grammar.PartsIn (g : Grammar) (semantics : Semantics) :
    Nat → List Symbol → List Value → List Token → Prop
  | nil {room : Nat} : PartsIn g semantics room [] [] []
  | terminal {room : Nat} {k : String} {tok : Token} {xs : List Symbol} {vs : List Value}
      {ts : List Token} (hk : tok.kind = k) (h : PartsIn g semantics room xs vs ts) :
      PartsIn g semantics (room + 1) (.terminal k :: xs) (tok.value :: vs) (tok :: ts)
  | nonterminal {room : Nat} {n : String} {v : Value} {us : List Token} {xs : List Symbol}
      {vs : List Value} {ts : List Token} (hv : g.YieldsIn semantics (room + 1) n v us)
      (h : PartsIn g semantics room xs vs ts) :
      PartsIn g semantics (room + 1) (.nonterminal n :: xs) (v :: vs) (us ++ ts)

variable {M : Meaning} {g : Grammar} {semantics : Semantics} {k n : String} {xs : List Symbol}
  {vs : List Value} {v : Value} {ts : List Token} {T : ParseTree} {p : Production}
  {children : List ParseTree} {room room' : Nat}

/-! ## Parts of a word -/

@[simp] theorem parts_nil_iff : Parts M [] vs ts ↔ vs = [] ∧ ts = [] := by
  constructor
  · intro h
    cases h
    exact ⟨rfl, rfl⟩
  · intro h
    rw [h.1, h.2]
    exact .nil

@[simp] theorem parts_terminal_iff : Parts M (.terminal k :: xs) vs ts ↔
    ∃ tok vs' ts', tok.kind = k ∧ vs = tok.value :: vs' ∧ ts = tok :: ts' ∧ Parts M xs vs' ts' := by
  constructor
  · intro h
    cases h with
    | terminal hk h => exact ⟨_, _, _, hk, rfl, rfl, h⟩
  · intro h
    obtain ⟨tok, vs', ts', hk, rfl, rfl, h⟩ := h
    exact .terminal hk h

@[simp] theorem parts_nonterminal_iff : Parts M (.nonterminal n :: xs) vs ts ↔
    ∃ v us vs' ts', M n v us ∧ vs = v :: vs' ∧ ts = us ++ ts' ∧ Parts M xs vs' ts' := by
  constructor
  · intro h
    cases h with
    | nonterminal hv h => exact ⟨_, _, _, _, hv, rfl, rfl, h⟩
  · intro h
    obtain ⟨v, us, vs', ts', hv, rfl, rfl, h⟩ := h
    exact .nonterminal hv h

/-! ## Trees -/

theorem Grammar.YieldsIn.mono (h : g.YieldsIn semantics room n v ts) (hle : room ≤ room') :
    g.YieldsIn semantics room' n v ts := by
  obtain ⟨T, hT, hroot, htokens, hv, hroom⟩ := h
  exact ⟨T, hT, hroot, htokens, hv, Nat.le_trans hroom hle⟩

/-- The trees of a word, put together. -/
theorem Grammar.PartsIn.exists_forest (h : g.PartsIn semantics room xs vs ts) :
    ∃ children : List ParseTree, (∀ c ∈ children, c.Valid g) ∧ children.map root = xs ∧
      tokensOf children = ts ∧ evalAll semantics children = .ok vs ∧ roomOf children ≤ room := by
  induction h with
  | nil => exact ⟨[], by simp, rfl, rfl, rfl, Nat.zero_le _⟩
  | @terminal room k tok xs vs ts hk h ih =>
    obtain ⟨children, hvalid, hroots, htokens, hvs, hroom⟩ := ih
    refine ⟨.leaf tok :: children, ?_, by simp [root, hk, hroots],
      by simp [tokensOf, tokens, htokens], by simp [evalAll, eval, hvs], ?_⟩
    · intro c hc
      rcases List.mem_cons.mp hc with rfl | hc
      · exact .leaf tok
      · exact hvalid c hc
    · simp only [roomOf, ParseTree.room]
      omega
  | nonterminal hv h ih =>
    obtain ⟨T, hT, hroot, rfl, heval, hfirst⟩ := hv
    obtain ⟨children, hvalid, hroots, htokens, hvs, hroom⟩ := ih
    refine ⟨T :: children, ?_, by simp [hroot, hroots], by simp [tokensOf, htokens],
      by simp [evalAll, heval, hvs], ?_⟩
    · intro c hc
      rcases List.mem_cons.mp hc with rfl | hc
      · exact hT
      · exact hvalid c hc
    · simp only [roomOf]
      omega

theorem Grammar.YieldsIn.parts_one (h : g.YieldsIn semantics (room + 1) n v ts) :
    g.PartsIn semantics (room + 1) [.nonterminal n] [v] ts := by
  have hone := Grammar.PartsIn.nonterminal h .nil
  rwa [List.append_nil] at hone

/-- A production yields what its right hand side yields, with the value of its action. -/
theorem Grammar.YieldsIn.node (p : Production) (hp : p ∈ g.productions)
    (h : g.PartsIn semantics (room + 1) p.rhs vs ts)
    (hv : semantics.value p vs = .ok v) : g.YieldsIn semantics (room + 1) p.lhs v ts := by
  obtain ⟨children, hvalid, hroots, htokens, hvs, hroom⟩ := h.exists_forest
  refine ⟨.node p children, .node hp hroots hvalid, rfl, htokens, (eval_node hvs).trans hv, ?_⟩
  simp only [ParseTree.room]
  omega

/-- So does a production of one nonterminal, which takes no more room. -/
theorem Grammar.YieldsIn.unit {m : String} {w : Value} (p : Production) (hp : p ∈ g.productions)
    (hrhs : p.rhs = [.nonterminal n]) (h : g.YieldsIn semantics room n v ts)
    (hw : semantics.value p [v] = .ok w) (hlhs : p.lhs = m) : g.YieldsIn semantics room m w ts := by
  obtain ⟨T, hT, hroot, htokens, hv, hroom⟩ := h
  subst hlhs
  refine ⟨.node p [T], .node hp (by simp [hroot, hrhs]) (by simpa using hT), rfl,
    by simp [tokens, htokens], (eval_node (evalAll_singleton hv)).trans hw, ?_⟩
  have hpos := T.one_le_room
  simp only [ParseTree.room, roomOf]
  omega

namespace Grammar.Keeps

/-- Every tree has a value, and the root of a node means it. -/
theorem exists_eval (h : g.Keeps semantics M) (hT : T.Valid g) :
    ∃ v, eval semantics T = .ok v ∧ Parts M [T.root] [v] T.tokens := by
  induction T using rec_children with
  | leaf token => exact ⟨token.value, rfl, by simp [root, tokens]⟩
  | node p children ih =>
    obtain ⟨hp, hroots, hvalid⟩ := hT.of_node
    -- the children side by side make the parts of the right hand side
    have hparts : ∃ vs, evalAll semantics children = .ok vs ∧
        Parts M (children.map root) vs (tokensOf children) := by
      clear hroots hT
      induction children with
      | nil => exact ⟨[], rfl, .nil⟩
      | cons c children ihc =>
        obtain ⟨v, hv, hmeans⟩ := ih c (by simp) (hvalid c (by simp))
        obtain ⟨vs, hvs, hrest⟩ :=
          ihc (fun d hd => ih d (by simp [hd])) fun d hd => hvalid d (by simp [hd])
        refine ⟨v :: vs, by simp [evalAll, hv, hvs], ?_⟩
        rw [List.map_cons, tokensOf]
        cases c with
        | leaf token =>
          obtain rfl : token.value = v := Except.ok.inj hv
          exact .terminal rfl hrest
        | node q ds =>
          obtain ⟨v', us, vs', ts', hm, hvs', hts', hnil⟩ := parts_nonterminal_iff.mp hmeans
          obtain ⟨rfl, rfl⟩ := parts_nil_iff.mp hnil
          obtain rfl : v = v' := (List.cons.inj hvs').1
          rw [List.append_nil] at hts'
          rw [hts']
          exact .nonterminal hm hrest
    obtain ⟨vs, hvs, hparts⟩ := hparts
    obtain ⟨v, hv, hm⟩ := h p hp vs _ (hroots ▸ hparts)
    refine ⟨v, (eval_node hvs).trans hv, ?_⟩
    exact parts_nonterminal_iff.mpr ⟨v, _, [], [], hm, rfl, (List.append_nil _).symm, .nil⟩

theorem exists_eval_node (h : g.Keeps semantics M) (hT : T.Valid g)
    (hroot : T.root = .nonterminal n) :
    ∃ v, eval semantics T = .ok v ∧ M n v T.tokens := by
  obtain ⟨v, hv, hmeans⟩ := h.exists_eval hT
  simp only [hroot, parts_nonterminal_iff, parts_nil_iff] at hmeans
  obtain ⟨w, us, _, _, hm, hvs, hts, rfl, rfl⟩ := hmeans
  obtain rfl : v = w := (List.cons.inj hvs).1
  exact ⟨v, hv, by simpa [hts] using hm⟩

/-- What the actions keep holds of all that a grammar yields. -/
theorem of_yields (h : g.Keeps semantics M) (hy : g.Yields semantics n v ts) : M n v ts := by
  obtain ⟨_, T, hT, hroot, rfl, hv, -⟩ := hy
  obtain ⟨w, hw, hm⟩ := h.exists_eval_node hT hroot
  obtain rfl : w = v := Except.ok.inj (hw.symm.trans hv)
  exact hm

end Grammar.Keeps

end Slr
