import Slr.Proofs.Derivation.Tree

/-! # The nodes of a tree, children first

The actions of a tree's nodes are called from left to right, those of a node's
children before its own, each on the values of the children. The first failure ends
this: what came before it has values, and nothing is called behind it. -/

namespace Slr

open ParseTree

/-- A node when its children have been dealt with, and where in the input they end. -/
structure Visit where
  production : Production
  children : List ParseTree
  stop : Nat

def Visit.node (V : Visit) : ParseTree := .node V.production V.children

namespace ParseTree

mutual

/-- The nodes of a tree over the tokens from `start` on, children first. -/
def visits (start : Nat) : ParseTree → List Visit
  | leaf _ => []
  | node p children => visitsOf start children ++ [⟨p, children, start + (tokensOf children).length⟩]

def visitsOf (start : Nat) : List ParseTree → List Visit
  | [] => []
  | t :: ts => visits start t ++ visitsOf (start + t.tokens.length) ts

end

variable {semantics : Semantics} {t : ParseTree} {ts us : List ParseTree} {p : Production}
  {v : Value} {vs : List Value} {start : Nat}

theorem visitsOf_append (start : Nat) : visitsOf start (ts ++ us) =
    visitsOf start ts ++ visitsOf (start + (tokensOf ts).length) us := by
  induction ts generalizing start with
  | nil => simp [visitsOf, tokensOf]
  | cons t ts ih =>
    simp only [List.cons_append, visitsOf, tokensOf, List.length_append, ih, List.append_assoc,
      Nat.add_assoc]

@[simp] theorem visitsOf_singleton : visitsOf start [t] = t.visits start := by simp [visitsOf]

theorem evalAll_of_eval_node (h : eval semantics (.node p ts) = .ok v) :
    ∃ vs, evalAll semantics ts = .ok vs := by
  cases hvs : evalAll semantics ts with
  | error e => simp [eval, hvs] at h
  | ok vs => exact ⟨vs, rfl⟩

theorem visits_of_evalAll
    (h : ∀ t ∈ ts, ∀ start v, eval semantics t = .ok v →
      ∀ V ∈ t.visits start, ∃ w, eval semantics V.node = .ok w)
    (hvs : evalAll semantics ts = .ok vs) :
    ∀ V ∈ visitsOf start ts, ∃ w, eval semantics V.node = .ok w := by
  induction ts generalizing start vs with
  | nil => simp [visitsOf]
  | cons t ts ih =>
    obtain ⟨w, ws, hw, hws, rfl⟩ := evalAll_cons_inv hvs
    intro V hV
    rcases List.mem_append.mp hV with hV | hV
    · exact h t (by simp) start w hw V hV
    · exact ih (fun u hu => h u (by simp [hu])) hws V hV

/-- In a tree that has a value each node has one. -/
theorem visits_of_eval (h : eval semantics t = .ok v) :
    ∀ V ∈ t.visits start, ∃ w, eval semantics V.node = .ok w := by
  induction t using rec_children generalizing start v with
  | leaf token => simp [visits]
  | node p children ih =>
    obtain ⟨vs, hvs⟩ := evalAll_of_eval_node h
    intro V hV
    rcases List.mem_append.mp hV with hV | hV
    · exact visits_of_evalAll (fun c hc start v hv => ih c hc hv) hvs V hV
    · obtain rfl := List.mem_singleton.mp hV
      exact ⟨v, h⟩

end ParseTree

/-! ## Failure -/

/-- How a parse fails in which the action of a production raises this. -/
def Fault.raisedIn (p : Production) : Fault → ParseError
  | .ordinary kind message => .actionFailed p (.ordinary kind message)
  | f => .fault f

theorem Semantics.value_of_raises {semantics : Semantics} {p : Production} {action : Action}
    {values : List Value} {f : Fault} (haction : semantics p = some action)
    (hraises : action.apply values = .error f) :
    semantics.value p values = .error (f.raisedIn p) := by
  cases f <;> simp [Semantics.value, haction, hraises, Fault.raisedIn]

theorem Semantics.raises_of_value {semantics : Semantics} {p : Production} {values : List Value}
    {e : ParseError} (h : semantics.value p values = .error e) :
    ∃ action f, semantics p = some action ∧ action.apply values = .error f ∧ e = f.raisedIn p := by
  unfold Semantics.value at h
  cases haction : semantics p with
  | none => simp [haction] at h
  | some action =>
    cases happly : action.apply values with
    | ok v => simp [haction, happly] at h
    | error f =>
      refine ⟨action, f, rfl, happly, ?_⟩
      cases f <;> simpa [haction, happly, Fault.raisedIn, eq_comm] using h

/-- The course that the actions of a tree take: the result, the nodes whose actions are
called, and how many tokens have been consumed by then. -/
inductive Course (semantics : Semantics) (T : ParseTree) :
    Except ParseError Value → List Visit → Nat → Prop
  | whole {v : Value} (value : eval semantics T = .ok v) :
      Course semantics T (.ok v) (T.visits 0) T.tokens.length
  | raised {before after : List Visit} {N : Visit} {values : List Value} {action : Action}
      {f : Fault} (order : T.visits 0 = before ++ N :: after)
      (quiet : ∀ V ∈ before, ∃ v, eval semantics V.node = .ok v)
      (operands : evalAll semantics N.children = .ok values)
      (acts : semantics N.production = some action) (raises : action.apply values = .error f) :
      Course semantics T (.error (f.raisedIn N.production)) (before ++ [N]) N.stop

/-- The first of a list that is not so is found in one place. -/
theorem first_unique {α : Type} {P : α → Prop} {before before' after after' : List α} {a a' : α}
    (h : before ++ a :: after = before' ++ a' :: after') (hbefore : ∀ b ∈ before, P b)
    (hbefore' : ∀ b ∈ before', P b) (ha : ¬ P a) (ha' : ¬ P a') :
    before = before' ∧ a = a' := by
  induction before generalizing before' with
  | nil =>
    cases before' with
    | nil => exact ⟨rfl, (List.cons.inj h).1⟩
    | cons b before' =>
      obtain ⟨rfl, -⟩ := List.cons.inj h
      exact absurd (hbefore' a (by simp)) ha
  | cons b before ih =>
    cases before' with
    | nil =>
      obtain ⟨rfl, -⟩ := List.cons.inj h
      exact absurd (hbefore b (by simp)) ha'
    | cons b' before' =>
      obtain ⟨rfl, hrest⟩ := List.cons.inj h
      obtain ⟨rfl, rfl⟩ := ih hrest (fun c hc => hbefore c (by simp [hc]))
        fun c hc => hbefore' c (by simp [hc])
      exact ⟨rfl, rfl⟩

namespace Course

variable {semantics : Semantics} {T : ParseTree} {result result' : Except ParseError Value}
  {visits visits' : List Visit} {stop stop' : Nat}

theorem not_eval {N : Visit} {values : List Value} {action : Action} {f : Fault}
    (operands : evalAll semantics N.children = .ok values)
    (acts : semantics N.production = some action) (raises : action.apply values = .error f) :
    ¬ ∃ v, eval semantics N.node = .ok v := by
  intro h
  obtain ⟨v, hv⟩ := h
  rw [Visit.node, eval_node operands, Semantics.value_of_raises acts raises] at hv
  cases hv

theorem eval_of_order {before after : List Visit} {N : Visit} {v : Value}
    (order : T.visits 0 = before ++ N :: after) (value : eval semantics T = .ok v) :
    ∃ w, eval semantics N.node = .ok w := by
  have hN : N ∈ T.visits 0 := by simp [order]
  exact visits_of_eval value N hN

/-- Actions take one course. -/
theorem unique (h : Course semantics T result visits stop)
    (h' : Course semantics T result' visits' stop') :
    result = result' ∧ visits = visits' ∧ stop = stop' := by
  cases h with
  | whole value =>
    cases h' with
    | whole value' => exact ⟨value.symm.trans value', rfl, rfl⟩
    | raised order _ operands acts raises =>
      exact absurd (eval_of_order order value) (not_eval operands acts raises)
  | raised order quiet operands acts raises =>
    cases h' with
    | whole value =>
      exact absurd (eval_of_order order value) (not_eval operands acts raises)
    | raised order' quiet' operands' acts' raises' =>
      obtain ⟨rfl, rfl⟩ := first_unique (order.symm.trans order') quiet quiet'
        (not_eval operands acts raises) (not_eval operands' acts' raises')
      obtain rfl := Except.ok.inj (operands.symm.trans operands')
      obtain rfl := Option.some.inj (acts.symm.trans acts')
      obtain rfl := Except.error.inj (raises.symm.trans raises')
      exact ⟨rfl, rfl, rfl⟩

end Course

end Slr
