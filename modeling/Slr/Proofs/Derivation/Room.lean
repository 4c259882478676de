import Slr.Proofs.Derivation.Shape

/-! # How much of a stack a tree takes

While a tree is read from left to right, the roots of what has been read and not yet
been reduced lie on a stack. `room` is how many there are at most. A list that
recurs to the left takes no more of it however long it is; each level of nesting
takes more, and so does each item of a list that recurs to the right. -/

namespace Slr

/-- An operation puts at most one root more on a stack. -/
theorem length_foldl_onRoots_le_length (ops : List Operation) (xs : List Symbol) :
    (ops.foldl Operation.onRoots xs).length ≤ xs.length + ops.length := by
  induction ops generalizing xs with
  | nil => exact Nat.le_refl _
  | cons op ops ih =>
    have hop : (op.onRoots xs).length ≤ xs.length + 1 := by
      cases op <;> simp [Operation.onRoots]
    have hops := ih (op.onRoots xs)
    rw [List.foldl_cons, List.length_cons]
    omega

namespace ParseTree

variable {g : Grammar} {t : ParseTree} {ts : List ParseTree} {ops : List Operation}

mutual

/-- How many roots lie on a stack at once while a tree is read, those below not counted. -/
def room : ParseTree → Nat
  | leaf _ => 1
  | node _ children => max 1 (roomOf children)

def roomOf : List ParseTree → Nat
  | [] => 0
  | t :: ts => max (room t) (roomOf ts + 1)

end

theorem one_le_room (t : ParseTree) : 1 ≤ t.room := by
  cases t with
  | leaf token => exact Nat.le_refl 1
  | node p children => exact Nat.le_max_left 1 _

theorem length_foldl_forest_le (hts : ∀ t ∈ ts, t.Valid g)
    (h : ∀ t ∈ ts, ∀ ops xs, ops <+: t.operations →
      (ops.foldl Operation.onRoots xs).length ≤ xs.length + t.room)
    (hops : ops <+: operationsOf ts) (xs : List Symbol) :
    (ops.foldl Operation.onRoots xs).length ≤ xs.length + roomOf ts := by
  induction ts generalizing ops xs with
  | nil =>
    obtain rfl := List.prefix_nil.mp hops
    exact Nat.le_refl _
  | cons t ts ih =>
    simp only [roomOf]
    rcases List.prefix_or_prefix_of_prefix hops (List.prefix_append t.operations _) with
      hfirst | ⟨rest, rfl⟩
    · have hroom := h t (by simp) ops xs hfirst
      omega
    · -- the root of the first tree stays below what the others take
      have hrest := ih (fun u hu => hts u (by simp [hu])) (fun u hu => h u (by simp [hu]))
        ((List.prefix_append_right_inj _).mp hops) (t.root :: xs)
      rw [List.foldl_append, foldl_onRoots (hts t (by simp))]
      rw [List.length_cons] at hrest
      omega

/-- The first operations of a tree leave no more roots on a stack than it has room for. -/
theorem length_foldl_onRoots_le (ht : t.Valid g) (hops : ops <+: t.operations)
    (xs : List Symbol) : (ops.foldl Operation.onRoots xs).length ≤ xs.length + t.room := by
  induction t using rec_children generalizing ops xs with
  | leaf token =>
    have hlength : ops.length ≤ 1 := hops.length_le
    have hroots := length_foldl_onRoots_le_length ops xs
    show _ ≤ xs.length + 1
    omega
  | node p children ih =>
    obtain ⟨-, -, hvalid⟩ := ht.of_node
    show _ ≤ xs.length + max 1 (roomOf children)
    rcases List.prefix_concat_iff.mp hops with rfl | hchildren
    · have hroot := foldl_onRoots ht xs
      rw [operations] at hroot
      rw [hroot, List.length_cons]
      omega
    · have hroom := length_foldl_forest_le hvalid
        (fun c hc ops xs hops => ih c hc (hvalid c hc) hops xs) hchildren xs
      omega

end ParseTree

end Slr
