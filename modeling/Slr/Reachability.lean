/-!
What can be reached along the edges of a finite graph. The search goes by rounds: each adds the nodes
one edge further that have not been seen. A round that adds nothing ends it, so as many rounds as there
are nodes are enough.
-/

namespace Slr.Reachability

variable {α : Type} [DecidableEq α]

/-- A path of edges, of any length. -/
inductive Path (next : α → List α) : α → α → Prop where
  | refl (a : α) : Path next a a
  | tail {a b c : α} (path : Path next a b) (edge : c ∈ next b) : Path next a c

/-- The nodes one edge from the frontier that have not been seen, each once. -/
def newNodes (next : α → List α) (seen frontier : List α) : List α :=
  ((frontier.flatMap next).filter (· ∉ seen)).eraseDups

def search (next : α → List α) : Nat → List α → List α → List α
  | 0, seen, _ => seen
  | rounds + 1, seen, frontier =>
    match newNodes next seen frontier with
    | [] => seen
    | found => search next rounds (seen ++ found) found

/-- The nodes within `rounds` edges of the seeds, nearest first. -/
def reach (next : α → List α) (rounds : Nat) (seeds : List α) : List α :=
  search next rounds seeds.eraseDups seeds.eraseDups

theorem mem_newNodes {next : α → List α} {seen frontier : List α} {x : α} :
    x ∈ newNodes next seen frontier ↔ (∃ a ∈ frontier, x ∈ next a) ∧ x ∉ seen := by
  simp [newNodes]

theorem search_sound {next : α → List α} {seeds : List α} {rounds : Nat} {seen frontier : List α}
    (hs : ∀ x ∈ seen, ∃ a ∈ seeds, Path next a x) (hf : ∀ x ∈ frontier, x ∈ seen) :
    ∀ x ∈ search next rounds seen frontier, ∃ a ∈ seeds, Path next a x := by
  induction rounds generalizing seen frontier with
  | zero => exact hs
  | succ rounds ih =>
    rw [search]
    split
    · exact hs
    · rename_i found hfound
      refine ih (fun x hx => ?_) fun x hx => List.mem_append_right _ hx
      rcases List.mem_append.mp hx with hx | hx
      · exact hs x hx
      · obtain ⟨⟨a, ha, hax⟩, -⟩ := mem_newNodes.mp hx
        obtain ⟨s, hs', hp⟩ := hs a (hf a ha)
        exact ⟨s, hs', hp.tail hax⟩

theorem reach_sound {next : α → List α} {rounds : Nat} {seeds : List α} {x : α}
    (h : x ∈ reach next rounds seeds) : ∃ a ∈ seeds, Path next a x :=
  search_sound (fun x hx => ⟨x, by simpa using hx, .refl x⟩) (fun _ hx => hx) x h

end Slr.Reachability
