import Mathlib.Data.List.Perm.Subperm
import Slr.Reachability

/-! # The search finds everything that can be reached

`reach_sound` says that whatever the search finds can be reached. Here is the
converse: inside a universe that no edge leaves, as many rounds as the universe
has nodes are enough, so the search finds exactly what paths reach. -/

namespace Slr.Reachability

variable {α : Type} {next : α → List α}

theorem Path.trans {a b c : α} (hab : Path next a b) (hbc : Path next b c) : Path next a c := by
  induction hbc with
  | refl => exact hab
  | tail _ edge ih => exact ih.tail edge

theorem Path.head {a b c : α} (edge : b ∈ next a) (path : Path next b c) : Path next a c :=
  ((Path.refl a).tail edge).trans path

/-- A node without edges leads to itself only. -/
theorem Path.eq_of_stuck {a b : α} (path : Path next a b) (h : next a = []) : b = a := by
  induction path with
  | refl => rfl
  | tail _ edge ih =>
    rw [ih, h] at edge
    cases edge

theorem eraseDups_nodup [BEq α] [LawfulBEq α] (l : List α) : l.eraseDups.Nodup := by
  induction h : l.length using Nat.strongRecOn generalizing l with
  | _ n ih =>
    cases l with
    | nil => simp
    | cons a as =>
      have hlt : (as.filter fun b => !b == a).length < n := by
        have := List.length_filter_le (fun b => !b == a) as
        simp only [List.length_cons] at h
        omega
      rw [List.eraseDups_cons]
      exact List.nodup_cons.mpr ⟨by simp, ih _ hlt _ rfl⟩

variable [DecidableEq α]

theorem newNodes_nodup (seen frontier : List α) : (newNodes next seen frontier).Nodup := by
  unfold newNodes
  exact eraseDups_nodup _

/-- While the frontier holds every node whose edges have not been followed, a
search with enough rounds ends in a set that no edge leaves. -/
theorem search_closed {nodes : List α} (hnodes : ∀ a ∈ nodes, ∀ b ∈ next a, b ∈ nodes)
    {rounds : Nat} {seen frontier : List α} (hnodup : seen.Nodup)
    (hseen : ∀ a ∈ seen, a ∈ nodes) (hfrontier : ∀ a ∈ frontier, a ∈ seen)
    (hdone : ∀ a ∈ seen, a ∉ frontier → ∀ b ∈ next a, b ∈ seen)
    (hrounds : nodes.length < seen.length + rounds) :
    (∀ a ∈ seen, a ∈ search next rounds seen frontier) ∧
      ∀ a ∈ search next rounds seen frontier, ∀ b ∈ next a,
        b ∈ search next rounds seen frontier := by
  induction rounds generalizing seen frontier with
  | zero =>
    have hle := (List.subperm_of_subset hnodup hseen).length_le
    omega
  | succ rounds ih =>
    unfold search
    split
    · rename_i hnew
      refine ⟨fun a ha => ha, ?_⟩
      intro a ha b hb
      by_cases hf : a ∈ frontier
      · by_contra hns
        have hmem : b ∈ newNodes next seen frontier := mem_newNodes.mpr ⟨⟨a, hf, hb⟩, hns⟩
        rw [hnew] at hmem
        cases hmem
      · exact hdone a ha hf b hb
    · rename_i found hne
      have hfound : ∀ b, b ∈ newNodes next seen frontier ↔ (∃ a ∈ frontier, b ∈ next a) ∧ b ∉ seen :=
        fun b => mem_newNodes
      have hpos : 0 < (newNodes next seen frontier).length := List.length_pos_iff.mpr hne
      have hdisj : (seen ++ newNodes next seen frontier).Nodup :=
        List.nodup_append.mpr ⟨hnodup, newNodes_nodup _ _, fun a ha b hb hab =>
          ((hfound b).mp hb).2 (hab ▸ ha)⟩
      obtain ⟨hkeep, hclosed⟩ := ih hdisj
        (fun a ha => by
          rcases List.mem_append.mp ha with ha | ha
          · exact hseen a ha
          · obtain ⟨⟨c, hc, hca⟩, -⟩ := (hfound a).mp ha
            exact hnodes c (hseen c (hfrontier c hc)) a hca)
        (fun a ha => List.mem_append_right _ ha)
        (fun a ha hna b hb => by
          rcases List.mem_append.mp ha with ha | ha
          · by_cases hf : a ∈ frontier
            · by_cases hs : b ∈ seen
              · exact List.mem_append_left _ hs
              · exact List.mem_append_right _ ((hfound b).mpr ⟨⟨a, hf, hb⟩, hs⟩)
            · exact List.mem_append_left _ (hdone a ha hf b hb)
          · exact absurd ha hna)
        (by rw [List.length_append]; omega)
      exact ⟨fun a ha => hkeep a (List.mem_append_left _ ha), hclosed⟩

/-- Inside a universe that no edge leaves, the search finds what paths reach. -/
theorem mem_reach_iff {nodes seeds : List α} {rounds : Nat} {x : α}
    (hnodes : ∀ a ∈ nodes, ∀ b ∈ next a, b ∈ nodes)
    (hseeds : ∀ a ∈ seeds, a ∈ nodes) (hrounds : nodes.length ≤ rounds) :
    x ∈ reach next rounds seeds ↔ ∃ a ∈ seeds, Path next a x := by
  refine ⟨reach_sound, ?_⟩
  intro h
  obtain ⟨a, ha, hpath⟩ := h
  have hmem : a ∈ seeds.eraseDups := by simpa using ha
  have hpos := List.length_pos_of_mem hmem
  have henough : nodes.length < seeds.eraseDups.length + rounds := by omega
  obtain ⟨hkeep, hclosed⟩ := search_closed hnodes (eraseDups_nodup seeds)
    (fun b hb => hseeds b (by simpa using hb)) (fun _ hb => hb)
    (fun b hb hnb => absurd hb hnb) henough
  unfold reach
  induction hpath with
  | refl => exact hkeep a hmem
  | tail _ edge ih => exact hclosed _ ih _ edge

end Slr.Reachability
