import TermGraph.Evaluation.Request
import TermGraph.Proofs.Graph.Reach

/-!
What may be asked for on behalf of a node: the nodes strictly below it, that is, those other than
itself that it contains. Looking among the direct arguments first is a short cut that changes
nothing.
-/

namespace TermGraph

namespace Graph

variable {g : Graph}

/-- The direct arguments are contained. -/
theorem contains_of_mem_children {n c : Node} {direct : List Node} (h : g.children n = .ok direct)
    (hc : c ∈ direct) : g.contains n c = .ok true := by
  obtain ⟨p, hp, rfl⟩ := ok_of_map_ok h
  obtain ⟨q, hq, rfl⟩ := List.mem_map.1 hc
  rw [eq_node_of_locate hp]
  exact contains_iff.2 ⟨p, q, p.isLt, rfl, rfl, path_of_child hq⟩

/-- The check lets pass just what lies strictly below. -/
theorem allows_eq_ok_iff {n c : Node} {direct : List Node} (h : g.children n = .ok direct) :
    g.allows n direct c = .ok () ↔ c ≠ n ∧ g.contains n c = .ok true := by
  unfold allows
  split
  · next hc =>
    have hlt := index_lt_of_mem_children h hc
    refine ⟨fun _ => ⟨?_, contains_of_mem_children h hc⟩, fun _ => rfl⟩
    rintro rfl
    exact Nat.lt_irrefl _ hlt
  · split
    · next he => exact ⟨nofun, fun hne => absurd he hne.1⟩
    · next he =>
      split
      · next hr => exact ⟨fun _ => ⟨he, hr⟩, fun _ => rfl⟩
      · next hr => exact ⟨nofun, fun hne => by rw [hr] at hne; cases hne.2⟩
      · next e hr => exact ⟨nofun, fun hne => by rw [hr] at hne; cases hne.2⟩

theorem contains_of_allowsAll {n : Node} {cs : List Node} (h : g.allowsAll n cs = .ok ()) :
    ∀ c ∈ cs, g.contains n c = .ok true := by
  unfold allowsAll at h
  cases hd : g.children n with
  | error e => rw [hd] at h; cases h
  | ok direct =>
    rw [hd] at h
    exact fun c hc => ((allows_eq_ok_iff hd).1 (forM_eq_ok_iff.1 h c hc)).2

end Graph

end TermGraph
