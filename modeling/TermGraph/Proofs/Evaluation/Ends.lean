import Mathlib.Data.List.Perm.Subperm
import TermGraph.Proofs.Evaluation.Once
import TermGraph.Proofs.Graph.Stable

/-!
Every evaluation ends. The stack may grow with each turn, the graph too, and a node may be on the
stack many times; but a turn replaces the top by entries for earlier nodes and by less of the same
handler, and that ends. So nothing has to be assumed of a handler but that it goes on only finitely
often, which its type says. Since no handler is called twice and none for a node that the root does
not contain, there are at most as many calls as nodes that the root depends on.
-/

namespace TermGraph

variable {σ T : Type}

open Call

namespace Graph

/-- Different nodes that the root contains are at most as many as its closure has. -/
theorem length_le_of_contains {g : Graph} {root : Node} {cs : List Nat} {ns : List Node}
    (hcs : g.closure [root] = .ok cs) (hnodup : ns.Nodup)
    (hns : ∀ n ∈ ns, g.contains root n = .ok true) : ns.length ≤ cs.length := by
  have hreach : g.reachable [root] = .ok (cs.map g.node) := by
    rw [reachable, hcs]
    rfl
  have hsub : ns ⊆ cs.map g.node := fun n hn => (mem_reachable_iff hreach).2 (hns n hn)
  have hle := (List.subperm_of_subset hnodup hsub).length_le
  rwa [List.length_map] at hle

/-- An evaluation ends, whatever the graph, the root, the state and the handler: no run goes on
forever, not even from a stack that no evaluation comes to; a root that is no node of the graph is
refused at once; and for any other, finitely many turns lead to an empty stack or to a turn that
fails, after at most one call of a handler for each node that the root depends on. -/
theorem evaluate_ends (g : Graph) (root : Node) (handler : Handler σ T) (s : σ) :
    (WellFounded fun after before => Frame.Turns handler before after)
      ∧ (∀ e, g.locate root = .error e → g.evaluate root handler s = ⟨.error e, g, s, #[]⟩)
      ∧ (root ∈ g.nodes → ∃ last r p cs,
        Relation.ReflTransGen (Frame.Turns handler) ([.start root], { graph := g, state := s }) last
        ∧ Frame.Ends handler last (r, p)
        ∧ g.evaluate root handler s = ⟨r.map fun _ => p.memo, p.graph, p.state, p.calls⟩
        ∧ g.closure [root] = .ok cs ∧ p.graph.closure [root] = .ok cs
        ∧ (started p.calls).length ≤ cs.length) := by
  refine ⟨Frame.wellFounded_turns handler, fun e he => ?_, fun hroot => ?_⟩
  · exact evaluate_of_refused he
  · obtain ⟨q, hq⟩ := exists_locate hroot
    obtain ⟨last, r, p, hturns, hlast, hend, hout⟩ := exists_last_stage hq handler s
    have hstarted := hend.started hlast
    have hgrown := g.extends_evaluate root handler s
    rw [hout] at hgrown
    have hclosure : g.closure [root] = .ok (g.closureAt [root.index]) :=
      closure_eq (by simpa using hroot)
    refine ⟨last, r, p, _, hturns, hend, hout, hclosure, ?_,
      length_le_of_contains hclosure hstarted.1 hstarted.2⟩
    rw [hgrown.closure_eq (by simpa using hroot), hclosure]

/-- Three records, each of which mentions the one before. -/
def chain : Graph :=
  let g := ((Graph.empty 0).append "a" []).2
  let g := (g.append "b" [.node (g.node 0)]).2
  (g.append "c" [.node (g.node 1)]).2

/-- A handler that appends a record and asks for nothing, and then twice for the first node. -/
def restless (n : Node) : Inquiry Unit Nat Nat := do
  discard (Routine.append "seen" [.node n])
  discard (Inquiry.demandAll [])
  if n = chain.node 0 then return 1
  let v ← Inquiry.demand (chain.node 0)
  let vs ← Inquiry.demandAll [chain.node 0, chain.node 0]
  return v + vs.length

theorem evaluate_ends_chain :
    (started (chain.evaluate (chain.node 2) restless ()).calls).length ≤ 3
      ∧ (chain.evaluate (chain.node 2) restless ()).graph.closure [chain.node 2] = .ok [0, 1, 2] := by
  obtain ⟨-, -, hends⟩ := evaluate_ends chain (chain.node 2) restless ()
  obtain ⟨last, r, p, cs, -, -, hout, hcs, hcs', hle⟩ := hends (by decide)
  obtain rfl : [0, 1, 2] = cs := Except.ok.inj hcs
  rw [hout]
  exact ⟨hle, hcs'⟩

end Graph

end TermGraph
