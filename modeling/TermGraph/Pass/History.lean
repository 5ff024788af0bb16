import TermGraph.Pass.Basic

/-!
Reading back which nodes were replaced by which. The notes that mention a node stand after it, so
the records that have it as an argument are the only ones to look at. A replacement may lead back
to an older node; following replacements stops at a node met before.
-/

namespace TermGraph

/-- One replacement that was noted: by which pass, of which node, and in which record. -/
structure Replacement where
  pass : String
  replaced : Node
  record : Node
deriving DecidableEq

namespace Replacement

/-- Does the expression note a replacement by `n`, whatever else it says? -/
def notes (n : Node) (e : Expr) : Bool :=
  e.head == historyHead && decide (e.args[1]? = some (.node n))

/-- The replacement that an expression of the right shape notes. -/
def ofExpr? (e : Expr) : Option Replacement :=
  match e.args with
  | [.str pass, _, .node replaced] => some ⟨pass, replaced, e.node⟩
  | _ => none

end Replacement

namespace Graph

/-- Every noted replacement that led to `n`, the oldest first. -/
def provenance (g : Graph) (n : Node) : Except Error (List Replacement) :=
  (g.searchParents n (Replacement.notes n)).map (List.filterMap Replacement.ofExpr?)

/-- The nodes of the graph that are not among those seen. -/
def unseen (g : Graph) (seen : List Node) : Nat := (g.nodes.filter fun n => n ∉ seen).length

theorem unseen_lt {g : Graph} {n : Node} {seen : List Node} (h : n ∈ g.nodes) (hn : n ∉ seen) :
    g.unseen (n :: seen) < g.unseen seen := by
  have he : (g.nodes.filter fun m => m ∉ n :: seen)
      = (g.nodes.filter fun m => m ∉ seen).filter fun m => m ≠ n := by
    rw [List.filter_filter]
    exact List.filter_congr fun m _ => by simp [not_or]
  unfold unseen
  rw [he]
  exact List.length_filter_lt_length_iff_exists.2
    ⟨n, List.mem_filter.2 ⟨h, by simpa using hn⟩, by simp⟩

theorem mem_nodes_of_provenance {g : Graph} {n : Node} {rs : List Replacement} {r : Replacement}
    (h : g.provenance n = .ok rs) (hr : r ∈ rs) : r.replaced ∈ g.nodes := by
  obtain ⟨es, hes, rfl⟩ := ok_of_map_ok h
  obtain ⟨p, -, rfl⟩ := ok_of_map_ok hes
  obtain ⟨e, he, her⟩ := List.mem_filterMap.1 hr
  obtain ⟨q, -, hq⟩ := List.mem_filterMap.1 (List.mem_filter.1 he).1
  refine mem_nodes_of_expr? hq ?_
  unfold Replacement.ofExpr? at her
  split at her
  · next hargs => cases her; rw [hargs]; simp
  · cases her

/-- Follows the first replacement noted for a node back to the node it replaced, and so on. -/
def lineageFrom (g : Graph) (seen : List Node) (n : Node) : Except Error (List Replacement) :=
  match _h : g.provenance n with
  | .error e => .error e
  | .ok [] => .ok []
  | .ok (r :: _) =>
    if _hr : r.replaced ∈ seen then .ok [r]
    else (g.lineageFrom (r.replaced :: seen) r.replaced).map (r :: ·)
termination_by g.unseen seen
decreasing_by exact unseen_lt (mem_nodes_of_provenance _h (List.mem_cons_self ..)) _hr

/-- The chain of replacements that led to a node, the last one first. -/
def lineage (g : Graph) (n : Node) : Except Error (List Replacement) := g.lineageFrom [n] n

end Graph

end TermGraph
