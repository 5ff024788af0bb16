import Mathlib.Data.Set.Basic
import TermGraph.Pass.History
import TermGraph.Print.Render
import TermGraph.Proofs.Graph.Copy

/-!
Questions about a graph that change nothing. All are refused for the same reason, the first node
among those given that is no node of the graph, and all nodes in an answer are nodes of the graph.
-/

namespace TermGraph

/-- What can be asked about a graph. -/
inductive Query where
  | nodes
  | locate (n : Node)
  | read (n : Node)
  | head (n : Node)
  | children (n : Node)
  | isSimple (n : Node)
  | parents (n : Node)
  | searchParents (n : Node) (test : Expr → Bool)
  | contains (root target : Node)
  | closure (roots : List Node)
  | reachable (roots : List Node)
  | provenance (n : Node)
  | lineage (n : Node)
  | occurrences (root : Node)
  | render (root : Node)

/-- The nodes in an answer; none in a refusal. -/
def answered {α : Type} (nodes : α → List Node) : Except Error α → List Node
  | .ok a => nodes a
  | .error _ => []

/-- The node of an expression and those that it mentions. -/
def Expr.nodes (e : Expr) : List Node := e.node :: e.children

/-- The nodes that a replacement names. -/
def Replacement.nodes (r : Replacement) : List Node := [r.replaced, r.record]

/-- The nodes counted and those whose arguments were counted. -/
def Occurrences.nodes (o : Occurrences) : List Node := o.counts.keys ++ o.order.toList

namespace Query

/-- The nodes that the question is about. -/
def given : Query → List Node
  | nodes => []
  | locate n => [n]
  | read n => [n]
  | head n => [n]
  | children n => [n]
  | isSimple n => [n]
  | parents n => [n]
  | searchParents n _ => [n]
  | contains root target => [root, target]
  | closure roots => roots
  | reachable roots => roots
  | provenance n => [n]
  | lineage n => [n]
  | occurrences root => [root]
  | render root => [root]

/-- Why there is no answer. -/
def error (g : Graph) : Query → Option Error
  | nodes => none
  | locate n => refusal? (g.locate n)
  | read n => refusal? (g.read n)
  | head n => refusal? (g.head n)
  | children n => refusal? (g.children n)
  | isSimple n => refusal? (g.isSimple n)
  | parents n => refusal? (g.parents n)
  | searchParents n test => refusal? (g.searchParents n test)
  | contains root target => refusal? (g.contains root target)
  | closure roots => refusal? (g.closure roots)
  | reachable roots => refusal? (g.reachable roots)
  | provenance n => refusal? (g.provenance n)
  | lineage n => refusal? (g.lineage n)
  | occurrences root => refusal? (Occurrences.count g root)
  | render root => refusal? (g.render root)

/-- The nodes in the answer. A closure gives positions, which stand for the nodes there. -/
def handed (g : Graph) : Query → List Node
  | nodes => g.nodes
  | read n => answered Expr.nodes (g.read n)
  | children n => answered id (g.children n)
  | parents n => answered id (g.parents n)
  | searchParents n test => answered (List.flatMap Expr.nodes) (g.searchParents n test)
  | closure roots => answered (List.map g.node) (g.closure roots)
  | reachable roots => answered id (g.reachable roots)
  | provenance n => answered (List.flatMap Replacement.nodes) (g.provenance n)
  | lineage n => answered (List.flatMap Replacement.nodes) (g.lineage n)
  | occurrences root => answered Occurrences.nodes (Occurrences.count g root)
  | _ => []

end Query

namespace Graph

variable {g : Graph} {n : Node}

/-! ### Refusals -/

theorem refusal?_contains (root target : Node) : refusal? (g.contains root target)
    = [root, target].findSome? fun n => refusal? (g.locate n) := by
  rw [contains, List.findSome?_cons, List.findSome?_cons]
  cases g.locate root with
  | error e => rfl
  | ok p => cases g.locate target <;> rfl

theorem refusal?_unfolding (root : Node) :
    refusal? (g.unfolding [root]) = refusal? (g.locate root) := by
  rw [unfolding, refusal?_map, closure_singleton, refusal?_map]

theorem refusal?_provenance (n : Node) : refusal? (g.provenance n) = refusal? (g.locate n) := by
  rw [provenance, refusal?_map, searchParents, refusal?_map]

theorem refusal?_lineageFrom (seen : List Node) (n : Node) :
    refusal? (g.lineageFrom seen n) = refusal? (g.locate n) := by
  rw [← refusal?_provenance, lineageFrom]
  split
  · next e h => rw [h]
  · next h => rw [h]
  · next r rs h =>
    rw [h]
    split
    · rfl
    · next hr =>
      have hmem := mem_nodes_of_provenance h (List.mem_cons_self ..)
      rw [refusal?_map, refusal?_lineageFrom, refusal?_locate_eq_none.2 hmem]
      rfl
termination_by g.unseen seen
decreasing_by exact unseen_lt hmem (by assumption)

theorem refusal?_render (root : Node) : refusal? (g.render root) = refusal? (g.locate root) := by
  have hunfolding := g.refusal?_unfolding root
  rw [render, read]
  cases hroot : g.locate root with
  | error e => rfl
  | ok p =>
    rw [hroot] at hunfolding
    obtain ⟨es, hes⟩ := refusal?_eq_none.1 hunfolding
    rw [hes]
    simp only [Except.map, bind, Except.bind]
    split <;> rfl

/-! ### Nodes in answers -/

theorem mem_answered {α : Type} {f : α → List Node} {x : Except Error α} :
    n ∈ answered f x ↔ ∃ a, x = .ok a ∧ n ∈ f a := by
  cases x <;> simp [answered]

theorem mem_nodes_of_mem_children {p : Fin g.size} (h : n ∈ (g.exprAt p).children) :
    n ∈ g.nodes := by
  obtain ⟨v, hv, hn⟩ := List.mem_filterMap.1 h
  cases v with
  | node m =>
    cases hn
    exact mem_nodes_of_expr? (expr?_eq_some p) hv
  | _ => cases hn

theorem mem_nodes_of_mem_exprAt {p : Fin g.size} (h : n ∈ (g.exprAt p).nodes) : n ∈ g.nodes := by
  rcases List.mem_cons.1 h with rfl | h
  · exact node_mem_nodes.2 p.isLt
  · exact mem_nodes_of_mem_children h

theorem mem_nodes_of_mem_filterMap {ps : List Nat} {e : Expr} (he : e ∈ ps.filterMap g.expr?)
    (h : n ∈ e.nodes) : n ∈ g.nodes := by
  obtain ⟨p, -, hp⟩ := List.mem_filterMap.1 he
  have hlt : p < g.size := by
    unfold expr? at hp
    split at hp
    · assumption
    · cases hp
  rw [expr?_eq_some ⟨p, hlt⟩] at hp
  cases hp
  exact mem_nodes_of_mem_exprAt h

theorem lt_size_of_closure {roots : List Node} {cs : List Nat} {c : Nat}
    (h : g.closure roots = .ok cs) (hc : c ∈ cs) : c < g.size := by
  rw [closure_eq_map] at h
  obtain ⟨ps, -, rfl⟩ := ok_of_map_ok h
  refine (closed_closureAt fun p hp => ?_).lt_size c hc
  obtain ⟨q, -, rfl⟩ := List.mem_map.1 hp
  exact q.isLt

theorem mem_nodes_of_mem_reachable {roots ns : List Node} (h : g.reachable roots = .ok ns)
    (hn : n ∈ ns) : n ∈ g.nodes := by
  obtain ⟨cs, hcs, rfl⟩ := ok_of_map_ok h
  obtain ⟨c, hc, rfl⟩ := List.mem_map.1 hn
  exact node_mem_nodes.2 (lt_size_of_closure hcs hc)

theorem mem_nodes_of_mem_searchParents {m : Node} {test : Expr → Bool} {es : List Expr} {e : Expr}
    (h : g.searchParents m test = .ok es) (he : e ∈ es) (hn : n ∈ e.nodes) : n ∈ g.nodes := by
  obtain ⟨p, -, rfl⟩ := ok_of_map_ok h
  exact mem_nodes_of_mem_filterMap (List.mem_filter.1 he).1 hn

theorem mem_nodes_of_mem_provenance {m : Node} {rs : List Replacement} {r : Replacement}
    (h : g.provenance m = .ok rs) (hr : r ∈ rs) (hn : n ∈ r.nodes) : n ∈ g.nodes := by
  rcases List.mem_cons.1 hn with rfl | hn
  · exact mem_nodes_of_provenance h hr
  · rw [List.mem_singleton.1 hn]
    obtain ⟨es, hes, rfl⟩ := ok_of_map_ok h
    obtain ⟨e, he, her⟩ := List.mem_filterMap.1 hr
    refine mem_nodes_of_mem_searchParents hes he ?_
    unfold Replacement.ofExpr? at her
    split at her
    · cases her
      exact List.mem_cons_self ..
    · cases her

theorem mem_nodes_of_mem_lineageFrom {rs : List Replacement} {r : Replacement} (seen : List Node)
    (m : Node) (h : g.lineageFrom seen m = .ok rs) (hr : r ∈ rs) (hn : n ∈ r.nodes) :
    n ∈ g.nodes := by
  rw [lineageFrom] at h
  split at h
  · cases h
  · cases h
    cases hr
  · next r' rs' hm =>
    have hfirst : n ∈ r'.nodes → n ∈ g.nodes :=
      mem_nodes_of_mem_provenance hm (List.mem_cons_self ..)
    split at h
    · cases h
      rw [List.mem_singleton.1 hr] at hn
      exact hfirst hn
    · obtain ⟨rs'', hrs, rfl⟩ := ok_of_map_ok h
      have hmem := mem_nodes_of_provenance hm (List.mem_cons_self ..)
      rcases List.mem_cons.1 hr with rfl | hr
      · exact hfirst hn
      · exact mem_nodes_of_mem_lineageFrom _ _ hrs hr hn
termination_by g.unseen seen
decreasing_by exact unseen_lt hmem (by assumption)

end Graph

namespace Occurrences

variable {n : Node}

theorem mem_foldl_bump : ∀ (cs : List Node) (counts : Std.TreeMap Node Nat),
    n ∈ cs.foldl bump counts → n ∈ counts ∨ n ∈ cs
  | [], _, h => .inl h
  | c :: cs, counts, h => by
    rcases mem_foldl_bump cs (bump counts c) h with h | h
    · rw [bump, Std.TreeMap.mem_insert, Std.LawfulEqCmp.compare_eq_iff_eq] at h
      rcases h with rfl | h
      · exact .inr (List.mem_cons_self ..)
      · exact .inl h
    · exact .inr (List.mem_cons_of_mem _ h)

theorem mem_nodes {o : Occurrences} : n ∈ o.nodes ↔ n ∈ o.counts ∨ n ∈ o.order.toList := by
  rw [nodes, List.mem_append, Std.TreeMap.mem_keys]

theorem mem_nodes_add {o : Occurrences} {e : Expr} (h : n ∈ (o.add e.node e.children).nodes) :
    n ∈ o.nodes ∨ n ∈ e.nodes := by
  rw [mem_nodes, add, Array.toList_push, List.mem_append, List.mem_singleton] at h
  rw [mem_nodes, Expr.nodes, List.mem_cons]
  rcases h with h | h | h
  · exact (mem_foldl_bump _ _ h).imp .inl .inr
  · exact .inl (.inr h)
  · exact .inr (.inl h)

theorem mem_nodes_foldl : ∀ (es : List Expr) (o : Occurrences),
    n ∈ (es.foldl (fun o e => o.add e.node e.children) o).nodes →
      n ∈ o.nodes ∨ ∃ e ∈ es, n ∈ e.nodes
  | [], _, h => .inl h
  | e :: es, o, h => by
    rcases mem_nodes_foldl es _ h with h | ⟨e', he', hn⟩
    · rcases mem_nodes_add h with h | h
      · exact .inl h
      · exact .inr ⟨e, List.mem_cons_self .., h⟩
    · exact .inr ⟨e', List.mem_cons_of_mem _ he', hn⟩

theorem mem_nodes_of_count {g : Graph} {root : Node} {o : Occurrences}
    (h : count g root = .ok o) (hn : n ∈ o.nodes) : n ∈ g.nodes := by
  obtain ⟨es, hes, rfl⟩ := ok_of_map_ok h
  obtain ⟨cs, -, rfl⟩ := ok_of_map_ok hes
  rcases mem_nodes_foldl _ _ hn with hn | ⟨e, he, hn⟩
  · cases mem_nodes.1 hn with
    | inl h => exact absurd h Std.TreeMap.not_mem_emptyc
    | inr h => cases h
  · exact Graph.mem_nodes_of_mem_filterMap he hn

end Occurrences

namespace Query

variable {g : Graph} {n : Node}

/-- A question is refused for the first of its nodes that is no node of the graph. -/
theorem error_eq (q : Query) (g : Graph) :
    q.error g = q.given.findSome? fun n => refusal? (g.locate n) := by
  have hmap : ∀ {α : Type} (n : Node) (f : Fin g.size → α),
      refusal? ((g.locate n).map f) = [n].findSome? fun n => refusal? (g.locate n) := fun n f => by
    rw [refusal?_map, List.findSome?_singleton]
  cases q with
  | nodes => rfl
  | locate n => exact List.findSome?_singleton.symm
  | read n => exact hmap n _
  | head n => exact hmap n _
  | children n => exact hmap n _
  | isSimple n => exact hmap n _
  | parents n => exact hmap n _
  | searchParents n test => exact hmap n _
  | contains root target => exact g.refusal?_contains root target
  | closure roots => exact g.refusal?_closure roots
  | reachable roots => exact (refusal?_map _ _).trans (g.refusal?_closure roots)
  | provenance n => exact (g.refusal?_provenance n).trans List.findSome?_singleton.symm
  | lineage n => exact (g.refusal?_lineageFrom [n] n).trans List.findSome?_singleton.symm
  | occurrences root =>
    exact (refusal?_map _ _).trans
      ((g.refusal?_unfolding root).trans List.findSome?_singleton.symm)
  | render root => exact (g.refusal?_render root).trans List.findSome?_singleton.symm

/-- The nodes in an answer are nodes of the graph. -/
theorem mem_nodes_of_mem_handed {q : Query} (h : n ∈ q.handed g) : n ∈ g.nodes := by
  have hmem : ∀ {α : Type} {f : α → List Node} {x : Except Error α}, n ∈ answered f x →
      (∀ a, x = .ok a → n ∈ f a → n ∈ g.nodes) → n ∈ g.nodes := fun h hx => by
    obtain ⟨a, ha, hn⟩ := Graph.mem_answered.1 h
    exact hx a ha hn
  cases q with
  | nodes => exact h
  | read m =>
    refine hmem h fun e he hn => ?_
    obtain ⟨p, -, rfl⟩ := ok_of_map_ok he
    exact Graph.mem_nodes_of_mem_exprAt hn
  | children m =>
    refine hmem h fun ns hns hn => ?_
    obtain ⟨p, -, rfl⟩ := ok_of_map_ok hns
    obtain ⟨q, hq, rfl⟩ := List.mem_map.1 hn
    exact Graph.node_mem_nodes.2 (Nat.lt_trans (Graph.lt_of_mem_childrenAt hq) p.isLt)
  | parents m =>
    refine hmem h fun ns hns hn => ?_
    obtain ⟨p, -, rfl⟩ := ok_of_map_ok hns
    obtain ⟨q, hq, rfl⟩ := List.mem_map.1 hn
    have hq := List.mem_range'_1.1 (List.mem_filter.1 hq).1
    exact Graph.node_mem_nodes.2 (by omega)
  | searchParents m test =>
    refine hmem h fun es hes hn => ?_
    obtain ⟨e, he, hn⟩ := List.mem_flatMap.1 hn
    exact Graph.mem_nodes_of_mem_searchParents hes he hn
  | closure roots =>
    refine hmem h fun cs hcs hn => ?_
    obtain ⟨c, hc, rfl⟩ := List.mem_map.1 hn
    exact Graph.node_mem_nodes.2 (Graph.lt_size_of_closure hcs hc)
  | reachable roots =>
    exact hmem h fun ns hns hn => Graph.mem_nodes_of_mem_reachable hns hn
  | provenance m =>
    refine hmem h fun rs hrs hn => ?_
    obtain ⟨r, hr, hn⟩ := List.mem_flatMap.1 hn
    exact Graph.mem_nodes_of_mem_provenance hrs hr hn
  | lineage m =>
    refine hmem h fun rs hrs hn => ?_
    obtain ⟨r, hr, hn⟩ := List.mem_flatMap.1 hn
    exact Graph.mem_nodes_of_mem_lineageFrom [m] m hrs hr hn
  | occurrences root => exact hmem h fun o ho hn => Occurrences.mem_nodes_of_count ho hn
  | _ => cases h

end Query

end TermGraph
