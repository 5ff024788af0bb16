import Mathlib.Data.List.Sort
import TermGraph.Dialect.Registry
import TermGraph.Proofs.Evaluation.Turn
import TermGraph.Proofs.Session.Queries

/-!
What was once observed about a node stays so. Records are only ever appended, and an answer about a
node is made from its record and from what stands before it, so it is the same in every extension of
the graph. The exceptions are the questions about what stands after a node: by whom it is mentioned,
and which replacements led to it. Their answers list records in order, so old answers go on with
newer records; and a lineage follows the oldest replacement of each node, so it can only get longer
at its end.
-/

namespace TermGraph

namespace Graph

variable {g g' : Graph} {n m : Node} {ns : List Node}

/-- The node was added in between. -/
def AddedBy (g g' : Graph) (n : Node) : Prop := n ∈ g'.nodes ∧ n ∉ g.nodes

theorem addedBy_node_iff (h : g.Extends g') {p : Nat} :
    g.AddedBy g' (g.node p) ↔ g.size ≤ p ∧ p < g'.size := by
  rw [AddedBy, ← h.node_eq p, node_mem_nodes, h.node_eq p, node_mem_nodes, Nat.not_lt, and_comm]

theorem index_lt_of_mem_nodes (h : ∀ n ∈ ns, n ∈ g.nodes) :
    ∀ p ∈ ns.map Node.index, p < g.size := by
  intro p hp
  obtain ⟨n, hn, rfl⟩ := List.mem_map.1 hp
  exact (mem_nodes.1 (h n hn)).2

theorem lineageFrom_nil {seen : List Node} (h : g.provenance n = .ok []) :
    g.lineageFrom seen n = .ok [] := by
  rw [lineageFrom]
  split <;> simp_all

theorem lineageFrom_cons {seen : List Node} {r : Replacement} {rs : List Replacement}
    (h : g.provenance n = .ok (r :: rs)) : g.lineageFrom seen n =
      if r.replaced ∈ seen then .ok [r]
      else (g.lineageFrom (r.replaced :: seen) r.replaced).map (r :: ·) := by
  rw [lineageFrom]
  split <;> simp_all

namespace Extends

variable (h : g.Extends g')
include h

/-! ### What stands at a node and before it -/

/-- What an answer makes of the position of a node decides. -/
theorem map_locate_eq {α : Type} {f : Fin g.size → α} {f' : Fin g'.size → α}
    (hf : ∀ p, f' (p.castLE h.size_le) = f p) (hn : n ∈ g.nodes) :
    (g'.locate n).map f' = (g.locate n).map f := by
  obtain ⟨p, hp⟩ := exists_locate hn
  rw [hp, h.locate_eq hp]
  exact congrArg Except.ok (hf p)

theorem read_eq (hn : n ∈ g.nodes) : g'.read n = g.read n := h.map_locate_eq h.exprAt_eq hn

theorem head_eq (hn : n ∈ g.nodes) : g'.head n = g.head n :=
  h.map_locate_eq (fun p => congrArg Expr.head (h.exprAt_eq p)) hn

theorem children_eq (hn : n ∈ g.nodes) : g'.children n = g.children n := by
  refine h.map_locate_eq (fun p => ?_) hn
  simp [h.childrenAt_eq p.isLt, h.node_eq]

theorem isSimple_eq (hn : n ∈ g.nodes) : g'.isSimple n = g.isSimple n := by
  refine h.map_locate_eq (fun p => ?_) hn
  simp [h.childrenAt_eq p.isLt]

theorem reaches_eq {p : Nat} (hp : p < g.size) (q : Nat) : g'.reaches p q = g.reaches p q := by
  rw [Bool.eq_iff_iff, reaches_iff, reaches_iff, h.path_iff hp]

theorem contains_eq (hn : n ∈ g.nodes) (hm : m ∈ g.nodes) : g'.contains n m = g.contains n m := by
  obtain ⟨p, hp⟩ := exists_locate hn
  obtain ⟨q, hq⟩ := exists_locate hm
  rw [contains, contains, hp, hq, h.locate_eq hp, h.locate_eq hq]
  exact congrArg Except.ok (h.reaches_eq p.isLt q)

/-- Both closures ascend, and they have the same members. -/
theorem closureAt_eq {ps : List Nat} (hps : ∀ p ∈ ps, p < g.size) :
    g'.closureAt ps = g.closureAt ps := by
  refine List.Pairwise.eq_of_mem_iff (closureAt_ascending ps) (closureAt_ascending ps) fun c => ?_
  simp only [mem_closureAt]
  constructor
  · rintro ⟨p, hp, hpath⟩
    exact ⟨p, hp, (h.path_iff (hps p hp)).1 hpath⟩
  · rintro ⟨p, hp, hpath⟩
    exact ⟨p, hp, (h.path_iff (hps p hp)).2 hpath⟩

theorem closure_eq (hns : ∀ n ∈ ns, n ∈ g.nodes) : g'.closure ns = g.closure ns := by
  rw [Graph.closure_eq hns, Graph.closure_eq fun n hn => h.mem_nodes (hns n hn),
    h.closureAt_eq (index_lt_of_mem_nodes hns)]

theorem reachable_eq (hns : ∀ n ∈ ns, n ∈ g.nodes) : g'.reachable ns = g.reachable ns := by
  have hnode : g'.node = g.node := funext h.node_eq
  rw [reachable, reachable, h.closure_eq hns, hnode]

theorem unfolding_eq (hns : ∀ n ∈ ns, n ∈ g.nodes) : g'.unfolding ns = g.unfolding ns := by
  rw [unfolding, unfolding, h.closure_eq hns, Graph.closure_eq hns]
  refine congrArg Except.ok (List.filterMap_congr fun c hc => ?_)
  exact h.expr?_eq ((closed_closureAt (index_lt_of_mem_nodes hns)).lt_size c hc)

theorem occurrences_eq (hn : n ∈ g.nodes) : Occurrences.count g' n = Occurrences.count g n := by
  rw [Occurrences.count, Occurrences.count, h.unfolding_eq (by simpa using hn)]

theorem render_eq (hn : n ∈ g.nodes) : g'.render n = g.render n := by
  rw [render, render, h.read_eq hn, h.unfolding_eq (by simpa using hn)]

theorem matchNode_eq (d : Dialect) (hn : n ∈ g.nodes) : d.matchNode g' n = d.matchNode g n := by
  rw [Dialect.matchNode, Dialect.matchNode, h.read_eq hn]

/-! ### What stands after a node -/

/-- Those that mention a node are followed by newer ones. -/
theorem exists_parentsAt_eq {p : Nat} (hp : p < g.size) : ∃ new,
    g'.parentsAt p = g.parentsAt p ++ new ∧ ∀ q ∈ new, g.size ≤ q ∧ q < g'.size := by
  have hle := h.size_le
  have hrange : List.range' (p + 1) (g'.size - (p + 1))
      = List.range' (p + 1) (g.size - (p + 1)) ++ List.range' g.size (g'.size - g.size) := by
    have hlast : p + 1 + (g.size - (p + 1)) = g.size := by omega
    have hlength : g.size - (p + 1) + (g'.size - g.size) = g'.size - (p + 1) := by omega
    rw [← hlength, ← List.range'_append_1, hlast]
  refine ⟨(List.range' g.size (g'.size - g.size)).filter fun q => (g'.childrenAt q).contains p,
    ?_, fun q hq => ?_⟩
  · rw [parentsAt, parentsAt, hrange, List.filter_append]
    refine congrArg (· ++ _) (List.filter_congr fun q hq => ?_)
    have hq := List.mem_range'_1.1 hq
    rw [h.childrenAt_eq (by omega)]
  · have hq := List.mem_range'_1.1 (List.mem_filter.1 hq).1
    omega

theorem exists_parents_eq (hn : n ∈ g.nodes) : ∃ old new, g.parents n = .ok old
    ∧ g'.parents n = .ok (old ++ new) ∧ ∀ m ∈ new, g.AddedBy g' m := by
  obtain ⟨p, hp⟩ := exists_locate hn
  obtain ⟨new, hnew, hadded⟩ := h.exists_parentsAt_eq p.isLt
  refine ⟨_, new.map g.node, by rw [parents, hp]; rfl, ?_, fun m hm => ?_⟩
  · have hnode : g'.node = g.node := funext h.node_eq
    rw [parents, h.locate_eq hp, hnode, ← List.map_append, ← hnew]
    rfl
  · obtain ⟨q, hq, rfl⟩ := List.mem_map.1 hm
    exact (addedBy_node_iff h).2 (hadded q hq)

/-- Whatever is searched for, what was found before comes first. -/
theorem exists_searchParents_eq (test : Expr → Bool) (hn : n ∈ g.nodes) : ∃ old new,
    g.searchParents n test = .ok old ∧ g'.searchParents n test = .ok (old ++ new)
      ∧ ∀ e ∈ new, g.AddedBy g' e.node := by
  obtain ⟨p, hp⟩ := exists_locate hn
  obtain ⟨new, hnew, hadded⟩ := h.exists_parentsAt_eq p.isLt
  refine ⟨_, (new.filterMap g'.expr?).filter test, by rw [searchParents, hp]; rfl, ?_, ?_⟩
  · have hold : (g.parentsAt p).filterMap g'.expr? = (g.parentsAt p).filterMap g.expr? :=
      List.filterMap_congr fun q hq => by
        have hq := List.mem_range'_1.1 (List.mem_filter.1 hq).1
        exact h.expr?_eq (by omega)
    rw [searchParents, h.locate_eq hp, ← List.filter_append, ← hold, ← List.filterMap_append,
      ← hnew]
    rfl
  · intro e he
    obtain ⟨q, hq, heq⟩ := List.mem_filterMap.1 (List.mem_filter.1 he).1
    have hlt := (hadded q hq).2
    rw [expr?_eq_some ⟨q, hlt⟩] at heq
    cases heq
    have hnode : (g'.exprAt ⟨q, hlt⟩).node = g.node q := h.node_eq q
    rw [hnode]
    exact (addedBy_node_iff h).2 (hadded q hq)

theorem exists_provenance_eq (hn : n ∈ g.nodes) : ∃ old new, g.provenance n = .ok old
    ∧ g'.provenance n = .ok (old ++ new) ∧ ∀ r ∈ new, g.AddedBy g' r.record := by
  obtain ⟨old, new, hold, hnew, hadded⟩ := h.exists_searchParents_eq (Replacement.notes n) hn
  refine ⟨_, new.filterMap Replacement.ofExpr?, by rw [provenance, hold]; rfl, ?_, fun r hr => ?_⟩
  · rw [provenance, hnew, ← List.filterMap_append]
    rfl
  · obtain ⟨e, he, her⟩ := List.mem_filterMap.1 hr
    unfold Replacement.ofExpr? at her
    split at her
    · cases her
      exact hadded e he
    · cases her

/-- The oldest replacement stays the oldest, so both chains go the same way until the older one has
no more to follow. -/
theorem exists_lineageFrom_eq (seen : List Node) (n : Node) (hn : n ∈ g.nodes) : ∃ old new,
    g.lineageFrom seen n = .ok old ∧ g'.lineageFrom seen n = .ok (old ++ new) := by
  obtain ⟨rs, new, hrs, hnew, -⟩ := h.exists_provenance_eq hn
  cases rs with
  | nil =>
    have hrefusal := g'.refusal?_lineageFrom seen n
    rw [refusal?_locate_eq_none.2 (h.mem_nodes hn)] at hrefusal
    obtain ⟨more, hmore⟩ := refusal?_eq_none.1 hrefusal
    exact ⟨[], more, lineageFrom_nil hrs, hmore⟩
  | cons r rs =>
    rw [lineageFrom_cons hrs, lineageFrom_cons hnew]
    by_cases hseen : r.replaced ∈ seen
    · rw [if_pos hseen, if_pos hseen]
      exact ⟨[r], [], rfl, rfl⟩
    · rw [if_neg hseen, if_neg hseen]
      have hr := mem_nodes_of_provenance hrs (List.mem_cons_self ..)
      obtain ⟨old, more, hold, hmore⟩ := exists_lineageFrom_eq (r.replaced :: seen) r.replaced hr
      exact ⟨r :: old, more, by rw [hold]; rfl, by rw [hmore]; rfl⟩
termination_by g.unseen seen
decreasing_by exact unseen_lt hr hseen

end Extends

/-! ### Whatever is appended -/

/-- The graphs that come of a graph by appending to it: directly, by copying into it, by an action,
such as a walk or the run of a pass, or by an evaluation. -/
inductive Later (g : Graph) : Graph → Prop
  | start : Later g g
  | append {g' : Graph} (head : String) (args : List Value) :
    Later g g' → Later g (g'.append head args).2
  | copyForest {g' : Graph} (src : Graph) (roots : List Node) :
    Later g g' → Later g (src.copyForest roots g').2
  | copyTree {g' : Graph} (src : Graph) (root : Node) :
    Later g g' → Later g (src.copyTree root g').2
  | acted {g' : Graph} {σ α : Type} (a : Action σ α) (s : σ) :
    Later g g' → Later g (Routine.run a s g').2.2
  | evaluated {g' : Graph} {σ T : Type} (root : Node) (handler : Handler σ T) (s : σ) :
    Later g g' → Later g (g'.evaluate root handler s).graph

theorem Later.extends_graph (h : g.Later g') : g.Extends g' := by
  induction h with
  | start => exact .refl g
  | append head args _ ih => exact ih.trans (extends_append _ head args)
  | copyForest src roots _ ih => exact ih.trans (extends_copyForest src roots _)
  | copyTree src root _ ih => exact ih.trans (extends_copyTree src root _)
  | acted a s _ ih => exact ih.trans (Routine.extends_run a s _)
  | evaluated root handler s _ ih => exact ih.trans (extends_evaluate _ root handler s)

/-- A record just appended reads as it was given, whatever is appended after it. -/
theorem Appended.read_of_later {head : String} {args : List Value} {g'' : Graph}
    (h : g.Appended head args g') (hlater : g'.Later g'') :
    g''.read (g.node g.size) = .ok ⟨g.node g.size, head, args⟩ := by
  have hlt : g.size < g'.size := by
    rw [h.size_eq]
    exact Nat.lt_succ_self _
  have hexpr := h.expr?_eq
  rw [expr?_eq_some ⟨g.size, hlt⟩, Option.some.injEq] at hexpr
  rw [← h.grown.node_eq, hlater.extends_graph.read_eq (node_mem_nodes.2 hlt), read,
    locate_node hlt, h.grown.node_eq, ← hexpr]
  rfl

/-- What is asked about nodes of the first graph has the same answer in the second, or one that goes
on with what was added. -/
structure Stable (g g' : Graph) : Prop where
  read : ∀ n ∈ g.nodes, g'.read n = g.read n
  head : ∀ n ∈ g.nodes, g'.head n = g.head n
  children : ∀ n ∈ g.nodes, g'.children n = g.children n
  isSimple : ∀ n ∈ g.nodes, g'.isSimple n = g.isSimple n
  contains : ∀ n ∈ g.nodes, ∀ m ∈ g.nodes, g'.contains n m = g.contains n m
  closure : ∀ ns : List Node, (∀ n ∈ ns, n ∈ g.nodes) → g'.closure ns = g.closure ns
  reachable : ∀ ns : List Node, (∀ n ∈ ns, n ∈ g.nodes) → g'.reachable ns = g.reachable ns
  occurrences : ∀ n ∈ g.nodes, Occurrences.count g' n = Occurrences.count g n
  render : ∀ n ∈ g.nodes, g'.render n = g.render n
  matchNode : ∀ (d : Dialect), ∀ n ∈ g.nodes, d.matchNode g' n = d.matchNode g n
  parents : ∀ n ∈ g.nodes, ∃ old new, g.parents n = .ok old
    ∧ g'.parents n = .ok (old ++ new) ∧ ∀ m ∈ new, g.AddedBy g' m
  provenance : ∀ n ∈ g.nodes, ∃ old new, g.provenance n = .ok old
    ∧ g'.provenance n = .ok (old ++ new) ∧ ∀ r ∈ new, g.AddedBy g' r.record
  lineage : ∀ n ∈ g.nodes, ∃ old new, g.lineage n = .ok old ∧ g'.lineage n = .ok (old ++ new)

theorem Extends.stable (h : g.Extends g') : g.Stable g' where
  read _ := h.read_eq
  head _ := h.head_eq
  children _ := h.children_eq
  isSimple _ := h.isSimple_eq
  contains _ hn _ := h.contains_eq hn
  closure _ := h.closure_eq
  reachable _ := h.reachable_eq
  occurrences _ := h.occurrences_eq
  render _ := h.render_eq
  matchNode d _ := h.matchNode_eq d
  parents _ := h.exists_parents_eq
  provenance _ := h.exists_provenance_eq
  lineage n := h.exists_lineageFrom_eq [n] n

/-- Whatever is appended to a graph, and however, all that was observed about its nodes stays, and
the lists that grow go on where they ended. -/
theorem stable_of_later (h : g.Later g') : g.Stable g' := h.extends_graph.stable

/-- Two records without arguments. -/
def pair : Graph := (((Graph.empty 0).append "a" []).2.append "b" []).2

/-- A pass that replaces every `a` by the second record of the graph. -/
def toSecond : Pass Unit Empty :=
  Pass.on { name := "second", state := () } "a" fun e _ => pure (.node ⟨e.node.graph, 1⟩)

theorem stable_toSecond : ∃ g', pair.Later g' ∧ pair.Stable g'
    ∧ pair.lineage (pair.node 1) = .ok []
    ∧ g'.lineage (pair.node 1) = .ok [⟨"second", pair.node 0, pair.node 2⟩] := by
  have hlater := Later.acted (Pass.run (pair.node 0)) toSecond (.start (g := pair))
  refine ⟨_, hlater, stable_of_later hlater, lineageFrom_nil rfl, ?_⟩
  rw [lineage, lineageFrom_cons (show _ = Except.ok [_] from rfl), lineageFrom_nil rfl]
  rfl

end Graph

end TermGraph
