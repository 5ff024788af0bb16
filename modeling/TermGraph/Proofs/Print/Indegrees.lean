import Mathlib.Algebra.BigOperators.Group.Finset.Basic
import Mathlib.Algebra.GroupWithZero.Nat
import TermGraph.Proofs.Print.Places
import TermGraph.Proofs.Walk

/-!
Counts of occurrences are in-degrees. Whether they are counted over what a root depends on or by a
visitor along a walk, the same arguments are gone through in the same order. Below a root every node
but the root is an argument of another one below it, and the root is none, for arguments stand
before the records that hold them.
-/

namespace TermGraph

namespace Occurrences

variable {es : List Expr} {n : Node} {u : Node × Nat}

/-! ### Where a node is an argument -/

/-- The arguments that are `n`, each as the node that holds it and the index there. -/
def uses (es : List Expr) (n : Node) : List (Node × Nat) :=
  es.flatMap fun e =>
    ((List.range e.args.length).filter fun i => e.args[i]? = some (.node n)).map (Prod.mk e.node)

theorem mem_uses :
    u ∈ uses es n ↔ ∃ e ∈ es, e.node = u.1 ∧ e.args[u.2]? = some (.node n) := by
  rw [uses, List.mem_flatMap]
  constructor
  · rintro ⟨e, he, hu⟩
    obtain ⟨i, hi, rfl⟩ := List.mem_map.1 hu
    exact ⟨e, he, rfl, of_decide_eq_true (List.mem_filter.1 hi).2⟩
  · rintro ⟨e, he, hnode, harg⟩
    refine ⟨e, he, List.mem_map.2 ⟨u.2, ?_, Prod.ext hnode rfl⟩⟩
    rw [List.mem_filter, List.mem_range]
    exact ⟨(List.getElem?_eq_some_iff.1 harg).1, decide_eq_true harg⟩

theorem nodup_uses (h : (es.map Expr.node).Nodup) : (uses es n).Nodup := by
  refine List.nodup_flatMap.2 ⟨fun e _ => ?_, (List.pairwise_map.1 h).imp fun hne => ?_⟩
  · exact (List.nodup_range.filter _).map fun i j hij => congrArg Prod.snd hij
  · intro u hu hu'
    obtain ⟨i, -, rfl⟩ := List.mem_map.1 hu
    obtain ⟨j, -, hj⟩ := List.mem_map.1 hu'
    exact hne (congrArg Prod.fst hj).symm

theorem count_children (n : Node) (e : Expr) : e.children.count n = e.args.count (.node n) := by
  rw [Expr.children, nodesOf, List.count_filterMap]
  refine List.countP_congr fun d _ => ?_
  cases d <;> simp [Datum.node?]

theorem get_eq_length_uses (n : Node) (es : List Expr) :
    (ofExprs es).get n = (uses es n).length := by
  rw [get_ofExprs, uses, List.length_flatMap, List.count_flatMap]
  refine congrArg List.sum (List.map_congr_left fun e _ => ?_)
  rw [Function.comp_apply, List.length_map, length_filter_range, count_children]

theorem order_ofExprs (es : List Expr) : (ofExprs es).order.toList = es.map Expr.node := by
  suffices h : ∀ o : Occurrences, (es.foldl (fun o e => o.add e.node e.children) o).order.toList
      = o.order.toList ++ es.map Expr.node from h {}
  induction es with
  | nil => exact fun o => (List.append_nil _).symm
  | cons e es ih =>
    intro o
    rw [List.foldl_cons, ih, List.map_cons, List.append_cons]
    exact congrArg (· ++ _) Array.toList_push

end Occurrences

/-! ### Counting along a row of nodes -/

namespace Graph

variable {g : Graph} {root n : Node} {ns : List Node} {es : List Expr} {ps : List Nat}
  {o : Occurrences}

/-- The nodes `ns` were gone through in this order, and each node counts as often as it is an
argument of one of them. -/
structure Counts (g : Graph) (ns : List Node) (o : Occurrences) : Prop where
  order_eq : o.order.toList = ns
  get_eq : ∀ n, ∃ uses : List (Node × Nat), uses.Nodup
    ∧ (∀ u, u ∈ uses ↔ u.1 ∈ ns ∧ ∃ x, g.read u.1 = .ok x ∧ x.args[u.2]? = some (.node n))
    ∧ o.get n = uses.length

theorem map_node_filterMap_expr? (h : ∀ p ∈ ps, p < g.size) :
    (ps.filterMap g.expr?).map Expr.node = ps.map g.node := by
  rw [List.map_filterMap, ← List.filterMap_eq_map]
  refine List.filterMap_congr fun p hp => ?_
  rw [expr?_eq_some ⟨p, h p hp⟩]
  rfl

theorem counts_ofExprs (h : ∀ p ∈ ps, p < g.size) (hnodup : ps.Nodup) :
    g.Counts (ps.map g.node) (Occurrences.ofExprs (ps.filterMap g.expr?)) := by
  have hnodes := map_node_filterMap_expr? h
  have hinj : (ps.map g.node).Nodup := hnodup.map fun p q hpq => congrArg Node.index hpq
  refine ⟨(Occurrences.order_ofExprs _).trans hnodes, fun n => ⟨_,
    Occurrences.nodup_uses (hnodes.symm ▸ hinj), fun u => Occurrences.mem_uses.trans ?_,
    Occurrences.get_eq_length_uses n _⟩⟩
  constructor
  · rintro ⟨e, he, hnode, harg⟩
    obtain ⟨p, hp, hexpr⟩ := List.mem_filterMap.1 he
    obtain rfl := Option.some.inj ((expr?_eq_some ⟨p, h p hp⟩).symm.trans hexpr)
    rw [← hnode]
    exact ⟨List.mem_map_of_mem hp, _, read_node ⟨p, h p hp⟩, harg⟩
  · rintro ⟨hu, x, hread, harg⟩
    obtain ⟨p, hp, hnode⟩ := List.mem_map.1 hu
    rw [← hnode, read_node ⟨p, h p hp⟩] at hread
    cases hread
    exact ⟨_, List.mem_filterMap.2 ⟨p, hp, expr?_eq_some ⟨p, h p hp⟩⟩, hnode, harg⟩

/-- A node counts if some node that was gone through mentions it. -/
theorem Counts.one_le_get_iff (h : g.Counts ns o) : 1 ≤ o.get n ↔
    ∃ m ∈ ns, ∃ x, g.read m = .ok x ∧ Datum.node n ∈ x.args := by
  obtain ⟨uses, -, hmem, hget⟩ := h.get_eq n
  rw [hget]
  refine List.length_pos_iff_exists_mem.trans ?_
  constructor
  · rintro ⟨u, hu⟩
    obtain ⟨hns, x, hread, harg⟩ := (hmem u).1 hu
    exact ⟨u.1, hns, x, hread, List.mem_of_getElem? harg⟩
  · rintro ⟨m, hm, x, hread, harg⟩
    obtain ⟨i, hi⟩ := List.getElem?_of_mem harg
    exact ⟨(m, i), (hmem _).2 ⟨hm, x, hread, hi⟩⟩

/-- A visitor counts what the expressions of the nodes visited mention. -/
theorem run_forM_visit : ∀ {ps : List Nat} (o : Occurrences), (∀ p ∈ ps, p < g.size) →
    Routine.run ((ps.map g.node).forM Occurrences.visit) o g
      = (.ok (), (ps.filterMap g.expr?).foldl (fun o e => o.add e.node e.children) o, g)
  | [], _, _ => rfl
  | p :: ps, o, h => by
    have hp := h p (List.mem_cons_self ..)
    rw [List.map_cons, Routine.run_forM_cons, Occurrences.visit, Routine.run_bind, Routine.run_look,
      children_node ⟨p, hp⟩, List.filterMap_cons_some (expr?_eq_some ⟨p, hp⟩)]
    exact run_forM_visit _ fun q hq => h q (List.mem_cons_of_mem _ hq)

/-! ### Below a root -/

/-- What is below a root, ascending, and how often each node is an argument there: the root never,
all others at least once, and no other node. -/
structure Indegrees (g : Graph) (root : Node) (ns : List Node) (o : Occurrences) : Prop
    extends Counts g ns o where
  ascending : ns.Pairwise fun n m => n.index < m.index
  root_eq : o.get root = 0
  one_le : ∀ n ∈ ns, n ≠ root → 1 ≤ o.get n
  zero : ∀ n, n ∉ ns → o.get n = 0
  total : ∃ es, ns.mapM g.read = .ok es
    ∧ (ns.map o.get).sum = (es.flatMap Expr.children).length

/-- Every node below a root but the root is an argument of one below it. -/
theorem exists_use (h : g.reachable [root] = .ok ns) (hn : n ∈ ns) (hne : n ≠ root) :
    ∃ m ∈ ns, ∃ x, g.read m = .ok x ∧ Datum.node n ∈ x.args := by
  obtain ⟨p, q, hp, rfl, rfl, hpath⟩ := contains_iff.1 ((mem_reachable_iff h).1 hn)
  obtain ⟨c, hc, hq⟩ := hpath.exists_parent fun he => hne (congrArg g.node he.symm)
  have hlt : c < g.size := Nat.lt_of_le_of_lt hc.le hp
  refine ⟨g.node c, (mem_reachable_iff h).2 (contains_iff.2 ⟨p, c, hp, rfl, rfl, hc⟩), _,
    read_node ⟨c, hlt⟩, ?_⟩
  exact (mem_childrenAt_iff_of_expr? (expr?_eq_some ⟨c, hlt⟩)).1 hq

/-- The counts of some nodes in a list add up to its length, if no other nodes are in it. -/
theorem sum_map_count {xs : List Node} (hnodup : ns.Nodup) (h : ∀ x ∈ xs, x ∈ ns) :
    (ns.map fun n => xs.count n).sum = xs.length := by
  have hmem : ∀ x ∈ (xs : Multiset Node), x ∈ ns.toFinset := fun x hx =>
    List.mem_toFinset.2 (h x (Multiset.mem_coe.1 hx))
  have hsum := Multiset.sum_count_eq_card hmem
  rw [List.sum_toFinset _ hnodup, Multiset.coe_card] at hsum
  simpa only [Multiset.coe_count] using hsum

/-- The counts over what a root depends on are the in-degrees there. -/
theorem Counts.indegrees (h : g.Counts ns (Occurrences.ofExprs es))
    (hns : g.reachable [root] = .ok ns) (hes : ns.mapM g.read = .ok es) :
    g.Indegrees root ns (Occurrences.ofExprs es) := by
  have hbelow : ∀ m ∈ ns, ∀ x, g.read m = .ok x → ∀ n, Datum.node n ∈ x.args →
      n ∈ ns ∧ n.index < root.index := fun m hm x hread n hn => by
    have hroot := (mem_reachable_iff hns).1 hm
    obtain ⟨hcontains, hlt⟩ := contains_arg hread hn
    exact ⟨(mem_reachable_iff hns).2 (contains_trans hroot hcontains),
      Nat.lt_of_lt_of_le hlt (index_le_of_contains hroot).2⟩
  have hnone : ∀ n, (¬ ∃ m ∈ ns, ∃ x, g.read m = .ok x ∧ Datum.node n ∈ x.args) →
      (Occurrences.ofExprs es).get n = 0 := fun n hn =>
    Nat.eq_zero_of_not_pos (hn ∘ h.one_le_get_iff.1)
  have hzero : ∀ n, n ∉ ns → (Occurrences.ofExprs es).get n = 0 := fun n hn =>
    hnone n fun ⟨m, hm, x, hread, harg⟩ => hn (hbelow m hm x hread n harg).1
  have htopological := topological_of_reachable hns
  refine ⟨h, htopological.ascending, hnone root ?_, fun n hn hne => h.one_le_get_iff.2 ?_, hzero,
    es, hes, ?_⟩
  · rintro ⟨m, hm, x, hread, harg⟩
    exact Nat.lt_irrefl _ (hbelow m hm x hread root harg).2
  · exact exists_use hns hn hne
  -- what is counted is in `ns`, for nothing else counts
  · have hget : (Occurrences.ofExprs es).get = fun n => (es.flatMap Expr.children).count n :=
      funext fun n => Occurrences.get_ofExprs n es
    rw [hget] at hzero ⊢
    refine sum_map_count htopological.nodup fun c hc => Classical.byContradiction fun hn => ?_
    exact List.count_eq_zero.1 (hzero c hn) hc

/-- Counts of occurrences are in-degrees: over what the root depends on, counted at once or by a
visitor on the way up to the root, and over all records up to the root by a visitor that goes
through these. -/
theorem count_indegrees (g : Graph) (root : Node) (hroot : root ∈ g.nodes) :
    ∃ ns o, g.reachable [root] = .ok ns ∧ Occurrences.count g root = .ok o
      ∧ g.Indegrees root ns o
      ∧ Routine.run (walk .needed root Occurrences.visit) {} g = (.ok (), o, g)
      ∧ ∃ o', Routine.run (walk .all root Occurrences.visit) {} g = (.ok (), o', g)
        ∧ g.Counts ((List.range (root.index + 1)).map g.node) o' := by
  obtain ⟨r, hr⟩ := exists_locate hroot
  obtain rfl := eq_node_of_locate hr
  have hwalk : ∀ extent, Routine.run (walk extent (g.node r) Occurrences.visit) {} g
      = (.ok (), Occurrences.ofExprs ((extent.positions g r).filterMap g.expr?), g) := by
    intro extent
    rw [Routine.run_walk, visits_node]
    exact run_forM_visit {} (closed_positions extent r).lt_size
  have hcounts : ∀ extent : Extent, g.Counts ((extent.positions g r).map g.node)
      (Occurrences.ofExprs ((extent.positions g r).filterMap g.expr?)) := fun extent =>
    counts_ofExprs (closed_positions extent r).lt_size
      ((positions_ascending extent r).imp Nat.ne_of_lt)
  have hreachable := visits_node .needed r
  have hcount : Occurrences.count g (g.node r)
      = .ok (Occurrences.ofExprs ((Extent.needed.positions g r).filterMap g.expr?)) := by
    rw [Occurrences.count, unfolding, closure_node r.isLt]
    rfl
  have hread := mapM_read_node (closed_positions .needed r).lt_size
  exact ⟨_, _, hreachable, hcount, (hcounts .needed).indegrees hreachable hread, hwalk .needed, _,
    hwalk .all, hcounts .all⟩

/-- The first record is an argument four times, but the second, where it is one, is not below the
last. -/
def fan : Graph :=
  let g := ((Graph.empty 0).append "a" []).2
  let g := (g.append "x" [.node (g.node 0)]).2
  let g := (g.append "b" [.node (g.node 0), .int 1, .node (g.node 0)]).2
  (g.append "c" [.node (g.node 2), .node (g.node 0)]).2

theorem count_indegrees_fan : ∃ o o', Occurrences.count fan (fan.node 3) = .ok o
    ∧ o.order.toList = [fan.node 0, fan.node 2, fan.node 3]
    ∧ [fan.node 0, fan.node 1, fan.node 2, fan.node 3].map o.get = [3, 0, 1, 0]
    ∧ Routine.run (walk .all (fan.node 3) Occurrences.visit) {} fan = (.ok (), o', fan)
    ∧ o'.get (fan.node 0) = 4 := by
  obtain ⟨ns, o, hns, hcount, hindegrees, -, o', hall, -⟩ :=
    count_indegrees fan (fan.node 3) (by decide)
  obtain rfl : [fan.node 0, fan.node 2, fan.node 3] = ns := Except.ok.inj hns
  obtain rfl : _ = o := Except.ok.inj hcount
  obtain rfl : _ = o' := congrArg (fun out => out.2.1) hall
  exact ⟨_, _, hcount, hindegrees.order_eq, rfl, hall, rfl⟩

end Graph

end TermGraph
