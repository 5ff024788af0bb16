import TermGraph.Proofs.Fold.Table
import TermGraph.Proofs.Graph.Stable
import TermGraph.Proofs.Routine

/-!
The order of a walk. Which nodes are visited is settled before the first visit: all up to the root,
or those that the root depends on. Either way they come in the order of their records, so each once
and after all that it mentions, and whatever the visitor appends stands after all of them.

A visitor that is made to list the nodes it is called for (`recording`) does what it did, and its
list shows what a walk has visited: all of them, or, if a visit fails, those up to the failure.
-/

namespace TermGraph

/-! ### Which nodes are visited -/

section Positions

variable {g : Graph} {root : Fin g.size}

/-- The positions that a walk visits, ascending. -/
def Extent.positions (g : Graph) (root : Fin g.size) : Extent → List Nat
  | .all => List.range (root.val + 1)
  | .needed => g.closureAt [root.val]

/-- What a walk visits: everything up to the root, or what the root depends on. -/
def Extent.visited (g : Graph) (root : Fin g.size) : Extent → Set (Fin g.size)
  | .all => { p | p.val ≤ root.val }
  | .needed => { p | g.Path root.val p.val }

namespace Graph

theorem visits_node (extent : Extent) (root : Fin g.size) :
    g.visits extent (g.node root.val) = .ok ((extent.positions g root).map g.node) := by
  cases extent with
  | all => rw [visits, locate_node root.isLt]; rfl
  | needed => rw [visits, reachable, closure_node root.isLt]; rfl

theorem mem_positions {extent : Extent} {p : Fin g.size} :
    p.val ∈ extent.positions g root ↔ p ∈ extent.visited g root := by
  cases extent with
  | all => exact List.mem_range.trans Nat.lt_succ_iff
  | needed => simp [Extent.positions, Extent.visited, mem_closureAt]

theorem closed_positions (extent : Extent) (root : Fin g.size) :
    g.Closed (extent.positions g root) := by
  cases extent with
  | all =>
    have hroot := root.isLt
    refine ⟨fun p hp => ?_, fun p hp q hq => ?_⟩
    · have := List.mem_range.1 hp
      omega
    · have := List.mem_range.1 hp
      have := lt_of_mem_childrenAt hq
      exact List.mem_range.2 (by omega)
  | needed => exact closed_closureAt (by simp)

theorem positions_ascending (extent : Extent) (root : Fin g.size) :
    (extent.positions g root).Pairwise (· < ·) := by
  cases extent with
  | all => exact List.pairwise_lt_range
  | needed => exact closureAt_ascending _

/-- What the root depends on is what it contains among all up to it. -/
theorem positions_needed (root : Fin g.size) : Extent.needed.positions g root
    = (Extent.all.positions g root).filter (g.reaches root.val) := by
  refine List.Pairwise.eq_of_mem_iff (positions_ascending .needed root)
    ((positions_ascending .all root).filter _) fun c => ?_
  simp only [Extent.positions, mem_closureAt, List.mem_filter, List.mem_range, List.mem_singleton,
    exists_eq_left, reaches_iff]
  constructor
  · intro hpath
    exact ⟨Nat.lt_succ_of_le hpath.le, hpath⟩
  · exact And.right

end Graph

end Positions

namespace Graph

variable {g g' : Graph} {extent : Extent} {root n : Node} {ns : List Node}

/-- A walk is refused if its root is no node of the graph, and only then. -/
theorem refusal?_visits (g : Graph) (extent : Extent) (root : Node) :
    refusal? (g.visits extent root) = refusal? (g.locate root) := by
  cases extent with
  | all => exact refusal?_map _ _
  | needed =>
    rw [visits, reachable, refusal?_map, refusal?_closure, List.findSome?_cons]
    cases refusal? (g.locate root) <;> rfl

/-- What a walk visits, as positions. -/
theorem exists_positions (h : g.visits extent root = .ok ns) :
    ∃ q : Fin g.size, root = g.node q.val ∧ ns = (extent.positions g q).map g.node := by
  have hlocate : refusal? (g.locate root) = none := by
    rw [← refusal?_visits g extent, h]
    rfl
  obtain ⟨q, hq⟩ := refusal?_eq_none.1 hlocate
  have hroot := eq_node_of_locate hq
  refine ⟨q, hroot, ?_⟩
  rw [hroot, visits_node] at h
  exact (Except.ok.inj h).symm

theorem root_mem_visits (h : g.visits extent root = .ok ns) : root ∈ ns := by
  cases extent with
  | all =>
    obtain ⟨q, hq, rfl⟩ := ok_of_map_ok h
    rw [eq_node_of_locate hq]
    exact List.mem_map_of_mem (List.mem_range.2 (Nat.lt_succ_self _))
  | needed => exact root_mem_reachable h

/-- What a node mentions is visited before the node. -/
theorem arg_mem_done {done rest : List Node} {n c : Node} {x : Expr}
    (h : g.visits extent root = .ok (done ++ n :: rest)) (hread : g.read n = .ok x)
    (hc : Datum.node c ∈ x.args) : c ∈ done := by
  obtain ⟨r, -, hns⟩ := exists_positions h
  obtain ⟨before, after, hpositions, rfl, hafter⟩ := List.map_eq_append_iff.1 hns.symm
  obtain ⟨q, after, rfl, rfl, -⟩ := List.map_eq_cons_iff.1 hafter
  have hclosed := hpositions ▸ closed_positions extent r
  have hasc := hpositions ▸ positions_ascending extent r
  have hq : q < g.size := hclosed.lt_size q (List.mem_append_right _ (List.mem_cons_self ..))
  obtain rfl : g.exprAt ⟨q, hq⟩ = x := Except.ok.inj ((read_node ⟨q, hq⟩).symm.trans hread)
  obtain ⟨k, hk, rfl⟩ := exists_childrenAt_of_mem_args hc
  exact List.mem_map_of_mem (hclosed.child_mem_done hasc hk)

/-- Nodes of the graph in the order of their records, so each once, and each after all that it
mentions. -/
structure Topological (g : Graph) (ns : List Node) : Prop where
  mem_nodes : ∀ n ∈ ns, n ∈ g.nodes
  ascending : ns.Pairwise fun n m => n.index < m.index
  args_before : ∀ done n rest, ns = done ++ n :: rest → ∀ x, g.read n = .ok x →
    ∀ c, Datum.node c ∈ x.args → c ∈ done

theorem topological_visits (h : g.visits extent root = .ok ns) : g.Topological ns := by
  obtain ⟨q, -, hns⟩ := exists_positions h
  constructor
  case mem_nodes =>
    intro n hn
    rw [hns] at hn
    obtain ⟨p, hp, rfl⟩ := List.mem_map.1 hn
    exact node_mem_nodes.2 ((closed_positions extent q).lt_size p hp)
  case ascending =>
    rw [hns]
    exact List.pairwise_map.2 (positions_ascending extent q)
  case args_before =>
    rintro done n rest rfl x hread c hc
    exact arg_mem_done h hread hc

theorem topological_of_reachable (h : g.reachable [root] = .ok ns) : g.Topological ns :=
  topological_visits (show g.visits .needed root = .ok ns from h)

theorem Topological.nodup (h : g.Topological ns) : ns.Nodup :=
  h.ascending.imp fun hlt he => Nat.ne_of_lt hlt (congrArg Node.index he)

/-- Does the walk from the root visit the node? -/
def Visits (g : Graph) (extent : Extent) (root n : Node) : Prop :=
  match extent with
  | .all => n ∈ g.nodes ∧ n.index ≤ root.index
  | .needed => g.contains root n = .ok true

theorem mem_visits (h : g.visits extent root = .ok ns) : n ∈ ns ↔ g.Visits extent root n := by
  cases extent with
  | all =>
    obtain ⟨q, rfl, rfl⟩ := exists_positions h
    have hq := q.isLt
    simp only [Visits, Extent.positions, List.mem_map, List.mem_range, Graph.mem_nodes]
    constructor
    · rintro ⟨p, hp, rfl⟩
      exact ⟨⟨rfl, show p < g.size by omega⟩, Nat.le_of_lt_succ hp⟩
    · rintro ⟨⟨hid, -⟩, hle⟩
      exact ⟨n.index, Nat.lt_succ_of_le hle, Node.ext hid.symm rfl⟩
  | needed => exact mem_reachable_iff h

/-- What a walk would visit is the same in every extension of the graph. -/
theorem Extends.visits_eq (h : g.Extends g') (extent : Extent) (hroot : root ∈ g.nodes) :
    g'.visits extent root = g.visits extent root := by
  cases extent with
  | all => exact h.map_locate_eq (fun p => by rw [funext h.node_eq]; rfl) hroot
  | needed => exact h.reachable_eq (by simpa using hroot)

theorem visits_all (hroot : root ∈ g.nodes) :
    g.visits .all root = .ok ((List.range (root.index + 1)).map g.node) := by
  obtain ⟨q, hq⟩ := exists_locate hroot
  rw [visits, hq, eq_node_of_locate hq]
  rfl

/-- Of all nodes up to the root, the root depends on those that it contains. -/
theorem visits_needed_eq (h : g.visits .all root = .ok ns) : g.visits .needed root
    = .ok (ns.filter fun n => (g.contains root n).toOption == some true) := by
  obtain ⟨q, rfl, rfl⟩ := exists_positions h
  rw [visits_node, positions_needed, List.filter_map]
  refine congrArg (fun cs => Except.ok (List.map g.node cs)) (List.filter_congr fun p hp => ?_)
  have hp : p < g.size := (closed_positions .all q).lt_size p hp
  rw [Function.comp_apply, contains_node q.isLt hp]
  cases g.reaches q.val p <;> rfl

end Graph

/-! ### Rows of visits -/

namespace Routine

variable {σ : Type}

/-- The visitor, made to list the nodes that it is called for. -/
def recording (visit : Node → Action σ Unit) (n : Node) : Action (σ × List Node) Unit :=
  noting (visit n) n

/-- Visits one after the other, up to the first that fails: which of the nodes are visited, and what
comes of it. -/
inductive Row (visit : Node → Action σ Unit) :
    List Node → σ → Graph → List Node → Except Error Unit × σ × Graph → Prop
  | nil {s : σ} {g : Graph} : Row visit [] s g [] (.ok (), s, g)
  | fails {n : Node} {rest : List Node} {s s' : σ} {g g' : Graph} {e : Error} :
    run (visit n) s g = (.error e, s', g') → Row visit (n :: rest) s g [n] (.error e, s', g')
  | cons {n : Node} {rest seen : List Node} {s s₁ : σ} {g g₁ : Graph}
    {out : Except Error Unit × σ × Graph} : run (visit n) s g = (.ok (), s₁, g₁) →
    Row visit rest s₁ g₁ seen out → Row visit (n :: rest) s g (n :: seen) out

namespace Row

variable {visit : Node → Action σ Unit} {ns seen : List Node} {s s' : σ} {g g' : Graph}
  {r : Except Error Unit} {out : Except Error Unit × σ × Graph}

theorem seen_isPrefix (h : Row visit ns s g seen out) : seen <+: ns := by
  induction h with
  | nil => exact List.prefix_refl []
  | fails _ => exact List.prefix_append [_] _
  | cons _ _ ih => exact (List.prefix_cons_inj _).2 ih

theorem seen_eq (h : Row visit ns s g seen out) (hout : out.1 = .ok ()) : seen = ns := by
  induction h with
  | nil => rfl
  | fails _ => cases hout
  | cons _ _ ih => rw [ih hout]

end Row

/-- A row of visits does the same if its nodes are listed, and the list goes on by those visited. -/
theorem run_forM_recording (visit : Node → Action σ Unit) (ns log : List Node) (s : σ) (g : Graph) :
    ∃ seen r s' g', run (ns.forM visit) s g = (r, s', g')
      ∧ run (ns.forM (recording visit)) (s, log) g = (r, (s', log ++ seen), g')
      ∧ Row visit ns s g seen (r, s', g') := by
  induction ns generalizing s g log with
  | nil => exact ⟨[], .ok (), s, g, rfl, by rw [List.append_nil]; rfl, .nil⟩
  | cons n ns ih =>
    rw [run_forM_cons, run_forM_cons, recording, run_noting]
    rcases hn : run (visit n) s g with ⟨e | u, s₁, g₁⟩
    · exact ⟨[n], .error e, s₁, g₁, rfl, rfl, .fails hn⟩
    · obtain ⟨seen, r, s', g', hrun, hrec, hrow⟩ := ih (log ++ [n]) s₁ g₁
      refine ⟨n :: seen, r, s', g', hrun, ?_, .cons hn hrow⟩
      rw [List.append_cons log n seen]
      exact hrec

end Routine

/-! ### Walks -/

/-- A walk visits what its extent says, in an order that is settled at the start and that no visitor
changes, though it may append whatever it likes: in the order of the records, each once and after all
that it mentions, and nothing that is appended on the way. The walk to what the root depends on visits
those of all nodes up to the root that the root contains. A visit that fails ends the walk with its
error, and a root that is not of the graph ends it before the first visit. -/
theorem walk_in_order {σ : Type} (extent : Extent) (root : Node) (visit : Node → Action σ Unit)
    (s : σ) (g : Graph) :
    ∃ seen r s' g', Routine.run (walk extent root visit) s g = (r, s', g')
      ∧ Routine.run (walk extent root (Routine.recording visit)) (s, []) g = (r, (s', seen), g')
      ∧ g.Extends g'
      ∧ (∀ e, g.locate root = .error e → r = .error e ∧ seen = [] ∧ s' = s ∧ g' = g)
      ∧ (root ∈ g.nodes → ∃ order, g.visits extent root = .ok order
        ∧ g'.visits extent root = .ok order
        ∧ (∀ n, n ∈ order ↔ g.Visits extent root n)
        ∧ g.Topological order
        ∧ (∀ n, g.AddedBy g' n → n ∉ order)
        ∧ (extent = .all → order = (List.range (root.index + 1)).map g.node)
        ∧ (extent = .needed → ∃ all, g.visits .all root = .ok all
          ∧ order = all.filter fun n => (g.contains root n).toOption == some true)
        ∧ seen <+: order ∧ (r = .ok () → seen = order)
        ∧ Routine.Row visit order s g seen (r, s', g')) := by
  have hrefusal := g.refusal?_visits extent root
  rw [Routine.run_walk, Routine.run_walk]
  rcases hvisits : g.visits extent root with e | order
  · rw [hvisits] at hrefusal
    refine ⟨[], .error e, s, g, rfl, rfl, .refl g, fun e' he' => ?_, fun hroot => ?_⟩
    · rw [he'] at hrefusal
      cases hrefusal
      exact ⟨rfl, rfl, rfl, rfl⟩
    · rw [Graph.refusal?_locate_eq_none.2 hroot] at hrefusal
      cases hrefusal
  · rw [hvisits] at hrefusal
    obtain ⟨seen, r, s', g', hrun, hrec, hrow⟩ := Routine.run_forM_recording visit order [] s g
    have hgrown : g.Extends g' := by
      have hextends := Routine.extends_run (order.forM visit) s g
      rwa [hrun] at hextends
    refine ⟨seen, r, s', g', hrun, hrec, hgrown, fun e he => ?_, fun hroot => ⟨order, rfl, ?_⟩⟩
    · rw [he] at hrefusal
      cases hrefusal
    have horder := Graph.topological_visits hvisits
    have hall := Graph.visits_all hroot
    refine ⟨?_, fun n => Graph.mem_visits hvisits, horder, fun n hadded hn => ?_, ?_, ?_,
      hrow.seen_isPrefix, hrow.seen_eq, hrow⟩
    · rw [hgrown.visits_eq extent hroot, hvisits]
    · exact hadded.2 (horder.mem_nodes n hn)
    · rintro rfl
      rw [hall] at hvisits
      exact (Except.ok.inj hvisits).symm
    · rintro rfl
      rw [Graph.visits_needed_eq hall] at hvisits
      exact ⟨_, hall, (Except.ok.inj hvisits).symm⟩

/-- Three records; the last mentions the first. -/
def bypass : Graph :=
  (((Graph.empty 0).append "a" []).2.append "b" []).2.append "c" [.node ⟨0, 0⟩] |>.2

/-- A visitor that appends a mention of each node, and then fails for the second. -/
def jotting (n : Node) : Action Unit Unit := do
  discard (Routine.append "seen" [.node n])
  Routine.lift (if n.index = 1 then .error (.noResult n) else .ok ())

theorem walk_in_order_bypass :
    (∃ g', Routine.run (walk .needed (bypass.node 2) (Routine.recording jotting)) ((), []) bypass
        = (.ok (), ((), [bypass.node 0, bypass.node 2]), g')
      ∧ g'.size = 5
      ∧ g'.visits .needed (bypass.node 2) = .ok [bypass.node 0, bypass.node 2])
    ∧ ∃ g', Routine.run (walk .all (bypass.node 2) (Routine.recording jotting)) ((), []) bypass
        = (.error (.noResult (bypass.node 1)), ((), [bypass.node 0, bypass.node 1]), g')
      ∧ [bypass.node 0, bypass.node 1] <+: [bypass.node 0, bypass.node 1, bypass.node 2]
      ∧ bypass.Topological [bypass.node 0, bypass.node 1, bypass.node 2] := by
  constructor
  · obtain ⟨seen, r, s', g', hrun, hrec, -, -, hroot⟩ :=
      walk_in_order .needed (bypass.node 2) jotting () bypass
    obtain ⟨order, hvisits, hvisits', -⟩ := hroot (by decide)
    obtain rfl : [bypass.node 0, bypass.node 2] = order := Except.ok.inj hvisits
    cases hrec
    exact ⟨_, rfl, rfl, hvisits'⟩
  · obtain ⟨seen, r, s', g', hrun, hrec, -, -, hroot⟩ :=
      walk_in_order .all (bypass.node 2) jotting () bypass
    obtain ⟨order, hvisits, -, -, htopological, -, -, -, hseen, -⟩ := hroot (by decide)
    obtain rfl : [bypass.node 0, bypass.node 1, bypass.node 2] = order := Except.ok.inj hvisits
    cases hrec
    exact ⟨_, rfl, hseen, htopological⟩

end TermGraph
