import TermGraph.Proofs.Fold.Walks
import TermGraph.Proofs.Pass.Once

/-!
No result is missing when it is looked up. Whatever results a pass holds from earlier runs, on this
graph or others, a walk comes to a node only when the node's arguments have results: they stand
before it in the walk, and each visit either finds a result or makes one. So a walk of a node of the
graph fails only if a rule fails or a note is refused, and a run that ends well finds the root's
result.
-/

namespace TermGraph

namespace Pass

variable {σ C : Type} {p p' p₁ : Pass σ C} {g g' g₁ : Graph} {extent : Extent} {n root : Node}
  {e : Error} {done rest : List Node}

/-- The node can be read, and the nodes among its arguments have results. -/
def Prepared (p : Pass σ C) (g : Graph) (n : Node) : Prop :=
  ∃ x, g.read n = .ok x ∧ ∀ c, Datum.node c ∈ x.args → c ∈ p.memo

/-- Why a visit of a node fails whose arguments have results: the rule fails, or it comes to a node
that cannot be noted. -/
inductive Faults (p : Pass σ C) (g : Graph) (n : Node) (e : Error) : Prop
  | rule {s : σ} {g' : Graph} {x : Expr} {args : List (Term C)} :
    p.Ruled g n (.error e) s g' x args → Faults p g n e
  | note {t : Term C} {m : Node} {s : σ} {g' : Graph} {x : Expr} {args : List (Term C)} :
    p.Ruled g n (.ok t) s g' x args → t.node? = some m → m ≠ n → p.keepsHistory = true →
    refusal? (g'.append historyHead [.str p.name, .node m, .node n]).1 = some e → Faults p g n e

/-! ### One visit -/

/-- Where the nodes among the arguments have results, all arguments do. -/
theorem exists_results {x : Expr} (h : ∀ c, Datum.node c ∈ x.args → c ∈ p.memo) :
    ∃ args, x.args.mapM (resultOf p.memo) = .ok args := by
  rw [← refusal?_eq_none, refusal?_mapM, List.findSome?_eq_none_iff]
  intro v hv
  rw [refusal?_eq_none]
  cases v with
  | node c =>
    obtain ⟨t, ht⟩ := Memo.mem_iff.1 (h c hv)
    exact ⟨t, by rw [resultOf, Memo.value, ht]⟩
  | _ => exact ⟨_, rfl⟩

theorem Prepared.faults (h : p.Prepared g n)
    (hrun : Routine.run (visit n) p g = (.error e, p', g')) : p.Faults g n e := by
  obtain ⟨x, hread, hargs⟩ := h
  have hv := visited p g n
  rw [hrun] at hv
  cases hv with
  | unread _ hunread =>
    rw [hread] at hunread
    cases hunread
  | missing _ hread' hmissing =>
    cases hread.symm.trans hread'
    obtain ⟨args, hresults⟩ := exists_results hargs
    rw [hresults] at hmissing
    cases hmissing
  | fails hr => exact .rule hr
  | unnoted hr ht hmn hkeeps hnote => exact .note hr ht hmn hkeeps (by rw [hnote]; rfl)

/-! ### Walks -/

/-- When a walk comes to a node, the node's arguments have results. -/
theorem prepared_of_forM_ok (hvisits : g.visits extent root = .ok (done ++ n :: rest))
    (hdone : Routine.run (done.forM visit) p g = (.ok (), p₁, g₁)) : p₁.Prepared g₁ n := by
  have horder := Graph.topological_visits hvisits
  have hn : n ∈ g.nodes := horder.mem_nodes n (List.mem_append_right done (List.mem_cons_self ..))
  obtain ⟨x, hread⟩ := Graph.exists_read hn
  have hgrown : g.Extends g₁ := by
    have := Routine.extends_run (done.forM visit) p g
    rwa [hdone] at this
  refine ⟨x, (hgrown.read_eq hn).trans hread, fun c hc => ?_⟩
  exact (mem_memo_of_forM_ok hdone c).2 (.inr (horder.args_before done n rest rfl x hread c hc))

/-- A walk fails because its root is no node of the graph, or at a visit for one of two reasons. -/
theorem faults_of_walk_error (h : Routine.run (walk extent root visit) p g = (.error e, p', g')) :
    (root ∉ g.nodes ∧ g.locate root = .error e ∧ p' = p ∧ g' = g) ∨ ∃ done n rest p₁ g₁,
      g.visits extent root = .ok (done ++ n :: rest)
      ∧ Routine.run (done.forM visit) p g = (.ok (), p₁, g₁)
      ∧ Routine.run (visit n) p₁ g₁ = (.error e, p', g') ∧ p₁.Faults g₁ n e := by
  rcases stopsAt_of_walk_error h with ⟨hvisits, rfl, rfl⟩ | ⟨done, n, rest, hvisits, hstop⟩
  · have hlocate : refusal? (g'.locate root) = some e := by
      rw [← Graph.refusal?_visits g' extent, hvisits]
      rfl
    refine .inl ⟨fun hroot => ?_, refusal?_eq_some.1 hlocate, rfl, rfl⟩
    rw [Graph.refusal?_locate_eq_none.2 hroot] at hlocate
    cases hlocate
  · obtain ⟨p₁, g₁, hdone, hn⟩ := hstop.fails
    exact .inr ⟨done, n, rest, p₁, g₁, hvisits, hdone, hn,
      (prepared_of_forM_ok hvisits hdone).faults hn⟩

/-- Whatever results a pass starts with, no walk of either extent looks for one that is not there.
When it comes to a node, the node can be read and its arguments have results; when it ends well, the
root has one, which a run then gives. A walk fails for a root that is no node of the graph, and else
where a rule fails or a note is refused; a run fails just as its walk does. -/
theorem lookups_succeed (p : Pass σ C) (g : Graph) (root : Node) :
    (∀ (extent : Extent) (done rest : List Node) (n : Node) (p₁ : Pass σ C) (g₁ : Graph),
      g.visits extent root = .ok (done ++ n :: rest) →
      Routine.run (done.forM visit) p g = (.ok (), p₁, g₁) → p₁.Prepared g₁ n)
    ∧ (∀ (extent : Extent) (p' : Pass σ C) (g' : Graph),
      Routine.run (walk extent root visit) p g = (.ok (), p', g') → root ∈ p'.memo)
    ∧ (∀ (extent : Extent) (e : Error) (p' : Pass σ C) (g' : Graph),
      Routine.run (walk extent root visit) p g = (.error e, p', g') →
      (root ∉ g.nodes ∧ g.locate root = .error e ∧ p' = p ∧ g' = g) ∨ ∃ done n rest p₁ g₁,
        g.visits extent root = .ok (done ++ n :: rest)
        ∧ Routine.run (done.forM visit) p g = (.ok (), p₁, g₁)
        ∧ Routine.run (visit n) p₁ g₁ = (.error e, p', g') ∧ p₁.Faults g₁ n e)
    ∧ ((∃ t p' g', Routine.run (walk .needed root visit) p g = (.ok (), p', g')
        ∧ p'.result? root = some t ∧ Routine.run (run root) p g = (.ok t, p', g'))
      ∨ ∃ e p' g', Routine.run (walk .needed root visit) p g = (.error e, p', g')
        ∧ Routine.run (run root) p g = (.error e, p', g')) :=
  ⟨fun _ _ _ _ _ _ => prepared_of_forM_ok, fun _ _ _ => root_mem_of_walk_ok,
    fun _ _ _ _ => faults_of_walk_error, run_eq_walk root p g⟩

/-- Two records that mention a third. -/
def fork : Graph :=
  ((((Graph.empty 0).append "a" []).2.append "b" [.node ⟨0, 0⟩]).2.append "c" [.node ⟨0, 0⟩]).2

/-- A pass whose rule for `b` fails. -/
def refusing : Pass Unit Empty :=
  on { name := "refusing", state := () } "b" fun x _ => throw (.unknownHead x.head)

/-- A run that fails at the `b` has left a result for the `a`; a run of the `c` then finds it. -/
theorem fork_prepared : ∃ p' g',
    Routine.run (run (fork.node 1)) refusing fork = (.error (.unknownHead "b"), p', g')
    ∧ fork.node 0 ∈ p'.memo ∧ fork.node 1 ∉ p'.memo
    ∧ (∃ (n : Node) (p₁ : Pass Unit Empty) (g₁ : Graph), p₁.Faults g₁ n (.unknownHead "b"))
    ∧ p'.Prepared g' (fork.node 2)
    ∧ ∃ t p'' g'', Routine.run (run (fork.node 2)) p' g' = (.ok t, p'', g'') := by
  have hrun : ∃ p' g', Routine.run (run (fork.node 1)) refusing fork
      = (.error (.unknownHead "b"), p', g') ∧ fork.node 0 ∈ p'.memo ∧ fork.node 1 ∉ p'.memo
      ∧ g'.visits .needed (fork.node 2) = .ok [fork.node 0, fork.node 2]
      ∧ ∃ t p'' g'', Routine.run (run (fork.node 2)) p' g' = (.ok t, p'', g'') :=
    ⟨_, _, rfl, by decide, by decide, rfl, _, _, _, rfl⟩
  obtain ⟨p', g', hrun, ha, hb, hvisits, hagain⟩ := hrun
  have hwalk := walk_error_of_run_error hrun
  refine ⟨p', g', hrun, ha, hb, ?_, ?_, hagain⟩
  · obtain ⟨hforeign, -⟩ | ⟨done, n, rest, p₁, g₁, -, -, -, hfaults⟩ :=
      (lookups_succeed refusing fork (fork.node 1)).2.2.1 .needed _ _ _ hwalk
    · exact absurd (Graph.node_mem_nodes.2 (by decide)) hforeign
    · exact ⟨n, p₁, g₁, hfaults⟩
  · refine (lookups_succeed p' g' (fork.node 2)).1 .needed [fork.node 0] [] _ p' g' hvisits ?_
    exact (run_forM_of_known fun n hn => List.mem_singleton.1 hn ▸ ha).1

end Pass

end TermGraph
