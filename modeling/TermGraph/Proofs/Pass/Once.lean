import TermGraph.Proofs.Pass.Attempts
import TermGraph.Proofs.Walk
import TermGraph.Proofs.Workspace.Places

/-!
Results are made once and for all. Over the life of a pass, with visits, walks and runs on all the
graphs of a workspace, failures among them, with new rules and with whatever is appended in between,
no result is changed or dropped, and no rule is called for a node that has one. `Logs` says this of a
stretch of such a life and of the calls made in it, `Logs.trans` joins two stretches. The calls are
those that rules made to list them would list (`Use.after_listed`). A walk that fails has kept the
results of the nodes before the failure, and a run that has succeeded leaves nothing to do for later
ones.
-/

namespace TermGraph

namespace Pass

variable {σ C : Type} {p p' p'' p₀ q : Pass σ C} {g g' : Graph} {n m root : Node} {t : Term C}
  {s : σ} {x : Expr} {args : List (Term C)} {ns : List Node} {log log' : List (Attempt C)}

/-! ### Stretches of a life -/

/-- From `p` to `p'` the calls in `log` were made: results stay, only nodes without a result are
called for, a call that settles its node is the last for it, and every new result is what such a call
came to. -/
structure Logs (p p' : Pass σ C) (log : List (Attempt C)) : Prop where
  within : p.memo.Within p'.memo
  unsettled : ∀ a ∈ log, a.expr.node ∉ p.memo
  settled : ∀ a ∈ log, a.settled = true → a.expr.node ∈ p'.memo
  once : log.Pairwise fun a b => a.settled = true → b.expr.node ≠ a.expr.node
  source : ∀ n t, p'.memo[n]? = some t → p.memo[n]? = some t
    ∨ ∃ a ∈ log, a.expr.node = n ∧ a.settled = true ∧ a.outcome = .ok t

theorem Logs.of_memo_eq (h : p'.memo = p.memo) : Logs p p' [] := by
  have hnone : ∀ a : Attempt C, a ∉ ([] : List (Attempt C)) := fun _ => List.not_mem_nil
  refine ⟨?_, fun a ha => absurd ha (hnone a), fun a ha => absurd ha (hnone a), .nil,
    fun n t ht => .inl ?_⟩
  · rw [h]
    exact .refl _
  · rwa [← h]

theorem Logs.trans (h : Logs p p' log) (h' : Logs p' p'' log') : Logs p p'' (log ++ log') := by
  refine ⟨h.within.trans h'.within, fun a ha => ?_, fun a ha hs => ?_, ?_, fun n t ht => ?_⟩
  · rcases List.mem_append.1 ha with ha | ha
    · exact h.unsettled a ha
    · exact fun hmem => h'.unsettled a ha (h.within.mem hmem)
  · rcases List.mem_append.1 ha with ha | ha
    · exact h'.within.mem (h.settled a ha hs)
    · exact h'.settled a ha hs
  · refine List.pairwise_append.2 ⟨h.once, h'.once, fun a ha b hb hs he => ?_⟩
    exact h'.unsettled b hb (he ▸ h.settled a ha hs)
  · rcases h'.source n t ht with ht | ⟨a, ha, hsettled⟩
    · rcases h.source n t ht with ht | ⟨a, ha, hsettled⟩
      · exact .inl ht
      · exact .inr ⟨a, List.mem_append_left _ ha, hsettled⟩
    · exact .inr ⟨a, List.mem_append_right _ ha, hsettled⟩

/-- A call that gets no result, because the rule fails or its term is refused. -/
theorem Logs.unsettling {r : Except Error (Term C)} (h : p.Ruled g n r s g' x args)
    (hmemo : p'.memo = p.memo) : Logs p p' [⟨x, r, g, g', p'.memo.contains n⟩] := by
  have hnot : p'.memo.contains n = false := by
    rw [hmemo]
    exact Bool.eq_false_iff.2 fun hc => h.new (Std.TreeMap.contains_iff_mem.1 hc)
  refine ⟨?_, fun a ha => ?_, fun a ha hs => ?_, List.pairwise_singleton _ _, fun m t ht => .inl ?_⟩
  · rw [hmemo]
    exact .refl _
  · cases List.mem_singleton.1 ha
    rw [read_node_eq h.read]
    exact h.new
  · cases List.mem_singleton.1 ha
    rw [hnot] at hs
    cases hs
  · rwa [← hmemo]

theorem Logs.settling (h : p.Ruled g n (.ok t) s g' x args) :
    Logs p (p.settle n t s) [⟨x, .ok t, g, g', (p.settle n t s).memo.contains n⟩] := by
  have hnode := read_node_eq h.read
  have hmem : n ∈ (p.settle n t s).memo := mem_settle_iff.2 (.inl rfl)
  refine ⟨Memo.within_insert h.new t, fun a ha => ?_, fun a ha _ => ?_, List.pairwise_singleton _ _,
    fun m u hu => ?_⟩
  · cases List.mem_singleton.1 ha
    rw [hnode]
    exact h.new
  · cases List.mem_singleton.1 ha
    rw [hnode]
    exact hmem
  · rw [settle, Memo.getElem?_insert] at hu
    split at hu
    · next hnm =>
      cases hu
      exact .inr ⟨_, List.mem_singleton_self _, hnode.trans hnm,
        Std.TreeMap.contains_iff_mem.2 hmem, rfl⟩
    · exact .inl hu

theorem logs_visit (n : Node) (p : Pass σ C) (g : Graph) :
    Logs p (Routine.run (visit n) p g).2.1 (p.attempt? g n).toList := by
  cases begins p g n with
  | known hmem =>
    rw [run_visit_of_mem hmem, attempt?_of_mem hmem]
    exact .of_memo_eq rfl
  | unread hnew hread =>
    rw [run_visit_of_unread hnew hread, attempt?_of_unread hread]
    exact .of_memo_eq rfl
  | missing hnew hread hargs =>
    rw [run_visit_of_missing hnew hread hargs, attempt?_of_missing hread hargs]
    exact .of_memo_eq rfl
  | @ruled r s g' x args h =>
    rw [h.attempt?_eq, Option.toList_some, h.run_visit]
    cases r with
    | error e => exact .unsettling h rfl
    | ok t =>
      dsimp only
      cases t.node? with
      | none => exact .settling h
      | some m =>
        dsimp only
        split
        · rcases g'.append historyHead [.str p.name, .node m, .node n] with ⟨e | k, g''⟩
          · exact .unsettling h rfl
          · exact .settling h
        · exact .settling h

theorem logs_forM (ns : List Node) (p : Pass σ C) (g : Graph) :
    Logs p (Routine.run (ns.forM visit) p g).2.1 (attempts ns p g) := by
  induction ns generalizing p g with
  | nil => exact .of_memo_eq rfl
  | cons n ns ih =>
    have hvisit := logs_visit n p g
    rw [Routine.run_forM_cons, attempts]
    rcases hrun : Routine.run (visit n) p g with ⟨e | u, p', g'⟩
    · rw [hrun] at hvisit
      dsimp only
      rw [List.append_nil]
      exact hvisit
    · rw [hrun] at hvisit
      exact hvisit.trans (ih p' g')

/-! ### Rows of visits -/

/-- A row of visits that succeeds has given its nodes results, and no others. -/
theorem mem_memo_of_forM_ok (h : Routine.run (ns.forM visit) p g = (.ok (), p', g')) (m : Node) :
    m ∈ p'.memo ↔ m ∈ p.memo ∨ m ∈ ns := by
  induction ns generalizing p g with
  | nil =>
    cases h
    simp
  | cons n ns ih =>
    rw [Routine.run_forM_cons] at h
    obtain ⟨⟨r, p₁, g₁⟩, hvisit⟩ : ∃ r, Routine.run (visit n) p g = r := ⟨_, rfl⟩
    rw [hvisit] at h
    cases r with
    | error e => cases h
    | ok u =>
      rw [ih h, List.mem_cons]
      rcases settles_of_visit_ok hvisit with ⟨hn, rfl, -⟩ | ⟨t, s, x, args, g₂, -, rfl⟩
      · constructor
        · exact Or.imp_right .inr
        · rintro (hm | rfl | hm)
          · exact .inl hm
          · exact .inl hn
          · exact .inr hm
      · rw [mem_settle_iff, or_comm (a := m = n), or_assoc]

/-- Where there are results already, nothing is done. -/
theorem run_forM_of_known (h : ∀ n ∈ ns, n ∈ p.memo) :
    Routine.run (ns.forM visit) p g = (.ok (), p, g) ∧ attempts ns p g = [] := by
  induction ns with
  | nil => exact ⟨rfl, rfl⟩
  | cons n ns ih =>
    have hn := h n (List.mem_cons_self ..)
    obtain ⟨hrest, hnone⟩ := ih fun m hm => h m (List.mem_cons_of_mem _ hm)
    rw [Routine.run_forM_cons, attempts, run_visit_of_mem hn, attempt?_of_mem hn]
    exact ⟨hrest, hnone⟩

/-- The visits of `done` go well, that of `n` fails, and then just the nodes in `done` have got
results, each what its call came to. -/
structure StopsAt (p : Pass σ C) (g : Graph) (done : List Node) (n : Node) (e : Error)
    (p' : Pass σ C) (g' : Graph) : Prop where
  fails : ∃ p₁ g₁, Routine.run (done.forM visit) p g = (.ok (), p₁, g₁)
    ∧ Routine.run (visit n) p₁ g₁ = (.error e, p', g')
  mem_memo_iff : ∀ m, m ∈ p'.memo ↔ m ∈ p.memo ∨ m ∈ done
  old : p.memo.Within p'.memo
  new : ∀ m ∈ done, m ∉ p.memo → ∃ a ∈ attempts done p g, ∃ t,
    a.expr.node = m ∧ a.outcome = .ok t ∧ p'.result? m = some t

theorem stopsAt_of_error {e : Error} (h : Routine.run (ns.forM visit) p g = (.error e, p', g')) :
    ∃ done n rest, ns = done ++ n :: rest ∧ p.StopsAt g done n e p' g' := by
  obtain ⟨done, n, rest, p₁, g₁, rfl, hdone, hn⟩ := Routine.exists_of_run_forM_error h
  have hmemo : p'.memo = p₁.memo := (replaced_of_visit_error hn).1
  have hlogs := logs_forM done p g
  rw [hdone] at hlogs
  refine ⟨done, n, rest, rfl, ⟨p₁, g₁, hdone, hn⟩, fun m => ?_, ?_, fun m hm hnew => ?_⟩
  · rw [hmemo]
    exact mem_memo_of_forM_ok hdone m
  · rw [hmemo]
    exact hlogs.within
  · obtain ⟨t, ht⟩ := Memo.mem_iff.1 ((mem_memo_of_forM_ok hdone m).2 (.inr hm))
    rcases hlogs.source m t ht with hold | ⟨a, ha, hnode, -, hout⟩
    · exact absurd (Memo.mem_iff.2 ⟨t, hold⟩) hnew
    · exact ⟨a, ha, t, hnode, hout, by rw [result?, hmemo, ht]⟩

/-! ### Walks and runs -/

theorem stopsAt_of_walk_error {extent : Extent} {e : Error}
    (h : Routine.run (walk extent root visit) p g = (.error e, p', g')) :
    (g.visits extent root = .error e ∧ p' = p ∧ g' = g) ∨ ∃ done n rest,
      g.visits extent root = .ok (done ++ n :: rest) ∧ p.StopsAt g done n e p' g' := by
  rw [Routine.run_walk] at h
  cases hns : g.visits extent root with
  | error e' =>
    rw [hns] at h
    cases h
    exact .inl ⟨rfl, rfl, rfl⟩
  | ok ns =>
    rw [hns] at h
    obtain ⟨done, n, rest, rfl, hstop⟩ := stopsAt_of_error h
    exact .inr ⟨done, n, rest, rfl, hstop⟩

/-- A walk that ends well leaves a result for its root. -/
theorem root_mem_of_walk_ok {extent : Extent}
    (h : Routine.run (walk extent root visit) p g = (.ok (), p', g')) : root ∈ p'.memo := by
  rw [Routine.run_walk] at h
  cases hns : g.visits extent root with
  | error e =>
    rw [hns] at h
    cases h
  | ok ns =>
    rw [hns] at h
    exact (mem_memo_of_forM_ok h root).2 (.inr (Graph.root_mem_visits hns))

/-- A run comes to the root's result if its walk ends well, and to the walk's error if not. -/
theorem run_eq_walk (root : Node) (p : Pass σ C) (g : Graph) :
    (∃ t p' g', Routine.run (walk .needed root visit) p g = (.ok (), p', g')
      ∧ p'.result? root = some t ∧ Routine.run (run root) p g = (.ok t, p', g'))
    ∨ ∃ e p' g', Routine.run (walk .needed root visit) p g = (.error e, p', g')
      ∧ Routine.run (run root) p g = (.error e, p', g') := by
  obtain ⟨⟨r, p', g'⟩, hwalk⟩ : ∃ r, Routine.run (walk .needed root visit) p g = r := ⟨_, rfl⟩
  rw [run_run, hwalk]
  cases r with
  | error e => exact .inr ⟨e, p', g', rfl, rfl⟩
  | ok u =>
    obtain ⟨t, ht⟩ := Memo.mem_iff.1 (root_mem_of_walk_ok hwalk)
    refine .inl ⟨t, p', g', rfl, ht, ?_⟩
    dsimp only
    rw [result?, ht]

/-- A run fails only where its walk fails. -/
theorem walk_error_of_run_error {e : Error}
    (h : Routine.run (run root) p g = (.error e, p', g')) :
    Routine.run (walk .needed root visit) p g = (.error e, p', g') := by
  obtain ⟨t, p₁, g₁, -, -, hrun⟩ | ⟨e', p₁, g₁, hwalk, hrun⟩ := run_eq_walk root p g
  · rw [hrun] at h
    cases h
  · rw [hrun] at h
    cases h
    exact hwalk

/-- What a pass can be told to do with a graph. -/
inductive Use where
  | visit (n : Node)
  | walk (extent : Extent) (root : Node)
  | run (root : Node)

namespace Use

/-- The pass and the graph afterwards, however it ended. -/
def after (u : Use) (p : Pass σ C) (g : Graph) : Pass σ C × Graph :=
  match u with
  | .visit n => (Routine.run (Pass.visit n) p g).2
  | .walk extent root => (Routine.run (TermGraph.walk extent root Pass.visit) p g).2
  | .run root => (Routine.run (Pass.run root) p g).2

/-- The nodes to be visited, in order. -/
def order (u : Use) (g : Graph) : Except Error (List Node) :=
  match u with
  | .visit n => .ok [n]
  | .walk extent root => g.visits extent root
  | .run root => g.visits .needed root

/-- The calls of rules that are made. -/
def calls (u : Use) (p : Pass σ C) (g : Graph) : List (Attempt C) :=
  match u.order g with
  | .ok ns => attempts ns p g
  | .error _ => []

theorem after_eq (u : Use) (p : Pass σ C) (g : Graph) : u.after p g =
    match u.order g with
    | .ok ns => (Routine.run (ns.forM Pass.visit) p g).2
    | .error _ => (p, g) := by
  have hwalk : ∀ extent root, (Routine.run (TermGraph.walk extent root Pass.visit) p g).2 =
      match g.visits extent root with
      | .ok ns => (Routine.run (ns.forM Pass.visit) p g).2
      | .error _ => (p, g) := fun extent root => by
    rw [Routine.run_walk]
    cases g.visits extent root <;> rfl
  cases u with
  | visit n =>
    rw [after, order]
    dsimp only
    rw [Routine.run_forM_cons]
    rcases Routine.run (Pass.visit n) p g with ⟨e | u, p', g'⟩ <;> rfl
  | walk extent root => exact hwalk extent root
  | run root => exact (run_run_snd root p g).trans (hwalk .needed root)

/-- The calls are those that a pass made to list its calls lists, and it does what it did. -/
theorem after_listed (u : Use) (p : Pass σ C) (g : Graph) (calls : List Expr) :
    u.after (p.listed calls) g
      = ((u.after p g).1.listed (calls ++ (u.calls p g).map Attempt.expr), (u.after p g).2) := by
  rw [after_eq, after_eq, Use.calls]
  cases u.order g with
  | error e => exact congrArg (fun calls => (p.listed calls, g)) (List.append_nil calls).symm
  | ok ns => exact congrArg Prod.snd (run_forM_listed ns p g calls)

theorem logs (u : Use) (p : Pass σ C) (g : Graph) : Logs p (u.after p g).1 (u.calls p g) := by
  rw [after_eq, calls]
  cases u.order g with
  | ok ns => exact logs_forM ns p g
  | error e => exact .of_memo_eq rfl

theorem extends_after (u : Use) (p : Pass σ C) (g : Graph) : g.Extends (u.after p g).2 := by
  cases u <;> exact Routine.extends_run _ p g

end Use

/-! ### Lives -/

variable {w w' w₀ v : Workspace} {i : Nat}

/-- What becomes of a pass and a workspace, with the calls made on the way: the rules and settings of
the pass are changed, the workspace grows, and the pass is used on one of the graphs. -/
inductive Life (p₀ : Pass σ C) (w₀ : Workspace) : Pass σ C → Workspace → List (Attempt C) → Prop
  | start : Life p₀ w₀ p₀ w₀ []
  | changed {p q : Pass σ C} {w : Workspace} {log : List (Attempt C)} : Life p₀ w₀ p w log →
    q.memo = p.memo → q.replaced = p.replaced → Life p₀ w₀ q w log
  | grown {p : Pass σ C} {w w' : Workspace} {log : List (Attempt C)} : Life p₀ w₀ p w log →
    w.Grows w' → Life p₀ w₀ p w' log
  | used {p : Pass σ C} {w : Workspace} {log : List (Attempt C)} {i : Nat} {g : Graph} (u : Use) :
    Life p₀ w₀ p w log → w.graph? i = some g →
    Life p₀ w₀ (u.after p g).1 (w.work i (u.after p)).2 (log ++ u.calls p g)

theorem Life.logs (h : Life p₀ w₀ p w log) : Logs p₀ p log := by
  induction h with
  | start => exact .of_memo_eq rfl
  | changed _ hmemo _ ih =>
    have := ih.trans (.of_memo_eq hmemo)
    rwa [List.append_nil] at this
  | grown _ _ ih => exact ih
  | used u _ _ ih => exact ih.trans (u.logs _ _)

theorem Life.grows (h : Life p₀ w₀ p w log) : w₀.Grows w := by
  induction h with
  | start => exact .refl w₀
  | changed _ _ _ ih => exact ih
  | grown _ hg ih => exact ih.trans hg
  | used u _ _ ih => exact ih.trans (Workspace.grows_work _ _ (u.extends_after _))

/-- A run that has succeeded is done: made again, it gives the same term, calls no rule and changes
nothing. -/
theorem run_again (hrun : Routine.run (run root) p g = (.ok t, p', g'))
    (hwithin : p'.memo.Within q.memo) {g₂ : Graph} (hg : g.Extends g₂) :
    Routine.run (run root) q g₂ = (.ok t, q, g₂) ∧ (Use.run root).calls q g₂ = [] := by
  obtain ⟨⟨r, hr⟩, ht⟩ := result_of_run hrun
  have hroot := Graph.mem_nodes_of_locate hr
  obtain ⟨ns, hns⟩ := Graph.exists_reachable hroot
  have hvisits : g₂.visits .needed root = .ok ns := (hg.reachable_eq (by simpa using hroot)).trans hns
  -- whatever the root depends on has got a result by the first run
  have hknown : ∀ n ∈ ns, n ∈ q.memo := fun n hn =>
    hwithin.mem ((mem_memo_of_forM_ok (run_forM_of_run hns hrun) n).2 (.inr hn))
  obtain ⟨hforM, hnone⟩ := run_forM_of_known hknown (g := g₂)
  constructor
  · rw [run_run, Routine.run_walk, hvisits]
    dsimp only
    rw [hforM]
    dsimp only
    rw [result?, hwithin root t ht]
  · rw [Use.calls, Use.order, hvisits]
    exact hnone

/-- Over every life of a pass results are made once and for all: they stay, and no rule is called for
a node that has one, the calls being those that the rules themselves would list; what a failing walk
adds are the results of the nodes before the failure; and a run that has succeeded is done for the
rest of the life. -/
theorem results_once (h : Life p₀ w₀ p w log) :
    Logs p₀ p log
    ∧ (∀ (u : Use) (g : Graph) (calls : List Expr), u.after (p.listed calls) g
      = ((u.after p g).1.listed (calls ++ (u.calls p g).map Attempt.expr), (u.after p g).2))
    ∧ (∀ (g g' : Graph) (extent : Extent) (root : Node) (e : Error) (p' : Pass σ C),
      Routine.run (walk extent root visit) p g = (.error e, p', g') →
        (g.visits extent root = .error e ∧ p' = p ∧ g' = g) ∨ ∃ done n rest,
          g.visits extent root = .ok (done ++ n :: rest) ∧ p.StopsAt g done n e p' g')
    ∧ (∀ (g g' : Graph) (root : Node) (e : Error) (p' : Pass σ C),
      Routine.run (run root) p g = (.error e, p', g') →
        Routine.run (walk .needed root visit) p g = (.error e, p', g'))
    ∧ ∀ (i : Nat) (g g' : Graph) (root : Node) (t : Term C) (p' : Pass σ C), w.graph? i = some g →
      Routine.run (run root) p g = (.ok t, p', g') →
        ∀ q v log', Life p' (w.work i ((Use.run root).after p)).2 q v log' → ∃ g₂,
          v.graph? i = some g₂ ∧ Routine.run (run root) q g₂ = (.ok t, q, g₂)
            ∧ (Use.run root).calls q g₂ = [] := by
  refine ⟨h.logs, fun u g calls => u.after_listed p g calls,
    fun _ _ _ _ _ _ => stopsAt_of_walk_error, fun _ _ _ _ _ => walk_error_of_run_error,
    fun i g g' root t p' hg hrun q v log' hlater => ?_⟩
  have hused : w.Grows (w.work i ((Use.run root).after p)).2 :=
    Workspace.grows_work w i ((Use.run root).extends_after p)
  obtain ⟨g₂, hg₂, hext⟩ := hused.trans hlater.grows i g hg
  exact ⟨g₂, hg₂, run_again hrun hlater.logs.within hext⟩

/-- A workspace with one graph, of two records without arguments. -/
def pairs : Workspace := Workspace.empty.add Graph.pair

/-- The `a` is replaced by the `b` with one call; after that the run is done. -/
theorem once_pairs : ∃ p v log, Life Graph.toSecond pairs p v log
    ∧ log.map (fun a => (a.expr.node, a.settled)) = [(Graph.pair.node 0, true)]
    ∧ Logs Graph.toSecond p log
    ∧ ∃ g, v.graph? 0 = some g
      ∧ Routine.run (run (Graph.pair.node 0)) p g = (.ok (.node (Graph.pair.node 1)), p, g) := by
  have hpair : pairs.graph? 0 = some Graph.pair := rfl
  have hstart : Life Graph.toSecond pairs Graph.toSecond pairs [] := .start
  have hlife := hstart.used (.run (Graph.pair.node 0)) hpair
  have hrun : ∃ p' g', Routine.run (run (Graph.pair.node 0)) Graph.toSecond Graph.pair
      = (.ok (.node (Graph.pair.node 1)), p', g') := ⟨_, _, rfl⟩
  obtain ⟨p', g', hrun⟩ := hrun
  have hafter : ((Use.run (Graph.pair.node 0)).after Graph.toSecond Graph.pair).1 = p' :=
    congrArg (fun r => r.2.1) hrun
  obtain ⟨g₂, hg₂, hagain, -⟩ :=
    (results_once hstart).2.2.2.2 0 _ g' _ _ p' hpair hrun p' _ [] .start
  rw [hafter] at hlife
  exact ⟨p', _, _, hlife, rfl, (results_once hlife).1, g₂, hg₂, hagain⟩

end Pass

end TermGraph
