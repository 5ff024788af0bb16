import TermGraph.Proofs.Pass.Visit
import TermGraph.Proofs.Walk

/-!
Folding along a walk. A walk visits records in their order and leaves out none that a visited one
mentions, so at each visit the values of the arguments are there. This is all that is needed of a
visitor that keeps the values itself, and of a pass whose fallback makes a value of its own for
every node; the pass finds some of its nodes done by earlier runs and leaves them as they are.
-/

namespace TermGraph

/-! ### Walks that leave the graph alone -/

section Visits

variable {g : Graph} {cs : List Nat} {σ : Type} (visit : Node → Action σ Unit)
  {I : Set (Fin g.size) → σ → Prop} {S : Set (Fin g.size)} {s : σ}

/-- If each visit leaves the graph alone and carries the invariant from the positions done to those
and its own, given that the arguments are done, then so does a row of visits. -/
theorem Routine.run_forM_along (hclosed : g.Closed cs) (hasc : cs.Pairwise (· < ·))
    (hvisit : ∀ S p s, (∀ q ∈ g.argNodes p, q ∈ S) → I S s →
      ∃ s', run (visit (g.node p.val)) s g = (.ok (), s', g) ∧ I (insert p S) s') :
    ∀ {rest done : List Nat} {s : σ}, cs = done ++ rest → I (S ∪ { p | p.val ∈ done }) s →
      ∃ s', run ((rest.map g.node).forM visit) s g = (.ok (), s', g) ∧ I (S ∪ { p | p.val ∈ cs }) s'
  | [], done, s, hcs, h => by
    rw [List.append_nil] at hcs
    exact ⟨s, rfl, hcs ▸ h⟩
  | p :: rest, done, s, hcs, h => by
    have hp := hclosed.lt_size p (hcs ▸ List.mem_append_right _ (List.mem_cons_self ..))
    have hargs : ∀ q ∈ g.argNodes ⟨p, hp⟩, q ∈ S ∪ { q : Fin g.size | q.val ∈ done } := fun q hq =>
      .inr ((hcs ▸ hclosed).child_mem_done (hcs ▸ hasc) (Graph.mem_argNodes.1 hq))
    have hdone : insert ⟨p, hp⟩ (S ∪ { q : Fin g.size | q.val ∈ done })
        = S ∪ { q : Fin g.size | q.val ∈ done ++ [p] } := by
      ext q
      simp only [Set.mem_insert_iff, Set.mem_union, Set.mem_ofPred_eq, List.mem_append,
        List.mem_singleton, Fin.ext_iff]
      tauto
    obtain ⟨s', hrun, h'⟩ := hvisit _ ⟨p, hp⟩ s hargs h
    rw [hdone] at h'
    rw [List.append_cons] at hcs
    obtain ⟨s'', hrest, h''⟩ := run_forM_along hclosed hasc hvisit hcs h'
    refine ⟨s'', ?_, h''⟩
    rw [List.map_cons, run_forM_cons, hrun]
    exact hrest

theorem Routine.run_walk_along (extent : Extent) (root : Fin g.size)
    (hvisit : ∀ S p s, (∀ q ∈ g.argNodes p, q ∈ S) → I S s →
      ∃ s', run (visit (g.node p.val)) s g = (.ok (), s', g) ∧ I (insert p S) s') (h : I S s) :
    ∃ s', run (walk extent (g.node root.val) visit) s g = (.ok (), s', g)
      ∧ I (S ∪ extent.visited g root) s' := by
  have hset : { p : Fin g.size | p.val ∈ extent.positions g root } = extent.visited g root :=
    Set.ext fun p => Graph.mem_positions
  have hnone : S ∪ { p : Fin g.size | p.val ∈ ([] : List Nat) } = S := by simp
  rw [run_walk, Graph.visits_node]
  have hrun := run_forM_along visit (S := S) (Graph.closed_positions extent root)
    (Graph.positions_ascending extent root) hvisit (List.nil_append _).symm (hnone.symm ▸ h)
  rw [hset] at hrun
  exact hrun

end Visits

/-! ### A visitor that keeps the values -/

section Visitor

variable {T : Type} {g : Graph} (alg : Algebra T) {memo : Memo T} {S : Set (Fin g.size)}
  {p : Fin g.size}

/-- Gives a node the value made from the values that the visitor gave its arguments before. -/
def foldVisit (n : Node) : Action (Memo T) Unit := do
  let e ← Routine.read n
  let values ← Routine.lift (e.children.mapM (← get).value)
  modify fun memo => memo.insert n (alg e.head (fill e.args values))

theorem run_foldVisit (h : memo.Tabulates .univ g (g.foldBy alg) S)
    (hargs : ∀ q ∈ g.argNodes p, q ∈ S) : Routine.run (foldVisit alg (g.node p.val)) memo g
      = (.ok (), memo.insert (g.node p.val) (g.foldBy alg p), g) := by
  rw [foldVisit, Routine.run_bind, Routine.read, Routine.run_look, Graph.read_node]
  dsimp only
  rw [Routine.run_bind, Routine.run_get]
  dsimp only
  rw [Routine.run_bind, Routine.run_lift, Graph.exprAt_children, h.values hargs, Graph.foldBy_eq]
  rfl

/-- The visitor gives every node that is visited its value, and no other. -/
theorem run_walk_foldVisit (extent : Extent) (root : Fin g.size) :
    ∃ memo, Routine.run (walk extent (g.node root.val) (foldVisit alg)) ∅ g = (.ok (), memo, g)
      ∧ memo.Tabulates .univ g (g.foldBy alg) (extent.visited g root) := by
  have hwalk := Routine.run_walk_along (foldVisit alg)
    (I := fun S memo => memo.Tabulates .univ g (g.foldBy alg) S) extent root
    (fun S p memo hargs h => ⟨_, run_foldVisit alg h hargs, h.insert p⟩) (.empty ..)
  rwa [Set.empty_union] at hwalk

end Visitor

/-! ### A pass with values of its own -/

/-- Makes a value of the pass's own from the literals of the original and the values of the pass's
own among the results of the arguments. -/
def foldFallback {σ T : Type} (alg : Algebra T) : Fallback σ T := fun e args _ =>
  return .custom (alg e.head (fill e.args (args.filterMap Term.custom?)))

namespace Pass

/-- The pass has no rules, and its fallback makes values of its own. -/
structure Folds {σ T : Type} (p : Pass σ T) (alg : Algebra T) : Prop where
  rules_eq : p.rules = ∅
  fallback_eq : p.fallback = some (foldFallback alg)

variable {σ T : Type} {alg : Algebra T} {p : Pass σ T} {g : Graph} {S : Set (Fin g.size)}
  {D : Set Node} {q : Fin g.size}

theorem Folds.run_ruleFor (h : p.Folds alg) (x : Expr) (args : List (Term T)) (s : σ) (g : Graph) :
    Routine.run (p.ruleFor x x args) s g
      = (.ok (.custom (alg x.head (fill x.args (args.filterMap Term.custom?)))), s, g) := by
  rw [ruleFor, h.rules_eq, h.fallback_eq]
  rfl

theorem Folds.eq_of_ruled (h : p.Folds alg) {n : Node} {r : Except Error (Term T)} {s : σ}
    {g' : Graph} {x : Expr} {args : List (Term T)} (hr : p.Ruled g n r s g' x args) :
    r = .ok (.custom (alg x.head (fill x.args (args.filterMap Term.custom?))))
      ∧ s = p.state ∧ g' = g := by
  have hcalled := hr.called
  rw [h.run_ruleFor] at hcalled
  cases hcalled
  exact ⟨rfl, rfl, rfl⟩

/-- A visit gives the node a value of the pass's own or changes nothing. -/
theorem Folds.run_visit (h : p.Folds alg) (n : Node) (g : Graph) :
    Routine.run (visit n) p g =
      if n ∈ p.memo then (.ok (), p, g)
      else
        match g.read n with
        | .error e => (.error e, p, g)
        | .ok x =>
          match x.args.mapM (resultOf p.memo) with
          | .error e => (.error e, p, g)
          | .ok args =>
            let v := alg x.head (fill x.args (args.filterMap Term.custom?))
            (.ok (), { p with memo := p.memo.insert n (.custom v) }, g) := by
  have hv := visited p g n
  rcases hrun : Routine.run (visit n) p g with ⟨r, p', g'⟩
  rw [hrun] at hv
  cases hv with
  | known hmem => rw [if_pos hmem]
  | unread hmem hread => rw [if_neg hmem, hread]
  | missing hmem hread hargs => rw [if_neg hmem, hread]; dsimp only; rw [hargs]
  | fails hr => cases (h.eq_of_ruled hr).1
  | plain hr _ =>
    obtain ⟨ht, rfl, rfl⟩ := h.eq_of_ruled hr
    cases ht
    rw [if_neg hr.new, hr.read]
    dsimp only
    rw [hr.results]
  | replaced hr ht => cases (h.eq_of_ruled hr).1; cases ht
  | noted hr ht => cases (h.eq_of_ruled hr).1; cases ht
  | unnoted hr ht => cases (h.eq_of_ruled hr).1; cases ht

/-- The result of an argument whose nodes have values. -/
def valued (f : Fin g.size → T) : Datum String (Fin g.size) → Term T
  | .int i => .value (.int i)
  | .bool b => .value (.bool b)
  | .str s => .value (.str s)
  | .node q => .custom (f q)

theorem filterMap_valued (f : Fin g.size → T) (xs : List (Datum String (Fin g.size))) :
    (xs.map (valued f)).filterMap Term.custom? = (nodesOf xs).map f := by
  rw [nodesOf, List.filterMap_map, List.map_filterMap]
  congr 1
  funext d
  cases d <;> rfl

/-- The values in the memo are those of the fold, as values of the pass's own. -/
abbrev Tabulated (memo : Memo (Term T)) (alg : Algebra T) (D : Set Node) (g : Graph)
    (S : Set (Fin g.size)) : Prop :=
  memo.Tabulates D g (fun q => .custom (g.foldBy alg q)) S

theorem Tabulated.results {memo : Memo (Term T)} (h : Tabulated memo alg D g S)
    (hargs : ∀ c ∈ g.argNodes q, c ∈ S) : (g.exprAt q).args.mapM (resultOf memo)
      = .ok ((g.argsAt q).map (valued (g.foldBy alg))) := by
  rw [Graph.exprAt_args, List.mapM_map]
  refine mapM_eq_ok fun d hd => ?_
  cases d with
  | node c => exact h.value (hargs c (mem_nodesOf.2 hd))
  | _ => rfl

theorem Folds.run_visit_node (h : p.Folds alg) (hD : g.node q.val ∈ D)
    (hargs : ∀ c ∈ g.argNodes q, c ∈ S) (ht : Tabulated p.memo alg D g S) :
    ∃ memo, Routine.run (visit (g.node q.val)) p g = (.ok (), { p with memo := memo }, g)
      ∧ Tabulated memo alg D g (insert q S) := by
  rw [h.run_visit]
  by_cases hq : q ∈ S
  · rw [if_pos ((ht.mem_iff hD).2 hq), Set.insert_eq_of_mem hq]
    exact ⟨p.memo, rfl, ht⟩
  · rw [if_neg (mt (ht.mem_iff hD).1 hq), Graph.read_node]
    dsimp only
    rw [ht.results hargs]
    dsimp only
    have hvalue := g.foldBy_eq alg q
    rw [Graph.argNodes, ← filterMap_valued] at hvalue
    rw [← hvalue]
    exact ⟨_, rfl, ht.insert q⟩

/-- A run gives the root the value of the fold, and everything that the root depends on. -/
theorem Folds.run_root (h : p.Folds alg) (hD : ∀ q : Fin g.size, g.node q.val ∈ D)
    (ht : Tabulated p.memo alg D g S) (root : Fin g.size) :
    ∃ memo, Routine.run (run (g.node root.val)) p g
        = (.ok (.custom (g.foldBy alg root)), { p with memo := memo }, g)
      ∧ Tabulated memo alg D g (S ∪ { q | g.Path root.val q.val }) := by
  obtain ⟨p', hwalk, memo, rfl, ht'⟩ := Routine.run_walk_along visit
    (I := fun S p' => ∃ memo, p' = { p with memo := memo } ∧ Tabulated memo alg D g S)
    .needed root (fun S q p' hargs ⟨memo, hp', ht⟩ => by
      subst hp'
      have hfolds : Folds { p with memo := memo } alg := ⟨h.rules_eq, h.fallback_eq⟩
      obtain ⟨memo', hvisit, ht'⟩ := hfolds.run_visit_node (hD q) hargs ht
      exact ⟨_, hvisit, memo', rfl, ht'⟩) ⟨p.memo, rfl, ht⟩
  refine ⟨memo, ?_, ht'⟩
  have hroot := ht'.value_eq root (.inr (.refl _))
  rw [run_run, hwalk]
  dsimp only
  rw [result?, hroot]

/-! ### Runs elsewhere -/

/-- Only results of nodes of the graph with the number `i` differ. -/
def DiffersAt (i : Nat) (p p' : Pass σ T) : Prop :=
  ∃ memo, p' = { p with memo := memo } ∧ ∀ n : Node, n.graph ≠ i → memo[n]? = p.memo[n]?

theorem Folds.visit_differsAt {p' : Pass σ T} (h : p.Folds alg) (n : Node)
    (hp : DiffersAt g.id p p') : DiffersAt g.id p (Routine.run (visit n) p' g).2.1
      ∧ (Routine.run (visit n) p' g).2.2 = g := by
  obtain ⟨memo, rfl, hmemo⟩ := hp
  have hsame : DiffersAt g.id p { p with memo := memo } := ⟨memo, rfl, hmemo⟩
  have hfolds : Folds { p with memo := memo } alg := ⟨h.rules_eq, h.fallback_eq⟩
  rw [hfolds.run_visit]
  split
  · exact ⟨hsame, rfl⟩
  cases hread : g.read n with
  | error e => exact ⟨hsame, rfl⟩
  | ok x =>
    obtain ⟨q, hq, -⟩ := ok_of_map_ok hread
    dsimp only
    cases x.args.mapM (resultOf memo) with
    | error e => exact ⟨hsame, rfl⟩
    | ok args =>
      refine ⟨⟨_, rfl, fun m hm => ?_⟩, rfl⟩
      rw [Memo.getElem?_insert, if_neg, hmemo m hm]
      rintro rfl
      exact hm (congrArg Node.graph (Graph.eq_node_of_locate hq))

theorem Folds.run_differsAt (h : p.Folds alg) (root : Node) :
    DiffersAt g.id p (Routine.run (run root) p g).2.1 ∧ (Routine.run (run root) p g).2.2 = g := by
  have hstart : DiffersAt g.id p p := ⟨p.memo, rfl, fun _ _ => rfl⟩
  rw [run_run_snd, Routine.run_walk]
  cases g.visits .needed root with
  | error e => exact ⟨hstart, rfl⟩
  | ok order =>
    refine Routine.run_forM_keeps (P := fun p' g' => DiffersAt g.id p p' ∧ g' = g)
      (fun n p' g' hp' => ?_) order p g ⟨hstart, rfl⟩
    obtain ⟨hp', rfl⟩ := hp'
    exact h.visit_differsAt n hp'

end Pass

end TermGraph
