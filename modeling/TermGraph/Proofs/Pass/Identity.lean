import TermGraph.Proofs.Fold.Walks
import TermGraph.Proofs.Graph.Stable
import TermGraph.Proofs.Pass.Attempts

/-!
Nodes without a rule. The default rule lets a node stand for itself if its arguments do, and else
appends a new record with the same head and the results of the arguments.
-/

namespace TermGraph

variable {σ C : Type}

theorem Term.node?_eq_some_iff {t : Term C} {m : Node} : t.node? = some m ↔ t = .node m := by
  constructor
  · intro h
    cases t with
    | custom c => cases h
    | value v =>
      cases v with
      | node k => cases h; rfl
      | _ => cases h
  · rintro rfl
    rfl

namespace Pass

variable {p p' p₀ : Pass σ C} {g g' g₀ g₁ : Graph} {n m root : Node} {t : Term C} {s s' : σ} {x : Expr}
  {args : List (Term C)} {ns done : List Node}

/-! ### The default rule -/

/-- What the default rule makes of an expression and the results of its arguments. -/
inductive Rebuilds (x : Expr) (args : List (Term C)) (g : Graph) : Term C → Graph → Prop
  | same : x.changed args = false → Rebuilds x args g (.node x.node) g
  | anew {vs : List Value} {g' : Graph} : x.changed args = true → args = vs.map .value →
    g.Appended x.head vs g' → Rebuilds x args g (.node (g.node g.size)) g'

theorem rebuilds_of_run
    (h : Routine.run (rebuild x args (x.changed args) : Action σ (Term C)) s g = (.ok t, s', g')) :
    Rebuilds x args g t g' := by
  rw [run_rebuild] at h
  split at h
  · next hchanged =>
    split at h
    · next vs hvs =>
      obtain ⟨⟨e | k, g₁⟩, happ⟩ : ∃ r, g.append x.head vs = r := ⟨_, rfl⟩
      · rw [happ] at h
        cases h
      · rw [happ] at h
        cases h
        obtain ⟨rfl, happended⟩ := Graph.appended_of_append happ
        exact .anew hchanged (args_of_mapM_value? hvs) happended
    · cases h
  · next hchanged =>
    cases h
    exact .same (Bool.eq_false_iff.2 hchanged)

theorem resultOf_node?_iff {memo : Memo (Term C)} {v : Value} (h : resultOf memo v = .ok t) :
    t.node? = v.node? ↔ ∀ c, v = .node c → memo[c]? = some (.node c) := by
  cases v with
  | node c =>
    simp only [resultOf, Memo.value] at h
    split at h
    · next u hu =>
      cases h
      simp [hu, Datum.node?, Term.node?_eq_some_iff]
    · cases h
  | _ =>
    cases h
    simp [Term.node?]

theorem map_node?_eq_iff {memo : Memo (Term C)} : ∀ {xs : List Value} {args : List (Term C)},
    xs.mapM (resultOf memo) = .ok args →
      (args.map Term.node? = xs.map Datum.node? ↔
        ∀ c, Datum.node c ∈ xs → memo[c]? = some (.node c))
  | [], _, h => by cases h; simp
  | v :: xs, _, h => by
    rw [List.mapM_cons] at h
    cases hv : resultOf memo v with
    | error e => rw [hv] at h; cases h
    | ok t =>
      cases hxs : xs.mapM (resultOf memo) with
      | error e => rw [hv, hxs] at h; cases h
      | ok ts =>
        rw [hv, hxs] at h
        cases h
        rw [List.map_cons, List.map_cons, List.cons.injEq, resultOf_node?_iff hv,
          map_node?_eq_iff hxs]
        simp only [List.mem_cons, or_imp, forall_and]
        simp only [eq_comm]

/-- No argument has changed just if each node argument has itself as its result. -/
theorem changed_eq_false_iff {memo : Memo (Term C)} (h : x.args.mapM (resultOf memo) = .ok args) :
    x.changed args = false ↔ ∀ c, Datum.node c ∈ x.args → memo[c]? = some (.node c) := by
  rw [← map_node?_eq_iff h, Expr.changed, bne_eq_false_iff_eq]

/-! ### Nodes without a rule -/

/-- Is there no rule for the head of the node? -/
def unruled (p : Pass σ C) (g : Graph) (n : Node) : Bool :=
  match g.head n with
  | .ok head => !p.rules.contains head
  | .error _ => false

theorem unruled_of_read (h : g.read n = .ok x) : p.unruled g n = !p.rules.contains x.head := by
  obtain ⟨q, hq, rfl⟩ := ok_of_map_ok h
  rw [unruled, Graph.head, hq]
  rfl

theorem unruled_eq (hrules : p'.rules = p.rules) (hg : g.Extends g') (hn : n ∈ g.nodes) :
    p'.unruled g' n = p.unruled g n := by
  rw [unruled, unruled, hrules, hg.head_eq hn]

theorem rules_getElem?_of_unruled (h : p.unruled g n = true) (hread : g.read n = .ok x) :
    p.rules[x.head]? = none := by
  rw [unruled_of_read hread, Bool.not_eq_true'] at h
  exact Std.TreeMap.getElem?_eq_none_of_contains_eq_false h

/-- The result of `n` is `m`, a record added in between with the head of `n` and the results of its
arguments. -/
structure Rebuilt (p' : Pass σ C) (g g' : Graph) (n : Node) (x : Expr) (m : Node) : Prop where
  result : p'.result? n = some (.node m)
  added : g.AddedBy g' m
  reads : ∃ vs, g'.read m = .ok ⟨m, x.head, vs⟩ ∧ x.args.mapM (resultOf p'.memo) = .ok (vs.map .value)

/-- Without a fallback, the default rule is called on a node without a rule. -/
theorem Ruled.rebuilds (h : p.Ruled g n (.ok t) s g' x args) (hfallback : p.fallback = none)
    (hunruled : p.unruled g n = true) : Rebuilds x args g t g' := by
  have hcalled := h.called
  rw [ruleFor, rules_getElem?_of_unruled hunruled h.read, hfallback] at hcalled
  exact rebuilds_of_run hcalled

/-- A record that was appended on the way, seen from the end. -/
theorem addedBy_of_appended {g₂ : Graph} {head : String} {vs : List Value} (h₁ : g₀.Extends g₁)
    (happended : g₁.Appended head vs g₂) (h₂ : g₂.Extends g) : g₀.AddedBy g (g₁.node g₁.size)
      ∧ g.read (g₁.node g₁.size) = .ok ⟨g₁.node g₁.size, head, vs⟩ := by
  have hext := h₁.trans (happended.grown.trans h₂)
  have hlt : g₁.size < g₂.size := by
    rw [happended.size_eq]
    exact Nat.lt_succ_self _
  have hlt' := Nat.lt_of_lt_of_le hlt h₂.size_le
  have hnode : g₁.node g₁.size = g.node g₁.size :=
    ((happended.grown.trans h₂).node_eq g₁.size).symm
  constructor
  · rw [h₁.node_eq]
    exact (Graph.addedBy_node_iff hext).2 ⟨h₁.size_le, hlt'⟩
  · have he := (h₂.expr?_eq hlt).trans happended.expr?_eq
    rw [Graph.expr?_eq_some ⟨g₁.size, hlt'⟩] at he
    rw [hnode, Graph.read_node ⟨g₁.size, hlt'⟩, Option.some.inj he, hnode]

/-- What became of a node without a rule. -/
theorem Walked.unruled (h : Walked p₀ g₀ done p g) (hfallback : p₀.fallback = none) (hn : n ∈ done)
    (hread : g₀.read n = .ok x) (hunruled : p₀.unruled g₀ n = true) :
    (p.result? n = some (.node n) ∧ ∀ c, Datum.node c ∈ x.args → p.result? c = some (.node c))
      ∨ ((¬ ∀ c, Datum.node c ∈ x.args → p.result? c = some (.node c))
        ∧ ∃ m, p.Rebuilt g₀ g n x m) := by
  obtain ⟨before, p₁, g₁, t, s, x', args, g₂, g₃, hw, hs, -, hwithin, ht, hgrown⟩ := h.exists_visit hn
  have hmem := Graph.mem_nodes_of_read hread
  have hx : x' = x := Except.ok.inj (hs.read.symm.trans ((hw.grown.read_eq hmem).trans hread))
  subst hx
  have hunruled' := (unruled_eq hw.rules_eq hw.grown hmem).trans hunruled
  have hresults := hwithin.mapM_resultOf hs.results
  have hchanged := changed_eq_false_iff hresults
  cases hs.toRuled.rebuilds (hw.fallback_eq.trans hfallback) hunruled' with
  | same hsame =>
    rw [read_node_eq hs.read] at ht
    exact .inl ⟨ht, hchanged.1 hsame⟩
  | @anew vs _ hanew hargs happended =>
    obtain ⟨hadded, hreads⟩ :=
      addedBy_of_appended hw.grown happended (hs.noted.extends_graph.trans hgrown)
    refine .inr ⟨fun hall => ?_, g₁.node g₁.size, ht, hadded, vs, hreads, hargs ▸ hresults⟩
    rw [hchanged.2 hall] at hanew
    cases hanew

/-- A node stays itself if there is no rule for it nor for anything that it depends on. -/
theorem Walked.untouched (h : Walked p₀ g₀ ns p g) (hfallback : p₀.fallback = none)
    (hns : g₀.reachable [root] = .ok ns) {n : Node} (hn : n ∈ ns)
    (hfree : ∀ c, g₀.contains n c = .ok true → p₀.unruled g₀ c = true) :
    p.result? n = some (.node n) := by
  have hmem := Graph.mem_nodes_of_mem_reachable hns hn
  obtain ⟨x, hx⟩ := Graph.exists_read hmem
  rcases h.unruled hfallback hn hx (hfree n (Graph.contains_self hmem)) with ⟨hown, -⟩ | ⟨hchanged, -⟩
  · exact hown
  refine absurd (fun c hc => ?_) hchanged
  obtain ⟨hbelow, hlt⟩ := Graph.contains_arg hx hc
  have hroot := Graph.contains_trans ((Graph.mem_reachable_iff hns).1 hn) hbelow
  exact h.untouched hfallback hns ((Graph.mem_reachable_iff hns).2 hroot)
    fun d hd => hfree d (Graph.contains_trans hbelow hd)
termination_by n.index

/-- Of two rebuilt nodes, the later one has the later record. -/
theorem Walked.rebuilt_ascending (h : Walked p₀ g₀ ns p g) (hfallback : p₀.fallback = none)
    (hns : g₀.reachable [root] = .ok ns) (hn : n ∈ ns) (hm : m ∈ ns) (hlt : n.index < m.index)
    (hfreen : p₀.unruled g₀ n = true) (hfreem : p₀.unruled g₀ m = true)
    (hnewn : p.result? n ≠ some (.node n)) (hnewm : p.result? m ≠ some (.node m)) :
    ∃ a b, p.result? n = some (.node a) ∧ p.result? m = some (.node b) ∧ a.index < b.index := by
  obtain ⟨before, p₁, g₁, t, s, x, args, g₂, g₃, hw, hs, ⟨after, hafter⟩, hwithin, ht, -⟩ :=
    h.exists_visit hm
  -- the earlier node was visited before the later one
  have hbefore : n ∈ before := by
    have hasc := (Graph.topological_of_reachable hns).ascending
    rw [hafter] at hn hasc
    rcases List.mem_append.1 hn with hn | hn
    · exact hn
    rcases List.mem_cons.1 hn with rfl | hn
    · exact absurd hlt (Nat.lt_irrefl _)
    · have hafter' := (List.pairwise_cons.1 (List.pairwise_append.1 hasc).2.1).1
      exact absurd hlt (Nat.lt_asymm (hafter' n hn))
  obtain ⟨y, hy⟩ := Graph.exists_read (Graph.mem_nodes_of_mem_reachable hns hn)
  have hfreem' :=
    (unruled_eq hw.rules_eq hw.grown (Graph.mem_nodes_of_mem_reachable hns hm)).trans hfreem
  rcases hw.unruled hfallback hbefore hy hfreen with ⟨hown, -⟩ | ⟨-, a, ha⟩
  · exact absurd (hwithin n _ hown) hnewn
  cases hs.toRuled.rebuilds (hw.fallback_eq.trans hfallback) hfreem' with
  | same =>
    rw [read_node_eq hs.read] at ht
    exact absurd ht hnewm
  | anew => exact ⟨a, g₁.node g₁.size, hwithin n _ ha.result, ht, (Graph.mem_nodes.1 ha.added.1).2⟩

/-! ### What is added -/

/-- Is the result of `n` another node? -/
def isReplaced (p : Pass σ C) (n : Node) : Bool := (p.result? n).any (Term.replaces n)

/-- How many records were added by those of the calls that were made to the rule of a head. -/
def ruledGrowth (p : Pass σ C) (calls : List (Attempt C)) : Nat :=
  calls.foldr (fun a total => if p.rules.contains a.expr.head then
    a.after.size - a.before.size + total else total) 0

theorem Noted.size_eq (h : p.Noted n t g g') :
    g'.size = g.size + if p.keepsHistory && t.replaces n then 1 else 0 := by
  cases h with
  | none hnone => rw [Bool.and_comm, hnone, if_neg Bool.false_ne_true, Nat.add_zero]
  | note ht hne hkeeps _ happended =>
    rw [hkeeps, Term.replaces_eq_true ht hne, happended.size_eq]
    rfl

theorem Rebuilds.size_eq (h : Rebuilds x args g t g') (hx : x.node ∈ g.nodes) :
    g'.size = g.size + if t.replaces x.node then 1 else 0 := by
  cases h with
  | same =>
    rw [Term.replaces_eq_false fun m hm => by cases hm; rfl]
    rfl
  | anew _ _ happended =>
    have hne : g.node g.size ≠ x.node := fun he =>
      Nat.lt_irrefl _ (Graph.node_mem_nodes.1 (he ▸ hx))
    rw [Term.replaces_eq_true rfl hne, happended.size_eq]
    rfl

/-- Settling a node adds what its rule adds, else a record if the node is rebuilt, and its note. -/
theorem Settles.size_eq (h : p.Settles g n t s x args g₁ g') (hfallback : p.fallback = none) :
    g'.size = g.size + (if p.rules.contains x.head then g₁.size - g.size else 0)
      + (if p.unruled g n && t.replaces n then 1 else 0)
      + if p.keepsHistory && t.replaces n then 1 else 0 := by
  rw [h.noted.size_eq]
  congr 1
  cases hruled : p.rules.contains x.head with
  | true =>
    have hle := h.extends_graph.size_le
    rw [unruled_of_read h.read, hruled]
    simp
    omega
  | false =>
    have hunruled : p.unruled g n = true := by rw [unruled_of_read h.read, hruled]; rfl
    have hnode := read_node_eq h.read
    have hrebuilds := (h.toRuled.rebuilds hfallback hunruled).size_eq
      (hnode ▸ Graph.mem_nodes_of_read h.read)
    rw [hrebuilds, hunruled, hnode]
    simp

/-- The records that visits in a row add, if all succeed: those that rules add, one for every rebuilt
node, and one note for every node replaced if notes are kept. -/
theorem size_forM (hfallback : p.fallback = none) (hnodup : ns.Nodup) (hnew : ∀ n ∈ ns, n ∉ p.memo)
    (hnodes : ∀ n ∈ ns, n ∈ g.nodes) (hrun : Routine.run (ns.forM visit) p g = (.ok (), p', g')) :
    g'.size = g.size + p.ruledGrowth (attempts ns p g)
      + ns.countP (fun n => p.unruled g n && p'.isReplaced n)
      + ns.countP fun n => p.keepsHistory && p'.isReplaced n := by
  induction ns generalizing p g with
  | nil =>
    cases hrun
    rfl
  | cons n ns ih =>
    obtain ⟨t, s, x, args, g₁, g₂, hs, hvisit, hrest⟩ :=
      exists_settles_of_forM_cons (hnew n (List.mem_cons_self ..)) hrun
    obtain ⟨hn, hnodup⟩ := List.nodup_cons.1 hnodup
    have hnew' : ∀ m ∈ ns, m ∉ (p.settle n t s).memo := fun m hm hmem =>
      (mem_settle_iff.1 hmem).elim (fun he => hn (he ▸ hm)) (hnew m (List.mem_cons_of_mem _ hm))
    have hnodes' : ∀ m ∈ ns, m ∈ g.nodes := fun m hm => hnodes m (List.mem_cons_of_mem _ hm)
    have hsize := ih (p := p.settle n t s) hfallback hnodup hnew'
      (fun m hm => hs.grown.mem_nodes (hnodes' m hm)) hrest
    have hresult : p'.isReplaced n = t.replaces n := by
      have hwithin := within_forM ns (p.settle n t s) g₂
      rw [hrest] at hwithin
      rw [isReplaced, result?, hwithin n t getElem?_settle, Option.any_some]
    have hunruled : ns.countP (fun m => (p.settle n t s).unruled g₂ m && p'.isReplaced m)
        = ns.countP fun m => p.unruled g m && p'.isReplaced m := by
      refine List.countP_congr fun m hm => ?_
      have hsame : (p.settle n t s).unruled g₂ m = p.unruled g m :=
        unruled_eq rfl hs.grown (hnodes' m hm)
      rw [hsame]
    have hgrowth : p.ruledGrowth (attempts (n :: ns) p g)
        = (if p.rules.contains x.head then g₁.size - g.size else 0)
          + p.ruledGrowth (attempts ns (p.settle n t s) g₂) := by
      rw [hs.attempts_cons hvisit, ruledGrowth, List.foldr_cons]
      split
      · rfl
      · exact (Nat.zero_add _).symm
    have hrules : (p.settle n t s).ruledGrowth = p.ruledGrowth := rfl
    have hkeeps : (p.settle n t s).keepsHistory = p.keepsHistory := rfl
    rw [hsize, hs.size_eq hfallback, hgrowth, hunruled, hrules, hkeeps, List.countP_cons,
      List.countP_cons, hresult]
    omega

/-! ### Without rules -/

/-- Without rules and fallback, a visit makes a node whose arguments are themselves its own result. -/
theorem run_visit_own {q : Fin g.size} {S : Set (Fin g.size)} (hrules : p.rules = ∅)
    (hfallback : p.fallback = none) (hargs : ∀ c ∈ g.argNodes q, c ∈ S)
    (h : p.memo.Tabulates .univ g (fun q => .node (g.node q.val)) S) :
    ∃ memo, Routine.run (visit (g.node q.val)) p g = (.ok (), { p with memo := memo }, g)
      ∧ memo.Tabulates .univ g (fun q => .node (g.node q.val)) (insert q S) := by
  have hresults : (g.exprAt q).args.mapM (resultOf p.memo)
      = .ok ((g.exprAt q).args.map Term.value) := by
    refine mapM_eq_ok fun v hv => ?_
    cases v with
    | node c =>
      obtain ⟨r, hr, rfl⟩ := Graph.exists_childrenAt_of_mem_args hv
      have hlt := Nat.lt_trans (Graph.lt_of_mem_childrenAt hr) q.isLt
      exact h.value (hargs ⟨r, hlt⟩ (Graph.mem_argNodes.2 hr))
    | _ => rfl
  have hchanged : (g.exprAt q).changed ((g.exprAt q).args.map (Term.value (C := C))) = false := by
    rw [Expr.changed, List.map_map, bne_eq_false_iff_eq]
    rfl
  by_cases hmem : g.node q.val ∈ p.memo
  · rw [run_visit_of_mem hmem]
    rw [h.mem_iff (Set.mem_univ _)] at hmem
    rw [Set.insert_eq_of_mem hmem]
    exact ⟨p.memo, rfl, h⟩
  have hcalled : Routine.run (p.ruleFor (g.exprAt q) (g.exprAt q)
      ((g.exprAt q).args.map Term.value)) p.state g
        = (.ok (.node (g.node q.val)), p.state, g) := by
    rw [ruleFor, hrules, hfallback]
    exact (run_rebuild ..).trans (if_neg (Bool.eq_false_iff.1 hchanged))
  have hruled : p.Ruled g (g.node q.val) _ _ _ _ _ := ⟨hmem, Graph.read_node q, hresults, hcalled⟩
  have hown : (Term.node (g.node q.val) : Term C).replaces (g.node q.val) = false :=
    Term.replaces_eq_false fun m hm => (Option.some.inj hm).symm
  refine ⟨_, ?_, h.insert q⟩
  rw [hruled.run_visit_of_unnoted (by rw [hown, Bool.false_and]), settle_of_own _ hown]

/-- A pass without rules and fallback gives every root back and adds nothing. -/
theorem run_own (hempty : p.memo = ∅) (hrules : p.rules = ∅) (hfallback : p.fallback = none)
    (hroot : root ∈ g.nodes) : ∃ memo,
      Routine.run (run root) p g = (.ok (.node root), { p with memo := memo }, g) := by
  obtain ⟨q, hq⟩ := Graph.exists_locate hroot
  have hnode := Graph.eq_node_of_locate hq
  subst hnode
  have hstart : p.memo.Tabulates .univ g (fun q => .node (g.node q.val)) ∅ := by
    rw [hempty]
    exact .empty ..
  obtain ⟨p', hwalk, memo, rfl, htable⟩ := Routine.run_walk_along visit
    (I := fun S p' => ∃ memo, p' = { p with memo := memo }
      ∧ memo.Tabulates .univ g (fun q => .node (g.node q.val)) S)
    .needed q (fun S c p' hargs ⟨memo, hp', ht⟩ => by
      subst hp'
      obtain ⟨memo', hvisit, ht'⟩ :=
        run_visit_own (p := { p with memo := memo }) hrules hfallback hargs ht
      exact ⟨_, hvisit, memo', rfl, ht'⟩) ⟨p.memo, rfl, hstart⟩
  refine ⟨memo, ?_⟩
  have hown := htable.value_eq q (.inr (.refl _))
  rw [run_run, hwalk]
  dsimp only
  rw [result?, hown]

/-- What a run has made of the nodes `ns` that its root depends on. -/
structure KeepsIdentity (p p' : Pass σ C) (g g' : Graph) (ns : List Node) : Prop where
  /-- A node without a rule is its own result just if its arguments are theirs. -/
  own_iff : ∀ n ∈ ns, ∀ x, g.read n = .ok x → p.unruled g n = true →
    (p'.result? n = some (.node n) ↔ ∀ c, Datum.node c ∈ x.args → p'.result? c = some (.node c))
  /-- Otherwise it is rebuilt. -/
  rebuilt : ∀ n ∈ ns, ∀ x, g.read n = .ok x → p.unruled g n = true →
    p'.result? n ≠ some (.node n) → ∃ m, p'.Rebuilt g g' n x m
  /-- Different nodes are rebuilt as different nodes. -/
  distinct : ∀ n ∈ ns, ∀ m ∈ ns, n ≠ m → p.unruled g n = true → p.unruled g m = true →
    p'.result? n ≠ some (.node n) → p'.result? m ≠ some (.node m) → p'.result? n ≠ p'.result? m
  /-- Where there are no rules at all below a node, it is its own result. -/
  untouched : ∀ n ∈ ns, (∀ c, g.contains n c = .ok true → p.unruled g c = true) →
    p'.result? n = some (.node n)
  /-- Besides what rules add, there is one record for every rebuilt node, and one note for every
  node replaced if notes are kept. -/
  size_eq : g'.size = g.size + p.ruledGrowth (attempts ns p g)
    + ns.countP (fun n => p.unruled g n && p'.isReplaced n)
    + ns.countP fun n => p.keepsHistory && p'.isReplaced n

/-- The default rule keeps what it can: for a pass that starts without results and has no fallback,
whatever its rules are, every successful run keeps the identity of the nodes without a rule as far
as their arguments allow, and a pass without rules gives every root back and adds nothing. -/
theorem identity_of_run (hempty : p.memo = ∅) (hfallback : p.fallback = none) :
    (∀ root ns t p' g', g.reachable [root] = .ok ns →
      Routine.run (run root) p g = (.ok t, p', g') → p.KeepsIdentity p' g g' ns)
    ∧ (p.rules = ∅ → ∀ root ∈ g.nodes, ∃ memo,
      Routine.run (run root) p g = (.ok (.node root), { p with memo := memo }, g)) := by
  refine ⟨fun root ns t p' g' hns hrun => ?_, fun hrules root => run_own hempty hrules hfallback⟩
  have hw := (walked_of_run hempty hns hrun).1
  have hnodes : ∀ n ∈ ns, n ∈ g.nodes := fun n => Graph.mem_nodes_of_mem_reachable hns
  refine ⟨fun n hn x hx hfree => ?_, fun n hn x hx hfree hnew => ?_, fun n hn m hm hne => ?_,
    fun n hn => hw.untouched hfallback hns hn, ?_⟩
  · rcases hw.unruled hfallback hn hx hfree with ⟨hown, hall⟩ | ⟨hchanged, m, hm⟩
    · exact iff_of_true hown hall
    · refine iff_of_false (fun hown => ?_) hchanged
      rw [hm.result] at hown
      cases hown
      exact hm.added.2 (Graph.mem_nodes_of_read hx)
  · rcases hw.unruled hfallback hn hx hfree with ⟨hown, -⟩ | ⟨-, m, hm⟩
    · exact absurd hown hnew
    · exact ⟨m, hm⟩
  · intro hfreen hfreem hnewn hnewm he
    have hindex : n.index ≠ m.index := fun hi => hne <| Node.ext
      ((Graph.mem_nodes.1 (hnodes n hn)).1.trans (Graph.mem_nodes.1 (hnodes m hm)).1.symm) hi
    rcases Nat.lt_or_gt_of_ne hindex with hlt | hlt
    · obtain ⟨a, b, ha, hb, hab⟩ :=
        hw.rebuilt_ascending hfallback hns hn hm hlt hfreen hfreem hnewn hnewm
      rw [ha, hb] at he
      cases he
      exact Nat.lt_irrefl _ hab
    · obtain ⟨a, b, ha, hb, hab⟩ :=
        hw.rebuilt_ascending hfallback hns hm hn hlt hfreem hfreen hnewm hnewn
      rw [ha, hb] at he
      cases he
      exact Nat.lt_irrefl _ hab
  · refine size_forM hfallback (Graph.topological_of_reachable hns).nodup (fun n _ hmem => ?_) hnodes
      (run_forM_of_run hns hrun)
    rw [hempty] at hmem
    exact Std.TreeMap.not_mem_emptyc hmem

/-- Three records: an `a`, a `b`, and one with the `a` as both its arguments. -/
def repeated : Graph :=
  (Graph.pair.append "both" [.node (Graph.pair.node 0), .node (Graph.pair.node 0)]).2

/-- The `a` becomes the `b`, so the record above is rebuilt with the `b` as both its arguments. -/
theorem identity_repeated : ∃ t p' g',
    Routine.run (run (repeated.node 2)) Graph.toSecond repeated = (.ok t, p', g')
      ∧ Graph.toSecond.KeepsIdentity p' repeated g' [repeated.node 0, repeated.node 2]
      ∧ g'.read (repeated.node 4)
        = .ok ⟨repeated.node 4, "both", [.node (repeated.node 1), .node (repeated.node 1)]⟩ := by
  have hrun : ∃ p' g', Routine.run (run (repeated.node 2)) Graph.toSecond repeated
        = (.ok (.node (repeated.node 4)), p', g')
      ∧ g'.read (repeated.node 4)
        = .ok ⟨repeated.node 4, "both", [.node (repeated.node 1), .node (repeated.node 1)]⟩ :=
    ⟨_, _, rfl, rfl⟩
  obtain ⟨p', g', hrun, hread⟩ := hrun
  exact ⟨_, p', g', hrun, (identity_of_run rfl rfl).1 _ _ _ _ _ rfl hrun, hread⟩

end Pass

end TermGraph
