import TermGraph.Proofs.Pass.Template
import TermGraph.Proofs.Pass.Walked

/-!
Keeping history changes nothing but the history. A pass that keeps notes and one that does not run
in tandem over two copies of a graph, if their rules are blind to where records stand: after each
visit the second graph is the first one without the notes. `Tandem.visit` is one step, in which only
the first pass may append a note, and `Tandem.forM` the walk. Main statement: with rules that follow
templates, the two passes fail alike or give every node corresponding results.
-/

namespace TermGraph

namespace Graph

variable {kept : List Nat} {g g' : Graph} {i j k q : Nat}

/-- A kept record reads in both graphs alike. -/
theorem Mirrors.exists_read (h : Mirrors kept i j g g') (hk : kept[k]? = some q) :
    ∃ x y, g.read ⟨i, q⟩ = .ok x ∧ g'.read ⟨j, k⟩ = .ok y ∧ MirroredExpr kept i j x y
      ∧ ∀ c, Datum.node c ∈ x.args → c.index ∈ g.childrenAt q := by
  obtain ⟨x, y, hx, hy, hhead, hargs⟩ := h.reads k q hk
  have hq : q < g.size := h.lt_size q (List.mem_of_getElem? hk)
  have hk' : k < g'.size := by
    rw [h.size_eq]
    exact (List.getElem?_eq_some_iff.1 hk).1
  have hreadx : g.read ⟨i, q⟩ = .ok x := by
    rw [expr?_eq_some ⟨q, hq⟩] at hx
    rw [← h.id_eq, ← Option.some.inj hx]
    exact read_node ⟨q, hq⟩
  have hready : g'.read ⟨j, k⟩ = .ok y := by
    rw [expr?_eq_some ⟨k, hk'⟩] at hy
    rw [← h.id_eq', ← Option.some.inj hy]
    exact read_node ⟨k, hk'⟩
  refine ⟨x, y, hreadx, hready, ⟨?_, hhead, hargs⟩, fun c hc => ?_⟩
  · rw [Pass.read_node_eq hreadx, Pass.read_node_eq hready]
    exact .node hk
  · refine (mem_childrenAt_iff_of_expr? hx).2 ?_
    obtain ⟨w, -, hcw⟩ := exists_of_mem_forall₂ hargs hc
    cases hcw
    rw [node, h.id_eq]
    exact hc

end Graph

/-- The same literal, or nodes that depend on the same things up to the renumbering `f` of positions
and render alike, unless they are notes. -/
inductive Term.Matches {C : Type} (f : Nat → Nat) (g g' : Graph) : Term C → Term C → Prop
  | literal {v : Value} : v.isNode = false → Matches f g g' (.value v) (.value v)
  | node {m m' : Node} : Graph.Renumbered f g g' m m' →
    (∀ x, g.read m = .ok x → x.isNote = false → g'.render m' = g.render m) →
    Matches f g g' (.node m) (.node m')

theorem MirroredTerm.matches {C : Type} {kept : List Nat} {i j : Nat} {g g' : Graph} {t u : Term C}
    (h : MirroredTerm kept i j t u) (hg : Graph.Mirrors kept i j g g') :
    t.Matches kept.idxOf g g' u := by
  cases h with
  | value hvw =>
    have hnode := hvw
    cases hvw with
    | node hk => exact .node (hg.renumbered hnode) fun x => hg.render_eq hnode
    | _ => exact .literal rfl

namespace Pass

variable {σ C : Type} {kept more : List Nat} {p p' : Pass σ C} {g₀ g g' g₁ g₁' : Graph}
  {j q : Nat} {done rest : List Nat} {t u : Term C} {s : σ}

/-! ### Two passes in tandem -/

/-- The rules do not look where records stand, and there is no fallback. -/
structure Blind (p : Pass σ C) : Prop where
  rules : ∀ (head : String) (rule : Rule σ C), p.rules[head]? = some rule → rule.Blind
  fallback : p.fallback = none

theorem Blind.ruleFor (h : p.Blind) (x : Expr) : Rule.Blind (p.ruleFor x) := by
  rw [Pass.ruleFor]
  cases hrule : p.rules[x.head]? with
  | some rule => exact h.rules x.head rule hrule
  | none =>
    rw [h.fallback]
    exact blind_rebuild

/-- Over two copies of `g₀`, both passes have settled just the positions `done`, in step; the second
graph, which is numbered `j`, has no notes. -/
structure Tandem (g₀ : Graph) (j : Nat) (kept done : List Nat) (p : Pass σ C) (g : Graph)
    (p' : Pass σ C) (g' : Graph) : Prop where
  mirrors : Graph.Mirrors kept g₀.id j g g'
  grown : g₀.Extends g
  old : ∀ q < g₀.size, kept[q]? = some q
  blind : p.Blind
  rules_eq : p'.rules = p.rules
  fallback_eq : p'.fallback = p.fallback
  silent : p'.keepsHistory = false
  state_eq : p'.state = p.state
  replaced_eq : p'.replaced = p.replaced
  results : ∀ q ∈ done, ∃ t u, p.memo[(⟨g₀.id, q⟩ : Node)]? = some t
    ∧ p'.memo[(⟨j, q⟩ : Node)]? = some u ∧ MirroredTerm kept g₀.id j t u
  fresh : ∀ q, q ∉ done → (⟨g₀.id, q⟩ : Node) ∉ p.memo ∧ (⟨j, q⟩ : Node) ∉ p'.memo

/-- A result replaces its node in the one graph just if it does in the other. -/
theorem replaces_eq_of_mirrored {i k l : Nat} (hkept : kept.Nodup) (ht : MirroredTerm kept i j t u)
    (hk : kept[k]? = some l) : u.replaces ⟨j, k⟩ = t.replaces ⟨i, l⟩ := by
  cases ht with
  | @value v w hvw =>
    have hnodes := hvw.node?_eq_iff hkept (Mirrored.node (i := i) (j := j) hk)
    cases hvw with
    | node hk' =>
      simp only [Datum.node?, Option.some.injEq] at hnodes
      simp only [Term.replaces, Term.node?, Datum.node?]
      rw [decide_eq_decide, ne_eq, ne_eq, hnodes]
    | _ => rfl

namespace Tandem

variable (h : Tandem g₀ j kept done p g p' g')
include h

/-- Corresponding arguments, settled before, have corresponding results. -/
theorem alike_results {x y : Expr} (hx : MirroredExpr kept g₀.id j x y)
    (hdone : ∀ c, Datum.node c ∈ x.args → c.index ∈ done ∧ c.index < g₀.size) :
    Routine.Alike (List.Forall₂ (MirroredTerm kept g₀.id j)) (x.args.mapM (resultOf p.memo))
      (y.args.mapM (resultOf p'.memo)) := by
  have hargs : List.Forall₂ (fun v w => (∀ c, v = Datum.node c → c.index ∈ done ∧ c.index < g₀.size)
      ∧ Mirrored kept g₀.id j v w) x.args y.args :=
    (List.forall₂_and_left _ _).2 ⟨fun v hv c hc => hdone c (hc ▸ hv), hx.args⟩
  refine .mapM (fun v w ⟨hv, hvw⟩ => ?_) hargs
  cases hvw with
  | @node k c hk =>
    obtain ⟨hc, hlt⟩ := hv _ rfl
    -- an old position is kept as it is
    have hkc : k = c := (h.mirrors.idxOf_eq hk).symm.trans (h.mirrors.idxOf_eq (h.old c hlt))
    subst hkc
    obtain ⟨t, u, ht, hu, htu⟩ := h.results k hc
    rw [resultOf, resultOf, Memo.value, Memo.value, ht, hu]
    exact .ok htu
  | int k => exact .ok (.value (.int k))
  | bool b => exact .ok (.value (.bool b))
  | str s => exact .ok (.value (.str s))

/-- The same rule applies to corresponding expressions. -/
theorem ruleFor_eq {x y : Expr} (hhead : x.head = y.head) : p'.ruleFor y = p.ruleFor x := by
  rw [Pass.ruleFor, Pass.ruleFor, h.rules_eq, h.fallback_eq, hhead]

/-- Old positions stay where they are when more is kept. -/
theorem old_append (hq : q < g₀.size) (more : List Nat) : (kept ++ more)[q]? = some q := by
  rw [List.getElem?_append_left (List.getElem?_eq_some_iff.1 (h.old q hq)).1, h.old q hq]

/-- Both passes settle a position. -/
theorem settle (hq : q < g₀.size) (hg : Graph.Mirrors (kept ++ more) g₀.id j g₁ g₁')
    (hgrown : g.Extends g₁) (htu : MirroredTerm (kept ++ more) g₀.id j t u) :
    Tandem g₀ j (kept ++ more) (done ++ [q]) (p.settle ⟨g₀.id, q⟩ t s) g₁
      (p'.settle ⟨j, q⟩ u s) g₁' where
  mirrors := hg
  grown := h.grown.trans hgrown
  old r hr := h.old_append hr more
  blind := ⟨h.blind.rules, h.blind.fallback⟩
  rules_eq := h.rules_eq
  fallback_eq := h.fallback_eq
  silent := h.silent
  state_eq := rfl
  replaced_eq := by
    rw [Pass.settle, Pass.settle, h.replaced_eq,
      replaces_eq_of_mirrored hg.nodup htu (h.old_append hq more)]
  results r hr := by
    by_cases hrq : r = q
    · subst hrq
      exact ⟨t, u, getElem?_settle, getElem?_settle, htu⟩
    · have hrdone : r ∈ done := by simpa [hrq] using hr
      obtain ⟨t', u', ht', hu', htu'⟩ := h.results r hrdone
      refine ⟨t', u', ?_, ?_, htu'.longer more⟩
      · rw [getElem?_settle_of_ne fun he => hrq (congrArg Node.index he), ht']
      · rw [getElem?_settle_of_ne fun he => hrq (congrArg Node.index he), hu']
  fresh r hr := by
    obtain ⟨hrdone, hrq⟩ : r ∉ done ∧ r ≠ q := by simpa [not_or] using hr
    obtain ⟨hfresh, hfresh'⟩ := h.fresh r hrdone
    rw [mem_settle_iff, mem_settle_iff]
    exact ⟨fun hm => hm.elim (fun he => hrq (congrArg Node.index he)) hfresh,
      fun hm => hm.elim (fun he => hrq (congrArg Node.index he)) hfresh'⟩

/-- One visit of each pass. The first may append a note, which is not kept. -/
theorem visit (hq : q < g₀.size) (hnew : q ∉ done) (hargs : ∀ c ∈ g₀.childrenAt q, c ∈ done) :
    Routine.Agree (fun a b => ∃ kept, Tandem g₀ j kept (done ++ [q]) a.2.1 a.2.2 b.2.1 b.2.2)
      (Routine.run (Pass.visit ⟨g₀.id, q⟩) p g) (Routine.run (Pass.visit ⟨j, q⟩) p' g') := by
  obtain ⟨x, y, hx, hy, hxy, hchildren⟩ := h.mirrors.exists_read (h.old q hq)
  obtain ⟨hfresh, hfresh'⟩ := h.fresh q hnew
  have hdone : ∀ c, Datum.node c ∈ x.args → c.index ∈ done ∧ c.index < g₀.size := fun c hc => by
    have hchild : c.index ∈ g₀.childrenAt q := h.grown.childrenAt_eq hq ▸ hchildren c hc
    exact ⟨hargs _ hchild, Nat.lt_trans (Graph.lt_of_mem_childrenAt hchild) hq⟩
  have halike := h.alike_results hxy hdone
  generalize hresults : x.args.mapM (resultOf p.memo) = r,
    hresults' : y.args.mapM (resultOf p'.memo) = r' at halike
  cases halike with
  | error =>
    rw [run_visit_of_missing hfresh hx hresults, run_visit_of_missing hfresh' hy hresults']
    exact .error
  | @ok args args' hargs =>
    have hrule := h.blind.ruleFor x p.state h.mirrors hxy hargs
    generalize hrun : Routine.run (p.ruleFor x x args) p.state g = out,
      hrun' : Routine.run (p.ruleFor x y args') p.state g' = out' at hrule
    rw [← h.ruleFor_eq hxy.head, ← h.state_eq] at hrun'
    cases hrule with
    | error =>
      rw [Ruled.run_visit ⟨hfresh, hx, hresults, hrun⟩,
        Ruled.run_visit ⟨hfresh', hy, hresults', hrun'⟩]
      exact .error
    | @ok t s g₁ u s' g₁' hsteps =>
      obtain ⟨hs, more, hg, htu⟩ := hsteps
      cases hs
      have hruled : p.Ruled g ⟨g₀.id, q⟩ (.ok t) s g₁ x args := ⟨hfresh, hx, hresults, hrun⟩
      -- the result is a node of the graph, so its note, if there is one, is not refused
      obtain ⟨g₂, hvisit, hgrown⟩ := hruled.exists_run_visit fun m => htu.mem_nodes hg
      rw [hvisit, Ruled.run_visit_of_unnoted ⟨hfresh', hy, hresults', hrun'⟩
        (by rw [h.silent, Bool.and_false])]
      exact .ok ⟨_, h.settle hq (hg.grown hgrown) (hruled.extends_graph.trans hgrown) htu⟩

/-- Visits in a row, in the order of the records. -/
theorem forM (hclosed : g₀.Closed (done ++ rest)) (hasc : (done ++ rest).Pairwise (· < ·)) :
    Routine.Agree (fun a b => ∃ kept, Tandem g₀ j kept (done ++ rest) a.2.1 a.2.2 b.2.1 b.2.2)
      (Routine.run ((rest.map fun q => ⟨g₀.id, q⟩).forM Pass.visit) p g)
      (Routine.run ((rest.map fun q => ⟨j, q⟩).forM Pass.visit) p' g') := by
  induction rest generalizing kept done p g p' g' with
  | nil =>
    refine .ok ⟨kept, ?_⟩
    rwa [List.append_nil]
  | cons q rest ih =>
    have hq : q < g₀.size := hclosed.lt_size q (List.mem_append_right _ (List.mem_cons_self ..))
    have hnew : q ∉ done := fun hq =>
      Nat.lt_irrefl _ ((List.pairwise_append.1 hasc).2.2 q hq q (List.mem_cons_self ..))
    have hargs : ∀ c ∈ g₀.childrenAt q, c ∈ done := fun c => hclosed.child_mem_done hasc
    refine Routine.Agree.bind (h.visit hq hnew hargs) fun _ p g _ p' g' ⟨kept, h⟩ => ?_
    rw [List.append_cons] at hclosed hasc ⊢
    exact ih h hclosed hasc

end Tandem

/-! ### Runs -/

variable {root : Node} {ns : List Node}

/-- Before the first visit. -/
theorem tandem_start (hempty : p.memo = ∅) (hblind : p.Blind) (g : Graph) (j : Nat) :
    Tandem g j (List.range g.size) [] p g { p with keepsHistory := false } (g.renumber j) where
  mirrors := g.mirrors_renumber j
  grown := .refl g
  old _ hq := List.getElem?_range hq
  blind := hblind
  rules_eq := rfl
  fallback_eq := rfl
  silent := rfl
  state_eq := rfl
  replaced_eq := rfl
  results q hq := absurd hq List.not_mem_nil
  fresh q _ := by
    rw [hempty]
    exact ⟨Std.TreeMap.not_mem_emptyc, Std.TreeMap.not_mem_emptyc⟩

/-- Two runs end in tandem, and with corresponding terms. -/
theorem agree_run (hempty : p.memo = ∅) (hblind : p.Blind) (hroot : root ∈ g.nodes) (j : Nat) :
    Routine.Agree (fun a b => ∃ kept, MirroredTerm kept g.id j a.1 b.1
        ∧ Tandem g j kept (g.closureAt [root.index]) a.2.1 a.2.2 b.2.1 b.2.2)
      (Routine.run (run root) p g)
      (Routine.run (run ⟨j, root.index⟩) { p with keepsHistory := false } (g.renumber j)) := by
  obtain ⟨hgraph, hlt⟩ := Graph.mem_nodes.1 hroot
  have hroot' : (⟨j, root.index⟩ : Node) ∈ (g.renumber j).nodes := Graph.mem_nodes.2 ⟨rfl, hlt⟩
  have hvisits : g.visits .needed root
      = .ok ((g.closureAt [root.index]).map fun q => ⟨g.id, q⟩) := by
    rw [Graph.visits, Graph.reachable, Graph.closure_eq (by simpa using hroot)]
    rfl
  have hvisits' : (g.renumber j).visits .needed ⟨j, root.index⟩
      = .ok ((g.closureAt [root.index]).map fun q => ⟨j, q⟩) := by
    rw [Graph.visits, Graph.reachable, Graph.closure_eq (by simpa using hroot'),
      Graph.closureAt_renumber]
    rfl
  have hclosed : g.Closed ([] ++ g.closureAt [root.index]) :=
    Graph.closed_closureAt (by simpa using hlt)
  have hforM := (tandem_start hempty hblind g j).forM hclosed (Graph.closureAt_ascending _)
  rw [run_run, run_run, Routine.run_walk, Routine.run_walk, hvisits, hvisits']
  dsimp only
  rw [List.nil_append] at hforM
  generalize Routine.run (((g.closureAt [root.index]).map _).forM visit) p g = out,
    Routine.run (((g.closureAt [root.index]).map _).forM visit) { p with keepsHistory := false }
      (g.renumber j) = out' at hforM ⊢
  cases hforM with
  | error => exact .error
  | ok h =>
    obtain ⟨kept, h⟩ := h
    obtain ⟨t, u, ht, hu, htu⟩ := h.results root.index
      (Graph.mem_closureAt.2 ⟨_, List.mem_singleton_self _, .refl _⟩)
    have hown : root = ⟨g.id, root.index⟩ := Node.ext hgraph rfl
    rw [← hown] at ht
    dsimp only
    rw [result?, result?, ht, hu]
    exact .ok ⟨kept, htu, h⟩

/-- What two runs over `g` and a copy of it leave behind, if both succeed: terms that match, the
same count, and matching results for the nodes `ns`; the renumbering leaves old nodes alone. -/
structure Matched (g : Graph) (ns : List Node) (f : Nat → Nat)
    (a b : Term C × Pass σ C × Graph) : Prop where
  old : ∀ q < g.size, f q = q
  terms : a.1.Matches f a.2.2 b.2.2 b.1
  replaced_eq : b.2.1.replaced = a.2.1.replaced
  results : ∀ n ∈ ns, ∃ t u, a.2.1.result? n = some t ∧ b.2.1.result? (b.2.2.node n.index) = some u
    ∧ t.Matches f a.2.2 b.2.2 u

/-- Keeping history changes nothing that a pass computes: with rules that follow templates, and from
no results, a run over a graph that keeps history and one over a copy of it that does not fail with
the same error, or both succeed with matching results. -/
theorem history_changes_nothing (hempty : p.memo = ∅) (hfallback : p.fallback = none)
    (htemplates : ∀ (head : String) (rule : Rule σ C), p.rules[head]? = some rule →
      ∃ shape, rule = Template.rule shape) (g : Graph) (root : Node) :
    (root ∉ g.nodes → ∃ e, ∀ keeps, Routine.run (run root) { p with keepsHistory := keeps } g
      = (.error e, { p with keepsHistory := keeps }, g))
    ∧ ∀ ns, g.reachable [root] = .ok ns → ∀ j,
      Routine.Agree (fun a b => ∃ f, Matched g ns f a b)
        (Routine.run (run root) { p with keepsHistory := true } g)
        (Routine.run (run ((g.renumber j).node root.index)) { p with keepsHistory := false }
          (g.renumber j)) := by
  refine ⟨fun hroot => ?_, fun ns hns j => ?_⟩
  · cases hns : g.reachable [root] with
    | ok ns => exact absurd (Graph.mem_nodes_of_reachable hns) hroot
    | error e =>
      refine ⟨e, fun keeps => ?_⟩
      rw [run_run, Routine.run_walk, Graph.visits, hns]
  · have hblind : Blind { p with keepsHistory := true } := by
      refine ⟨fun head rule hrule => ?_, hfallback⟩
      obtain ⟨shape, rfl⟩ := htemplates head rule hrule
      exact Template.blind_rule shape
    have hroot := Graph.mem_nodes_of_reachable hns
    have hrun := agree_run (p := { p with keepsHistory := true }) hempty hblind hroot j
    refine hrun.mono fun a b hab => ?_
    obtain ⟨kept, htu, h⟩ := hab
    refine ⟨kept.idxOf, ?_⟩
    refine ⟨fun q hq => h.mirrors.idxOf_eq (h.old q hq), htu.matches h.mirrors, h.replaced_eq,
      fun n hn => ?_⟩
    rw [Graph.reachable, Graph.closure_eq (by simpa using hroot)] at hns
    cases hns
    obtain ⟨c, hc, rfl⟩ := List.mem_map.1 hn
    obtain ⟨t, u, ht, hu, htu⟩ := h.results c hc
    refine ⟨t, u, ht, ?_, htu.matches h.mirrors⟩
    rw [Graph.node, h.mirrors.id_eq']
    exact hu

/-- Three records: an `a`, a `b`, and one above the `a`. -/
def stacked : Graph := (Graph.pair.append "above" [.node (Graph.pair.node 0)]).2

/-- A pass that makes a new record of every `a`. -/
def renewing : Pass Unit Empty :=
  Pass.on { name := "renew", state := () } "a" <| Template.rule fun head _ =>
    ⟨[("new", [.const (.str head)])], some (.built 0), fun _ => .unknownHead head⟩

/-- The `a` is replaced and what is above it is rebuilt, in the one graph with two notes. -/
theorem history_stacked : ∃ t p₁ g₁ u p₂ g₂ f,
    Routine.run (run (stacked.node 2)) { renewing with keepsHistory := true } stacked
      = (.ok t, p₁, g₁)
    ∧ Routine.run (run ((stacked.renumber 1).node 2)) { renewing with keepsHistory := false }
      (stacked.renumber 1) = (.ok u, p₂, g₂)
    ∧ g₁.size = 7 ∧ g₂.size = 5
    ∧ Matched stacked [stacked.node 0, stacked.node 2] f (t, p₁, g₁) (u, p₂, g₂) := by
  have htemplates : ∀ (head : String) (rule : Rule Unit Empty), renewing.rules[head]? = some rule →
      ∃ shape, rule = Template.rule shape := fun head rule hrule => by
    rw [renewing, on, Std.TreeMap.getElem?_insert] at hrule
    split at hrule
    · cases hrule
      exact ⟨_, rfl⟩
    · cases hrule
  have hreachable : stacked.reachable [stacked.node 2] = .ok [stacked.node 0, stacked.node 2] := rfl
  have hagree := (history_changes_nothing (p := renewing) rfl rfl htemplates stacked
    (stacked.node 2)).2 _ hreachable 1
  have hrun : ∃ t p₁ g₁, Routine.run (run (stacked.node 2)) { renewing with keepsHistory := true }
      stacked = (.ok t, p₁, g₁) ∧ g₁.size = 7 := ⟨_, _, _, rfl, rfl⟩
  have hrun' : ∃ u p₂ g₂, Routine.run (run ((stacked.renumber 1).node 2))
      { renewing with keepsHistory := false } (stacked.renumber 1) = (.ok u, p₂, g₂) ∧ g₂.size = 5 :=
    ⟨_, _, _, rfl, rfl⟩
  obtain ⟨t, p₁, g₁, hrun, hsize⟩ := hrun
  obtain ⟨u, p₂, g₂, hrun', hsize'⟩ := hrun'
  have hindex : (stacked.node 2).index = 2 := rfl
  rw [hindex, hrun, hrun'] at hagree
  cases hagree with
  | ok hmatched =>
    obtain ⟨f, hmatched⟩ := hmatched
    exact ⟨t, p₁, g₁, u, p₂, g₂, f, hrun, hrun', hsize, hsize', hmatched⟩

end Pass

end TermGraph
