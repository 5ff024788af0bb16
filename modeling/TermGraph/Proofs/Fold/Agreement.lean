import TermGraph.Proofs.Fold.Evaluation
import TermGraph.Proofs.Fold.Walks

/-!
Three ways to fold a graph come to the same: an evaluation, a walk with a visitor that keeps the
values, and a pass, also one that has been used before. Main statement: each of them succeeds, leaves
the graph alone, and gives every node that the root depends on the value of the fold.
-/

namespace TermGraph

variable {σ T : Type} {alg : Algebra T}

/-- A pass without rules whose fallback makes values of its own. -/
def foldPass (alg : Algebra T) (name : String) (keepsHistory : Bool) (s : σ) : Pass σ T :=
  { name, keepsHistory, fallback := some (foldFallback alg), state := s }

namespace Pass

variable {p p₀ : Pass σ T} {g : Graph}

/-- What becomes of a pass: it runs on any roots, whether or not they are nodes of the graph, and
also on other graphs, and the graph at hand may grow in between. -/
inductive Reused (p₀ : Pass σ T) : Pass σ T → Graph → Prop
  | start {g : Graph} : Reused p₀ p₀ g
  | ran {p : Pass σ T} {g : Graph} (root : Node) : Reused p₀ p g →
    Reused p₀ (Routine.run (run root) p g).2.1 (Routine.run (run root) p g).2.2
  | elsewhere {p : Pass σ T} {g h : Graph} (root : Node) : Reused p₀ p g → h.id ≠ g.id →
    Reused p₀ (Routine.run (run root) p h).2.1 g
  | grown {p : Pass σ T} {g g' : Graph} : Reused p₀ p g → g.Extends g' → Reused p₀ p g'

/-- The pass folds, and what it knows of the graph are values of the fold. -/
structure Ready (p : Pass σ T) (alg : Algebra T) (g : Graph) : Prop where
  folds : p.Folds alg
  table : ∃ S, Tabulated p.memo alg { n | n.graph = g.id } g S

theorem Ready.ran (h : p.Ready alg g) (root : Node) :
    (Routine.run (run root) p g).2.1.Ready alg (Routine.run (run root) p g).2.2 := by
  obtain ⟨S, hS⟩ := h.table
  cases hroot : g.locate root with
  | error e =>
    rw [run_run_snd, Routine.run_walk, Graph.visits, Graph.reachable, Graph.closure_singleton,
      hroot]
    exact h
  | ok q =>
    obtain ⟨memo, hrun, ht⟩ := h.folds.run_root (fun _ => rfl) hS q
    rw [Graph.eq_node_of_locate hroot, hrun]
    exact ⟨⟨h.folds.rules_eq, h.folds.fallback_eq⟩, _, ht⟩

theorem Ready.elsewhere (h : p.Ready alg g) {g' : Graph} (hid : g'.id ≠ g.id) (root : Node) :
    (Routine.run (run root) p g').2.1.Ready alg g := by
  obtain ⟨S, hS⟩ := h.table
  obtain ⟨⟨memo, hp, hmemo⟩, -⟩ := h.folds.run_differsAt (g := g') root
  rw [hp]
  refine ⟨⟨h.folds.rules_eq, h.folds.fallback_eq⟩, S, hS.congr (fun _ => rfl) fun n hn => ?_⟩
  exact hmemo n fun he => hid (he.symm.trans hn)

theorem Ready.grown (h : p.Ready alg g) {g' : Graph} (hg : g.Extends g') : p.Ready alg g' := by
  obtain ⟨S, hS⟩ := h.table
  refine ⟨h.folds, Set.image (Fin.castLE hg.size_le) S, ?_⟩
  rw [hg.id_eq]
  exact hS.of_extends hg fun q => congrArg Term.custom (hg.foldBy_eq alg q)

theorem Reused.ready (hp : p₀.Folds alg) (hempty : p₀.memo = ∅) (h : Reused p₀ p g) :
    p.Ready alg g := by
  induction h with
  | @start g => exact ⟨hp, ∅, hempty ▸ .empty _ g _⟩
  | ran root _ ih => exact ih.ran root
  | elsewhere root _ hid ih => exact ih.elsewhere hid root
  | grown _ hg ih => exact ih.grown hg

end Pass

theorem foldPass_folds (alg : Algebra T) (name : String) (keepsHistory : Bool) (s : σ) :
    (foldPass alg name keepsHistory s).Folds alg := ⟨rfl, rfl⟩

/-- The evaluation, the walk and the pass, be it fresh or used before, all give the nodes that they
come to the values of the fold. The evaluation and the fresh pass come just to what the root depends
on, the walk just to what it visits. -/
theorem disciplines_fold (alg : Algebra T) (g : Graph) (root : Fin g.size) (s : σ) :
    (∀ ask : Asking, ∃ memo calls,
        g.evaluate (g.node root.val) (foldHandler alg ask) s = ⟨.ok memo, g, s, calls⟩
          ∧ memo.Tabulates .univ g (g.foldBy alg) { q | g.Path root.val q.val })
      ∧ (∀ extent : Extent, ∃ memo,
          Routine.run (walk extent (g.node root.val) (foldVisit alg)) ∅ g = (.ok (), memo, g)
            ∧ memo.Tabulates .univ g (g.foldBy alg) (extent.visited g root))
      ∧ ∀ (name : String) (keepsHistory : Bool),
        (∃ memo, Routine.run (Pass.run (g.node root.val)) (foldPass alg name keepsHistory s) g
            = (.ok (.custom (g.foldBy alg root)),
              { foldPass alg name keepsHistory s with memo := memo }, g)
          ∧ memo.Tabulates .univ g (fun q => .custom (g.foldBy alg q))
            { q | g.Path root.val q.val })
        ∧ ∀ p, (foldPass alg name keepsHistory s).Reused p g → ∃ memo,
          Routine.run (Pass.run (g.node root.val)) p g
              = (.ok (.custom (g.foldBy alg root)), { p with memo := memo }, g)
            ∧ ∀ q : Fin g.size, g.Path root.val q.val →
              memo[g.node q.val]? = some (.custom (g.foldBy alg q)) := by
  refine ⟨fun ask => evaluate_foldHandler alg ask g root s,
    fun extent => run_walk_foldVisit alg extent root, fun name keepsHistory => ⟨?_, fun p hp => ?_⟩⟩
  · have hfresh := (foldPass_folds alg name keepsHistory s).run_root (D := .univ) (S := ∅)
      (fun _ => trivial) (.empty ..) root
    rwa [Set.empty_union] at hfresh
  · have hready := hp.ready (foldPass_folds alg name keepsHistory s) rfl
    obtain ⟨S, hS⟩ := hready.table
    obtain ⟨memo, hrun, ht⟩ := hready.folds.run_root (fun _ => rfl) hS root
    exact ⟨memo, hrun, fun q hq => ht.value_eq q (.inr hq)⟩

/-- How many nodes a term has, shared ones counted wherever they stand. -/
def termSize : Algebra Nat := fun _ args => (nodesOf args).foldl (· + ·) 1

/-- `(num 5)` added to itself. -/
def doubled : Graph :=
  let g := ((Graph.empty 0).append "num" [.int 5]).2
  (g.append "add" [.node (g.node 0), .node (g.node 0)]).2

/-- A pass that counts nodes. -/
def sizePass : Pass Unit Nat := foldPass termSize "size" true ()

theorem disciplines_fold_doubled : ∃ p memo, sizePass.Reused p doubled
    ∧ Routine.run (Pass.run (doubled.node 1)) p doubled
      = (.ok (.custom 3), { p with memo := memo }, doubled)
    ∧ memo[doubled.node 1]? = some (.custom 3) := by
  have hstart : sizePass.Reused sizePass doubled := .start
  have hreused := hstart.ran (doubled.node 0)
  obtain ⟨memo, hrun, hmemo⟩ :=
    ((disciplines_fold termSize doubled ⟨1, by decide⟩ ()).2.2 "size" true).2 _ hreused
  have hthree : doubled.foldBy termSize ⟨1, by decide⟩ = 3 :=
    Term.custom.inj (Except.ok.inj (congrArg Prod.fst hrun).symm)
  have hroot := hmemo ⟨1, by decide⟩ (.refl _)
  rw [hthree] at hrun hroot
  exact ⟨_, memo, hreused, hrun, hroot⟩

end TermGraph
