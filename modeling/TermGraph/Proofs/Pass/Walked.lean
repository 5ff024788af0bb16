import TermGraph.Proofs.Pass.Replaced
import TermGraph.Proofs.Pass.Sound
import TermGraph.Proofs.Walk

/-!
What a successful run of a fresh pass consists of. Each node that the root depends on is visited
once, in order, and each visit settles it: the rule that applies is called with the results of the
arguments and comes to a term, which is noted in the graph if need be and remembered. So a run is a
`Walked` history, and what happened to one node of it is found by `Walked.exists_visit`.
-/

namespace TermGraph

variable {σ C : Type}

/-- Results that are looked up are found in every larger memo. -/
theorem Memo.Within.mapM_resultOf {memo memo' : Memo (Term C)} (h : memo.Within memo')
    {xs : List Value} {args : List (Term C)} (hargs : xs.mapM (Pass.resultOf memo) = .ok args) :
    xs.mapM (Pass.resultOf memo') = .ok args := by
  refine mapM_ok_mono (fun v _ t ht => ?_) hargs
  cases v with
  | node n => exact h.value ht
  | _ => exact ht

namespace Pass

variable {p p' p₀ : Pass σ C} {g g' g₀ g₁ : Graph} {n root : Node} {t : Term C} {s : σ} {x : Expr}
  {args : List (Term C)} {ns done : List Node}

/-! ### One visit -/

/-- What noting that `n` has the result `t` makes of the graph: it gets a note if the result is
another node and notes are kept. -/
inductive Noted (p : Pass σ C) (n : Node) (t : Term C) (g : Graph) : Graph → Prop
  | none : (t.replaces n && p.keepsHistory) = false → Noted p n t g g
  | note {m : Node} {g' : Graph} : t.node? = some m → m ≠ n → p.keepsHistory = true → m ∈ g.nodes →
    g.Appended historyHead [.str p.name, .node m, .node n] g' → Noted p n t g g'

/-- A visit of `n` calls a rule that comes to `t` and leaves `g₁`; with the note, if there is one,
that is `g'`. -/
structure Settles (p : Pass σ C) (g : Graph) (n : Node) (t : Term C) (s : σ) (x : Expr)
    (args : List (Term C)) (g₁ g' : Graph) : Prop extends Ruled p g n (.ok t) s g₁ x args where
  noted : p.Noted n t g₁ g'

theorem Noted.extends_graph (h : p.Noted n t g g') : g.Extends g' := by
  cases h with
  | none => exact .refl g
  | note _ _ _ _ happended => exact happended.grown

theorem Settles.grown (h : p.Settles g n t s x args g₁ g') : g.Extends g' :=
  h.extends_graph.trans h.noted.extends_graph

theorem read_node_eq (h : g.read n = .ok x) : x.node = n := by
  obtain ⟨q, hq, rfl⟩ := ok_of_map_ok h
  exact (Graph.eq_node_of_locate hq).symm

/-- Where nothing is to be noted, a visit leaves the graph that the rule leaves. -/
theorem Ruled.run_visit_of_unnoted (h : p.Ruled g n (.ok t) s g' x args)
    (hnone : (t.replaces n && p.keepsHistory) = false) :
    Routine.run (visit n) p g = (.ok (), p.settle n t s, g') := by
  rw [h.run_visit]
  dsimp only
  cases ht : t.node? with
  | none => rfl
  | some m =>
    dsimp only
    rw [if_neg]
    rintro ⟨hmn, hkeeps⟩
    rw [Term.replaces_eq_true ht hmn, hkeeps] at hnone
    cases hnone

/-- A visit settles its node if the result can be noted. -/
theorem Ruled.exists_run_visit (h : p.Ruled g n (.ok t) s g₁ x args)
    (hnodes : ∀ m, t.node? = some m → m ∈ g₁.nodes) :
    ∃ g', Routine.run (visit n) p g = (.ok (), p.settle n t s, g') ∧ g₁.Extends g' := by
  rw [h.run_visit]
  dsimp only
  cases ht : t.node? with
  | none => exact ⟨g₁, rfl, .refl g₁⟩
  | some m =>
    dsimp only
    split
    · have hmem : ∀ k, Datum.node k ∈ ([.str p.name, .node m, .node n] : List Value) →
          k ∈ g₁.nodes := fun k hk => by
        have hkm : k = m ∨ k = n := by simpa using hk
        rcases hkm with rfl | rfl
        · exact hnodes k ht
        · exact h.extends_graph.mem_nodes (Graph.mem_nodes_of_read h.read)
      obtain ⟨g', happend, happended⟩ := Graph.exists_append historyHead hmem
      rw [happend]
      exact ⟨g', rfl, happended.grown⟩
    · exact ⟨g₁, rfl, .refl g₁⟩

/-- A visit that succeeds finds a result or settles the node. -/
theorem settles_of_visit_ok (h : Routine.run (visit n) p g = (.ok (), p', g')) :
    (n ∈ p.memo ∧ p' = p ∧ g' = g) ∨
      ∃ t s x args g₁, p.Settles g n t s x args g₁ g' ∧ p' = p.settle n t s := by
  have hv := visited p g n
  rw [h] at hv
  cases hv with
  | known hmem => exact .inl ⟨hmem, rfl, rfl⟩
  | plain hr ht =>
    have hown := Term.replaces_eq_false ht
    exact .inr ⟨_, _, _, _, _, ⟨hr, .none (by rw [hown, Bool.false_and])⟩,
      (settle_of_own _ hown).symm⟩
  | replaced hr ht hmn hkeeps =>
    exact .inr ⟨_, _, _, _, _, ⟨hr, .none (by rw [hkeeps, Bool.and_false])⟩,
      (settle_of_replaces _ (Term.replaces_eq_true ht hmn)).symm⟩
  | noted hr ht hmn hkeeps hnote =>
    have hm := hr.refusal?_note.1 (by rw [hnote]; rfl)
    exact .inr ⟨_, _, _, _, _, ⟨hr, .note ht hmn hkeeps hm (Graph.appended_of_append hnote).2⟩,
      (settle_of_replaces _ (Term.replaces_eq_true ht hmn)).symm⟩

/-- Whatever a visit comes to, results stay what they are. -/
theorem within_visit (n : Node) (p : Pass σ C) (g : Graph) :
    p.memo.Within (Routine.run (visit n) p g).2.1.memo := by
  have hv := visited p g n
  generalize Routine.run (visit n) p g = out at hv
  cases hv with
  | known | unread | missing | fails | unnoted => exact .refl _
  | plain hr | replaced hr | noted hr => exact Memo.within_insert hr.new _

theorem within_forM (ns : List Node) (p : Pass σ C) (g : Graph) :
    p.memo.Within (Routine.run (ns.forM visit) p g).2.1.memo :=
  Routine.run_forM_keeps (P := fun q _ => p.memo.Within q.memo)
    (fun n q g h => h.trans (within_visit n q g)) ns p g (.refl _)

/-! ### Visits in a row -/

/-- A successful row of visits whose first node has no result yet settles it, and the others then. -/
theorem exists_settles_of_forM_cons (hn : n ∉ p.memo)
    (h : Routine.run ((n :: ns).forM visit) p g = (.ok (), p', g')) :
    ∃ t s x args g₁ g₂, p.Settles g n t s x args g₁ g₂
      ∧ Routine.run (visit n) p g = (.ok (), p.settle n t s, g₂)
      ∧ Routine.run (ns.forM visit) (p.settle n t s) g₂ = (.ok (), p', g') := by
  rw [Routine.run_forM_cons] at h
  obtain ⟨⟨r, p₁, g₂⟩, hvisit⟩ : ∃ r, Routine.run (visit n) p g = r := ⟨_, rfl⟩
  rw [hvisit] at h
  cases r with
  | error e => cases h
  | ok u =>
    rcases settles_of_visit_ok hvisit with ⟨hmem, -, -⟩ | ⟨t, s, x, args, g₁, hs, rfl⟩
    · exact absurd hmem hn
    · exact ⟨t, s, x, args, g₁, g₂, hs, hvisit, h⟩

theorem mem_settle_iff {m : Node} : m ∈ (p.settle n t s).memo ↔ m = n ∨ m ∈ p.memo := by
  rw [settle, Std.TreeMap.mem_insert, Std.LawfulEqCmp.compare_eq_iff_eq, eq_comm]

theorem getElem?_settle : (p.settle n t s).memo[n]? = some t := by
  rw [settle, Memo.getElem?_insert, if_pos rfl]

theorem getElem?_settle_of_ne {m : Node} (h : m ≠ n) :
    (p.settle n t s).memo[m]? = p.memo[m]? := by
  rw [settle, Memo.getElem?_insert, if_neg h.symm]

/-- From `p₀` and `g₀` the nodes were settled in turn. -/
inductive Walked (p₀ : Pass σ C) (g₀ : Graph) : List Node → Pass σ C → Graph → Prop
  | start : Walked p₀ g₀ [] p₀ g₀
  | visit {done : List Node} {p : Pass σ C} {g g₁ g' : Graph} {n : Node} {t : Term C} {s : σ}
    {x : Expr} {args : List (Term C)} : Walked p₀ g₀ done p g → p.Settles g n t s x args g₁ g' →
    Walked p₀ g₀ (done ++ [n]) (p.settle n t s) g'

namespace Walked

variable (h : Walked p₀ g₀ done p g)
include h

theorem grown : g₀.Extends g := by
  induction h with
  | start => exact .refl g₀
  | visit _ hs ih => exact ih.trans hs.grown

theorem name_eq : p.name = p₀.name := by
  induction h with
  | start => rfl
  | visit _ _ ih => exact ih

theorem keepsHistory_eq : p.keepsHistory = p₀.keepsHistory := by
  induction h with
  | start => rfl
  | visit _ _ ih => exact ih

theorem rules_eq : p.rules = p₀.rules := by
  induction h with
  | start => rfl
  | visit _ _ ih => exact ih

theorem fallback_eq : p.fallback = p₀.fallback := by
  induction h with
  | start => rfl
  | visit _ _ ih => exact ih

theorem ruleFor_eq (x : Expr) : p.ruleFor x = p₀.ruleFor x := by
  rw [ruleFor, ruleFor, h.rules_eq, h.fallback_eq]

/-- Just the nodes visited got results. -/
theorem mem_memo_iff (n : Node) : n ∈ p.memo ↔ n ∈ p₀.memo ∨ n ∈ done := by
  induction h with
  | start => simp
  | visit _ _ ih =>
    rw [mem_settle_iff, ih, List.mem_append, List.mem_singleton, or_comm, or_assoc]

/-- The moment at which a node was visited. -/
theorem exists_visit (hn : n ∈ done) : ∃ before p₁ g₁ t s x args g₂ g₃,
    Walked p₀ g₀ before p₁ g₁ ∧ p₁.Settles g₁ n t s x args g₂ g₃
      ∧ (∃ after, done = before ++ n :: after) ∧ p₁.memo.Within p.memo ∧ p.memo[n]? = some t ∧ g₃.Extends g := by
  induction h with
  | start => cases hn
  | @visit done p g g₂ g₃ m t s x args hw hs ih =>
    have hwithin : p.memo.Within (p.settle m t s).memo := Memo.within_insert hs.new t
    rcases List.mem_append.1 hn with hdone | hlast
    · obtain ⟨before, p₁, g₁, t₁, s₁, x₁, args₁, g₂', g₃', hw₁, hs₁, ⟨after, hafter⟩, hm, ht, hg⟩ :=
        ih hdone
      refine ⟨before, p₁, g₁, t₁, s₁, x₁, args₁, g₂', g₃', hw₁, hs₁, ⟨after ++ [m], ?_⟩,
        hm.trans hwithin, hwithin n t₁ ht, hg.trans hs.grown⟩
      rw [hafter, List.append_assoc, List.cons_append]
    · cases List.mem_singleton.1 hlast
      exact ⟨done, p, g, t, s, x, args, g₂, g₃, hw, hs, ⟨[], rfl⟩, hwithin, getElem?_settle, .refl _⟩

theorem run_forM (hnodup : (done ++ ns).Nodup) (hnew : ∀ n ∈ ns, n ∉ p₀.memo)
    (hrun : Routine.run (ns.forM Pass.visit) p g = (.ok (), p', g')) :
    Walked p₀ g₀ (done ++ ns) p' g' := by
  induction ns generalizing done p g with
  | nil =>
    cases hrun
    rwa [List.append_nil]
  | cons n ns ih =>
    have hn : n ∉ p.memo := fun hmem => by
      rcases (h.mem_memo_iff n).1 hmem with hold | hdone
      · exact hnew n (List.mem_cons_self ..) hold
      · exact (List.nodup_append.1 hnodup).2.2 n hdone n (List.mem_cons_self ..) rfl
    obtain ⟨t, s, x, args, g₁, g₂, hs, -, hrest⟩ := exists_settles_of_forM_cons hn hrun
    rw [List.append_cons] at hnodup ⊢
    exact ih (.visit h hs) hnodup (fun m hm => hnew m (List.mem_cons_of_mem _ hm)) hrest

end Walked

/-! ### Runs -/

/-- A successful run has visited what the root depends on. -/
theorem run_forM_of_run (hns : g.reachable [root] = .ok ns)
    (hrun : Routine.run (run root) p g = (.ok t, p', g')) :
    Routine.run (ns.forM visit) p g = (.ok (), p', g') := by
  rw [run_run, Routine.run_walk, Graph.visits, hns] at hrun
  dsimp only at hrun
  obtain ⟨⟨r, p₁, g₁⟩, hforM⟩ : ∃ r, Routine.run (ns.forM visit) p g = r := ⟨_, rfl⟩
  rw [hforM] at hrun ⊢
  cases r with
  | error e => cases hrun
  | ok u =>
    have hsnd := congrArg Prod.snd hrun
    dsimp only at hsnd
    split at hsnd <;> exact congrArg (Prod.mk _) hsnd

/-- A successful run of a pass without results has settled what the root depends on, in order. -/
theorem walked_of_run (hempty : p.memo = ∅) (hns : g.reachable [root] = .ok ns)
    (hrun : Routine.run (run root) p g = (.ok t, p', g')) :
    Walked p g ns p' g' ∧ p'.memo[root]? = some t := by
  refine ⟨?_, (result_of_run hrun).2⟩
  have hstart : Walked p g [] p g := .start
  refine hstart.run_forM (Graph.topological_of_reachable hns).nodup (fun n _ hn => ?_) (run_forM_of_run hns hrun)
  rw [hempty] at hn
  exact Std.TreeMap.not_mem_emptyc hn

end Pass

end TermGraph
