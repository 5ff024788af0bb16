import TermGraph.Proofs.Pass.Meaning
import TermGraph.Proofs.Session.Honest
import TermGraph.Proofs.Session.Queries

/-!
Walks and passes are honest if their visitors and rules are. A walk reads which nodes to visit from
the graph; a pass keeps results from one run to the next, which hold only nodes that were known
then.
-/

namespace TermGraph

variable {σ C : Type} [Confined σ] [Confined C] {K : Set Node}

/-! ### Reading -/

namespace Graph

variable {g : Graph}

/-- What is read at the position of a known node is confined if it is at every position. -/
theorem Covers.confined_map_locate {α : Type} [Confined α] (hg : g.Covers K) {n : Node} (hn : n ∈ K)
    {f : Fin g.size → α} (hf : ∀ p, confined K (f p)) : confined K ((g.locate n).map f) := by
  cases hp : g.locate n with
  | ok p => exact hf p
  | error e => exact hg.confined_refusal hn (congrArg refusal? hp)

theorem Covers.confined_error (hg : g.Covers K) {q : Query} {e : Error}
    (hgiven : ∀ n ∈ q.given, n ∈ K) (he : q.error g = some e) : confined K e :=
  hg.confined_first hgiven ((q.error_eq g).symm.trans he)

theorem confined_exprAt (hnodes : ∀ n ∈ g.nodes, n ∈ K) (p : Fin g.size) :
    confined K (g.exprAt p) := by
  refine ⟨hnodes _ (node_mem_nodes.2 p.isLt), fun v hv n hn => hnodes n ?_⟩
  exact mem_nodes_of_mem_children (List.mem_filterMap.2 ⟨v, hv, hn⟩)

theorem Covers.confined_reachable (hg : g.Covers K) (hnodes : ∀ n ∈ g.nodes, n ∈ K)
    {roots : List Node} (hroots : confined K roots) : confined K (g.reachable roots) := by
  cases hns : g.reachable roots with
  | ok ns => exact fun n hn => hnodes n (mem_nodes_of_mem_reachable hns hn)
  | error e => exact hg.confined_error (q := .reachable roots) hroots (congrArg refusal? hns)

theorem Covers.confined_visits (hg : g.Covers K) (hnodes : ∀ n ∈ g.nodes, n ∈ K) {root : Node}
    (hroot : root ∈ K) (extent : Extent) : confined K (g.visits extent root) := by
  cases extent with
  | all =>
    refine hg.confined_map_locate hroot fun p n hn => hnodes n ?_
    obtain ⟨q, hq, rfl⟩ := List.mem_map.1 hn
    exact node_mem_nodes.2 (Nat.lt_of_lt_of_le (List.mem_range.1 hq) p.isLt)
  | needed => exact hg.confined_reachable hnodes (List.forall_mem_singleton.2 hroot)

end Graph

theorem Routine.honest_read {Q : Type} {A : Q → Type} [Confined Q] [∀ q, Confined (A q)] {n : Node}
    (hn : n ∈ K) : Honest K (read n : Routine Q A σ Expr) :=
  honest_look fun _ _ hK hnodes hg => hg.confined_map_locate (hK hn) (Graph.confined_exprAt hnodes)

/-- A walk from a known root is honest if the visitor is. -/
theorem honest_walk (extent : Extent) {root : Node} (hroot : root ∈ K)
    {visit : Node → Action σ Unit} (hvisit : Routine.HonestFrom K visit) :
    Routine.Honest K (walk extent root visit) :=
  Routine.Honest.bind
    (Routine.honest_look fun _ _ hK hnodes hg => hg.confined_visits hnodes (hK hroot) extent)
    fun _ _ hK hns => Routine.honest_forM (hvisit.mono hK) hns

/-! ### Rules -/

/-- The rule is honest for every expression and results that are confined. -/
def Rule.Honest (K : Set Node) (rule : Rule σ C) : Prop :=
  ∀ (e : Expr) (args : List (Term C)) (K' : Set Node), K ⊆ K' → confined K' e → confined K' args →
    Routine.Honest K' (rule e args)

theorem Rule.Honest.mono {K' : Set Node} {rule : Rule σ C} (h : K ⊆ K') (hr : rule.Honest K) :
    rule.Honest K' := fun e args _ hK => hr e args _ (h.trans hK)

/-- A node may stand for itself. -/
theorem confined_node {n : Node} (hn : n ∈ K) : confined K (Term.node n : Term C) := by
  rintro m ⟨⟩
  exact hn

theorem rebuild_honest (changed : Bool) :
    Rule.Honest K fun e args => (rebuild e args changed : Action σ (Term C)) := by
  intro e args K' _ he hargs
  unfold rebuild
  dsimp only
  split
  · split
    · next vs hvs =>
      have hvalues : confined K' vs := fun v hv =>
        hargs (.value v) (args_of_mapM_value? hvs ▸ List.mem_map_of_mem hv)
      rw [map_eq_pure_bind]
      exact Routine.Honest.bind (Routine.honest_append e.head hvalues) fun n _ _ hn =>
        Routine.honest_pure (confined_node hn)
    · exact Routine.honest_throw trivial
  · exact Routine.honest_pure (confined_node he.1)

/-! ### Passes -/

namespace Pass

/-- The rules are honest, and the results and the state hold only nodes of `K`. -/
structure Honest (K : Set Node) (p : Pass σ C) : Prop where
  rules : ∀ (head : String) (rule : Rule σ C), p.rules[head]? = some rule → rule.Honest K
  fallback : ∀ f : Fallback σ C, p.fallback = some f →
    ∀ changed, Rule.Honest K fun e args => f e args changed
  memo : confined K p.memo
  state : confined K p.state

instance : Confined (Pass σ C) where
  confined := Honest
  mono h hp :=
    { rules := fun head rule hr => (hp.rules head rule hr).mono h
      fallback := fun f hf changed => (hp.fallback f hf changed).mono h
      memo := Confined.mono h hp.memo
      state := Confined.mono h hp.state }

theorem Honest.ruleFor {p : Pass σ C} (hp : p.Honest K) (e : Expr) :
    Rule.Honest K (p.ruleFor e) := by
  unfold Pass.ruleFor
  split
  · next rule hr => exact hp.rules _ rule hr
  · cases hf : p.fallback with
    | none => exact fun e args K' hK => rebuild_honest (K := K) (e.changed args) e args K' hK
    | some f => exact fun e args K' hK => hp.fallback f hf (e.changed args) e args K' hK

theorem Honest.resultOf {p : Pass σ C} (hp : p.Honest K) {v : Value} (hv : confined K v) :
    confined K (resultOf p.memo v) := by
  cases v with
  | node n => exact confined_value hp.memo (hv n rfl)
  | _ => exact hv

theorem honest_within {α : Type} [Confined α] {a : Action σ α} (ha : Routine.Honest K a) :
    Routine.Honest K (within a : Action (Pass σ C) α) := fun p K' hK hp =>
  (ha p.state K' hK hp.state).bind fun _ _ hK' hr =>
    ⟨hr.1, { Confined.mono hK' hp with state := hr.2 }⟩

theorem honest_dispatch {e : Expr} (he : confined K e) :
    Routine.Honest K (dispatch e : Action (Pass σ C) (Term C)) :=
  Routine.Honest.bind Routine.honest_get fun _ _ hK hp =>
    Routine.Honest.bind
      (Routine.honest_lift (confined_mapM fun v hv => hp.resultOf (Confined.mono hK he.2 v hv)))
      fun _ _ hK' hargs => Routine.Honest.bind Routine.honest_get fun _ _ hK'' hp' =>
        honest_within (hp'.ruleFor e e _ _ subset_rfl
          (Confined.mono (hK.trans (hK'.trans hK'')) he) (Confined.mono hK'' hargs))

theorem honest_note {n m : Node} (hn : n ∈ K) (hm : m ∈ K) :
    Routine.Honest K (note n m : Action (Pass σ C) Unit) := by
  refine Routine.Honest.bind (Routine.honest_modify fun p _ _ hp =>
    ⟨hp.rules, hp.fallback, hp.memo, hp.state⟩) fun _ K₁ h₁ _ => ?_
  refine Routine.Honest.bind Routine.honest_get fun p K₂ h₂ _ => ?_
  split
  · refine Routine.Honest.bind (Routine.honest_append historyHead ?_) fun _ _ _ _ =>
      Routine.honest_pure trivial
    rintro v hv k hk
    rcases List.mem_cons.1 hv with rfl | hv
    · cases hk
    rcases List.mem_cons.1 hv with rfl | hv
    · cases hk
      exact h₂ (h₁ hm)
    · rw [List.mem_singleton.1 hv] at hk
      cases hk
      exact h₂ (h₁ hn)
  · exact Routine.honest_pure trivial

theorem honest_visit : Routine.HonestFrom K (visit : Node → Action (Pass σ C) Unit) := by
  intro n K₁ _ hn
  refine Routine.Honest.bind Routine.honest_get fun p K₂ h₂ _ => ?_
  split
  · exact Routine.honest_pure trivial
  refine Routine.Honest.bind (Routine.honest_read (h₂ hn)) fun e K₃ h₃ he => ?_
  refine Routine.Honest.bind (honest_dispatch he) fun t K₄ h₄ ht => ?_
  have hn₄ : n ∈ K₄ := h₄ (h₃ (h₂ hn))
  have hinsert : Routine.Honest K₄ (modify fun p : Pass σ C => { p with memo := p.memo.insert n t }
      : Action (Pass σ C) PUnit) := Routine.honest_modify fun p K₅ h₅ hp =>
    { rules := hp.rules
      fallback := hp.fallback
      memo := confined_insert hp.memo (h₅ hn₄) (Confined.mono h₅ ht)
      state := hp.state }
  dsimp only
  split
  · next m hm =>
    split
    · have hm₄ : m ∈ K₄ := by
        cases t with
        | value v => exact ht m hm
        | custom c => cases hm
      exact Routine.Honest.bind (honest_note hn₄ hm₄) fun _ _ h₅ _ => hinsert.mono h₅
    · exact hinsert
  · exact hinsert

/-- A pass run from a known root is honest. -/
theorem honest_run {root : Node} (hroot : root ∈ K) :
    Routine.Honest K (run root : Action (Pass σ C) (Term C)) := by
  refine Routine.Honest.bind (honest_walk .needed hroot honest_visit) fun _ K₁ h₁ _ => ?_
  refine Routine.Honest.bind Routine.honest_get fun p K₂ h₂ hp => ?_
  split
  · next t ht => exact Routine.honest_pure (hp.memo root t ht).2
  · refine Routine.Honest.bind (Routine.honest_look fun g K₃ h₃ _ hg => ?_) fun _ _ _ _ =>
      Routine.honest_throw trivial
    exact hg.confined_map_locate (h₃ (h₂ (h₁ hroot))) fun _ => trivial

end Pass

end TermGraph
