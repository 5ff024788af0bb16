import TermGraph.Proofs.Pass.Provenance

/-!
Which node was given for which, in turn. The notes of a graph say so in the order in which they were
written. A visit that keeps history adds the exchange of its own node, if there is one, and the rule
that it calls adds none as long as it appends no notes; so what a graph notes is what its runs have
done (`Chronicle.exchanges_eq`), and the notes that were written by hand.
-/

namespace TermGraph

variable {σ C : Type}

/-- One node was given for another. -/
structure Exchange where
  old : Node
  given : Node
deriving DecidableEq

/-- The exchange that the expression notes, if it notes one. -/
def Exchange.ofNote? (e : Expr) : Option Exchange :=
  if e.head = historyHead then
    match e.args with
    | [.str _, .node m, .node n] => some ⟨n, m⟩
    | _ => none
  else none

theorem Exchange.ofNote?_eq_some_iff {e : Expr} {x : Exchange} : ofNote? e = some x ↔
    ∃ pass, e = ⟨e.node, historyHead, [.str pass, .node x.given, .node x.old]⟩ := by
  obtain ⟨n, head, args⟩ := e
  simp only [ofNote?, Expr.mk.injEq, true_and]
  constructor
  · intro h
    split at h
    · next hhead =>
      split at h
      · cases h
        exact ⟨_, hhead, rfl⟩
      · cases h
    · cases h
  · rintro ⟨pass, rfl, rfl⟩
    exact if_pos rfl

/-- A note about a node notes the exchange of the node that was replaced. -/
theorem Replacement.exchange_of_ofNote? {n : Node} {e : Expr} {r : Replacement}
    (h : Replacement.ofNote? n e = some r) : Exchange.ofNote? e = some ⟨r.replaced, n⟩ := by
  rw [Replacement.ofNote?_eq_some_iff.1 h]
  exact Exchange.ofNote?_eq_some_iff.2 ⟨r.pass, rfl⟩

theorem Exchange.exists_ofNote? {e : Expr} {x : Exchange} (h : Exchange.ofNote? e = some x) :
    ∃ r, Replacement.ofNote? x.given e = some r := by
  obtain ⟨pass, he⟩ := Exchange.ofNote?_eq_some_iff.1 h
  exact ⟨⟨pass, x.old, e.node⟩, Replacement.ofNote?_eq_some_iff.2 he⟩

/-! ### What a graph notes -/

namespace Graph

variable {g g' : Graph}

/-- The exchanges that are noted in the graph, in the order of their records. -/
def exchanges (g : Graph) : List Exchange := g.exprs.filterMap Exchange.ofNote?

theorem Extends.exchanges_eq (h : g.Extends g') :
    g'.exchanges = g.exchanges ++ (g.added g').filterMap Exchange.ofNote? := by
  rw [exchanges, h.exprs_eq, List.filterMap_append]
  rfl

theorem Extends.exchanges_eq_of_quiet (h : g.Extends g')
    (hquiet : ∀ e ∈ g.added g', e.head ≠ historyHead) : g'.exchanges = g.exchanges := by
  have hnone : (g.added g').filterMap Exchange.ofNote? = [] :=
    List.filterMap_eq_nil_iff.2 fun e he => if_neg (hquiet e he)
  rw [h.exchanges_eq, hnone, List.append_nil]

theorem Appended.exchanges_eq {head : String} {args : List Value} (h : g.Appended head args g') :
    g'.exchanges = g.exchanges ++ (Exchange.ofNote? ⟨g.node g.size, head, args⟩).toList := by
  rw [h.grown.exchanges_eq, h.added_eq, List.filterMap_eq_flatMap_toList, List.flatMap_singleton]

end Graph

/-! ### What a pass exchanges -/

/-- The exchange that giving `t` for `n` is. A node that stays itself is not exchanged. -/
def Term.exchange? (n : Node) (t : Term C) : Option Exchange :=
  t.node?.bind fun m => if m = n then none else some ⟨n, m⟩

theorem Term.exchange?_of_own {n : Node} {t : Term C} (h : t.replaces n = false) :
    t.exchange? n = none := by
  cases ht : t.node? with
  | none => rw [exchange?, ht, Option.bind_none]
  | some m =>
    have hmn : m = n := Decidable.byContradiction fun hmn => by
      rw [replaces_eq_true ht hmn] at h
      cases h
    rw [exchange?, ht, Option.bind_some, if_pos hmn]

namespace Pass

variable {p p' : Pass σ C} {g g' g₁ : Graph} {n root : Node} {t : Term C} {s : σ} {x : Expr}
  {args : List (Term C)} {ns : List Node}

/-- The exchanges of those of the nodes that got their result between `p` and `p'`. -/
def exchanges (p p' : Pass σ C) (ns : List Node) : List Exchange :=
  ns.filterMap fun n => if n ∈ p.memo then none else (p'.result? n).bind (Term.exchange? n)

theorem exchanges_cons_of_mem (h : n ∈ p.memo) : p.exchanges p' (n :: ns) = p.exchanges p' ns :=
  List.filterMap_cons_none (if_pos h)

theorem exchanges_cons (h : n ∉ p.memo) (ht : p'.result? n = some t) :
    p.exchanges p' (n :: ns) = (t.exchange? n).toList ++ p.exchanges p' ns := by
  simp only [exchanges, List.filterMap_eq_flatMap_toList, List.flatMap_cons, if_neg h, ht,
    Option.bind_some]

/-- If the nodes are visited in turn, no rule that is called appends a note. -/
def Discreet : List Node → Pass σ C → Graph → Prop
  | [], _, _ => True
  | n :: ns, p, g =>
    (∀ r s g₁ x args, p.Ruled g n r s g₁ x args → ∀ e ∈ g.added g₁, e.head ≠ historyHead) ∧
      Discreet ns (Routine.run (visit n) p g).2.1 (Routine.run (visit n) p g).2.2

/-- Rules that append no notes of their own keep to that on nodes that are no notes. -/
theorem Quiet.discreet (hquiet : p.Quiet)
    (hclean : ∀ n ∈ ns, n ∈ g.nodes ∧ g.head n ≠ .ok historyHead) : Discreet ns p g := by
  induction ns generalizing p g with
  | nil => trivial
  | cons n ns ih =>
    refine ⟨fun r s g₁ x args h e he => ?_, ih ?_ fun m hm => ?_⟩
    · exact h.quiet hquiet (hclean n (List.mem_cons_self ..)).2 e he
    · obtain ⟨memo, replaced, state, hp⟩ := visit_settings n p g
      rw [hp]
      exact ⟨hquiet.rules, hquiet.fallback⟩
    · have hgrown : g.Extends (Routine.run (visit n) p g).2.2 := Routine.extends_run _ p g
      obtain ⟨hmem, hhead⟩ := hclean m (List.mem_cons_of_mem _ hm)
      exact ⟨hgrown.mem_nodes hmem, hgrown.head_eq hmem ▸ hhead⟩

/-- Settling a node adds its exchange and nothing else. -/
theorem Settles.exchanges_eq (h : p.Settles g n t s x args g₁ g') (hkeeps : p.keepsHistory = true)
    (hdiscreet : ∀ e ∈ g.added g₁, e.head ≠ historyHead) :
    g'.exchanges = g.exchanges ++ (t.exchange? n).toList := by
  have hrule : g₁.exchanges = g.exchanges := h.extends_graph.exchanges_eq_of_quiet hdiscreet
  cases h.noted with
  | none hnone =>
    rw [hkeeps, Bool.and_true] at hnone
    rw [hrule, Term.exchange?_of_own hnone, Option.toList_none, List.append_nil]
  | @note m _ ht hmn _ _ happended =>
    have hnote : Exchange.ofNote? ⟨g₁.node g₁.size, historyHead, [.str p.name, .node m, .node n]⟩
        = some ⟨n, m⟩ := Exchange.ofNote?_eq_some_iff.2 ⟨p.name, rfl⟩
    rw [happended.exchanges_eq, hrule, hnote, Term.exchange?, ht, Option.bind_some, if_neg hmn]

/-- Nodes visited in turn add the exchanges that their results are, in turn. -/
theorem exchanges_of_forM (hkeeps : p.keepsHistory = true) (hdiscreet : Discreet ns p g)
    (hnodup : ns.Nodup) (hrun : Routine.run (ns.forM visit) p g = (.ok (), p', g')) :
    g'.exchanges = g.exchanges ++ p.exchanges p' ns := by
  induction ns generalizing p g with
  | nil =>
    cases hrun
    exact (List.append_nil _).symm
  | cons n ns ih =>
    obtain ⟨hn, hnodup⟩ := List.nodup_cons.1 hnodup
    rw [Routine.run_forM_cons] at hrun
    obtain ⟨⟨r, p₁, g₁⟩, hvisit⟩ : ∃ r, Routine.run (visit n) p g = r := ⟨_, rfl⟩
    obtain ⟨hrule, hrest⟩ := hdiscreet
    rw [hvisit] at hrun hrest
    cases r with
    | error e => cases hrun
    | ok u =>
      dsimp only at hrun hrest
      rcases settles_of_visit_ok hvisit with ⟨hmem, rfl, rfl⟩ | ⟨t, s, x, args, g₂, hs, rfl⟩
      · rw [ih hkeeps hrest hnodup hrun, exchanges_cons_of_mem hmem]
      · have hresult : p'.result? n = some t := by
          have hwithin := within_forM ns (p.settle n t s) g₁
          rw [hrun] at hwithin
          exact hwithin n t getElem?_settle
        -- no other node of the row is settled along with `n`
        have hothers : (p.settle n t s).exchanges p' ns = p.exchanges p' ns := by
          refine List.filterMap_congr fun m hm => ?_
          have hmn : m ≠ n := fun h => hn (h ▸ hm)
          simp only [mem_settle_iff, hmn, false_or]
        have hkeeps' : (p.settle n t s).keepsHistory = true := hkeeps
        rw [ih hkeeps' hrest hnodup hrun, hs.exchanges_eq hkeeps (hrule _ _ _ _ _ hs.toRuled),
          hothers, exchanges_cons hs.new hresult, List.append_assoc]

/-- A successful run that keeps history adds the exchange of each node that it has given its result,
in the order of the nodes. -/
theorem exchanges_of_run (hkeeps : p.keepsHistory = true) (hns : g.reachable [root] = .ok ns)
    (hdiscreet : Discreet ns p g) (hrun : Routine.run (run root) p g = (.ok t, p', g')) :
    g'.exchanges = g.exchanges ++ p.exchanges p' ns :=
  exchanges_of_forM hkeeps hdiscreet (Graph.topological_of_reachable hns).nodup
    (run_forM_of_run hns hrun)

end Pass

/-! ### Graphs made by appends and runs -/

/-- The graph was made by appends and by runs that keep history, and these are the exchanges made, in
turn: those of the runs, and those that notes appended by hand speak of. -/
inductive Chronicle : List Exchange → Graph → Prop
  | empty (id : Nat) : Chronicle [] (.empty id)
  | append {es : List Exchange} {g g' : Graph} {head : String} {args : List Value} {n : Node} :
    Chronicle es g → g.append head args = (.ok n, g') →
    Chronicle (es ++ (Exchange.ofNote? ⟨n, head, args⟩).toList) g'
  | run {σ C : Type} {es : List Exchange} {p p' : Pass σ C} {g g' : Graph} {root : Node}
    {t : Term C} {ns : List Node} : Chronicle es g → p.keepsHistory = true →
    g.reachable [root] = .ok ns → Pass.Discreet ns p g →
    Routine.run (Pass.run root) p g = (.ok t, p', g') → Chronicle (es ++ p.exchanges p' ns) g'

namespace Chronicle

variable {es : List Exchange} {g g' : Graph}

theorem append_of_ne (h : Chronicle es g) (head : String) (args : List Value) {n : Node}
    (hhead : head ≠ historyHead) (happend : g.append head args = (.ok n, g')) : Chronicle es g' := by
  have hnone : Exchange.ofNote? ⟨n, head, args⟩ = none := if_neg hhead
  have happended := h.append happend
  rwa [hnone, Option.toList_none, List.append_nil] at happended

/-- The notes say all exchanges that were made, and in turn. -/
theorem exchanges_eq (h : Chronicle es g) : g.exchanges = es := by
  induction h with
  | empty => rfl
  | append _ happend ih =>
    obtain ⟨rfl, happended⟩ := Graph.appended_of_append happend
    rw [happended.exchanges_eq, ih]
  | run _ hkeeps hns hdiscreet hrun ih =>
    rw [Pass.exchanges_of_run hkeeps hns hdiscreet hrun, ih]

end Chronicle

end TermGraph
