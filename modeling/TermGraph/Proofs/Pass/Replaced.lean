import TermGraph.Proofs.Graph.Append
import TermGraph.Proofs.Pass.Visit

/-!
What a pass counts as replaced. A visit that comes to another node counts it first, then notes it in
the graph, and only then remembers the result. If the note is refused, for the result is no node of
the graph, the visit fails: it is counted, but there is no result, and the next visit counts it
again. Main statement: the count is that of the results which are other nodes, and one for every
such failure; a visit that fails in any other way changes neither.
-/

namespace TermGraph

variable {σ C : Type}

namespace Pass

variable {p p₀ : Pass σ C} {g g' : Graph} {n : Node} {k : Nat}

/-- How many results are nodes other than those whose results they are. -/
def replacements (p : Pass σ C) : Nat := p.memo.toList.countP fun r => r.2.replaces r.1

theorem countP_toList_insert {memo : Memo (Term C)} (h : n ∉ memo) (t : Term C) :
    (Std.TreeMap.insert memo n t).toList.countP (fun r => r.2.replaces r.1)
      = memo.toList.countP (fun r => r.2.replaces r.1) + (t.replaces n).toNat := by
  have hfilter : memo.toList.filter (fun r => decide ¬(n == r.1) = true) = memo.toList := by
    refine List.filter_eq_self.2 fun r hr => ?_
    have hmem := Std.TreeMap.mem_toList_iff_getElem?_eq_some.1 hr
    have hne : n ≠ r.1 := by
      rintro rfl
      rw [Std.TreeMap.getElem?_eq_none h] at hmem
      cases hmem
    simpa using hne
  rw [Std.TreeMap.toList_insert_perm.countP_eq, hfilter, List.countP_cons]
  cases t.replaces n <;> rfl

/-! ### Replacements that are lost -/

/-- Is a visit of `n` going to count a replacement without remembering it? This is so if notes are
kept and the rule that applies to `n` comes to a node that is not of the graph. -/
def loses (p : Pass σ C) (g : Graph) (n : Node) : Bool :=
  !p.memo.contains n && p.keepsHistory &&
    match g.read n with
    | .error _ => false
    | .ok x =>
      match Routine.run (dispatch x) p g with
      | (.error _, _) => false
      | (.ok t, _, g) =>
        match t.node? with
        | some m => decide (m ∉ g.nodes)
        | none => false

theorem loses_of_mem (h : n ∈ p.memo) : p.loses g n = false := by
  rw [loses, Std.TreeMap.contains_iff_mem.2 h]
  rfl

theorem loses_of_unread {e : Error} (h : g.read n = .error e) : p.loses g n = false := by
  rw [loses, h, Bool.and_false]

theorem loses_of_missing {x : Expr} {e : Error} (h : g.read n = .ok x)
    (hargs : x.args.mapM (resultOf p.memo) = .error e) : p.loses g n = false := by
  rw [loses, h]
  dsimp only
  rw [run_dispatch, hargs, Bool.and_false]

namespace Ruled

variable {r : Except Error (Term C)} {t : Term C} {m : Node} {s : σ} {x : Expr}
  {args : List (Term C)}

theorem mem_nodes (h : p.Ruled g n r s g' x args) : n ∈ g'.nodes := by
  obtain ⟨q, hq, -⟩ := ok_of_map_ok h.read
  refine h.extends_graph.mem_nodes ?_
  rw [Graph.eq_node_of_locate hq]
  exact Graph.node_mem_nodes.2 q.isLt

theorem loses_error {e : Error} (h : p.Ruled g n (.error e) s g' x args) : p.loses g n = false := by
  rw [loses, h.read]
  dsimp only
  rw [h.run_dispatch_eq, Bool.and_false]

theorem loses_ok (h : p.Ruled g n (.ok t) s g' x args) : p.loses g n = (p.keepsHistory &&
    match t.node? with
    | some m => decide (m ∉ g'.nodes)
    | none => false) := by
  have hnew : p.memo.contains n = false :=
    Bool.eq_false_iff.2 fun hc => h.new (Std.TreeMap.contains_iff_mem.1 hc)
  rw [loses, hnew, h.read]
  dsimp only
  rw [h.run_dispatch_eq]
  rfl

theorem loses_node (h : p.Ruled g n (.ok t) s g' x args) (ht : t.node? = some m) :
    p.loses g n = (p.keepsHistory && decide (m ∉ g'.nodes)) := by
  rw [h.loses_ok, ht]

/-- The note that a node was replaced is refused just if the other node is not of the graph. -/
theorem refusal?_note (h : p.Ruled g n r s g' x args) :
    refusal? (g'.append historyHead [.str p.name, .node m, .node n]).1 = none ↔ m ∈ g'.nodes := by
  have hn := h.mem_nodes
  rw [Graph.refusal?_append, Graph.findSome?_refusalArg?_eq_none]
  simp [hn]

end Ruled

/-! ### One visit -/

/-- What a visit of `n` does to the results and to the count. -/
inductive Counted (p : Pass σ C) (g : Graph) (n : Node) :
    Except Error Unit × Pass σ C × Graph → Prop
  /-- There is a result already. -/
  | known : p.loses g n = false → Counted p g n (.ok (), p, g)
  /-- The node gets a result, and a replacement is counted. -/
  | settled {t : Term C} {s : σ} {g' : Graph} : n ∉ p.memo → p.loses g n = false →
    Counted p g n (.ok (), p.settle n t s, g')
  /-- The node gets no result, and only a replacement that is lost is counted. -/
  | failed {e : Error} {s : σ} {g' : Graph} (lost : Nat) : lost = (p.loses g n).toNat →
    Counted p g n (.error e, { p with state := s, replaced := p.replaced + lost }, g')

theorem counted (p : Pass σ C) (g : Graph) (n : Node) :
    Counted p g n (Routine.run (visit n) p g) := by
  have hv := visited p g n
  generalize Routine.run (visit n) p g = out at hv
  cases hv with
  | known hmem => exact .known (loses_of_mem hmem)
  | unread _ hread =>
    exact .failed 0 (by rw [loses_of_unread hread]; rfl)
  | missing _ hread hargs =>
    exact .failed 0 (by rw [loses_of_missing hread hargs]; rfl)
  | fails h => exact .failed 0 (by rw [h.loses_error]; rfl)
  | @plain t s g' x args h ht =>
    have hloses : p.loses g n = false := by
      cases hnode : t.node? with
      | some m =>
        rw [h.loses_node hnode, ht m hnode]
        simp [h.mem_nodes]
      | none => rw [h.loses_ok, hnode, Bool.and_false]
    rw [← settle_of_own s (Term.replaces_eq_false ht)]
    exact .settled h.new hloses
  | @replaced t m s g' x args h ht hmn hkeeps =>
    have hloses : p.loses g n = false := by rw [h.loses_node ht, hkeeps, Bool.false_and]
    rw [← settle_of_replaces s (Term.replaces_eq_true ht hmn)]
    exact .settled h.new hloses
  | @noted t m m' s g' g'' x args h ht hmn hkeeps hnote =>
    have hmem : m ∈ g'.nodes := h.refusal?_note.1 (by rw [hnote]; rfl)
    have hloses : p.loses g n = false := by rw [h.loses_node ht]; simp [hmem]
    rw [← settle_of_replaces s (Term.replaces_eq_true ht hmn)]
    exact .settled h.new hloses
  | @unnoted e t m s g' g'' x args h ht hmn hkeeps hnote =>
    have hmem : m ∉ g'.nodes := fun hmem => by
      have haccepted := h.refusal?_note.2 hmem
      rw [hnote] at haccepted
      cases haccepted
    exact .failed 1 (by rw [h.loses_node ht, hkeeps]; simp [hmem])

/-- If the count is that of the results and `k` losses, a visit that loses one adds to the losses. -/
theorem replaced_visit (hp : p.replaced = p.replacements + k) (g : Graph) (n : Node) :
    (Routine.run (visit n) p g).2.1.replaced
      = (Routine.run (visit n) p g).2.1.replacements + (k + (p.loses g n).toNat) := by
  have hc := counted p g n
  generalize Routine.run (visit n) p g = out at hc
  cases hc with
  | known hloses => simpa [hloses] using hp
  | @settled t s g' hnew hloses =>
    have hinsert := countP_toList_insert hnew t
    simp only [settle, replacements, hloses, Bool.toNat_false] at hp hinsert ⊢
    omega
  | failed lost hlost =>
    simp only [replacements] at hp ⊢
    omega

/-- A visit that fails changes no result, and counts only a replacement that is lost. -/
theorem replaced_of_visit_error {e : Error} {p' : Pass σ C}
    (h : Routine.run (visit n) p g = (.error e, p', g')) :
    p'.memo = p.memo ∧ p'.replaced = p.replaced + (p.loses g n).toNat := by
  have hc := counted p g n
  rw [h] at hc
  cases hc with
  | failed lost hlost => exact ⟨rfl, congrArg (p.replaced + ·) hlost⟩

/-! ### Any number of visits -/

/-- How many replacements are lost when the nodes are visited in turn. -/
def lossesAlong : List Node → Pass σ C → Graph → Nat
  | [], _, _ => 0
  | n :: ns, p, g =>
    (p.loses g n).toNat +
      match Routine.run (visit n) p g with
      | (.ok _, p, g) => lossesAlong ns p g
      | (.error _, _) => 0

/-- How many replacements a walk loses. -/
def lossesOf (p : Pass σ C) (g : Graph) (extent : Extent) (root : Node) : Nat :=
  match g.visits extent root with
  | .ok order => lossesAlong order p g
  | .error _ => 0

theorem replaced_forM : ∀ (ns : List Node) (p : Pass σ C) (g : Graph) (k : Nat),
    p.replaced = p.replacements + k → (Routine.run (ns.forM visit) p g).2.1.replaced
      = (Routine.run (ns.forM visit) p g).2.1.replacements + (k + lossesAlong ns p g)
  | [], _, _, _, hp => hp
  | n :: ns, p, g, k, hp => by
    have hvisit := replaced_visit hp g n
    rw [Routine.run_forM_cons, lossesAlong]
    rcases hrun : Routine.run (visit n) p g with ⟨e | u, p', g'⟩
    · rw [hrun] at hvisit
      exact hvisit
    · rw [hrun] at hvisit
      have hrest := replaced_forM ns p' g' _ hvisit
      rw [Nat.add_assoc k] at hrest
      exact hrest

theorem replaced_walk (hp : p.replaced = p.replacements + k) (g : Graph) (extent : Extent)
    (root : Node) : (Routine.run (walk extent root visit) p g).2.1.replaced
      = (Routine.run (walk extent root visit) p g).2.1.replacements
        + (k + p.lossesOf g extent root) := by
  rw [Routine.run_walk, lossesOf]
  cases g.visits extent root with
  | ok order => exact replaced_forM order p g k hp
  | error e => exact hp

/-- What becomes of a pass, over any graphs, and how many replacements were lost on the way: its rules
and settings are changed, nodes are visited, one by one or along a walk, and the pass runs, whether
or not any of this succeeds. -/
inductive Lived (p₀ : Pass σ C) : Pass σ C → Nat → Prop
  | start : Lived p₀ p₀ 0
  | changed {p q : Pass σ C} {k : Nat} (hmemo : q.memo = p.memo)
    (hcount : q.replaced = p.replaced) : Lived p₀ p k → Lived p₀ q k
  | visited {p : Pass σ C} {k : Nat} (g : Graph) (n : Node) : Lived p₀ p k →
    Lived p₀ (Routine.run (visit n) p g).2.1 (k + (p.loses g n).toNat)
  | walked {p : Pass σ C} {k : Nat} (g : Graph) (extent : Extent) (root : Node) : Lived p₀ p k →
    Lived p₀ (Routine.run (walk extent root visit) p g).2.1 (k + p.lossesOf g extent root)
  | ran {p : Pass σ C} {k : Nat} (g : Graph) (root : Node) : Lived p₀ p k →
    Lived p₀ (Routine.run (run root) p g).2.1 (k + p.lossesOf g .needed root)

theorem Lived.replaced_eq (hempty : p₀.memo = ∅) (hzero : p₀.replaced = 0) (h : Lived p₀ p k) :
    p.replaced = p.replacements + k := by
  induction h with
  | start =>
    rw [hzero, replacements, hempty]
    rfl
  | changed hmemo hcount _ ih => rw [hcount, ih, replacements, replacements, hmemo]
  | visited g n _ ih => exact replaced_visit ih g n
  | walked g extent root _ ih => exact replaced_walk ih g extent root
  | ran g root _ ih =>
    rw [run_run_snd]
    exact replaced_walk ih g .needed root

/-- In every state of a pass that starts without results, the count is that of the results that are
other nodes, and one for every replacement lost; and a visit that fails leaves the results alone, and
also the count unless it loses a replacement. -/
theorem replaced_eq_replacements (hempty : p₀.memo = ∅) (hzero : p₀.replaced = 0)
    (h : Lived p₀ p k) : p.replaced = p.replacements + k
      ∧ ∀ (g g' : Graph) (n : Node) (e : Error) (p' : Pass σ C),
        Routine.run (visit n) p g = (.error e, p', g') →
          p'.memo = p.memo ∧ p'.replaced = p.replaced + (p.loses g n).toNat :=
  ⟨h.replaced_eq hempty hzero, fun _ _ _ _ _ hrun => replaced_of_visit_error hrun⟩

/-- One record without arguments. -/
def leaf : Graph := ((Graph.empty 0).append "a" []).2

/-- A pass that replaces every `a` by a node of another graph. -/
def toForeign : Pass Unit Empty :=
  Pass.on { name := "p", state := () } "a" fun _ _ => pure (.node ⟨1, 0⟩)

/-- After two visits, both of which fail, the pass has counted two replacements and has no result. -/
theorem replaced_toForeign : ∃ p, Lived toForeign p 2 ∧ p.replaced = p.replacements + 2 := by
  have hstart : Lived toForeign toForeign 0 := .start
  have h := (hstart.visited leaf (leaf.node 0)).visited leaf (leaf.node 0)
  exact ⟨_, h, (replaced_eq_replacements rfl rfl h).1⟩

/-- The first of them leaves a count of one, although there is no result. -/
theorem replaced_ne_toForeign : ∃ e p,
    Routine.run (visit (leaf.node 0)) toForeign leaf = (.error e, p, leaf)
      ∧ p.memo.size = 0 ∧ p.replacements = 0 ∧ p.replaced = 1 :=
  ⟨_, _, rfl, rfl, rfl, rfl⟩

end Pass

end TermGraph
