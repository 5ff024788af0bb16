import TermGraph.Graph.Growth

/-!
Folding what a node depends on. The arguments of a record stand before it, so a value for every node
can be computed from its expression and the values of its node arguments. `fold_eq` is the equation
that says so; by `Extends.fold_eq` records appended later change no value.
-/

namespace TermGraph

namespace Datum

variable {σ ν μ κ : Type}

/-- Changes how nodes are held. -/
def mapNode (f : ν → μ) : Datum σ ν → Datum σ μ := map (fun s => s) f

theorem mapNode_mapNode (f : ν → μ) (f' : μ → κ) (d : Datum σ ν) :
    (d.mapNode f).mapNode f' = d.mapNode (f' ∘ f) := by cases d <;> rfl

theorem mapNode_injective {f : ν → μ} (hf : ∀ a b, f a = f b → a = b) {d d' : Datum σ ν}
    (h : d.mapNode f = d'.mapNode f) : d = d' := by
  cases d <;> cases d' <;> simp only [mapNode, map, reduceCtorEq, int.injEq, bool.injEq, str.injEq,
    node.injEq] at h ⊢ <;> first | exact h | exact hf _ _ h

end Datum

namespace Graph

variable {g g' : Graph} {T : Type}

/-- The arguments of a record, with positions of the graph for nodes. -/
def argsAt (g : Graph) (p : Fin g.size) : List (Datum String (Fin g.size)) :=
  (g.record p).args.attach.map fun
    | ⟨.int i, _⟩ => .int i
    | ⟨.bool b, _⟩ => .bool b
    | ⟨.str k, _⟩ => .str (g.atoms.text k)
    | ⟨.node q, h⟩ => .node ⟨q, Nat.lt_trans
        ((g.fits p.val (g.record p) (Array.getElem?_eq_getElem p.isLt)).node_lt q h) p.isLt⟩

/-- What an expression holds are the arguments, with handles for positions. -/
theorem exprAt_args (p : Fin g.size) :
    (g.exprAt p).args = (g.argsAt p).map (Datum.mapNode fun q => g.node q.val) := by
  have hval : (g.exprAt p).args = (g.record p).args.attach.map fun d => g.value d.val := by
    rw [List.attach_map_val]
    rfl
  rw [hval, argsAt, List.map_map]
  refine List.map_congr_left fun d _ => ?_
  rcases d with ⟨d, hd⟩
  cases d <;> rfl

theorem lt_of_mem_argsAt {p q : Fin g.size} (h : Datum.node q ∈ g.argsAt p) : q.val < p.val := by
  rw [argsAt] at h
  obtain ⟨⟨d, hd⟩, -, he⟩ := List.mem_map.1 h
  cases d with
  | node r =>
    cases he
    exact (g.fits p.val (g.record p) (Array.getElem?_eq_getElem p.isLt)).node_lt r hd
  | _ => cases he

theorem mem_childrenAt_iff {p q : Fin g.size} :
    q.val ∈ g.childrenAt p.val ↔ Datum.node q ∈ g.argsAt p := by
  have hp : g.records[p.val]? = some (g.record p) := Array.getElem?_eq_getElem p.isLt
  unfold childrenAt
  rw [hp, argsAt]
  dsimp only
  rw [Record.mem_children]
  constructor
  · intro h
    exact List.mem_map.2 ⟨⟨.node q.val, h⟩, List.mem_attach _ _, rfl⟩
  · intro h
    obtain ⟨⟨d, hd⟩, -, he⟩ := List.mem_map.1 h
    cases d with
    | node r =>
      cases he
      exact hd
    | _ => cases he

/-- A node with a node argument is not simple. -/
theorem isSimple_eq_false {p q : Fin g.size} (h : Datum.node q ∈ g.argsAt p) :
    (g.exprAt p).isSimple = false := by
  have hmem : g.node q.val ∈ (g.exprAt p).children := by
    refine List.mem_filterMap.2 ⟨.node (g.node q.val), ?_, rfl⟩
    rw [exprAt_args]
    exact List.mem_map.2 ⟨_, h, rfl⟩
  rw [Expr.isSimple, Bool.eq_false_iff]
  intro he
  rw [List.isEmpty_iff.1 he] at hmem
  cases hmem

/-- The value of a node: `alg` makes it from the node's expression and from its arguments with
values in place of nodes. -/
def fold (g : Graph) (alg : Expr → List (Datum String T) → T) (p : Fin g.size) : T :=
  alg (g.exprAt p) <| (g.argsAt p).attach.map fun
    | ⟨.int i, _⟩ => .int i
    | ⟨.bool b, _⟩ => .bool b
    | ⟨.str s, _⟩ => .str s
    | ⟨.node q, _⟩ => .node (g.fold alg q)
termination_by p.val
decreasing_by exact lt_of_mem_argsAt (by assumption)

theorem fold_eq (alg : Expr → List (Datum String T) → T) (p : Fin g.size) :
    g.fold alg p = alg (g.exprAt p) ((g.argsAt p).map (Datum.mapNode (g.fold alg))) := by
  have hval : (g.argsAt p).map (Datum.mapNode (g.fold alg))
      = (g.argsAt p).attach.map fun d => d.val.mapNode (g.fold alg) := by
    rw [List.attach_map_val]
  rw [fold, hval]
  congr 1
  refine List.map_congr_left fun d _ => ?_
  rcases d with ⟨d, hd⟩
  cases d <;> rfl

/-! ### Growth -/

theorem expr?_eq_some (p : Fin g.size) : g.expr? p.val = some (g.exprAt p) := dif_pos p.isLt

theorem Extends.exprAt_eq (h : g.Extends g') (p : Fin g.size) :
    g'.exprAt (p.castLE h.size_le) = g.exprAt p := by
  have he := h.expr?_eq p.isLt
  rw [expr?_eq_some] at he
  exact Option.some.inj ((expr?_eq_some (p.castLE h.size_le)).symm.trans he)

theorem Extends.argsAt_eq (h : g.Extends g') (p : Fin g.size) :
    g'.argsAt (p.castLE h.size_le) = (g.argsAt p).map (Datum.mapNode (Fin.castLE h.size_le)) := by
  -- both show as the same expression
  have he := congrArg Expr.args (h.exprAt_eq p)
  have hnode : (fun q : Fin g.size => g.node q.val)
      = (fun q : Fin g'.size => g'.node q.val) ∘ Fin.castLE h.size_le :=
    funext fun q => (h.node_eq q.val).symm
  have hcomp : (g.argsAt p).map (Datum.mapNode fun q => g.node q.val)
      = ((g.argsAt p).map (Datum.mapNode (Fin.castLE h.size_le))).map
        (Datum.mapNode fun q => g'.node q.val) := by
    rw [List.map_map, hnode]
    exact List.map_congr_left fun d _ => (Datum.mapNode_mapNode _ _ d).symm
  rw [exprAt_args, exprAt_args, hcomp] at he
  refine (List.map_inj_right fun d d' => Datum.mapNode_injective fun a b hab => ?_).1 he
  exact Fin.ext (congrArg Node.index hab)

/-- A value stays what it is when the graph grows. -/
theorem Extends.fold_eq (h : g.Extends g') (alg : Expr → List (Datum String T) → T)
    (p : Fin g.size) : g'.fold alg (p.castLE h.size_le) = g.fold alg p := by
  rw [Graph.fold_eq, Graph.fold_eq, h.exprAt_eq, h.argsAt_eq, List.map_map]
  congr 1
  refine List.map_congr_left fun d hd => ?_
  cases d with
  | node q => exact congrArg Datum.node (h.fold_eq alg q)
  | _ => rfl
termination_by p.val
decreasing_by exact lt_of_mem_argsAt hd

end Graph

end TermGraph
