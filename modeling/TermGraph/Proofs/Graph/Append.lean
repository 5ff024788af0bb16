import TermGraph.Proofs.Graph.Fold
import TermGraph.Proofs.Graph.Reach

/-!
What appending a record does, read off its result. A record is refused for its first argument that
is no node of the graph, and then the graph is as before. A record that is accepted stands right
after the old ones and reads as it was given.
-/

namespace TermGraph

section Except

variable {ε α β γ : Type}

/-- Reading each of a list gives a list that shows the same, if each reading shows the same. -/
theorem map_eq_of_mapM_ok {f : α → Except ε β} {k : α → γ} {k' : β → γ} :
    ∀ {xs : List α} {ys : List β}, (∀ x ∈ xs, ∀ y, f x = .ok y → k' y = k x) →
      xs.mapM f = .ok ys → ys.map k' = xs.map k
  | [], ys, _, h => by cases h; rfl
  | x :: xs, ys, hf, h => by
    rw [List.mapM_cons] at h
    cases hx : f x with
    | error e => rw [hx] at h; cases h
    | ok y =>
      cases hxs : xs.mapM f with
      | error e => rw [hx, hxs] at h; cases h
      | ok zs =>
        rw [hx, hxs] at h
        cases h
        rw [List.map_cons, List.map_cons, hf x (List.mem_cons_self ..) y hx,
          map_eq_of_mapM_ok (fun z hz => hf z (List.mem_cons_of_mem _ hz)) hxs]

theorem mapM_eq_ok {f : α → Except ε β} {k : α → β} :
    ∀ {xs : List α}, (∀ x ∈ xs, f x = .ok (k x)) → xs.mapM f = .ok (xs.map k)
  | [], _ => rfl
  | x :: xs, h => by
    rw [List.mapM_cons, h x (List.mem_cons_self ..),
      mapM_eq_ok fun z hz => h z (List.mem_cons_of_mem _ hz)]
    rfl

/-- What reads each of a list reads the list, also among more that can be read. -/
theorem mapM_ok_mono {f f' : α → Except ε β} : ∀ {xs : List α} {ys : List β},
    (∀ x ∈ xs, ∀ y, f x = .ok y → f' x = .ok y) → xs.mapM f = .ok ys → xs.mapM f' = .ok ys
  | [], _, _, h => h
  | x :: xs, _, hf, h => by
    rw [List.mapM_cons] at h ⊢
    cases hx : f x with
    | error e => rw [hx] at h; cases h
    | ok y =>
      cases hxs : xs.mapM f with
      | error e => rw [hx, hxs] at h; cases h
      | ok ys =>
        rw [hx, hxs] at h
        rw [hf x (List.mem_cons_self ..) y hx,
          mapM_ok_mono (fun z hz => hf z (List.mem_cons_of_mem _ hz)) hxs]
        exact h

/-- Why there is no result. -/
def refusal? : Except ε α → Option ε
  | .ok _ => none
  | .error e => some e

theorem refusal?_eq_some {x : Except ε α} {e : ε} : refusal? x = some e ↔ x = .error e := by
  cases x <;> simp [refusal?]

theorem refusal?_eq_none {x : Except ε α} : refusal? x = none ↔ ∃ a, x = .ok a := by
  cases x <;> simp [refusal?]

/-- A check has nothing to give but that it lets pass. -/
theorem refusal?_eq_none_of_unit {x : Except ε Unit} : refusal? x = none ↔ x = .ok () := by
  cases x <;> simp [refusal?]

theorem refusal?_map (f : α → β) (x : Except ε α) : refusal? (x.map f) = refusal? x := by
  cases x <;> rfl

/-- A list is refused for its first member that is refused. -/
theorem refusal?_mapM (f : α → Except ε β) : ∀ xs : List α,
    refusal? (xs.mapM f) = xs.findSome? fun x => refusal? (f x)
  | [] => rfl
  | x :: xs => by
    have ih := refusal?_mapM f xs
    rw [List.mapM_cons, List.findSome?_cons, ← ih]
    cases f x with
    | error e => rfl
    | ok y => cases xs.mapM f <;> rfl

end Except

namespace Graph

variable {g g' : Graph}

/-! ### Nodes of the graph -/

theorem mem_nodes {n : Node} : n ∈ g.nodes ↔ n.graph = g.id ∧ n.index < g.size := by
  rw [nodes, List.mem_map]
  constructor
  · rintro ⟨p, hp, rfl⟩
    exact ⟨rfl, List.mem_range.1 hp⟩
  · rintro ⟨hg, hi⟩
    exact ⟨n.index, List.mem_range.2 hi, Node.ext hg.symm rfl⟩

theorem not_mem_nodes {n : Node} : n ∉ g.nodes ↔ n.graph ≠ g.id ∨ g.size ≤ n.index := by
  rw [mem_nodes, Classical.not_and_iff_not_or_not, Nat.not_lt]

theorem node_mem_nodes {p : Nat} : g.node p ∈ g.nodes ↔ p < g.size := by
  rw [mem_nodes]
  exact and_iff_right rfl

/-- The nodes of the graph are those that it locates. -/
theorem refusal?_locate_eq_none {n : Node} : refusal? (g.locate n) = none ↔ n ∈ g.nodes := by
  rw [refusal?_eq_none]
  constructor
  · rintro ⟨p, hp⟩
    rw [eq_node_of_locate hp]
    exact node_mem_nodes.2 p.isLt
  · intro h
    obtain ⟨p, hp, rfl⟩ := List.mem_map.1 h
    exact ⟨_, locate_node (List.mem_range.1 hp)⟩

theorem exists_locate {n : Node} (h : n ∈ g.nodes) : ∃ p, g.locate n = .ok p :=
  refusal?_eq_none.1 (refusal?_locate_eq_none.2 h)

theorem Extends.mem_nodes (h : g.Extends g') {n : Node} (hn : n ∈ g.nodes) : n ∈ g'.nodes := by
  rw [Graph.mem_nodes] at hn ⊢
  exact ⟨hn.1.trans h.id_eq.symm, Nat.lt_of_lt_of_le hn.2 h.size_le⟩

/-- A node of another graph is refused as such. -/
theorem locate_eq_foreign {n : Node} (h : n.graph ≠ g.id) : g.locate n = .error (.foreign n g.id) :=
  if_neg h

/-- What a record mentions are the nodes at the positions that it mentions. -/
theorem exists_childrenAt_of_mem_args {p : Fin g.size} {n : Node}
    (h : Datum.node n ∈ (g.exprAt p).args) : ∃ q ∈ g.childrenAt p.val, n = g.node q := by
  rw [exprAt_args] at h
  obtain ⟨d, hd, he⟩ := List.mem_map.1 h
  cases d with
  | node q =>
    cases he
    exact ⟨q.val, mem_childrenAt_iff.2 hd, rfl⟩
  | _ => cases he

theorem exists_childrenAt_of_mem_expr? {p : Nat} {e : Expr} {n : Node} (h : g.expr? p = some e)
    (hn : Datum.node n ∈ e.args) : ∃ q ∈ g.childrenAt p, n = g.node q := by
  unfold expr? at h
  split at h
  · cases h
    exact exists_childrenAt_of_mem_args hn
  · cases h

theorem node_of_expr? {p : Nat} {e : Expr} (h : g.expr? p = some e) : e.node = g.node p := by
  unfold expr? at h
  split at h
  · cases h
    rfl
  · cases h

/-- A record mentions a position just if its expression mentions the node there. -/
theorem mem_childrenAt_iff_of_expr? {p c : Nat} {e : Expr} (h : g.expr? p = some e) :
    c ∈ g.childrenAt p ↔ Datum.node (g.node c) ∈ e.args := by
  constructor
  · intro hc
    unfold expr? at h
    split at h
    · next hp =>
      cases h
      have hlt := Nat.lt_trans (lt_of_mem_childrenAt hc) hp
      rw [exprAt_args]
      exact List.mem_map.2 ⟨.node ⟨c, hlt⟩, (mem_childrenAt_iff (p := ⟨p, hp⟩)).1 hc, rfl⟩
    · cases h
  · intro hc
    obtain ⟨d, hd, he⟩ := exists_childrenAt_of_mem_expr? h hc
    have hcd : c = d := congrArg Node.index he
    exact hcd ▸ hd

theorem exists_read {n : Node} (h : n ∈ g.nodes) : ∃ x, g.read n = .ok x := by
  obtain ⟨q, hq⟩ := exists_locate h
  exact ⟨_, by rw [read, hq]; rfl⟩

theorem mem_nodes_of_locate {n : Node} {p : Fin g.size} (h : g.locate n = .ok p) : n ∈ g.nodes :=
  refusal?_locate_eq_none.1 (refusal?_eq_none.2 ⟨p, h⟩)

theorem mem_nodes_of_read {n : Node} {x : Expr} (h : g.read n = .ok x) : n ∈ g.nodes := by
  obtain ⟨q, hq, -⟩ := ok_of_map_ok h
  exact mem_nodes_of_locate hq

/-- What a record mentions are nodes of the graph. -/
theorem mem_nodes_of_arg {n c : Node} {x : Expr} (h : g.read n = .ok x)
    (hc : Datum.node c ∈ x.args) : c ∈ g.nodes := by
  obtain ⟨q, -, rfl⟩ := ok_of_map_ok h
  exact mem_nodes_of_expr? (expr?_eq_some q) hc

theorem contains_self {n : Node} (h : n ∈ g.nodes) : g.contains n n = .ok true := by
  obtain ⟨q, hq⟩ := exists_locate h
  rw [eq_node_of_locate hq]
  exact contains_iff.2 ⟨q, q, q.isLt, rfl, rfl, .refl _⟩

/-- What a node contains is of the graph. -/
theorem mem_nodes_of_contains {n c : Node} (h : g.contains n c = .ok true) : c ∈ g.nodes := by
  obtain ⟨p, q, hp, -, rfl, hpath⟩ := contains_iff.1 h
  exact node_mem_nodes.2 (Nat.lt_of_le_of_lt hpath.le hp)

theorem contains_arg {n c : Node} {x : Expr} (h : g.read n = .ok x) (hc : Datum.node c ∈ x.args) :
    g.contains n c = .ok true ∧ c.index < n.index := by
  obtain ⟨q, hq, rfl⟩ := ok_of_map_ok h
  obtain ⟨r, hr, rfl⟩ := exists_childrenAt_of_mem_args hc
  rw [eq_node_of_locate hq]
  exact ⟨contains_iff.2 ⟨q, r, q.isLt, rfl, rfl, path_of_child hr⟩, lt_of_mem_childrenAt hr⟩

theorem mem_reachable_iff {n root : Node} {ns : List Node} (h : g.reachable [root] = .ok ns) :
    n ∈ ns ↔ g.contains root n = .ok true := by
  obtain ⟨cs, hcs, rfl⟩ := ok_of_map_ok h
  rw [closure_singleton] at hcs
  obtain ⟨q, hq, rfl⟩ := ok_of_map_ok hcs
  rw [eq_node_of_locate hq, contains_iff, List.mem_map]
  constructor
  · rintro ⟨c, hc, rfl⟩
    rw [mem_closureAt] at hc
    obtain ⟨r, hr, hpath⟩ := hc
    cases List.mem_singleton.1 hr
    exact ⟨q, c, q.isLt, rfl, rfl, hpath⟩
  · rintro ⟨r, c, -, hr, rfl, hpath⟩
    cases hr
    exact ⟨c, mem_closureAt.2 ⟨q, List.mem_singleton_self _, hpath⟩, rfl⟩

theorem exists_reachable {root : Node} (h : root ∈ g.nodes) : ∃ ns, g.reachable [root] = .ok ns := by
  obtain ⟨q, hq⟩ := exists_locate h
  exact ⟨_, by rw [reachable, closure_singleton, hq]; rfl⟩

theorem mem_nodes_of_reachable {root : Node} {ns : List Node} (h : g.reachable [root] = .ok ns) :
    root ∈ g.nodes := by
  obtain ⟨cs, hcs, -⟩ := ok_of_map_ok h
  rw [closure_singleton] at hcs
  obtain ⟨q, hq, -⟩ := ok_of_map_ok hcs
  exact mem_nodes_of_locate hq

/-- A root is among the nodes that it depends on. -/
theorem root_mem_reachable {root : Node} {ns : List Node} (h : g.reachable [root] = .ok ns) :
    root ∈ ns :=
  (mem_reachable_iff h).2 (contains_self (mem_nodes_of_reachable h))

/-! ### Appending -/

/-- The second graph is the first with one more record, which reads as given. -/
structure Appended (g : Graph) (head : String) (args : List Value) (g' : Graph) : Prop where
  grown : g.Extends g'
  size_eq : g'.size = g.size + 1
  expr?_eq : g'.expr? g.size = some ⟨g.node g.size, head, args⟩

/-- Is the argument refused, and why? -/
def refusalArg? (g : Graph) (v : Value) : Option Error :=
  v.node?.bind fun n => refusal? (g.locate n)

theorem refusal?_locateArg (v : Value) : refusal? (g.locateArg v) = g.refusalArg? v := by
  cases v with
  | node n => exact refusal?_map _ _
  | _ => rfl

/-- A record is refused for its first argument that is refused. -/
theorem refusal?_append (head : String) (args : List Value) :
    refusal? (g.append head args).1 = args.findSome? g.refusalArg? := by
  have h := refusal?_mapM g.locateArg args
  rw [funext refusal?_locateArg] at h
  rw [← h, append]
  cases args.mapM g.locateArg <;> rfl

/-- Only the nodes among the arguments count. -/
theorem findSome?_nodesOf : ∀ args : List Value,
    ((nodesOf args).findSome? fun n => refusal? (g.locate n)) = args.findSome? g.refusalArg?
  | [] => rfl
  | .node n :: args => by
    have hnodes : nodesOf (Datum.node n :: args) = n :: nodesOf args := rfl
    have hnode : g.refusalArg? (.node n) = refusal? (g.locate n) := rfl
    rw [hnodes, List.findSome?_cons, List.findSome?_cons, hnode, findSome?_nodesOf args]
  | .int _ :: args => findSome?_nodesOf args
  | .bool _ :: args => findSome?_nodesOf args
  | .str _ :: args => findSome?_nodesOf args

theorem findSome?_refusalArg?_eq_none {args : List Value} :
    args.findSome? g.refusalArg? = none ↔ ∀ n, Datum.node n ∈ args → n ∈ g.nodes := by
  rw [List.findSome?_eq_none_iff]
  constructor
  · intro h n hn
    exact refusal?_locate_eq_none.1 (h _ hn)
  · intro h v hv
    cases v with
    | node n => exact refusal?_locate_eq_none.2 (h n hv)
    | _ => rfl

/-- A record that is refused changes nothing. -/
theorem eq_of_append_error {head : String} {args : List Value} {e : Error}
    (h : g.append head args = (.error e, g')) : g' = g := by
  unfold append at h
  cases hds : args.mapM g.locateArg with
  | error e => rw [hds] at h; exact (Prod.mk.inj h).2.symm
  | ok ds => rw [hds] at h; cases h

theorem appended_of_append {head : String} {args : List Value} {n : Node}
    (h : g.append head args = (.ok n, g')) : n = g.node g.size ∧ g.Appended head args g' := by
  unfold append at h
  cases hds : args.mapM g.locateArg with
  | error e => rw [hds] at h; cases h
  | ok ds =>
    rw [hds] at h
    cases h
    refine ⟨rfl, extends_push g head ds, size_push g head ds, ?_⟩
    have hargs : ds.map (Datum.map (fun s => s) fun p => g.node p.val) = args := by
      refine (map_eq_of_mapM_ok (k := fun v => v) (fun v _ d hd => ?_) hds).trans (List.map_id args)
      cases v with
      | node n =>
        obtain ⟨p, hp, rfl⟩ := ok_of_map_ok hd
        exact congrArg Datum.node (eq_node_of_locate hp).symm
      | _ => cases hd; rfl
    rw [expr?_push, hargs]

/-- A record whose nodes are of the graph is accepted. -/
theorem exists_append {args : List Value} (head : String)
    (h : ∀ n, Datum.node n ∈ args → n ∈ g.nodes) :
    ∃ g', g.append head args = (.ok (g.node g.size), g') ∧ g.Appended head args g' := by
  rw [← findSome?_refusalArg?_eq_none, ← refusal?_append head, refusal?_eq_none] at h
  obtain ⟨n, hn⟩ := h
  obtain ⟨rfl, happended⟩ := appended_of_append (Prod.ext hn rfl)
  exact ⟨_, Prod.ext hn rfl, happended⟩

theorem extends_of_append {head : String} {vs : List Value} {r : Except Error Node}
    (h : g.append head vs = (r, g')) : g.Extends g' := by
  have := g.extends_append head vs
  rw [h] at this
  exact this

/-- A record appended reads as it was given. -/
theorem exprAt_of_append {head : String} {vs : List Value} {n : Node}
    (h : g.append head vs = (.ok n, g')) : ∃ q : Fin g'.size,
      n = g'.node q.val ∧ (g'.exprAt q).head = head ∧ (g'.exprAt q).args = vs := by
  obtain ⟨rfl, happended⟩ := appended_of_append h
  have hlt : g.size < g'.size := by
    rw [happended.size_eq]
    exact Nat.lt_succ_self _
  have he := happended.expr?_eq
  rw [expr?_eq_some ⟨g.size, hlt⟩] at he
  refine ⟨⟨g.size, hlt⟩, (happended.grown.node_eq _).symm, ?_, ?_⟩ <;> rw [Option.some.inj he]

end Graph

end TermGraph
