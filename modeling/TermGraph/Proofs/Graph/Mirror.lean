import Mathlib.Data.List.Forall2
import TermGraph.Proofs.Graph.Embedded

/-!
A graph and what is left of it without some of its records. What is kept mentions only what is kept,
and the second graph has just that, one record after the other. So a node that is kept depends on
the same things in both graphs, up to a renumbering that keeps their order, and renders alike. Both
graphs can be appended to in step, and the first also on its own, with records that are not kept.
-/

namespace TermGraph

/-- The member at an index is related to that of the other list. -/
theorem rel_getElem?_of_forall₂ {α β : Type} {R : α → β → Prop} {xs : List α} {ys : List β}
    (h : List.Forall₂ R xs ys) : ∀ k : Nat, Option.Rel R xs[k]? ys[k]? := by
  induction h with
  | nil => exact fun _ => .none
  | cons hxy _ ih =>
    intro k
    cases k with
    | zero => exact .some hxy
    | succ k => exact ih k

/-- Every member is related to one of the other list. -/
theorem exists_of_mem_forall₂ {α β : Type} {R : α → β → Prop} {xs : List α} {ys : List β} {x : α}
    (h : List.Forall₂ R xs ys) (hx : x ∈ xs) : ∃ y ∈ ys, R x y := by
  induction h with
  | nil => cases hx
  | @cons a b _ _ hab _ ih =>
    rcases List.mem_cons.1 hx with rfl | hx
    · exact ⟨b, List.mem_cons_self .., hab⟩
    · obtain ⟨y, hy, hxy⟩ := ih hx
      exact ⟨y, List.mem_cons_of_mem _ hy, hxy⟩

/-- Rows whose members have the same image have the same image. -/
theorem map_eq_of_forall₂ {α β γ : Type} {f : α → γ} {k : β → γ} {xs : List α} {ys : List β}
    (h : List.Forall₂ (fun x y => k y = f x) xs ys) : ys.map k = xs.map f := by
  induction h with
  | nil => rfl
  | cons hxy _ ih => rw [List.map_cons, List.map_cons, hxy, ih]

section Mirrored

variable {kept : List Nat} {i j k q : Nat} {v w v' w' : Value}

/-- The same literal, or corresponding nodes: the position `kept[k]` of the graph numbered `i`
corresponds to the position `k` of that numbered `j`. -/
inductive Mirrored (kept : List Nat) (i j : Nat) : Value → Value → Prop
  | int (k : Int64) : Mirrored kept i j (.int k) (.int k)
  | bool (b : Bool) : Mirrored kept i j (.bool b) (.bool b)
  | str (s : String) : Mirrored kept i j (.str s) (.str s)
  | node {k q : Nat} : kept[k]? = some q → Mirrored kept i j (.node ⟨i, q⟩) (.node ⟨j, k⟩)

namespace Mirrored

theorem longer (h : Mirrored kept i j v w) (new : List Nat) : Mirrored (kept ++ new) i j v w := by
  cases h with
  | node hk =>
    refine .node ?_
    rw [List.getElem?_append_left (List.getElem?_eq_some_iff.1 hk).1, hk]
  | int => exact .int _
  | bool => exact .bool _
  | str => exact .str _

theorem isNode_eq (h : Mirrored kept i j v w) : w.isNode = v.isNode := by cases h <;> rfl

/-- Corresponding values are nodes that are the same just if the corresponding ones are. -/
theorem node?_eq_iff (hkept : kept.Nodup) (h : Mirrored kept i j v w) (h' : Mirrored kept i j v' w') :
    v.node? = v'.node? ↔ w.node? = w'.node? := by
  cases h <;> cases h'
  case node.node k q hk k' q' hk' =>
    simp only [Datum.node?, Option.some.injEq, Node.mk.injEq, true_and]
    constructor
    · rintro rfl
      exact (List.getElem?_inj (List.getElem?_eq_some_iff.1 hk).1 hkept).1 (hk.trans hk'.symm)
    · rintro rfl
      exact Option.some.inj (hk.symm.trans hk')
  all_goals simp [Datum.node?]

theorem eq_mapNode (hkept : kept.Nodup) (h : Mirrored kept i j v w) :
    w = v.mapNode fun n => ⟨j, kept.idxOf n.index⟩ := by
  cases h with
  | node hk =>
    obtain ⟨hlt, rfl⟩ := List.getElem?_eq_some_iff.1 hk
    simp [Datum.mapNode, Datum.map, List.Nodup.idxOf_getElem hkept _ hlt]
  | _ => rfl

end Mirrored

end Mirrored

namespace Graph

variable {kept : List Nat} {g g' g₁ g₁' : Graph} {i j k q : Nat} {head : String} {vs vs' : List Value}

/-- The second graph, numbered `j`, is what is left of the first, numbered `i`, if only the records
at the positions `kept` are. -/
structure Mirrors (kept : List Nat) (i j : Nat) (g g' : Graph) : Prop where
  id_eq : g.id = i
  id_eq' : g'.id = j
  ascending : kept.Pairwise (· < ·)
  lt_size : ∀ q ∈ kept, q < g.size
  size_eq : g'.size = kept.length
  reads : ∀ k q, kept[k]? = some q → ∃ e e', g.expr? q = some e ∧ g'.expr? k = some e'
    ∧ e.head = e'.head ∧ List.Forall₂ (Mirrored kept i j) e.args e'.args

/-- A clone has all the records. -/
theorem mirrors_renumber (g : Graph) (i : Nat) :
    Mirrors (List.range g.size) g.id i g (g.renumber i) := by
  refine ⟨rfl, rfl, List.pairwise_lt_range, fun q hq => List.mem_range.1 hq, List.length_range.symm,
    fun k q hk => ?_⟩
  obtain ⟨hlt, rfl⟩ := List.getElem?_eq_some_iff.1 hk
  rw [List.length_range] at hlt
  rw [List.getElem_range]
  have he := expr?_eq_some (g := g) ⟨k, hlt⟩
  have he' := (expr?_renumber g i k).trans (congrArg _ he)
  refine ⟨_, _, he, he', rfl, List.forall₂_map_right_iff.2 (List.forall₂_same.2 fun v hv => ?_)⟩
  cases v with
  | node n =>
    have hn := mem_nodes.1 (mem_nodes_of_expr? he hv)
    have hnode : n = ⟨g.id, n.index⟩ := Node.ext hn.1 rfl
    rw [hnode]
    refine .node ?_
    rw [List.getElem?_range hn.2]
  | int => exact .int _
  | bool => exact .bool _
  | str => exact .str _

namespace Mirrors

variable (h : Mirrors kept i j g g')
include h

theorem nodup : kept.Nodup := h.ascending.imp Nat.ne_of_lt

/-- Records that are not kept may be appended to the first graph. -/
theorem grown (hg : g.Extends g₁) : Mirrors kept i j g₁ g' where
  id_eq := hg.id_eq.trans h.id_eq
  id_eq' := h.id_eq'
  ascending := h.ascending
  lt_size q hq := Nat.lt_of_lt_of_le (h.lt_size q hq) hg.size_le
  size_eq := h.size_eq
  reads k q hk := by
    rw [hg.expr?_eq (h.lt_size q (List.mem_of_getElem? hk))]
    exact h.reads k q hk

/-- Nodes that correspond are nodes of their graphs. -/
theorem mem_nodes {n m : Node} (hnm : Mirrored kept i j (.node n) (.node m)) :
    n ∈ g.nodes ∧ m ∈ g'.nodes := by
  cases hnm with
  | node hk =>
    rw [Graph.mem_nodes, Graph.mem_nodes, h.id_eq, h.id_eq', h.size_eq]
    exact ⟨⟨rfl, h.lt_size _ (List.mem_of_getElem? hk)⟩, rfl, (List.getElem?_eq_some_iff.1 hk).1⟩

/-- Corresponding records can be appended to both graphs, and then correspond themselves. -/
theorem append (head : String) (hvs : List.Forall₂ (Mirrored kept i j) vs vs') :
    ∃ g₁ g₁', g.append head vs = (.ok (g.node g.size), g₁)
      ∧ g'.append head vs' = (.ok (g'.node g'.size), g₁')
      ∧ Mirrors (kept ++ [g.size]) i j g₁ g₁'
      ∧ Mirrored (kept ++ [g.size]) i j (.node (g.node g.size)) (.node (g'.node g'.size)) := by
  have hmem : ∀ n, Datum.node n ∈ vs → n ∈ g.nodes := fun n hn => by
    obtain ⟨w, -, hw⟩ := exists_of_mem_forall₂ hvs hn
    cases hw with
    | node hk => exact (h.mem_nodes (.node hk)).1
  have hmem' : ∀ n, Datum.node n ∈ vs' → n ∈ g'.nodes := fun n hn => by
    obtain ⟨v, -, hv⟩ := exists_of_mem_forall₂ hvs.flip hn
    cases hv with
    | node hk => exact (h.mem_nodes (.node hk)).2
  obtain ⟨g₁, happend, happended⟩ := exists_append head hmem
  obtain ⟨g₁', happend', happended'⟩ := exists_append head hmem'
  have hlast : (kept ++ [g.size])[g'.size]? = some g.size := by
    rw [h.size_eq, List.getElem?_append_right (Nat.le_refl _), Nat.sub_self]
    rfl
  refine ⟨g₁, g₁', happend, happend', ⟨?_, ?_, ?_, ?_, ?_, fun k q hk => ?_⟩, ?_⟩
  · exact happended.grown.id_eq.trans h.id_eq
  · exact happended'.grown.id_eq.trans h.id_eq'
  · refine List.pairwise_append.2 ⟨h.ascending, List.pairwise_singleton _ _, fun q hq p hp => ?_⟩
    rw [List.mem_singleton.1 hp]
    exact h.lt_size q hq
  · intro q hq
    rw [happended.size_eq]
    rcases List.mem_append.1 hq with hq | hq
    · exact Nat.lt_succ_of_lt (h.lt_size q hq)
    · rw [List.mem_singleton.1 hq]
      exact Nat.lt_succ_self _
  · rw [happended'.size_eq, h.size_eq, List.length_append]
    rfl
  · rw [List.getElem?_append] at hk
    split at hk
    · next hlt =>
      obtain ⟨e, e', he, he', hhead, hargs⟩ := h.reads k q hk
      refine ⟨e, e', ?_, ?_, hhead, hargs.imp fun _ _ hv => hv.longer _⟩
      · rw [happended.grown.expr?_eq (h.lt_size q (List.mem_of_getElem? hk)), he]
      · rw [happended'.grown.expr?_eq (h.size_eq ▸ hlt), he']
    · next hge =>
      obtain ⟨hzero, rfl⟩ := List.getElem?_eq_some_iff.1 hk
      rw [List.length_singleton] at hzero
      have hk' : k = g'.size := by
        rw [h.size_eq]
        omega
      subst hk'
      refine ⟨⟨g.node g.size, head, vs⟩, _, ?_, happended'.expr?_eq, rfl,
        hvs.imp fun _ _ hv => hv.longer _⟩
      rw [List.getElem_singleton]
      exact happended.expr?_eq
  · rw [node, node, h.id_eq, h.id_eq']
    exact .node hlast

/-! ### What a kept node depends on -/

theorem idxOf_eq (hk : kept[k]? = some q) : kept.idxOf q = k := by
  obtain ⟨hlt, rfl⟩ := List.getElem?_eq_some_iff.1 hk
  exact List.Nodup.idxOf_getElem h.nodup k hlt

/-- A kept record is that of the first graph, renumbered. -/
theorem expr?_eq (hk : kept[k]? = some q) : g'.expr? k
    = (g.expr? q).map (Expr.mapNode fun n => g'.node (kept.idxOf n.index)) := by
  obtain ⟨e, e', he, he', hhead, hargs⟩ := h.reads k q hk
  have hnode : e.node = g.node q := node_of_expr? he
  have hnode' : e'.node = g'.node k := node_of_expr? he'
  have hargs' : e'.args = e.args.map (Datum.mapNode fun n => g'.node (kept.idxOf n.index)) := by
    have hmap : List.Forall₂ (fun v w => w = v.mapNode fun n => g'.node (kept.idxOf n.index))
        e.args e'.args := hargs.imp fun v w hvw => by
      rw [hvw.eq_mapNode h.nodup, ← h.id_eq']
      rfl
    rw [← map_eq_of_forall₂ (k := fun w => w) hmap, List.map_id']
  rw [he, he', Option.map_some, Expr.mapNode, hnode, hhead, ← hargs']
  have hindex : kept.idxOf (g.node q).index = k := h.idxOf_eq hk
  rw [hindex, ← hnode']

/-- What a kept record mentions is kept. -/
theorem child_mem_kept (hk : kept[k]? = some q) {c : Nat} (hc : c ∈ g.childrenAt q) : c ∈ kept := by
  obtain ⟨e, e', he, -, -, hargs⟩ := h.reads k q hk
  obtain ⟨w, -, hcw⟩ := exists_of_mem_forall₂ hargs ((mem_childrenAt_iff_of_expr? he).1 hc)
  rw [node, h.id_eq] at hcw
  cases hcw with
  | node hl => exact List.mem_of_getElem? hl

/-- What is kept stands in the second graph in the same order. -/
theorem embeds : Embeds kept kept.idxOf g g' where
  closed := by
    refine ⟨h.lt_size, fun q hq c hc => ?_⟩
    obtain ⟨k, hk⟩ := List.mem_iff_getElem?.1 hq
    exact h.child_mem_kept hk hc
  mono := strictMonoOn_idxOf h.ascending
  expr?_eq q hq := by
    obtain ⟨k, hk⟩ := List.mem_iff_getElem?.1 hq
    rw [h.idxOf_eq hk]
    exact h.expr?_eq hk

variable {n m : Node} (hnm : Mirrored kept i j (.node n) (.node m))
include hnm

theorem exists_image : ∃ q ∈ kept, n = g.node q ∧ m = g'.node (kept.idxOf q) := by
  cases hnm with
  | @node k q hk =>
    refine ⟨q, List.mem_of_getElem? hk, ?_, ?_⟩
    · rw [node, h.id_eq]
    · rw [node, h.id_eq', h.idxOf_eq hk]

theorem renumbered : Renumbered kept.idxOf g g' n m := by
  obtain ⟨q, hq, rfl, rfl⟩ := h.exists_image hnm
  exact h.embeds.renumbered hq

/-- Nodes that correspond render alike, unless they are notes. -/
theorem render_eq {e : Expr} (hread : g.read n = .ok e) (hnote : e.isNote = false) :
    g'.render m = g.render n := by
  obtain ⟨q, hq, rfl, rfl⟩ := h.exists_image hnm
  exact h.embeds.render_eq hq hread hnote

end Mirrors

end Graph

end TermGraph
