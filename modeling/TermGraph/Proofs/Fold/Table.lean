import Mathlib.Data.List.Basic
import Mathlib.Data.Set.Insert
import TermGraph.Evaluation.Stack
import TermGraph.Proofs.Graph.Append

/-!
Values of nodes in a table. An algebra makes the value of a node from its head and its arguments;
folding it over what a node depends on gives every node one value. A program that computes these
values keeps them in a memo, and what is to be known about the memo is which nodes have a value
there and that it is the right one.
-/

namespace TermGraph

/-- What makes the value of a node, from its head and its arguments with values for nodes. -/
abbrev Algebra (T : Type) := String → List (Datum String T) → T

section Arguments

variable {σ ν μ T : Type}

/-- The arguments with values in place of the nodes, in order; literals stay. -/
def fill : List (Datum String ν) → List T → List (Datum String T)
  | [], _ => []
  | .node _ :: xs, t :: ts => .node t :: fill xs ts
  | .node _ :: xs, [] => fill xs []
  | .int i :: xs, ts => .int i :: fill xs ts
  | .bool b :: xs, ts => .bool b :: fill xs ts
  | .str s :: xs, ts => .str s :: fill xs ts

theorem nodesOf_mapNode (f : ν → μ) (xs : List (Datum σ ν)) :
    nodesOf (xs.map (Datum.mapNode f)) = (nodesOf xs).map f := by
  rw [nodesOf, nodesOf, List.filterMap_map, List.map_filterMap]
  exact List.filterMap_congr fun d _ => Datum.node?_map _ f d

theorem mem_nodesOf {n : ν} {xs : List (Datum σ ν)} : n ∈ nodesOf xs ↔ Datum.node n ∈ xs := by
  rw [nodesOf, List.mem_filterMap]
  constructor
  · rintro ⟨d, hd, hn⟩
    cases d <;> simp only [Datum.node?, reduceCtorEq, Option.some.injEq] at hn
    exact hn ▸ hd
  · exact fun h => ⟨_, h, rfl⟩

/-- Only where the nodes stand matters. -/
theorem fill_map (f : ν → μ) (xs : List (Datum String ν)) :
    ∀ ts : List T, fill (xs.map (Datum.mapNode f)) ts = fill xs ts := by
  induction xs with
  | nil => exact fun _ => rfl
  | cons d xs ih =>
    intro ts
    cases d with
    | node n => cases ts with
      | nil => exact ih []
      | cons t ts => exact congrArg (List.cons _) (ih ts)
    | _ => exact congrArg (List.cons _) (ih ts)

theorem fill_nodesOf (f : ν → T) (xs : List (Datum String ν)) :
    fill xs ((nodesOf xs).map f) = xs.map (Datum.mapNode f) := by
  induction xs with
  | nil => rfl
  | cons d xs ih => cases d <;> exact congrArg (List.cons _) ih

end Arguments

namespace Graph

variable {T : Type} {g g' : Graph} (alg : Algebra T)

/-- The value that the algebra gives a node. -/
def foldBy (g : Graph) (alg : Algebra T) (p : Fin g.size) : T :=
  g.fold (fun e args => alg e.head args) p

/-- The positions of the node arguments. -/
def argNodes (g : Graph) (p : Fin g.size) : List (Fin g.size) := nodesOf (g.argsAt p)

theorem exprAt_children (p : Fin g.size) :
    (g.exprAt p).children = (g.argNodes p).map fun q => g.node q.val := by
  rw [Expr.children, exprAt_args, nodesOf_mapNode, argNodes]

theorem read_node (p : Fin g.size) : g.read (g.node p.val) = .ok (g.exprAt p) := by
  rw [read, locate_node p.isLt]
  rfl

theorem mapM_read_node : ∀ {ps : List Nat}, (∀ p ∈ ps, p < g.size) →
    (ps.map g.node).mapM g.read = .ok (ps.filterMap g.expr?)
  | [], _ => rfl
  | p :: ps, h => by
    have hp := h p (List.mem_cons_self ..)
    rw [List.map_cons, List.mapM_cons, read_node ⟨p, hp⟩,
      mapM_read_node fun q hq => h q (List.mem_cons_of_mem _ hq),
      List.filterMap_cons_some (expr?_eq_some ⟨p, hp⟩)]
    rfl

/-- The children of a node are those that its expression mentions. -/
theorem children_node (p : Fin g.size) :
    g.children (g.node p.val) = .ok (g.exprAt p).children := by
  have hp : g.records[p.val]? = some (g.record p) := Array.getElem?_eq_getElem p.isLt
  rw [children, locate_node p.isLt]
  refine congrArg Except.ok ?_
  simp [childrenAt, hp, Record.children, Expr.children, exprAt, nodesOf, List.filterMap_map,
    List.map_filterMap, Function.comp_def, value, Datum.node?_map]

theorem mem_argNodes {p q : Fin g.size} : q ∈ g.argNodes p ↔ q.val ∈ g.childrenAt p.val := by
  rw [argNodes, mem_nodesOf, mem_childrenAt_iff]

/-- The value of a node, by its expression and the values of its node arguments. -/
theorem foldBy_eq (p : Fin g.size) : g.foldBy alg p
    = alg (g.exprAt p).head (fill (g.exprAt p).args ((g.argNodes p).map (g.foldBy alg))) := by
  rw [exprAt_args, fill_map, argNodes, fill_nodesOf]
  exact fold_eq _ p

theorem Extends.foldBy_eq (h : g.Extends g') (p : Fin g.size) :
    g'.foldBy alg (p.castLE h.size_le) = g.foldBy alg p := h.fold_eq _ p

end Graph

namespace Memo

variable {V : Type} {memo memo' memo'' : Memo V} {D : Set Node} {g g' : Graph} {f : Fin g.size → V}
  {S : Set (Fin g.size)} {p : Fin g.size}

theorem getElem?_insert (memo : Memo V) (n m : Node) (v : V) :
    (Std.TreeMap.insert memo n v)[m]? = if n = m then some v else memo[m]? := by
  rw [Std.TreeMap.getElem?_insert]
  simp only [Std.LawfulEqCmp.compare_eq_iff_eq]

theorem mem_iff {n : Node} : n ∈ memo ↔ ∃ v, memo[n]? = some v := by
  rw [Std.TreeMap.mem_iff_isSome_getElem?, Option.isSome_iff_exists]

theorem value_eq_ok_iff {n : Node} {v : V} : memo.value n = .ok v ↔ memo[n]? = some v := by
  rw [value]
  cases memo[n]? <;> simp

/-! ### Memos with more values -/

/-- Every value of the first memo is one of the second, for the same node. -/
def Within (memo memo' : Memo V) : Prop :=
  ∀ (n : Node) (v : V), memo[n]? = some v → memo'[n]? = some v

theorem Within.refl (memo : Memo V) : memo.Within memo := fun _ _ h => h

theorem Within.trans (h : memo.Within memo') (h' : memo'.Within memo'') : memo.Within memo'' :=
  fun n v hv => h' n v (h n v hv)

theorem Within.mem {n : Node} (h : memo.Within memo') (hn : n ∈ memo) : n ∈ memo' := by
  obtain ⟨v, hv⟩ := Memo.mem_iff.1 hn
  exact Memo.mem_iff.2 ⟨v, h n v hv⟩

theorem Within.getElem?_eq {n : Node} (h : memo.Within memo') (hn : n ∈ memo) :
    memo'[n]? = memo[n]? := by
  obtain ⟨v, hv⟩ := Memo.mem_iff.1 hn
  rw [hv, h n v hv]

theorem Within.value {n : Node} {v : V} (h : memo.Within memo') (hv : memo.value n = .ok v) :
    memo'.value n = .ok v := value_eq_ok_iff.2 (h n v (value_eq_ok_iff.1 hv))

/-- What is answered is answered alike by a memo with more values. -/
theorem Within.answer (h : memo.Within memo') : ∀ {r : Request} {a : r.Answer V},
    memo.answer r = .ok a → memo'.answer r = .ok a
  | .one _, _, ha => h.value ha
  | .all _, _, ha => mapM_ok_mono (fun _ _ _ => h.value) ha

theorem within_insert {n : Node} (h : n ∉ memo) (v : V) :
    memo.Within (Std.TreeMap.insert memo n v) := by
  intro m w hw
  rw [getElem?_insert, if_neg, hw]
  rintro rfl
  exact h (Memo.mem_iff.2 ⟨w, hw⟩)

/-- What is asked for has values if there is an answer. -/
theorem mem_of_answer : ∀ {r : Request} {a : r.Answer V}, memo.answer r = .ok a →
    ∀ n ∈ r.nodes, n ∈ memo
  | .one m, v, h, n, hn => by
    rw [List.mem_singleton.1 hn]
    exact Memo.mem_iff.2 ⟨v, value_eq_ok_iff.1 h⟩
  | .all ns, vs, h, n, hn => by
    have hnone : refusal? (ns.mapM memo.value) = none := refusal?_eq_none.2 ⟨vs, h⟩
    rw [refusal?_mapM, List.findSome?_eq_none_iff] at hnone
    obtain ⟨v, hv⟩ := refusal?_eq_none.1 (hnone n hn)
    exact Memo.mem_iff.2 ⟨v, value_eq_ok_iff.1 hv⟩

/-! ### Memos with the right values -/

/-- Of the nodes in `D`, those at the positions `S` have a value, which is that of `f`. -/
structure Tabulates (memo : Memo V) (D : Set Node) (g : Graph) (f : Fin g.size → V)
    (S : Set (Fin g.size)) : Prop where
  value_eq : ∀ p ∈ S, memo[g.node p.val]? = some (f p)
  exists_of_mem : ∀ n ∈ D, n ∈ memo → ∃ p ∈ S, n = g.node p.val

namespace Tabulates

theorem empty (D : Set Node) (g : Graph) (f : Fin g.size → V) :
    Tabulates (∅ : Memo V) D g f ∅ :=
  ⟨fun _ h => h.elim, fun _ _ h => absurd h Std.TreeMap.not_mem_emptyc⟩

theorem mem_iff (h : memo.Tabulates D g f S) (hp : g.node p.val ∈ D) :
    g.node p.val ∈ memo ↔ p ∈ S := by
  constructor
  · intro hmem
    obtain ⟨q, hq, he⟩ := h.exists_of_mem _ hp hmem
    exact Fin.ext (congrArg Node.index he) ▸ hq
  · exact fun hq => Memo.mem_iff.2 ⟨_, h.value_eq p hq⟩

theorem insert (h : memo.Tabulates D g f S) (p : Fin g.size) :
    Tabulates (Std.TreeMap.insert memo (g.node p.val) (f p)) D g f (insert p S) := by
  constructor
  · intro q hq
    rw [getElem?_insert]
    split
    · next he => rw [Fin.ext (congrArg Node.index he)]
    · next hne =>
      exact h.value_eq q (hq.resolve_left fun he => hne (congrArg (g.node ·.val) he.symm))
  · intro n hn hmem
    rw [Std.TreeMap.mem_insert, Std.LawfulEqCmp.compare_eq_iff_eq] at hmem
    rcases hmem with rfl | hmem
    · exact ⟨p, Set.mem_insert p S, rfl⟩
    · obtain ⟨q, hq, he⟩ := h.exists_of_mem n hn hmem
      exact ⟨q, Set.mem_insert_of_mem p hq, he⟩

theorem value (h : memo.Tabulates D g f S) (hp : p ∈ S) :
    memo.value (g.node p.val) = .ok (f p) := by
  rw [Memo.value, h.value_eq p hp]

/-- The values of known nodes, one after the other. -/
theorem values (h : memo.Tabulates D g f S) {qs : List (Fin g.size)} (hqs : ∀ q ∈ qs, q ∈ S) :
    (qs.map fun q => g.node q.val).mapM memo.value = .ok (qs.map f) := by
  rw [List.mapM_map]
  exact mapM_eq_ok fun q hq => h.value (hqs q hq)

/-- Only the entries for the nodes in `D` count. -/
theorem congr {memo' : Memo V} (h : memo.Tabulates D g f S)
    (hD : ∀ p : Fin g.size, g.node p.val ∈ D) (hsame : ∀ n ∈ D, memo'[n]? = memo[n]?) :
    memo'.Tabulates D g f S := by
  refine ⟨fun p hp => (hsame _ (hD p)).trans (h.value_eq p hp), fun n hn hmem => ?_⟩
  rw [Memo.mem_iff, hsame n hn, ← Memo.mem_iff] at hmem
  exact h.exists_of_mem n hn hmem

/-- Records added to the graph have no values yet. -/
theorem of_extends (hg : g.Extends g') {f' : Fin g'.size → V}
    (hf : ∀ p, f' (p.castLE hg.size_le) = f p) (h : memo.Tabulates D g f S) :
    memo.Tabulates D g' f' (Set.image (Fin.castLE hg.size_le) S) := by
  constructor
  · rintro - ⟨p, hp, rfl⟩
    rw [hf, ← h.value_eq p hp]
    exact congrArg (memo[·]?) (hg.node_eq p.val)
  · intro n hn hmem
    obtain ⟨p, hp, rfl⟩ := h.exists_of_mem n hn hmem
    exact ⟨_, Set.mem_image_of_mem _ hp, (hg.node_eq p.val).symm⟩

end Tabulates

end Memo

end TermGraph
