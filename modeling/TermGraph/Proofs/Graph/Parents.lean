import TermGraph.Graph.Cursor
import TermGraph.Proofs.Fold.Table

/-!
Parents are the converse of children. Arguments stand before the record that holds them, so nothing
is missed by looking only after a node for those that mention it; a record is looked at once, so a
node that fills several arguments is found once there. What a cursor still has to hand out is a
filtered range of positions, which one step shortens by its first member.
-/

namespace TermGraph

namespace Cursor

variable {g : Graph} {c : Cursor} {n : Node}

/-! ### Searching step by step -/

/-- The positions from the cursor on whose records mention the target. -/
def ahead (g : Graph) (c : Cursor) : List Nat :=
  (List.range' c.next (g.size - c.next)).filter fun q => (g.childrenAt q).contains c.target

theorem ahead_of_lt (h : c.next < g.size) : c.ahead g
    = (if (g.childrenAt c.next).contains c.target then [c.next] else [])
      ++ ahead g ⟨c.target, c.next + 1⟩ := by
  have hsize : g.size - c.next = g.size - (c.next + 1) + 1 := by omega
  rw [ahead, hsize, List.range'_succ, List.filter_cons]
  split <;> rfl

/-- A step hands out the first node ahead, if there is one, and then the others are ahead. -/
theorem advance_eq (g : Graph) (c : Cursor) :
    (c.advance g).1 = (c.ahead g).head?.map g.node
      ∧ (c.advance g).2.ahead g = (c.ahead g).tail := by
  induction c using advance.induct g with
  | case1 c hlt hfound =>
    rw [advance, if_pos hlt, if_pos hfound, ahead_of_lt hlt, if_pos hfound]
    exact ⟨rfl, rfl⟩
  | case2 c hlt hfound ih =>
    rw [advance, if_pos hlt, if_neg hfound, ahead_of_lt hlt, if_neg hfound]
    exact ih
  | case3 c hlt =>
    have hnone : c.ahead g = [] := by
      rw [ahead, Nat.sub_eq_zero_of_le (Nat.le_of_not_lt hlt)]
      rfl
    rw [advance, if_neg hlt]
    exact ⟨by rw [hnone]; rfl, by rw [hnone]; rfl⟩

theorem ahead_skip : ∀ (k : Nat) (c : Cursor), (c.skip g k).ahead g = (c.ahead g).drop k
  | 0, _ => rfl
  | k + 1, c => by
    obtain ⟨hfirst, hrest⟩ := advance_eq g c
    rw [skip]
    split
    · next n c' hstep =>
      rw [hstep] at hrest
      rw [ahead_skip k c', hrest, List.drop_tail]
    · next c' hstep =>
      rw [hstep] at hfirst hrest
      have hnone : c.ahead g = [] := by
        rw [← List.head?_eq_none_iff]
        exact Option.map_eq_none_iff.1 hfirst.symm
      rw [hrest, hnone]
      rfl

theorem rest_of_some {c' : Cursor} (h : c.advance g = (some n, c')) :
    c.rest g = n :: c'.rest g := by
  rw [rest]
  split
  · next hstep =>
    cases h.symm.trans hstep
    rfl
  · next hstep => cases h.symm.trans hstep

theorem rest_of_none {c' : Cursor} (h : c.advance g = (none, c')) : c.rest g = [] := by
  rw [rest]
  split
  · next hstep => cases h.symm.trans hstep
  · rfl

theorem rest_eq (g : Graph) (c : Cursor) : c.rest g = (c.ahead g).map g.node := by
  induction c using rest.induct g with
  | case1 c n c' hstep hlt ih =>
    obtain ⟨hfirst, hrest⟩ := advance_eq g c
    rw [hstep] at hfirst hrest
    obtain ⟨p, hp, rfl⟩ := Option.map_eq_some_iff.1 hfirst.symm
    rw [rest_of_some hstep, ih, hrest, ← List.map_cons, List.cons_head?_tail hp]
  | case2 c c' hstep =>
    obtain ⟨hfirst, -⟩ := advance_eq g c
    rw [hstep] at hfirst
    rw [rest_of_none hstep, List.head?_eq_none_iff.1 (Option.map_eq_none_iff.1 hfirst.symm)]
    rfl

end Cursor

namespace Graph

variable {g : Graph} {n m : Node} {p q : Nat}

/-! ### The converse of children -/

/-- Nothing is missed by looking only at what comes after. -/
theorem mem_parentsAt : q ∈ g.parentsAt p ↔ q < g.size ∧ p ∈ g.childrenAt q := by
  rw [parentsAt, List.mem_filter, List.mem_range'_1, List.contains_iff_mem]
  constructor
  · rintro ⟨⟨hle, hlt⟩, hmem⟩
    exact ⟨by omega, hmem⟩
  · rintro ⟨hlt, hmem⟩
    have hpq := lt_of_mem_childrenAt hmem
    exact ⟨by omega, hmem⟩

theorem parentsAt_ascending (g : Graph) (p : Nat) : (g.parentsAt p).Pairwise (· < ·) :=
  (List.pairwise_lt_range' ..).filter _

/-- The nodes `ps` are those that have `n` among their children, each once and in the order of their
records. A search among them gives what it should of their expressions. The cursor hands them out
one by one, and after any number of them it still has just the others. -/
structure Parentage (g : Graph) (n : Node) (ps : List Node) (c : Cursor) : Prop where
  ascending : (ps.map Node.index).Pairwise (· < ·)
  mem_iff : ∀ m, m ∈ ps ↔ ∃ cs, g.children m = .ok cs ∧ n ∈ cs
  search : ∃ es, ps.mapM g.read = .ok es ∧ ∀ test, g.searchParents n test = .ok (es.filter test)
  next_eq : c.next = n.index + 1
  advance_eq : ∀ k, ((c.skip g k).advance g).1 = ps[k]?
  rest_eq : ∀ k, (c.skip g k).rest g = ps.drop k

/-- Parents are the converse of children, at once and one by one. -/
theorem parents_converse (g : Graph) (n : Node) (hn : n ∈ g.nodes) :
    ∃ ps c, g.parents n = .ok ps ∧ g.cursor n = .ok c ∧ g.Parentage n ps c := by
  obtain ⟨p, hp⟩ := exists_locate hn
  obtain rfl := eq_node_of_locate hp
  refine ⟨_, ⟨p, p + 1⟩, by rw [parents, hp]; rfl, by rw [cursor, hp]; rfl, ?_⟩
  have hahead : ∀ k, ((Cursor.mk p (p + 1)).skip g k).ahead g = (g.parentsAt p).drop k :=
    fun k => Cursor.ahead_skip k _
  have hlt : ∀ q ∈ g.parentsAt p, q < g.size := fun q hq => (mem_parentsAt.1 hq).1
  refine ⟨?_, fun m => ?_, ⟨_, mapM_read_node hlt, fun test => by rw [searchParents, hp]; rfl⟩,
    rfl, fun k => ?_, fun k => ?_⟩
  · rw [List.map_map]
    exact (List.map_id (g.parentsAt p)).symm ▸ g.parentsAt_ascending p
  · rw [List.mem_map]
    constructor
    · rintro ⟨q, hq, rfl⟩
      obtain ⟨hlt, hmem⟩ := mem_parentsAt.1 hq
      exact ⟨_, by rw [children, locate_node hlt]; rfl, List.mem_map_of_mem hmem⟩
    · rintro ⟨cs, hcs, hmem⟩
      obtain ⟨q, hq, rfl⟩ := ok_of_map_ok hcs
      obtain ⟨r, hr, hrn⟩ := List.mem_map.1 hmem
      have hrp : r = p := congrArg Node.index hrn
      exact ⟨q, mem_parentsAt.2 ⟨q.isLt, hrp ▸ hr⟩, (eq_node_of_locate hq).symm⟩
  · rw [(Cursor.advance_eq g _).1, hahead, List.head?_drop, List.getElem?_map]
  · rw [Cursor.rest_eq, hahead, List.map_drop]

/-- A record that fills both arguments of the next one, and one of the last. -/
def twofold : Graph :=
  let g := ((Graph.empty 0).append "a" []).2
  let g := (g.append "b" [.node (g.node 0), .node (g.node 0)]).2
  let g := (g.append "c" [.node (g.node 1)]).2
  (g.append "d" [.node (g.node 1), .node (g.node 0)]).2

theorem parents_converse_twofold : twofold.parents (twofold.node 0)
      = .ok [twofold.node 1, twofold.node 3]
    ∧ ∃ c, twofold.cursor (twofold.node 0) = .ok c
      ∧ (c.skip twofold 1).rest twofold = [twofold.node 3] := by
  obtain ⟨ps, c, hps, hc, hparentage⟩ :=
    parents_converse twofold (twofold.node 0) (by decide)
  obtain rfl : [twofold.node 1, twofold.node 3] = ps := Except.ok.inj hps
  exact ⟨hps, c, hc, hparentage.rest_eq 1⟩

end Graph

end TermGraph
