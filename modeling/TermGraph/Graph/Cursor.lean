import TermGraph.Graph.Reach

/-!
The nodes that mention a given one, handed out one at a time. A cursor holds the position that it
looks at next, so a search can be left and taken up again.
-/

namespace TermGraph

/-- A search for the records that mention the target, from position `next` on. -/
structure Cursor where
  target : Nat
  next : Nat
deriving DecidableEq

namespace Cursor

/-- Searches on up to the next node that mentions the target. -/
def advance (g : Graph) (c : Cursor) : Option Node × Cursor :=
  if c.next < g.size then
    if (g.childrenAt c.next).contains c.target then
      (some (g.node c.next), ⟨c.target, c.next + 1⟩)
    else advance g ⟨c.target, c.next + 1⟩
  else (none, c)
termination_by g.size - c.next

/-- A search that finds a node goes on after it. -/
theorem lt_next_advance (g : Graph) (c : Cursor) {n : Node} (h : (c.advance g).1 = some n) :
    c.next < (c.advance g).2.next ∧ c.next < g.size := by
  induction c using advance.induct g with
  | case1 c hlt hfound =>
    rw [advance, if_pos hlt, if_pos hfound]
    exact ⟨Nat.lt_succ_self _, hlt⟩
  | case2 c hlt hfound ih =>
    rw [advance, if_pos hlt, if_neg hfound] at h ⊢
    exact ⟨Nat.lt_trans (Nat.lt_succ_self _) (ih h).1, hlt⟩
  | case3 c hlt =>
    rw [advance, if_neg hlt] at h
    cases h

/-- The search after up to `k` more nodes. -/
def skip (g : Graph) : Nat → Cursor → Cursor
  | 0, c => c
  | k + 1, c =>
    match c.advance g with
    | (some _, c) => skip g k c
    | (none, c) => c

/-- All nodes that are still to be found. -/
def rest (g : Graph) (c : Cursor) : List Node :=
  match h : c.advance g with
  | (some n, c') =>
    have : g.size - c'.next < g.size - c.next := by
      have hlt := lt_next_advance g c (n := n) (by rw [h])
      rw [h] at hlt
      dsimp only at hlt
      omega
    n :: rest g c'
  | (none, _) => []
termination_by g.size - c.next

end Cursor

/-- A search for the nodes that have `n` as an argument. Only the records after `n` are looked at.
-/
def Graph.cursor (g : Graph) (n : Node) : Except Error Cursor :=
  (g.locate n).map fun p => ⟨p.val, p.val + 1⟩

end TermGraph
