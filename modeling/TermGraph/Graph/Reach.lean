import TermGraph.Graph.Basic

/-!
Who mentions whom, near and far.

Arguments stand before the record that holds them, so one sweep from high to low positions finds
everything below a set of nodes: each marked position hands its mark on to its arguments, and no
position has to be looked at twice. The sweep may stop early at the lowest position of interest,
for nothing below it leads back up. Read the other way, the nodes that mention a given one stand
after it.
-/

namespace TermGraph

namespace Graph

/-- A path of zero or more steps from a position to an argument of its record. -/
inductive Path (g : Graph) : Nat → Nat → Prop
  | refl (p : Nat) : Path g p p
  | step {p q r : Nat} : q ∈ g.childrenAt p → Path g q r → Path g p r

/-! ### Below a node -/

/-- Sweeps down over the `k` positions from `lo` on; each marked one marks its arguments. -/
def spread (g : Graph) (lo : Nat) : Nat → Std.TreeSet Nat → Std.TreeSet Nat
  | 0, marks => marks
  | k + 1, marks =>
    g.spread lo k <|
      if marks.contains (lo + k) then (g.childrenAt (lo + k)).foldl .insert marks else marks

/-- Is the position `q` that of `p` or below it? Only positions above `q` are searched. -/
def reaches (g : Graph) (p q : Nat) : Bool := (g.spread (q + 1) (p - q) {p}).contains q

theorem le_of_reaches {g : Graph} {p q : Nat} (h : g.reaches p q = true) : q ≤ p := by
  refine Nat.le_of_not_lt fun hlt => ?_
  have hk : p - q = 0 := Nat.sub_eq_zero_of_le (Nat.le_of_lt hlt)
  simp only [reaches, hk, spread] at h
  have : p = q := by simpa using h
  exact absurd hlt (this ▸ Nat.lt_irrefl _)

/-- The positions at or below some of the given ones, ascending. -/
def closureAt (g : Graph) (ps : List Nat) : List Nat :=
  (g.spread 0 (ps.foldl (fun top p => max top (p + 1)) 0) (ps.foldl .insert ∅)).toList

/-- Is the target the root itself or one of the nodes it depends on? -/
def contains (g : Graph) (root target : Node) : Except Error Bool := do
  let p ← g.locate root
  let q ← g.locate target
  return g.reaches p q

/-- What a node contains is of the same graph and stands no later. -/
theorem index_le_of_contains {g : Graph} {n c : Node} (h : g.contains n c = .ok true) :
    c.graph = n.graph ∧ c.index ≤ n.index := by
  unfold contains at h
  cases hn : g.locate n with
  | error e => rw [hn] at h; cases h
  | ok p =>
    cases hc : g.locate c with
    | error e => rw [hn, hc] at h; cases h
    | ok q =>
      rw [hn, hc] at h
      rw [eq_node_of_locate hn, eq_node_of_locate hc]
      exact ⟨rfl, le_of_reaches (Except.ok.inj h)⟩

/-- The positions of everything that the roots depend on, themselves included, ascending. -/
def closure (g : Graph) (roots : List Node) : Except Error (List Nat) := do
  let ps ← roots.mapM g.locate
  return g.closureAt (ps.map Fin.val)

/-- The nodes that the roots depend on, themselves included, in the order of their records. -/
def reachable (g : Graph) (roots : List Node) : Except Error (List Node) :=
  (g.closure roots).map (List.map g.node)

/-! ### Above a node -/

/-- The positions after `p` of the records that mention `p`. -/
def parentsAt (g : Graph) (p : Nat) : List Nat :=
  (List.range' (p + 1) (g.size - (p + 1))).filter fun q => (g.childrenAt q).contains p

/-- The nodes that have `n` as an argument, in the order of their records, each once. -/
def parents (g : Graph) (n : Node) : Except Error (List Node) :=
  (g.locate n).map fun p => (g.parentsAt p.val).map g.node

/-- The records that have `n` as an argument and satisfy the test, in order. -/
def searchParents (g : Graph) (n : Node) (test : Expr → Bool) : Except Error (List Expr) :=
  (g.locate n).map fun p => ((g.parentsAt p.val).filterMap g.expr?).filter test

end Graph

end TermGraph
