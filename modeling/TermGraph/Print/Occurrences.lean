import TermGraph.Graph.Copy
import TermGraph.Walk

/-!
How often each node is an argument, counted over argument positions, so that a node which fills two
arguments of one record counts twice. Counting can go over what a root depends on, or along a walk.
-/

namespace TermGraph

/-- Counts so far, and the nodes whose arguments were counted, in order. -/
structure Occurrences where
  counts : Std.TreeMap Node Nat := ∅
  order : Array Node := #[]

namespace Occurrences

/-- How many argument positions hold the node. -/
def get (o : Occurrences) (n : Node) : Nat := o.counts.getD n 0

/-- A node is shared if it is an argument more than once. -/
def isShared (o : Occurrences) (n : Node) : Bool := 1 < o.get n

/-- One more occurrence of a node. -/
def bump (counts : Std.TreeMap Node Nat) (n : Node) : Std.TreeMap Node Nat :=
  counts.insert n (counts.getD n 0 + 1)

/-- Counts the arguments of one node. -/
def add (o : Occurrences) (n : Node) (children : List Node) : Occurrences :=
  ⟨children.foldl bump o.counts, o.order.push n⟩

/-- Counts over the given expressions. -/
def ofExprs (es : List Expr) : Occurrences := es.foldl (fun o e => o.add e.node e.children) {}

/-- Counts over what the root depends on. -/
def count (g : Graph) (root : Node) : Except Error Occurrences :=
  (g.unfolding [root]).map ofExprs

/-- Counts the arguments of a visited node. -/
def visit (n : Node) : Action Occurrences Unit := do
  let children ← Routine.look fun g => g.children n
  modify fun o => o.add n children

end Occurrences

end TermGraph
