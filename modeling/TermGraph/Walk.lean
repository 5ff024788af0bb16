import TermGraph.Graph.Reach
import TermGraph.Script

/-!
Bottom-up walks. Records stand after their arguments, so visiting nodes in the order of their
records visits every argument first. Which nodes are visited is settled before the first visit;
what a visitor appends is not visited.
-/

namespace TermGraph

/-- Which nodes a walk visits. -/
inductive Extent where
  /-- Every node up to the root, whether the root depends on it or not. -/
  | all
  /-- What the root depends on, itself included. -/
  | needed
deriving DecidableEq

namespace Graph

/-- The nodes that a walk from the root visits, in order. -/
def visits (g : Graph) (extent : Extent) (root : Node) : Except Error (List Node) :=
  match extent with
  | .all => (g.locate root).map fun p => (List.range (p.val + 1)).map g.node
  | .needed => g.reachable [root]

end Graph

/-- Visits the nodes of a walk one after the other; the first failure ends it. -/
def walk {σ : Type} (extent : Extent) (root : Node) (visit : Node → Action σ Unit) :
    Action σ Unit := do
  let order ← Routine.look fun g => g.visits extent root
  order.forM visit

end TermGraph
