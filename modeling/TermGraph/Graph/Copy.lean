import TermGraph.Graph.Reach

/-!
Copying from one graph into another. The records that the roots depend on are appended to the
target one by one in their own order, so that the arguments of each are there before it; shared
arguments stay shared.
-/

namespace TermGraph

/-- Where copied nodes have gone. -/
abbrev Moved := Std.TreeMap Node Node

namespace Moved

/-- The copy of a node. -/
def node (moved : Moved) (n : Node) : Except Error Node :=
  match moved[n]? with
  | some m => .ok m
  | none => .error (.noResult n)

/-- An argument with its node replaced by the copy. -/
def value (moved : Moved) : Value → Except Error Value
  | .node n => (moved.node n).map .node
  | v => .ok v

end Moved

namespace Graph

/-- Appends the expressions one after the other, each with the copies of its nodes. -/
def graft (dst : Graph) : List Expr → Moved → Except Error Moved × Graph
  | [], moved => (.ok moved, dst)
  | e :: es, moved =>
    match e.args.mapM moved.value with
    | .error err => (.error err, dst)
    | .ok args =>
      match dst.append e.head args with
      | (.error err, dst) => (.error err, dst)
      | (.ok n, dst) => dst.graft es (moved.insert e.node n)

/-- What the roots depend on, themselves included, as expressions. -/
def unfolding (g : Graph) (roots : List Node) : Except Error (List Expr) :=
  (g.closure roots).map (List.filterMap g.expr?)

/-- Copies everything that the roots depend on into the target, each record once, and gives the
copies of the roots. A root of another graph is refused before anything is copied. -/
def copyForest (src : Graph) (roots : List Node) (dst : Graph) : Except Error (List Node) × Graph :=
  match src.unfolding roots with
  | .error err => (.error err, dst)
  | .ok es =>
    match dst.graft es ∅ with
    | (.error err, dst) => (.error err, dst)
    | (.ok moved, dst) => (roots.mapM moved.node, dst)

/-- Copies what one root depends on. -/
def copyTree (src : Graph) (root : Node) (dst : Graph) : Except Error Node × Graph :=
  match src.copyForest [root] dst with
  | (.ok (n :: _), dst) => (.ok n, dst)
  | (.ok [], dst) => (.error (.noResult root), dst)
  | (.error err, dst) => (.error err, dst)

end Graph

end TermGraph
