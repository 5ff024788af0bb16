import TermGraph.Script

/-!
What a pass makes of a node. A term is a value that can be stored, or a value of the pass's own kind
that lives only as long as the pass.
-/

namespace TermGraph

/-- The result of a node. -/
inductive Term (C : Type) where
  | value (v : Value)
  | custom (c : C)
deriving DecidableEq

namespace Term

variable {C : Type}

/-- A node as a term. -/
def node (n : Node) : Term C := value (.node n)

/-- The node, if the term is one. -/
def node? : Term C → Option Node
  | value v => v.node?
  | custom _ => none

/-- The value, if the term can be stored. -/
def value? : Term C → Option Value
  | value v => some v
  | custom _ => none

/-- The pass's own value, if the term is one. -/
def custom? : Term C → Option C
  | value _ => none
  | custom c => some c

end Term

/-- What becomes of nodes of one head, by the expression and the results of its arguments. -/
abbrev Rule (σ C : Type) := Expr → List (Term C) → Action σ (Term C)

/-- What becomes of nodes without a rule; told also whether an argument has changed. -/
abbrev Fallback (σ C : Type) := Expr → List (Term C) → Bool → Action σ (Term C)

/-- Is the result of a node argument anything but the node itself? -/
def Expr.changed {C : Type} (e : Expr) (args : List (Term C)) : Bool :=
  args.map Term.node? != e.args.map Datum.node?

/-- The rule for nodes that no other covers: a node with unchanged arguments stays itself, any other
is appended anew with the results of its arguments, which must be storable. -/
def rebuild {σ C : Type} : Fallback σ C := fun e args changed =>
  if changed then
    match args.mapM Term.value? with
    | some vs => Term.node <$> Routine.append e.head vs
    | none => throw (.unknownHead e.head)
  else return .node e.node

end TermGraph
