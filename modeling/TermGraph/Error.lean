import TermGraph.Dialect.Kind

/-!
What can go wrong, as causes. `Error.message` is the one place that words them.
-/

namespace TermGraph

/-- Why a field list is no schema, or arguments do not fit one. -/
inductive Mismatch where
  /-- A field that takes the rest of the arguments stands before the end. -/
  | restNotLast (field : String)
  /-- Two fields have one name. -/
  | fieldTwice (field : String)
  /-- There are not `expected` arguments; with `orMore`, there are fewer. -/
  | arity (expected : Nat) (orMore : Bool) (got : Nat)
  /-- A value is not of its field's kind. -/
  | kind (field : String) (kind : Kind) (got : Value)
  /-- There is no value for the field. -/
  | missing (field : String)
  /-- The node's head is another. -/
  | head (node : Node) (head : String)
deriving DecidableEq

/-- Why an operation was refused. -/
inductive Error where
  /-- The node is of another graph than the one worked on. -/
  | foreign (node : Node) (graph : Nat)
  /-- The graph has no record at the node's position. -/
  | dangling (node : Node) (size : Nat)
  /-- Nothing is known about the head. -/
  | unknownHead (head : String)
  /-- The named schema does not hold. -/
  | mismatch (schema : String) (reason : Mismatch)
  /-- Two families declare the schema. -/
  | conflict (schema : String)
  /-- The value of `requested` was asked for on behalf of `node`, but it lies not below it. -/
  | notBelow (node requested : Node)
  /-- The result for a node was needed before there was one. -/
  | noResult (node : Node)
deriving DecidableEq

namespace Mismatch

/-- The reason in words. -/
def message : Mismatch → String
  | restNotLast f => s!"vararg field `{f}` must be the last field"
  | fieldTwice f => s!"field `{f}` declared twice"
  | arity n orMore got =>
    "expected " ++ (if orMore then "at least " else "") ++ s!"{n} arguments, got {got}"
  | kind f k v => s!"field `{f}` expects {k.name}, got {v.text}"
  | missing f => s!"missing field `{f}`"
  | head n h => s!"node {n.text} has head `{h}`"

end Mismatch

namespace Error

/-- The error in words. -/
def message : Error → String
  | foreign n g => s!"handle {n.longText} belongs to store{n.graph}, not store{g}"
  | dangling n size =>
    s!"handle {n.longText} points past the end of the store ({size} records)"
  | unknownHead h => s!"no schema or handler for node kind `{h}`"
  | mismatch s r => s!"schema `{s}` mismatch: {r.message}"
  | conflict s => s!"schema `{s}` is declared by more than one family"
  | notBelow n c =>
    s!"traversal of {n.text} requested {c.text}, which is not one of its descendants"
  | noResult n => s!"no result for {n.text}"

end Error

end TermGraph
