import TermGraph.Dialect.Schema
import TermGraph.Graph.Basic

/-!
Typed nodes: for every schema the type of its nodes, a value of each field's own kind and a list for
the field that takes the rest. Writing a typed node out as arguments and reading it back are each
other's converse, and reading refuses what the schema refuses, for the same reason.
-/

namespace TermGraph

namespace Field

/-- The value of a field as a member of the field's kind. -/
def decode (f : Field) : Option Value → Except Mismatch f.kind.Carrier
  | none => .error (.missing f.name)
  | some v =>
    match f.kind.ofValue? v with
    | some c => .ok c
    | none => .error (.kind f.name f.kind v)

/-- One member of each field's kind. -/
def Members : List Field → Type
  | [] => Unit
  | f :: fs => f.kind.Carrier × Members fs

/-- Any number of members of a field's kind, if there is a field. -/
def Rest : Option Field → Type
  | none => Unit
  | some f => List f.kind.Carrier

/-- The members as values. -/
def encodeMembers : (fs : List Field) → Members fs → List Value
  | [], _ => []
  | f :: fs, (c, cs) => f.kind.toValue c :: encodeMembers fs cs

/-- The rest as values. -/
def encodeRest : (f : Option Field) → Rest f → List Value
  | none, _ => []
  | some f, cs => cs.map f.kind.toValue

/-- Reads one value for each field. -/
def decodeMembers : (fs : List Field) → List Value → Except Mismatch (Members fs)
  | [], _ => .ok ()
  | f :: fs, vs =>
    match f.decode vs.head? with
    | .error m => .error m
    | .ok c => (decodeMembers fs vs.tail).map (c, ·)

/-- Reads all values for the last field. -/
def decodeRest : (f : Option Field) → List Value → Except Mismatch (Rest f)
  | none, _ => .ok ()
  | some f, vs => vs.mapM fun v => f.decode (some v)

end Field

/-- A node of the schema, with typed fields. -/
structure Typed (s : Schema) where
  fixed : Field.Members s.fixed
  rest : Field.Rest s.rest

namespace Typed

variable {s : Schema}

/-- The arguments that store a typed node. -/
def toArgs (t : Typed s) : List Value :=
  Field.encodeMembers s.fixed t.fixed ++ Field.encodeRest s.rest t.rest

/-- The typed node that arguments store. -/
def ofArgs (s : Schema) (args : List Value) : Except Error (Typed s) :=
  if s.takes args.length then
    Except.mapError (.mismatch s.name) do
      let fixed ← Field.decodeMembers s.fixed args
      let rest ← Field.decodeRest s.rest (args.drop s.fixed.length)
      return ⟨fixed, rest⟩
  else .error (.mismatch s.name (.arity s.fixed.length s.rest.isSome args.length))

/-- The typed node that an expression is; nothing if its head is another. -/
def ofExpr? (s : Schema) (e : Expr) : Except Error (Option (Typed s)) :=
  if e.head = s.name then (ofArgs s e.args).map some else .ok none

/-- Reads a node that must be of the schema. -/
def read (s : Schema) (g : Graph) (n : Node) : Except Error (Typed s) := do
  let e ← g.read n
  match ← ofExpr? s e with
  | some t => return t
  | none => throw (.mismatch s.name (.head n e.head))

end Typed

/-- Schemas declared together. -/
structure Family where
  name : String
  schemas : List Schema

namespace Family

/-- The family with the declared schemas. -/
def declare (name : String) (rules : List (String × List FieldDecl)) : Except Error Family :=
  (rules.mapM fun (n, ds) => Schema.declare n ds).map (⟨name, ·⟩)

/-- The schema of a head. -/
def schema? (f : Family) (head : String) : Option Schema := f.schemas.find? (·.name = head)

/-- An expression as a typed node of the family's schema for its head. -/
def ofExpr (f : Family) (e : Expr) : Except Error ((s : Schema) × Typed s) :=
  match f.schema? e.head with
  | some s => (Typed.ofArgs s e.args).map (⟨s, ·⟩)
  | none => .error (.unknownHead e.head)

/-- Reads a node that must be of the family. -/
def read (f : Family) (g : Graph) (n : Node) : Except Error ((s : Schema) × Typed s) := do
  f.ofExpr (← g.read n)

end Family

end TermGraph
