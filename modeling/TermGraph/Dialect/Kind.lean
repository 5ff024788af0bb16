import TermGraph.Value

/-!
Kinds of fields: what a field accepts, and the type its values have once they are known to fit.
Reading a value as a kind succeeds exactly on what the kind accepts, and gives the value back.
-/

namespace TermGraph

/-- The kind of values a field holds. -/
inductive Kind where
  | int
  | bool
  | str
  | node
  | any
deriving DecidableEq

namespace Kind

/-- The word for a kind. -/
def name : Kind → String
  | int => "int"
  | bool => "bool"
  | str => "str"
  | node => "node"
  | any => "any"

/-- The type of the values of a kind. -/
def Carrier : Kind → Type
  | int => Int64
  | bool => Bool
  | str => String
  | node => Node
  | any => Value

/-- Is the value of this kind? -/
def accepts : Kind → Value → Bool
  | any, _ => true
  | int, .int _ => true
  | bool, .bool _ => true
  | str, .str _ => true
  | node, .node _ => true
  | _, _ => false

/-- The value that stores a member of the kind. -/
def toValue : (k : Kind) → k.Carrier → Value
  | int, i => .int i
  | bool, b => .bool b
  | str, s => .str s
  | node, n => .node n
  | any, v => v

/-- The member of the kind that a value stores. -/
def ofValue? : (k : Kind) → Value → Option k.Carrier
  | int, .int i => some i
  | bool, .bool b => some b
  | str, .str s => some s
  | node, .node n => some n
  | any, v => some v
  | _, _ => none

theorem ofValue?_toValue (k : Kind) (c : k.Carrier) : k.ofValue? (k.toValue c) = some c := by
  cases k <;> rfl

theorem toValue_of_ofValue? {k : Kind} {v : Value} {c : k.Carrier} (h : k.ofValue? v = some c) :
    k.toValue c = v := by
  cases k <;> cases v <;> cases h <;> rfl

theorem isSome_ofValue? (k : Kind) (v : Value) : (k.ofValue? v).isSome = k.accepts v := by
  cases k <;> cases v <;> rfl

end Kind

end TermGraph
