import TermGraph.Dialect.Typed
import TermGraph.Script

/-!
Dialects: the schemas known, by name, and the families that brought them. No two schemas of a
dialect have one name; adding a family whose schemas would clash leaves the dialect as it was.

A dialect writes a node only if the arguments fit the schema of its head, and matches a node by the
same test.
-/

namespace TermGraph

/-- Families in the order in which they were added, and each schema with the family it is from. -/
structure Dialect where
  families : List String
  entries : List (Schema × String)
  distinct : (entries.map fun e => e.1.name).Nodup

/-- A node, the schema of its head, and what its fields hold. -/
structure Matched where
  schema : Schema
  node : Node
  data : List FieldData

namespace Matched

/-- The fields' names and what they hold, in order. -/
def fields (m : Matched) : List (String × FieldData) := (m.schema.fields.map Field.name).zip m.data

/-- What a field holds. -/
def get? (m : Matched) (field : String) : Option FieldData := m.fields.lookup field

end Matched

namespace Dialect

/-- The dialect without schemas. -/
def empty : Dialect := ⟨[], [], List.nodup_nil⟩

/-- All schemas, in the order in which they were added. -/
def schemas (d : Dialect) : List Schema := d.entries.map (·.1)

/-- The names of the schemas, in the same order. -/
def names (d : Dialect) : List String := d.entries.map fun e => e.1.name

/-- The first of the names that is known or has come before. -/
def clash? (known : List String) : List String → Option String
  | [] => none
  | n :: ns => if n ∈ known then some n else clash? (known ++ [n]) ns

theorem nodup_of_clash? : ∀ {known names : List String}, known.Nodup → clash? known names = none →
    (known ++ names).Nodup
  | known, [], hk, _ => by simpa using hk
  | known, n :: ns, hk, h => by
    unfold clash? at h
    split at h
    · cases h
    · next hn =>
      have hkn : (known ++ [n]).Nodup :=
        List.nodup_append.2 ⟨hk, by simp, fun a ha b hb hab => by
          rw [List.mem_singleton.1 hb] at hab; exact hn (hab ▸ ha)⟩
      have := nodup_of_clash? hkn h
      rwa [List.append_assoc] at this

/-- Adds a family with its schemas. -/
def add (d : Dialect) (family : String) (schemas : List Schema) : Except Error Dialect :=
  match h : clash? d.names (schemas.map Schema.name) with
  | some n => .error (.conflict n)
  | none => .ok
    { families := d.families ++ [family]
      entries := d.entries ++ schemas.map (·, family)
      distinct := by
        have := nodup_of_clash? d.distinct h
        simpa [List.map_append, List.map_map, Function.comp_def, names] using this }

/-- Adds a declared family. -/
def addFamily (d : Dialect) (f : Family) : Except Error Dialect := d.add f.name f.schemas

/-- The schema of a name. -/
def schema? (d : Dialect) (name : String) : Option Schema :=
  (d.entries.find? (·.1.name = name)).map (·.1)

/-- The family that brought the schema of a name. -/
def familyOf? (d : Dialect) (name : String) : Option String :=
  (d.entries.find? (·.1.name = name)).map (·.2)

/-- The schema of a name that must be known. -/
def resolve (d : Dialect) (name : String) : Except Error Schema :=
  match d.schema? name with
  | some s => .ok s
  | none => .error (.unknownHead name)

/-- Is the name known, and do the arguments fit its schema? -/
def check (d : Dialect) (name : String) (args : List Value) : Except Error Unit := do
  (← d.resolve name).check args

/-- Appends a node whose arguments fit its schema. -/
def write {Q : Type} {A : Q → Type} {σ : Type} (d : Dialect) (name : String) (args : List Value) :
    Routine Q A σ Node := do
  Routine.lift (d.check name args)
  Routine.append name args

/-- Appends a typed node. -/
def writeTyped {Q : Type} {A : Q → Type} {σ : Type} (d : Dialect) {s : Schema} (t : Typed s) :
    Routine Q A σ Node := d.write s.name t.toArgs

/-- Matches a node against the schema of its head. -/
def matchNode (d : Dialect) (g : Graph) (n : Node) : Except Error Matched := do
  let e ← g.read n
  let s ← d.resolve e.head
  return ⟨s, n, ← s.split e.args⟩

end Dialect

end TermGraph
