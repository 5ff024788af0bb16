import TermGraph.Error

/-!
Schemas: the shape that nodes of one head must have. A schema has fields of one value each and, at
the end, at most one field that takes the rest of the arguments; no two fields have one name. These
are part of the type; `Schema.declare` finds out whether a list of declarations is of this form.

`check` says whether arguments fit, and `split` hands them out to the fields.
-/

namespace TermGraph

/-- A named field. -/
structure Field where
  name : String
  kind : Kind
deriving DecidableEq

/-- A field as declared; with `rest` it takes the rest of the arguments. -/
structure FieldDecl extends Field where
  rest : Bool := false
deriving DecidableEq

/-- The declared shape of the nodes whose head is `name`. -/
structure Schema where
  name : String
  fixed : List Field
  rest : Option Field
  distinct : ((fixed ++ rest.toList).map Field.name).Nodup
deriving DecidableEq

/-- What one field holds: one value, or the rest of them. -/
inductive FieldData where
  | one (v : Value)
  | many (vs : List Value)
deriving DecidableEq

namespace FieldData

/-- The values held. -/
def values : FieldData → List Value
  | one v => [v]
  | many vs => vs

end FieldData

/-- A new name at the end keeps names apart. -/
theorem nodup_names_concat {fs : List Field} {f : Field} (h : (fs.map Field.name).Nodup)
    (hf : f.name ∉ fs.map Field.name) : ((fs ++ [f]).map Field.name).Nodup := by
  rw [List.map_append, List.nodup_append]
  refine ⟨h, by simp, fun a ha b hb => ?_⟩
  simp only [List.map_cons, List.map_nil, List.mem_singleton] at hb
  exact fun hab => hf (hb ▸ hab ▸ ha)

namespace Schema

/-- All fields, in order. -/
def fields (s : Schema) : List Field := s.fixed ++ s.rest.toList

/-- The declarations that the schema comes from. -/
def decls (s : Schema) : List FieldDecl :=
  s.fixed.map (⟨·, false⟩) ++ s.rest.toList.map (⟨·, true⟩)

/-- Goes through the declarations left, after the fixed fields already found. -/
def declareFrom (name : String) (fixed : List Field) (h : (fixed.map Field.name).Nodup) :
    List FieldDecl → Except Mismatch Schema
  | [] => .ok ⟨name, fixed, none, by simpa using h⟩
  | d :: ds =>
    if d.rest ∧ ds ≠ [] then .error (.restNotLast d.name)
    else if hd : d.name ∈ fixed.map Field.name then .error (.fieldTwice d.name)
    else if d.rest then .ok ⟨name, fixed, some d.toField, nodup_names_concat h hd⟩
    else declareFrom name (fixed ++ [d.toField]) (nodup_names_concat h hd) ds

/-- The schema with the declared fields. The first declaration at fault is reported: one that takes
the rest before the end, or one that repeats a name. -/
def declare (name : String) (ds : List FieldDecl) : Except Error Schema :=
  (declareFrom name [] List.nodup_nil ds).mapError (.mismatch name)

/-- Do so many arguments fit? -/
def takes (s : Schema) (n : Nat) : Bool :=
  if s.rest.isSome then s.fixed.length ≤ n else n = s.fixed.length

/-- The first value that is not of its field's kind: fixed fields take one value each, the field at
the end all others. -/
def misfit? : List Field → Option Field → List Value → Option Mismatch
  | f :: fs, rest, v :: vs =>
    if f.kind.accepts v then misfit? fs rest vs else some (.kind f.name f.kind v)
  | [], some f, v :: vs =>
    if f.kind.accepts v then misfit? [] (some f) vs else some (.kind f.name f.kind v)
  | _, _, _ => none

/-- Do the arguments fit? Their number is looked at first, then their kinds in order. -/
def check (s : Schema) (args : List Value) : Except Error Unit :=
  if s.takes args.length then
    match misfit? s.fixed s.rest args with
    | none => .ok ()
    | some m => .error (.mismatch s.name m)
  else .error (.mismatch s.name (.arity s.fixed.length s.rest.isSome args.length))

/-- The data of the fields, in order, if the arguments fit. -/
def split (s : Schema) (args : List Value) : Except Error (List FieldData) :=
  (s.check args).map fun _ =>
    (args.take s.fixed.length).map .one
      ++ s.rest.toList.map fun _ => .many (args.drop s.fixed.length)

end Schema

end TermGraph
