import Mathlib.Data.List.Nodup
import TermGraph.Dialect.Registry

/-!
What adding families makes of a dialect. A family that is refused changes nothing, any other puts
its schemas at the end; so a schema that is known under its name stays the one known under it.
-/

namespace TermGraph

namespace Dialect

variable {d d' d'' : Dialect} {name family : String} {s : Schema} {schemas : List Schema}

/-- What is found under a name is the entry of that name, as no two entries have one name. -/
theorem find?_entries_eq_some_iff {e : Schema × String} :
    d.entries.find? (·.1.name = name) = some e ↔ e ∈ d.entries ∧ e.1.name = name := by
  constructor
  · intro h
    exact ⟨List.mem_of_find?_eq_some h, by simpa using List.find?_some h⟩
  · rintro ⟨he, hname⟩
    obtain ⟨e', he'⟩ : ∃ e', d.entries.find? (·.1.name = name) = some e' :=
      Option.isSome_iff_exists.1 (List.find?_isSome.2 ⟨e, he, by simpa using hname⟩)
    have hsame : e'.1.name = e.1.name := by
      rw [hname]
      simpa using List.find?_some he'
    rw [he', List.inj_on_of_nodup_map d.distinct (List.mem_of_find?_eq_some he') he hsame]

/-- What is known under a name is the schema of that name. -/
theorem schema?_eq_some_iff : d.schema? name = some s ↔ s ∈ d.schemas ∧ s.name = name := by
  simp only [schema?, schemas, Option.map_eq_some_iff, List.mem_map, find?_entries_eq_some_iff]
  constructor
  · rintro ⟨e, ⟨he, hname⟩, rfl⟩
    exact ⟨⟨e, he, rfl⟩, hname⟩
  · rintro ⟨⟨e, he, rfl⟩, hname⟩
    exact ⟨e, ⟨he, hname⟩, rfl⟩

theorem schema?_of_mem (h : s ∈ d.schemas) : d.schema? s.name = some s :=
  schema?_eq_some_iff.2 ⟨h, rfl⟩

theorem resolve_of_schema? (h : d.schema? name = some s) : d.resolve name = .ok s := by
  rw [resolve, h]

theorem resolve_of_schema?_none (h : d.schema? name = none) :
    d.resolve name = .error (.unknownHead name) := by
  rw [resolve, h]

/-- A family that is accepted puts its schemas at the end. -/
theorem schemas_of_add (h : d.add family schemas = .ok d') : d'.schemas = d.schemas ++ schemas := by
  unfold add at h
  split at h
  · cases h
  · cases h
    simp [Dialect.schemas, List.map_map, Function.comp_def]

/-- The dialect after it was told to add a family, also if that was refused. -/
def adding (d : Dialect) (family : String) (schemas : List Schema) : Dialect :=
  match d.add family schemas with
  | .ok d' => d'
  | .error _ => d

theorem mem_schemas_adding (h : s ∈ d.schemas) : s ∈ (d.adding family schemas).schemas := by
  unfold adding
  split
  · next hadd =>
    rw [schemas_of_add hadd]
    exact List.mem_append_left _ h
  · exact h

/-- What becomes of a dialect that is told to add families. -/
inductive Later (d : Dialect) : Dialect → Prop
  | start : Later d d
  | adding {d' : Dialect} (family : String) (schemas : List Schema) :
    Later d d' → Later d (d'.adding family schemas)

theorem Later.mem_schemas (h : d.Later d') (hs : s ∈ d.schemas) : s ∈ d'.schemas := by
  induction h with
  | start => exact hs
  | adding family schemas _ ih => exact mem_schemas_adding ih

/-- What is known under a name stays known under it. -/
theorem Later.schema?_eq (h : d.Later d') (hs : d.schema? name = some s) :
    d'.schema? name = some s := by
  obtain ⟨hmem, rfl⟩ := schema?_eq_some_iff.1 hs
  exact schema?_of_mem (h.mem_schemas hmem)

end Dialect

end TermGraph
