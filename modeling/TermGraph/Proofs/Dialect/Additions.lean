import Mathlib.Data.List.Nodup
import TermGraph.Proofs.Dialect.Registry

/-!
Adding families, one after another. A family is refused just if its schemas bring a name twice or a
name that is known, and the first such schema is reported; a dialect is then what it was. So a
dialect consists of the families it has accepted, and whatever it answers can be read off them.
Added to the empty dialect without a refusal, the order of the families makes no difference to what
is known under a name.

A dialect can be kept in three tables, of schemas by name, of owners by name, and of families. Main
statement: whatever is added, these three go together, as they are those of the dialect.
-/

namespace TermGraph

namespace Dialect

variable {d d' : Dialect} {f : Family} {fs gs : List Family} {known : List String}
  {schemas : List Schema} {s s' : Schema} {family name : String} {e : Error}

/-! ### One addition -/

/-- The first of the schemas whose name is known or comes earlier among them. -/
def FirstClash (known : List String) (schemas : List Schema) (s : Schema) : Prop :=
  ∃ before after, schemas = before ++ s :: after
    ∧ (s.name ∈ known ∨ s.name ∈ before.map Schema.name)
    ∧ (before.map Schema.name).Nodup ∧ ∀ b ∈ before, b.name ∉ known

theorem firstClash_of_known (h : s.name ∈ known) :
    FirstClash known (s :: schemas) s' ↔ s' = s := by
  constructor
  · rintro ⟨before, after, heq, -, -, hnew⟩
    cases before with
    | nil =>
      cases heq
      rfl
    | cons b before =>
      cases heq
      exact absurd h (hnew _ (by simp))
  · rintro rfl
    exact ⟨[], schemas, rfl, .inl h, by simp, by simp⟩

theorem firstClash_of_new (h : s.name ∉ known) :
    FirstClash known (s :: schemas) s' ↔ FirstClash (known ++ [s.name]) schemas s' := by
  constructor
  · rintro ⟨before, after, heq, hclash, hnodup, hnew⟩
    cases before with
    | nil =>
      cases heq
      simp [h] at hclash
    | cons b before =>
      cases heq
      obtain ⟨hb, hnodup⟩ := List.nodup_cons.1 hnodup
      refine ⟨before, after, rfl, ?_, hnodup, fun c hc => ?_⟩
      · simp only [List.map_cons, List.mem_cons] at hclash
        simp only [List.mem_append, List.mem_singleton]
        tauto
      · simp only [List.mem_append, List.mem_singleton, not_or]
        exact ⟨hnew c (List.mem_cons_of_mem _ hc), fun hcs => hb (hcs ▸ List.mem_map_of_mem hc)⟩
  · rintro ⟨before, after, rfl, hclash, hnodup, hnew⟩
    simp only [List.mem_append, List.mem_singleton, not_or] at hclash hnew
    refine ⟨s :: before, after, rfl, ?_, ?_, ?_⟩
    · simp only [List.map_cons, List.mem_cons]
      tauto
    · refine List.nodup_cons.2 ⟨fun hs => ?_, hnodup⟩
      obtain ⟨b, hb, hbs⟩ := List.mem_map.1 hs
      exact (hnew b hb).2 hbs
    · intro b hb
      rcases List.mem_cons.1 hb with rfl | hb
      · exact h
      · exact (hnew b hb).1

theorem clash?_eq_some_iff : clash? known (schemas.map Schema.name) = some name
    ↔ ∃ s, name = s.name ∧ FirstClash known schemas s := by
  induction schemas generalizing known with
  | nil => simp [clash?, FirstClash]
  | cons s schemas ih =>
    rw [List.map_cons, clash?]
    split
    · next h => simp [firstClash_of_known h, eq_comm]
    · next h => simp only [ih, firstClash_of_new h]

theorem clash?_eq_none_iff {names : List String} :
    clash? known names = none ↔ names.Nodup ∧ ∀ n ∈ names, n ∉ known := by
  induction names generalizing known with
  | nil => simp [clash?]
  | cons n names ih =>
    rw [clash?]
    split
    · next h => simp [h]
    · next h =>
      simp only [ih, List.nodup_cons, List.mem_append, List.mem_singleton, not_or,
        List.forall_mem_cons, h, not_false_eq_true, true_and]
      constructor
      · rintro ⟨hnodup, hnew⟩
        exact ⟨⟨fun hn => (hnew n hn).2 rfl, hnodup⟩, fun m hm => (hnew m hm).1⟩
      · rintro ⟨⟨hn, hnodup⟩, hnew⟩
        exact ⟨hnodup, fun m hm => ⟨hnew m hm, fun hmn => hn (hmn ▸ hm)⟩⟩

/-- The schemas bring names that are new, each of them once. -/
def Fresh (known : List String) (schemas : List Schema) : Prop :=
  (schemas.map Schema.name).Nodup ∧ ∀ s ∈ schemas, s.name ∉ known

theorem fresh_iff : Fresh known schemas ↔ clash? known (schemas.map Schema.name) = none := by
  simp [Fresh, clash?_eq_none_iff]

theorem add_eq_ok_iff : d.add family schemas = .ok d' ↔ Fresh d.names schemas
    ∧ d'.families = d.families ++ [family] ∧ d'.entries = d.entries ++ schemas.map (·, family) := by
  rw [fresh_iff]
  unfold add
  split
  · next n h => simp [h]
  · next h =>
    obtain ⟨families, entries, distinct⟩ := d'
    simp [h, eq_comm]

theorem add_eq_error_iff : d.add family schemas = .error e
    ↔ ∃ s, e = .conflict s.name ∧ FirstClash d.names schemas s := by
  unfold add
  split
  · next n h =>
    obtain ⟨s, rfl, hs⟩ := clash?_eq_some_iff.1 h
    constructor
    · rintro ⟨⟩
      exact ⟨s, rfl, hs⟩
    · rintro ⟨s', rfl, hs'⟩
      have := clash?_eq_some_iff.2 ⟨s', rfl, hs'⟩
      rw [h] at this
      rw [Option.some.inj this]
  · next h =>
    constructor
    · rintro ⟨⟩
    · rintro ⟨s, rfl, hs⟩
      rw [clash?_eq_some_iff.2 ⟨s, rfl, hs⟩] at h
      cases h

theorem exists_addFamily_error_iff :
    (∃ e, d.addFamily f = .error e) ↔ ¬ Fresh d.names f.schemas := by
  rw [fresh_iff, addFamily]
  unfold add
  split
  · next n h => simp [h]
  · next h => simp [h]

theorem adding_of_ok (h : d.add family schemas = .ok d') : d.adding family schemas = d' := by
  rw [adding, h]

theorem adding_of_error (h : d.add family schemas = .error e) : d.adding family schemas = d := by
  rw [adding, h]

/-! ### What a dialect consists of -/

/-- The dialect has the schemas of the families and no others, in this order. -/
structure MadeOf (d : Dialect) (fs : List Family) : Prop where
  families_eq : d.families = fs.map Family.name
  entries_eq : d.entries = fs.flatMap fun f => f.schemas.map (·, f.name)

theorem madeOf_empty : empty.MadeOf [] := ⟨rfl, rfl⟩

theorem MadeOf.concat (h : d.MadeOf fs) (hadd : d.addFamily f = .ok d') :
    d'.MadeOf (fs ++ [f]) := by
  obtain ⟨-, hfamilies, hentries⟩ := add_eq_ok_iff.1 hadd
  refine ⟨?_, ?_⟩
  · simp [hfamilies, h.families_eq]
  · simp [hentries, h.entries_eq]

theorem MadeOf.mem_entries_iff (h : d.MadeOf fs) :
    (s, family) ∈ d.entries ↔ ∃ f ∈ fs, f.name = family ∧ s ∈ f.schemas := by
  simp only [h.entries_eq, List.mem_flatMap, List.mem_map, Prod.mk.injEq]
  constructor
  · rintro ⟨f, hf, s, hs, rfl, rfl⟩
    exact ⟨f, hf, rfl, hs⟩
  · rintro ⟨f, hf, rfl, hs⟩
    exact ⟨f, hf, s, hs, rfl, rfl⟩

theorem familyOf?_eq_some_iff :
    d.familyOf? name = some family ↔ ∃ s, (s, family) ∈ d.entries ∧ s.name = name := by
  simp only [familyOf?, Option.map_eq_some_iff, find?_entries_eq_some_iff]
  constructor
  · rintro ⟨⟨s, family⟩, h, rfl⟩
    exact ⟨s, h⟩
  · rintro ⟨s, h⟩
    exact ⟨(s, family), h, rfl⟩

/-- What a dialect answers that consists of the families. -/
structure Answers (d : Dialect) (fs : List Family) : Prop where
  families_eq : d.families = fs.map Family.name
  schemas_eq : d.schemas = fs.flatMap Family.schemas
  /-- No two schemas have one name. -/
  distinct : (d.schemas.map Schema.name).Nodup
  /-- What is known under a name is the schema of this name. -/
  schema?_iff : ∀ n s, d.schema? n = some s ↔ s ∈ d.schemas ∧ s.name = n
  resolve_iff : ∀ n s, d.resolve n = .ok s ↔ d.schema? n = some s
  /-- A name is owned by the family that brought the schema. -/
  familyOf?_iff : ∀ n family, d.familyOf? n = some family
    ↔ ∃ f ∈ fs, f.name = family ∧ ∃ s ∈ f.schemas, s.name = n
  isSome_eq : ∀ n, (d.schema? n).isSome = (d.familyOf? n).isSome

theorem MadeOf.answers (h : d.MadeOf fs) : d.Answers fs where
  families_eq := h.families_eq
  schemas_eq := by simp [schemas, h.entries_eq, List.map_flatMap, Function.comp_def]
  distinct := by simpa [schemas, List.map_map, Function.comp_def] using d.distinct
  schema?_iff _ _ := schema?_eq_some_iff
  resolve_iff n s := by
    rw [resolve]
    cases d.schema? n <;> simp
  familyOf?_iff n family := by
    simp only [familyOf?_eq_some_iff, h.mem_entries_iff]
    constructor
    · rintro ⟨s, ⟨f, hf, hname, hs⟩, hn⟩
      exact ⟨f, hf, hname, s, hs, hn⟩
    · rintro ⟨f, hf, hname, s, hs, hn⟩
      exact ⟨s, ⟨f, hf, hname, hs⟩, hn⟩
  isSome_eq n := by simp [schema?, familyOf?]

/-! ### Any number of additions -/

/-- The dialect after it was told to add the families, whichever of them it refused. -/
def told (d : Dialect) (fs : List Family) : Dialect :=
  fs.foldl (fun d f => d.adding f.name f.schemas) d

/-- The families that were not refused. -/
def accepted (d : Dialect) : List Family → List Family
  | [] => []
  | f :: fs =>
    match d.addFamily f with
    | .ok d' => f :: accepted d' fs
    | .error _ => accepted d fs

theorem MadeOf.told (h : d.MadeOf gs) : (d.told fs).MadeOf (gs ++ d.accepted fs) := by
  induction fs generalizing d gs with
  | nil => simpa [Dialect.told, accepted] using h
  | cons f fs ih =>
    rw [Dialect.told, List.foldl_cons, accepted]
    cases hadd : d.addFamily f with
    | ok d' =>
      have ih := ih (h.concat hadd)
      rw [List.append_assoc, List.singleton_append] at ih
      rwa [adding_of_ok hadd]
    | error e =>
      rw [adding_of_error hadd]
      exact ih h

theorem names_of_addFamily (h : d.addFamily f = .ok d') :
    d'.names = d.names ++ f.schemas.map Schema.name := by
  obtain ⟨-, -, hentries⟩ := add_eq_ok_iff.1 h
  simp [names, hentries, Function.comp_def]

theorem fresh_names_iff :
    Fresh d.names schemas ↔ (d.names ++ schemas.map Schema.name).Nodup := by
  rw [Fresh, List.nodup_append]
  constructor
  · rintro ⟨hnodup, hnew⟩
    refine ⟨d.distinct, hnodup, fun n hn m hm hnm => ?_⟩
    obtain ⟨s, hs, rfl⟩ := List.mem_map.1 hm
    exact hnew s hs (hnm ▸ hn)
  · rintro ⟨-, hnodup, hne⟩
    exact ⟨hnodup, fun s hs hn => hne _ hn _ (List.mem_map_of_mem hs) rfl⟩

/-- No family of a list is refused just if no name comes twice. -/
theorem exists_foldlM_iff : (∃ d', fs.foldlM addFamily d = .ok d')
    ↔ (d.names ++ fs.flatMap fun f => f.schemas.map Schema.name).Nodup := by
  induction fs generalizing d with
  | nil =>
    simp only [List.flatMap_nil, List.append_nil]
    exact ⟨fun _ => d.distinct, fun _ => ⟨d, rfl⟩⟩
  | cons f fs ih =>
    rw [List.foldlM_cons, List.flatMap_cons, ← List.append_assoc]
    cases hadd : d.addFamily f with
    | ok d' =>
      rw [← names_of_addFamily hadd, ← ih]
      rfl
    | error e =>
      have hclash := exists_addFamily_error_iff.1 ⟨e, hadd⟩
      rw [fresh_names_iff] at hclash
      constructor
      · rintro ⟨d', ⟨⟩⟩
      · exact fun h => absurd (List.nodup_append.1 h).1 hclash

theorem MadeOf.foldlM (h : d.MadeOf gs) (hadd : fs.foldlM addFamily d = .ok d') :
    d'.MadeOf (gs ++ fs) := by
  induction fs generalizing d gs with
  | nil =>
    cases hadd
    simpa using h
  | cons f fs ih =>
    rw [List.foldlM_cons] at hadd
    cases hf : d.addFamily f with
    | error e =>
      rw [hf] at hadd
      cases hadd
    | ok d₁ =>
      rw [hf] at hadd
      simpa using ih (h.concat hf) hadd

/-- The order of the families makes no difference to what is known under a name. -/
theorem MadeOf.lookups_eq (h : d.MadeOf fs) (h' : d'.MadeOf gs) (hperm : fs.Perm gs) (n : String) :
    d'.schema? n = d.schema? n ∧ d'.familyOf? n = d.familyOf? n := by
  constructor
  · refine Option.ext fun s => ?_
    rw [h.answers.schema?_iff, h'.answers.schema?_iff, h.answers.schemas_eq, h'.answers.schemas_eq,
      (hperm.flatMap_right _).mem_iff]
  · refine Option.ext fun family => ?_
    simp only [h.answers.familyOf?_iff, h'.answers.familyOf?_iff, hperm.mem_iff]

end Dialect

/-! ### Three tables -/

/-- Puts a value under a key: in the place of an older value, else at the end. -/
def putAt {α : Type} (key : String) (v : α) : List (String × α) → List (String × α)
  | [] => [(key, v)]
  | (k, w) :: rest => if k = key then (k, v) :: rest else (k, w) :: putAt key v rest

theorem putAt_of_new {α : Type} {key : String} (v : α) {table : List (String × α)}
    (h : key ∉ table.map Prod.fst) : putAt key v table = table ++ [(key, v)] := by
  induction table with
  | nil => rfl
  | cons entry table ih =>
    obtain ⟨k, w⟩ := entry
    simp only [List.map_cons, List.mem_cons, not_or] at h
    rw [putAt, if_neg (Ne.symm h.1), ih h.2, List.cons_append]

/-- A dialect in three tables: its schemas by name, who owns each name, and the families. -/
structure Tables where
  registry : List (String × Schema)
  owners : List (String × String)
  families : List String

namespace Tables

/-- The first schema whose name comes earlier among the schemas or is registered. -/
def clashFrom? (t : Tables) (before : List Schema) : List Schema → Option Schema
  | [] => none
  | s :: rest =>
    if before.any (·.name = s.name) || (t.registry.lookup s.name).isSome then some s
    else t.clashFrom? (before ++ [s]) rest

/-- Puts a schema under its name and its owner beside it. -/
def register (family : String) (t : Tables) (s : Schema) : Tables :=
  { t with registry := putAt s.name s t.registry, owners := putAt s.name family t.owners }

/-- Adds a family: all names are looked at before the first schema is registered. -/
def add (t : Tables) (f : Family) : Except Error Unit × Tables :=
  match t.clashFrom? [] f.schemas with
  | some s => (.error (.conflict s.name), t)
  | none =>
    let t := f.schemas.foldl (register f.name) t
    (.ok (), { t with families := t.families ++ [f.name] })

/-- The tables after they were told to add the families, one after another. -/
def told (t : Tables) (fs : List Family) : Tables := fs.foldl (fun t f => (t.add f).2) t

/-- Where keys and owners go together, schemas with new names are registered at both ends. -/
theorem foldl_register {t : Tables} {schemas : List Schema}
    (hkeys : t.owners.map Prod.fst = t.registry.map Prod.fst)
    (hnew : (t.registry.map Prod.fst ++ schemas.map Schema.name).Nodup) (family : String) :
    schemas.foldl (register family) t = ⟨t.registry ++ schemas.map fun s => (s.name, s),
      t.owners ++ schemas.map fun s => (s.name, family), t.families⟩ := by
  induction schemas generalizing t with
  | nil => simp
  | cons s schemas ih =>
    have hregistry : s.name ∉ t.registry.map Prod.fst := fun hs =>
      (List.nodup_append.1 hnew).2.2 _ hs _ (List.mem_cons_self ..) rfl
    have howners : s.name ∉ t.owners.map Prod.fst := hkeys ▸ hregistry
    rw [List.foldl_cons, register, putAt_of_new s hregistry, putAt_of_new family howners, ih]
    · simp
    · simp [hkeys]
    · simpa using hnew

end Tables

namespace Dialect

variable {d d' : Dialect} {f : Family} {fs gs : List Family} {schemas : List Schema} {name : String}

/-- The tables that hold a dialect. -/
def tables (d : Dialect) : Tables where
  registry := d.entries.map fun e => (e.1.name, e.1)
  owners := d.entries.map fun e => (e.1.name, e.2)
  families := d.families

theorem lookup_tables (d : Dialect) (name : String) :
    d.tables.registry.lookup name = d.schema? name
      ∧ d.tables.owners.lookup name = d.familyOf? name := by
  rw [schema?, familyOf?, tables]
  dsimp only
  induction d.entries with
  | nil => exact ⟨rfl, rfl⟩
  | cons e entries ih =>
    rw [List.map_cons, List.map_cons, List.lookup_cons, List.lookup_cons, List.find?_cons]
    by_cases h : e.1.name = name
    · simp [h]
    · have hne : (name == e.1.name) = false := by simpa using Ne.symm h
      simp [h, hne, ih]

theorem isSome_schema?_iff : (d.schema? name).isSome ↔ name ∈ d.names := by
  rw [schema?, Option.isSome_map, List.find?_isSome]
  simp [names]

/-- Looking at what comes earlier and what is registered finds the first clash. -/
theorem clashFrom?_tables (d : Dialect) (before schemas : List Schema) :
    (d.tables.clashFrom? before schemas).map Schema.name
      = clash? (d.names ++ before.map Schema.name) (schemas.map Schema.name) := by
  induction schemas generalizing before with
  | nil => rfl
  | cons s schemas ih =>
    rw [Tables.clashFrom?, List.map_cons, clash?]
    have hiff : (before.any (·.name = s.name) || (d.tables.registry.lookup s.name).isSome) = true
        ↔ s.name ∈ d.names ++ before.map Schema.name := by
      rw [(d.lookup_tables s.name).1, Bool.or_eq_true, isSome_schema?_iff, List.mem_append,
        List.mem_map, or_comm]
      simp
    simp only [hiff]
    split
    · rfl
    · rw [ih]
      simp

/-- The tables of a dialect answer as the dialect, and become those of the dialect it becomes. -/
theorem tables_add (d : Dialect) (f : Family) : d.tables.add f
    = (match d.addFamily f with | .ok _ => .ok () | .error e => .error e,
      (d.adding f.name f.schemas).tables) := by
  have hclash := d.clashFrom?_tables [] f.schemas
  rw [List.map_nil, List.append_nil] at hclash
  rw [Tables.add]
  cases hadd : d.addFamily f with
  | error e =>
    obtain ⟨s, rfl, hs⟩ := add_eq_error_iff.1 hadd
    rw [clash?_eq_some_iff.2 ⟨s, rfl, hs⟩] at hclash
    obtain ⟨s', hs', hname⟩ := Option.map_eq_some_iff.1 hclash
    rw [hs', adding_of_error hadd]
    dsimp only
    rw [hname]
  | ok d' =>
    obtain ⟨hfresh, hfamilies, hentries⟩ := add_eq_ok_iff.1 hadd
    rw [fresh_iff.1 hfresh] at hclash
    have hnew := fresh_names_iff.1 hfresh
    rw [Option.map_eq_none_iff.1 hclash, adding_of_ok hadd]
    dsimp only
    rw [Tables.foldl_register (by simp [tables, Function.comp_def])
      (by simpa [tables, names, Function.comp_def] using hnew)]
    simp [tables, hfamilies, hentries, Function.comp_def]

theorem tables_told (d : Dialect) (fs : List Family) : d.tables.told fs = (d.told fs).tables := by
  induction fs generalizing d with
  | nil => rfl
  | cons f fs ih =>
    rw [Tables.told, List.foldl_cons, d.tables_add]
    exact ih _

/-- What comes of telling a dialect, or its tables, to add a family. -/
structure Addition (d : Dialect) (f : Family) : Prop where
  /-- The family is refused if its schemas bring a name twice, or one that is known. -/
  refused_iff : (∃ e, d.addFamily f = .error e)
    ↔ ¬ (f.schemas.map Schema.name).Nodup ∨ ∃ s ∈ f.schemas, s.name ∈ d.names
  /-- Then the first such schema is reported, and all is as before. -/
  refused : ∀ e, d.addFamily f = .error e →
    (∃ s, e = .conflict s.name ∧ FirstClash d.names f.schemas s)
      ∧ d.adding f.name f.schemas = d ∧ d.tables.add f = (.error e, d.tables)
  /-- Else the family and its schemas are put at the end. -/
  accepted : ∀ d', d.addFamily f = .ok d' → d'.families = d.families ++ [f.name]
    ∧ d'.schemas = d.schemas ++ f.schemas
    ∧ d.adding f.name f.schemas = d' ∧ d.tables.add f = (.ok (), d'.tables)

theorem addition (d : Dialect) (f : Family) : d.Addition f where
  refused_iff := by
    rw [exists_addFamily_error_iff, Fresh, not_and_or]
    simp
  refused e h := by
    refine ⟨add_eq_error_iff.1 h, adding_of_error h, ?_⟩
    rw [tables_add, h, adding_of_error h]
  accepted d' h := by
    refine ⟨(add_eq_ok_iff.1 h).2.1, schemas_of_add h, adding_of_ok h, ?_⟩
    rw [tables_add, h, adding_of_ok h]

/-- Whatever families an empty dialect was told to add, it answers what the families that it has
accepted tell, and the three tables in which it is kept are still those of the dialect. At any time
a family is either refused, for the first of its schemas that clashes, and then nothing has changed,
or put at the end with its schemas. No family of a list is refused just if all names of its schemas
are different; then none is refused in any other order, and each name stands for the same schema of
the same family. -/
theorem additions_atomic :
    (∀ history : List Family, (empty.told history).Answers (empty.accepted history)
      ∧ empty.tables.told history = (empty.told history).tables)
    ∧ (∀ d : Dialect, (∀ f, d.Addition f) ∧ ∀ n, d.tables.registry.lookup n = d.schema? n
      ∧ d.tables.owners.lookup n = d.familyOf? n)
    ∧ (∀ fs : List Family, (∃ d, fs.foldlM addFamily empty = .ok d)
      ↔ (fs.flatMap fun f => f.schemas.map Schema.name).Nodup)
    ∧ ∀ (fs gs : List Family) (d : Dialect), fs.Perm gs → fs.foldlM addFamily empty = .ok d →
      ∃ d', gs.foldlM addFamily empty = .ok d'
        ∧ ∀ n, d'.schema? n = d.schema? n ∧ d'.familyOf? n = d.familyOf? n := by
  have haccepts (fs : List Family) : (∃ d, fs.foldlM addFamily empty = .ok d)
      ↔ (fs.flatMap fun f => f.schemas.map Schema.name).Nodup := exists_foldlM_iff
  refine ⟨fun history => ⟨?_, empty.tables_told history⟩,
    fun d => ⟨d.addition, d.lookup_tables⟩, haccepts, fun fs gs d hperm hadd => ?_⟩
  · exact MadeOf.answers (madeOf_empty.told)
  · have hnames := (haccepts fs).1 ⟨d, hadd⟩
    obtain ⟨d', hadd'⟩ := (haccepts gs).2 ((hperm.flatMap_right _).nodup_iff.1 hnames)
    exact ⟨d', hadd', (madeOf_empty.foldlM hadd).lookups_eq (madeOf_empty.foldlM hadd') hperm⟩

/-- A family of two schemas. -/
def numbers : Family :=
  ⟨"Numbers", [⟨"Num", [⟨"value", .int⟩], none, by decide⟩,
    ⟨"Sum", [], some ⟨"terms", .node⟩, by decide⟩]⟩

/-- A family that brings a new name and one of a number. -/
def clashing : Family :=
  ⟨"Clashing", [⟨"New", [], none, by decide⟩, ⟨"Num", [⟨"text", .str⟩], none, by decide⟩]⟩

/-- A family without schemas. -/
def bare : Family := ⟨"Bare", []⟩

/-- The family that clashes is refused as a whole, also its new name; the others may come in any
order. -/
theorem additions_atomic_numbers :
    (empty.told [numbers, clashing, bare]).families = ["Numbers", "Bare"]
    ∧ (empty.told [numbers, clashing, bare]).schema? "New" = none
    ∧ (empty.told [numbers]).tables.add clashing
      = (.error (.conflict "Num"), (empty.told [numbers]).tables)
    ∧ ∃ d d', [numbers, bare].foldlM addFamily empty = .ok d
      ∧ [bare, numbers].foldlM addFamily empty = .ok d'
      ∧ ∀ n, d'.schema? n = d.schema? n ∧ d'.familyOf? n = d.familyOf? n := by
  obtain ⟨hhistory, hd, haccepts, horder⟩ := additions_atomic
  have hanswers := (hhistory [numbers, clashing, bare]).1
  refine ⟨hanswers.families_eq, ?_, ?_, ?_⟩
  · refine Option.eq_none_iff_forall_ne_some.2 fun s hs => ?_
    rw [hanswers.schema?_iff, hanswers.schemas_eq] at hs
    obtain ⟨hs, hname⟩ := hs
    have hnames := List.mem_map_of_mem (f := Schema.name) hs
    rw [hname] at hnames
    revert hnames
    decide
  · exact (((hd _).1 clashing).refused _ rfl).2.2
  · obtain ⟨d, hadd⟩ := (haccepts [numbers, bare]).2 (by decide)
    obtain ⟨d', hadd', hsame⟩ := horder _ [bare, numbers] d (.swap ..) hadd
    exact ⟨d, d', hadd, hadd', hsame⟩

end Dialect

end TermGraph
