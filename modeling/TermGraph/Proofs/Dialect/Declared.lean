import Mathlib.Data.List.Forall2
import TermGraph.Proofs.Dialect.Checked

/-!
Declared schemas. Declarations make a schema just if no name comes twice and only the last of them
takes the rest, and the schema keeps them as they were. Data for the declared fields can be put
together to arguments, and splitting the arguments gives the data back: the one is the inverse of
the other, and what cannot be split is no data put together.

A list of declarations knows its fields by their places only. The check can be made like this too:
an argument goes to the field at its own place, past the end to the last field. Then there are
differences that may be below zero and places that may not exist. Main statement: for declarations
that make a schema there are none, and the answer is that of the schema.
-/

namespace TermGraph

/-- What a declared field can hold: a value of its kind, or any number of them. -/
inductive FieldDecl.Holds (d : FieldDecl) : FieldData → Prop
  | one {v : Value} : d.rest = false → d.kind.accepts v = true → d.Holds (.one v)
  | many {vs : List Value} : d.rest = true → (∀ v ∈ vs, d.kind.accepts v = true) →
    d.Holds (.many vs)

namespace Schema

variable {name : String} {s : Schema} {fixed : List Field} {ds : List FieldDecl}
  {args : List Value} {data : List FieldData}

/-! ### Declaring -/

theorem decls_of_declareFrom {h : (fixed.map Field.name).Nodup} :
    declareFrom name fixed h ds = .ok s → s.name = name ∧ s.decls = fixed.map (⟨·, false⟩) ++ ds := by
  induction ds generalizing fixed with
  | nil =>
    intro hs
    cases hs
    simp [decls]
  | cons d ds ih =>
    intro hs
    rw [declareFrom] at hs
    split_ifs at hs with hlast _ hrest
    · cases hs
      obtain rfl : ds = [] := by simpa [hrest] using hlast
      obtain ⟨f, rest⟩ := d
      obtain rfl : rest = true := hrest
      simp [decls]
    · obtain ⟨hname, hdecls⟩ := ih hs
      obtain ⟨f, rest⟩ := d
      obtain rfl : rest = false := by simpa using hrest
      exact ⟨hname, by simp [hdecls]⟩

/-- The schema is found again from its own fields. -/
theorem declareFrom_decls (rest : Option Field) : ∀ (fs fixed : List Field)
    (h : (fixed.map Field.name).Nodup) (hall : ((fixed ++ fs ++ rest.toList).map Field.name).Nodup),
    declareFrom name fixed h (fs.map (⟨·, false⟩) ++ rest.toList.map (⟨·, true⟩))
      = .ok ⟨name, fixed ++ fs, rest, hall⟩
  | [], fixed, h, hall => by
    cases rest with
    | none => simp [declareFrom]
    | some f =>
      have hnew : f.name ∉ fixed.map Field.name := by
        simp only [List.append_nil, Option.toList_some, List.map_append, List.nodup_append] at hall
        exact fun hf => hall.2.2 _ hf _ (by simp) rfl
      simp [declareFrom, hnew]
  | f :: fs, fixed, h, hall => by
    have hnew : f.name ∉ fixed.map Field.name := by
      simp only [List.map_append, List.nodup_append, List.append_assoc] at hall
      exact fun hf => hall.2.2 _ hf _ (by simp) rfl
    have ih := declareFrom_decls rest fs (fixed ++ [f]) (nodup_names_concat h hnew)
      (by simpa using hall)
    simp [declareFrom, hnew, ih]

/-- Declaring gives the schema of the name and the declarations, and no other. -/
theorem declare_eq_ok_iff : declare name ds = .ok s ↔ s.name = name ∧ s.decls = ds := by
  constructor
  · intro h
    rw [declare] at h
    cases hs : declareFrom name [] List.nodup_nil ds with
    | error m =>
      rw [hs] at h
      cases h
    | ok s' =>
      rw [hs] at h
      cases h
      exact decls_of_declareFrom hs
  · rintro ⟨rfl, rfl⟩
    rw [declare, decls, declareFrom_decls s.rest s.fixed [] List.nodup_nil s.distinct]
    rfl

theorem map_name_decls (s : Schema) : s.decls.map (fun d => d.name) = s.fields.map Field.name := by
  simp [decls, fields, List.map_map, Function.comp_def]

theorem rest_eq_false_of_mem_dropLast {d : FieldDecl} (h : d ∈ s.decls.dropLast) :
    d.rest = false := by
  cases hrest : s.rest with
  | none =>
    have hmem := List.dropLast_subset _ h
    simp only [decls, hrest, Option.toList_none, List.map_nil, List.append_nil, List.mem_map] at hmem
    obtain ⟨f, -, rfl⟩ := hmem
    rfl
  | some f =>
    simp only [decls, hrest, Option.toList_some, List.map_cons, List.map_nil,
      List.dropLast_concat, List.mem_map] at h
    obtain ⟨f, -, rfl⟩ := h
    rfl

theorem eq_map_toField (h : ∀ d ∈ ds, d.rest = false) :
    ds = (ds.map FieldDecl.toField).map (⟨·, false⟩) := by
  rw [List.map_map]
  refine (List.map_id ds).symm.trans (List.map_congr_left fun d hd => ?_)
  obtain ⟨f, rest⟩ := d
  obtain rfl : rest = false := h _ hd
  rfl

/-- Declarations of which only the last may take the rest are fixed fields and a field at the end. -/
theorem exists_decls (h : ∀ d ∈ ds.dropLast, d.rest = false) : ∃ (fixed : List Field)
    (rest : Option Field), ds = fixed.map (⟨·, false⟩) ++ rest.toList.map (⟨·, true⟩) := by
  rcases List.eq_nil_or_concat ds with rfl | ⟨front, d, rfl⟩
  · exact ⟨[], none, rfl⟩
  · rw [List.concat_eq_append] at h ⊢
    rw [List.dropLast_concat] at h
    obtain ⟨f, rest⟩ := d
    cases rest with
    | true => exact ⟨front.map FieldDecl.toField, some f, by simp [← eq_map_toField h]⟩
    | false =>
      refine ⟨(front ++ [(⟨f, false⟩ : FieldDecl)]).map FieldDecl.toField, none, ?_⟩
      rw [← eq_map_toField (by simpa [or_imp, forall_and] using h)]
      simp

/-- Declarations make a schema just if no name comes twice and none but the last takes the rest. -/
theorem exists_declare_iff : (∃ s, declare name ds = .ok s)
    ↔ (ds.map fun d => d.name).Nodup ∧ ∀ d ∈ ds.dropLast, d.rest = false := by
  constructor
  · rintro ⟨s, hs⟩
    obtain ⟨-, rfl⟩ := declare_eq_ok_iff.1 hs
    rw [map_name_decls]
    exact ⟨s.distinct, fun d => rest_eq_false_of_mem_dropLast⟩
  · rintro ⟨hnames, hlast⟩
    obtain ⟨fixed, rest, rfl⟩ := exists_decls hlast
    have hdistinct : ((fixed ++ rest.toList).map Field.name).Nodup := by
      simpa [List.map_map, Function.comp_def] using hnames
    exact ⟨⟨name, fixed, rest, hdistinct⟩, declare_eq_ok_iff.2 ⟨rfl, rfl⟩⟩

/-! ### Data of the fields -/

theorem forall₂_holds_iff (rest : Option Field) : ∀ {fs : List Field} {data : List FieldData},
    List.Forall₂ FieldDecl.Holds (fs.map (⟨·, false⟩) ++ rest.toList.map (⟨·, true⟩)) data
      ↔ ∃ one many, List.Forall₂ (fun f v => f.kind.accepts v = true) fs one
        ∧ (∀ v ∈ many, ∃ f, rest = some f ∧ f.kind.accepts v = true)
        ∧ data = one.map .one ++ rest.toList.map fun _ => .many many
  | [], data => by
    cases rest with
    | none =>
      simp only [List.map_nil, Option.toList_none, List.append_nil, List.forall₂_nil_left_iff]
      constructor
      · rintro rfl
        exact ⟨[], [], by simp⟩
      · rintro ⟨one, many, hone, -, rfl⟩
        simp [hone]
    | some f =>
      simp only [List.map_nil, Option.toList_some, List.map_cons, List.nil_append]
      constructor
      · rintro (_ | ⟨⟨hrest⟩ | ⟨-, hmany⟩, ⟨⟩⟩)
        · cases hrest
        · next vs => exact ⟨[], vs, .nil, fun v hv => ⟨f, rfl, hmany v hv⟩, rfl⟩
      · rintro ⟨one, many, hone, hmany, rfl⟩
        obtain rfl : one = [] := by simpa using hone
        refine .cons (.many rfl fun v hv => ?_) .nil
        obtain ⟨f', hf', hv⟩ := hmany v hv
        cases hf'
        exact hv
  | f :: fs, data => by
    rw [List.map_cons, List.cons_append, List.forall₂_cons_left_iff]
    constructor
    · rintro ⟨x, data, ⟨-, hv⟩ | ⟨hrest⟩, hdata, rfl⟩
      · next v =>
        obtain ⟨one, many, hone, hmany, rfl⟩ := (forall₂_holds_iff rest).1 hdata
        exact ⟨v :: one, many, .cons hv hone, hmany, rfl⟩
      · cases hrest
    · rintro ⟨one, many, hone, hmany, rfl⟩
      obtain ⟨v, vs, hv, hvs, rfl⟩ := List.forall₂_cons_left_iff.1 hone
      exact ⟨_, _, .one rfl hv, (forall₂_holds_iff rest).2 ⟨vs, many, hvs, hmany, rfl⟩, rfl⟩

/-- Data that the declared fields can hold are those of some division of arguments. -/
theorem forall₂_holds_decls_iff : List.Forall₂ FieldDecl.Holds s.decls data
    ↔ ∃ args one many, s.Divides args one many ∧ data = s.dataOf one many := by
  rw [decls, forall₂_holds_iff]
  constructor
  · rintro ⟨one, many, hone, hmany, rfl⟩
    exact ⟨_, one, many, ⟨rfl, hone, hmany⟩, rfl⟩
  · rintro ⟨args, one, many, h, rfl⟩
    exact ⟨one, many, h.one_fit, h.many_fit, rfl⟩

/-- Arguments are split into data just if they are these data put together. -/
theorem split_eq_ok_iff : s.split args = .ok data
    ↔ List.Forall₂ FieldDecl.Holds s.decls data ∧ data.flatMap FieldData.values = args := by
  constructor
  · intro h
    obtain ⟨one, many, hdivides⟩ : s.Fits args := by
      rw [← check_eq_ok_iff]
      obtain ⟨_, hcheck, -⟩ := ok_of_map_ok h
      exact hcheck
    rw [hdivides.split_eq] at h
    cases h
    exact ⟨forall₂_holds_decls_iff.2 ⟨args, one, many, hdivides, rfl⟩, hdivides.flatMap_dataOf⟩
  · rintro ⟨hdata, rfl⟩
    obtain ⟨args, one, many, hdivides, rfl⟩ := forall₂_holds_decls_iff.1 hdata
    rw [hdivides.flatMap_dataOf]
    exact hdivides.split_eq

theorem exists_split_iff : (∃ data, s.split args = .ok data) ↔ s.Fits args := by
  rw [← refusal?_eq_none, refusal?_split, refusal?_eq_none_of_unit, check_eq_ok_iff]

end Schema

/-! ### The check by places -/

/-- The difference of two numbers, if it is not below zero. -/
def minus? (m n : Nat) : Option Nat := if n ≤ m then some (m - n) else none

/-- The part of a list from one place up to another, if there are these places. -/
def slice? {α : Type} (xs : List α) (i j : Nat) : Option (List α) :=
  if i ≤ j ∧ j ≤ xs.length then some ((xs.take j).drop i) else none

namespace FieldDecl

/-- The last declaration, if it takes the rest. -/
def last? (ds : List FieldDecl) : Option FieldDecl := ds.getLast?.filter (·.rest)

/-- How many declarations take one value. -/
def fixedCount? (ds : List FieldDecl) : Option Nat :=
  minus? ds.length (if (last? ds).isSome then 1 else 0)

/-- The declaration for the argument at a place: the one at this place, past the end the last. -/
def at? (ds : List FieldDecl) (i : Nat) : Option FieldDecl := do
  let last ← minus? ds.length 1
  ds[min i last]?

/-- The first misfit among the arguments, of which the first is at place `i`. -/
def misfitFrom? (ds : List FieldDecl) : Nat → List Value → Option (Option Mismatch)
  | _, [] => some none
  | i, v :: vs => do
    let d ← at? ds i
    if d.kind.accepts v then misfitFrom? ds (i + 1) vs else some (some (.kind d.name d.kind v))

/-- The check of arguments by places. -/
def check? (name : String) (ds : List FieldDecl) (args : List Value) :
    Option (Except Error Unit) := do
  let fixed ← fixedCount? ds
  let orMore := (last? ds).isSome
  if (if orMore then fixed ≤ args.length else args.length = fixed) then
    (misfitFrom? ds 0 args).map fun
      | none => .ok ()
      | some m => .error (.mismatch name m)
  else some (.error (.mismatch name (.arity fixed orMore args.length)))

/-- The data of the fields, cut out of the arguments by places. -/
def split? (name : String) (ds : List FieldDecl) (args : List Value) :
    Option (Except Error (List FieldData)) := do
  match ← check? name ds args with
  | .error e => some (.error e)
  | .ok _ =>
    let fixed ← fixedCount? ds
    let one ← slice? args 0 fixed
    if (last? ds).isSome then
      let many ← slice? args fixed args.length
      some (.ok (one.map .one ++ [.many many]))
    else some (.ok (one.map .one))

end FieldDecl

namespace Schema

variable {s : Schema} {args : List Value} {f : Field} {i : Nat}

theorem last?_decls (s : Schema) : FieldDecl.last? s.decls = s.rest.map (⟨·, true⟩) := by
  cases hrest : s.rest with
  | none =>
    rw [FieldDecl.last?, decls, hrest]
    simp only [Option.toList_none, List.map_nil, List.append_nil, List.getLast?_map]
    cases s.fixed.getLast? <;> rfl
  | some f => simp [FieldDecl.last?, decls, hrest]

theorem length_decls (s : Schema) :
    s.decls.length = s.fixed.length + if s.rest.isSome then 1 else 0 := by
  cases hrest : s.rest <;> simp [decls, hrest]

/-- A field is there to be taken off if it takes the rest. -/
theorem fixedCount?_decls (s : Schema) : FieldDecl.fixedCount? s.decls = some s.fixed.length := by
  rw [FieldDecl.fixedCount?, last?_decls, Option.isSome_map, length_decls, minus?]
  split <;> simp

theorem at?_decls_of_lt (h : i < s.fixed.length) :
    FieldDecl.at? s.decls i = some ⟨s.fixed[i], false⟩ := by
  have hlength := s.length_decls
  have hmin : min i (s.decls.length - 1) = i := by omega
  have hone : 1 ≤ s.decls.length := by omega
  rw [FieldDecl.at?, minus?, if_pos hone, Option.bind_eq_bind, Option.bind_some, hmin, decls,
    List.getElem?_append_left (by simpa using h)]
  simp [h]

/-- Past the fixed fields, the last place is that of the field at the end. -/
theorem at?_decls_of_le (hrest : s.rest = some f) (h : s.fixed.length ≤ i) :
    FieldDecl.at? s.decls i = some ⟨f, true⟩ := by
  have hlength : s.decls.length = s.fixed.length + 1 := by simp [length_decls, hrest]
  have hmin : min i (s.decls.length - 1) = s.fixed.length := by omega
  have hone : 1 ≤ s.decls.length := by omega
  rw [FieldDecl.at?, minus?, if_pos hone, Option.bind_eq_bind, Option.bind_some, hmin, decls, hrest]
  simp

/-- If their number fits, each argument has a field at its place. -/
theorem misfitFrom?_decls (s : Schema) (vs : List Value) (i : Nat)
    (h : s.rest = none → i + vs.length ≤ s.fixed.length) :
    FieldDecl.misfitFrom? s.decls i vs = some (misfit? (s.fixed.drop i) s.rest vs) := by
  induction vs generalizing i with
  | nil => simp [FieldDecl.misfitFrom?, misfit?]
  | cons v vs ih =>
    have ih := ih (i + 1) fun hrest => by
      have := h hrest
      simp only [List.length_cons] at this
      omega
    rw [FieldDecl.misfitFrom?]
    rcases Nat.lt_or_ge i s.fixed.length with hi | hi
    · rw [at?_decls_of_lt hi, List.drop_eq_getElem_cons hi, misfit?, ih]
      simp only [Option.bind_eq_bind, Option.bind_some]
      split <;> rfl
    · cases hrest : s.rest with
      | none =>
        have := h hrest
        simp only [List.length_cons] at this
        omega
      | some f =>
        rw [at?_decls_of_le hrest hi, List.drop_eq_nil_of_le hi, misfit?, ih, hrest,
          List.drop_eq_nil_of_le (by omega)]
        simp only [Option.bind_eq_bind, Option.bind_some]
        split <;> rfl

/-- Where the number of arguments is right, the scan by places has a field for each of them. -/
theorem misfitFrom?_of_takes (h : s.takes args.length = true) :
    FieldDecl.misfitFrom? s.decls 0 args = some (misfit? s.fixed s.rest args) := by
  refine misfitFrom?_decls s args 0 fun hrest => ?_
  rw [takes_eq_true_iff, hrest] at h
  simp at h
  omega

theorem check?_decls (s : Schema) (args : List Value) :
    FieldDecl.check? s.name s.decls args = some (s.check args) := by
  rw [FieldDecl.check?, fixedCount?_decls, last?_decls]
  simp only [Option.bind_eq_bind, Option.bind_some, Option.isSome_map, ← takes_eq_true_iff]
  rw [check]
  split
  · next htakes =>
    rw [misfitFrom?_of_takes htakes]
    cases misfit? s.fixed s.rest args <;> rfl
  · rfl

/-- Arguments that pass the check are long enough to be cut. -/
theorem split?_decls (s : Schema) (args : List Value) :
    FieldDecl.split? s.name s.decls args = some (s.split args) := by
  rw [FieldDecl.split?, check?_decls]
  simp only [Option.bind_eq_bind, Option.bind_some]
  cases hcheck : s.check args with
  | error e => simp [split, hcheck, Except.map]
  | ok _ =>
    obtain ⟨one, many, hdivides⟩ := check_eq_ok_iff.1 hcheck
    have hle : s.fixed.length ≤ args.length := le_of_takes hdivides.takes_length
    have hone : slice? args 0 s.fixed.length = some (args.take s.fixed.length) := by
      simp [slice?, hle]
    have hmany : slice? args s.fixed.length args.length = some (args.drop s.fixed.length) := by
      simp [slice?, hle]
    simp only [fixedCount?_decls, last?_decls, Option.bind_some, hone, hmany, split, hcheck]
    cases s.rest <;> simp [Except.map]

/-- A list of declarations makes a schema just if no name comes twice and no declaration but the last
takes the rest; the schema has the name and just these declarations. Whatever the arguments are,
check and split can be made by places without one that is missing. The check accepts the arguments
just if they are one value for each fixed field, followed by any number for the field at the end if
there is one, each of the field's kind. Splitting succeeds just then, and it gives those data of the
declared fields that are the arguments when put together, and no others. -/
theorem declared_splits (name : String) (ds : List FieldDecl) :
    ((∃ s, declare name ds = .ok s)
      ↔ (ds.map fun d => d.name).Nodup ∧ ∀ d ∈ ds.dropLast, d.rest = false)
    ∧ ∀ s, declare name ds = .ok s → s.name = name ∧ s.decls = ds ∧ ∀ args,
      FieldDecl.check? name ds args = some (s.check args)
      ∧ FieldDecl.split? name ds args = some (s.split args)
      ∧ (s.check args = .ok () ↔ s.Fits args)
      ∧ ((∃ data, s.split args = .ok data) ↔ s.Fits args)
      ∧ ∀ data, s.split args = .ok data
        ↔ List.Forall₂ FieldDecl.Holds ds data ∧ data.flatMap FieldData.values = args := by
  refine ⟨exists_declare_iff, fun s hs => ?_⟩
  obtain ⟨rfl, rfl⟩ := declare_eq_ok_iff.1 hs
  exact ⟨rfl, rfl, fun args => ⟨check?_decls s args, split?_decls s args, check_eq_ok_iff,
    exists_split_iff, fun data => split_eq_ok_iff⟩⟩

/-- A group may be empty after its head; without a head it is refused, and no place is missing. -/
theorem declared_splits_grouped :
    declare "Grouped" Dialect.grouped.decls = .ok Dialect.grouped
    ∧ Dialect.grouped.split [.str "h"] = .ok [.one (.str "h"), .many []]
    ∧ Dialect.grouped.split [.str "h", .int 1, .bool true]
      = .ok [.one (.str "h"), .many [.int 1, .bool true]]
    ∧ FieldDecl.check? "Grouped" Dialect.grouped.decls []
      = some (.error (.mismatch "Grouped" (.arity 1 true 0))) := by
  have hdeclare : declare "Grouped" Dialect.grouped.decls = .ok Dialect.grouped :=
    declare_eq_ok_iff.2 ⟨rfl, rfl⟩
  obtain ⟨-, -, hargs⟩ := (declared_splits _ _).2 _ hdeclare
  have hsplit := fun args => (hargs args).2.2.2.2
  refine ⟨hdeclare, (hsplit _ _).2 ⟨?_, rfl⟩, (hsplit _ _).2 ⟨?_, rfl⟩, (hargs []).1⟩
  · exact .cons (.one rfl rfl) (.cons (.many rfl fun v hv => by cases hv) .nil)
  · exact .cons (.one rfl rfl) (.cons (.many rfl fun _ _ => rfl) .nil)

end Schema

end TermGraph
