import Mathlib.Data.List.Forall2
import TermGraph.Dialect.Registry
import TermGraph.Proofs.Graph.Append

/-!
Which arguments fit a schema, said without the check: one value of its kind for each fixed field,
followed by any number of values of the kind of the field at the end. Main statements: the check
accepts just these, and what a match hands out are the two parts, each under the name of its field.
-/

namespace TermGraph

section Lookup

variable {κ β : Type} [BEq κ] [LawfulBEq κ] {ks : List κ} {k : κ}

/-- Where no key comes twice, each is paired with what stands at its place. -/
theorem lookup_zip_of_nodup (h : ks.Nodup) {i : Nat} (hk : ks[i]? = some k) (vs : List β) :
    (ks.zip vs).lookup k = vs[i]? := by
  induction ks generalizing i vs with
  | nil => simp at hk
  | cons k' ks ih =>
    obtain ⟨hnew, hrest⟩ := List.nodup_cons.1 h
    cases vs with
    | nil => simp
    | cons v vs =>
      rw [List.zip_cons_cons, List.lookup_cons]
      cases i with
      | zero =>
        cases hk
        rw [beq_self_eq_true]
        rfl
      | succ i =>
        have hne : (k == k') = false := beq_eq_false_iff_ne.2 fun he =>
          hnew (he ▸ List.mem_of_getElem? hk)
        rw [hne]
        exact ih hrest hk vs

theorem isSome_lookup_zip_iff {vs : List β} (h : vs.length = ks.length) :
    ((ks.zip vs).lookup k).isSome ↔ k ∈ ks := by
  rw [List.lookup_isSome_iff]
  constructor
  · rintro ⟨⟨k', v⟩, hmem, he⟩
    rw [eq_of_beq he]
    exact (List.of_mem_zip hmem).1
  · intro hk
    obtain ⟨i, hi, rfl⟩ := List.mem_iff_getElem.1 hk
    have hi' : i < (ks.zip vs).length := by rw [List.length_zip]; omega
    refine ⟨_, List.getElem_mem hi', ?_⟩
    rw [List.getElem_zip]
    exact beq_self_eq_true _

end Lookup

namespace Schema

variable {s : Schema} {args one many : List Value}

/-- The arguments are `one`, a value of its kind for each fixed field, followed by `many`, values of
the kind of the field at the end; if there is no such field, there are none. -/
structure Divides (s : Schema) (args one many : List Value) : Prop where
  args_eq : args = one ++ many
  one_fit : List.Forall₂ (fun f v => f.kind.accepts v = true) s.fixed one
  many_fit : ∀ v ∈ many, ∃ f, s.rest = some f ∧ f.kind.accepts v = true

/-- The arguments can be divided among the fields. -/
def Fits (s : Schema) (args : List Value) : Prop := ∃ one many, s.Divides args one many

/-! ### The check -/

theorem takes_eq_true_iff (s : Schema) (n : Nat) : s.takes n = true
    ↔ if s.rest.isSome then s.fixed.length ≤ n else n = s.fixed.length := by
  rw [takes]
  split <;> simp

theorem le_of_takes {n : Nat} (h : s.takes n = true) : s.fixed.length ≤ n := by
  rw [takes_eq_true_iff] at h
  split at h <;> omega

theorem misfit?_nil_eq_none_iff (rest : Option Field) : ∀ vs : List Value,
    misfit? [] rest vs = none ↔ ∀ v ∈ vs, ∀ f, rest = some f → f.kind.accepts v = true
  | [] => by cases rest <;> simp [misfit?]
  | v :: vs => by
    have ih := misfit?_nil_eq_none_iff rest vs
    cases rest with
    | none => simp [misfit?]
    | some f =>
      rw [misfit?, List.forall_mem_cons]
      split
      · next hv => simp [ih, hv]
      · next hv => simp [hv]

/-- No value is of the wrong kind if both parts are of the right ones. -/
theorem misfit?_eq_none_iff (rest : Option Field) : ∀ {fs : List Field} {vs : List Value},
    fs.length ≤ vs.length → (misfit? fs rest vs = none ↔
      List.Forall₂ (fun f v => f.kind.accepts v = true) fs (vs.take fs.length) ∧
        ∀ v ∈ vs.drop fs.length, ∀ f, rest = some f → f.kind.accepts v = true)
  | [], vs, _ => by simpa using misfit?_nil_eq_none_iff rest vs
  | f :: fs, v :: vs, h => by
    have ih := misfit?_eq_none_iff rest (Nat.le_of_succ_le_succ h)
    rw [misfit?, List.length_cons, List.take_succ_cons, List.drop_succ_cons, List.forall₂_cons]
    split
    · next hv => rw [ih, and_assoc, eq_true hv, true_and]
    · next hv => simp [hv]

theorem Divides.length_one (h : s.Divides args one many) : one.length = s.fixed.length :=
  h.one_fit.length_eq.symm

theorem Divides.one_eq (h : s.Divides args one many) : args.take s.fixed.length = one := by
  rw [h.args_eq, List.take_left' h.length_one]

theorem Divides.many_eq (h : s.Divides args one many) : args.drop s.fixed.length = many := by
  rw [h.args_eq, List.drop_left' h.length_one]

theorem Divides.takes_length (h : s.Divides args one many) : s.takes args.length = true := by
  have hlength : args.length = s.fixed.length + many.length := by
    rw [h.args_eq, List.length_append, h.length_one]
  rw [takes_eq_true_iff]
  split
  · omega
  · next hrest =>
    have hnone : many = [] := List.eq_nil_iff_forall_not_mem.2 fun v hv => by
      obtain ⟨f, hf, -⟩ := h.many_fit v hv
      rw [hf] at hrest
      exact hrest rfl
    simpa [hnone] using hlength

/-- The check accepts just what can be divided among the fields. -/
theorem check_eq_ok_iff : s.check args = .ok () ↔ s.Fits args := by
  constructor
  · intro h
    unfold check at h
    split at h
    · next htakes =>
      split at h
      · next hnone =>
        obtain ⟨hone, hmany⟩ := (misfit?_eq_none_iff _ (le_of_takes htakes)).1 hnone
        refine ⟨_, _, (List.take_append_drop s.fixed.length args).symm, hone, fun v hv => ?_⟩
        cases hrest : s.rest with
        | some f => exact ⟨f, rfl, hmany v hv f hrest⟩
        | none =>
          -- without a field at the end, the number of arguments leaves nothing over
          rw [takes_eq_true_iff, hrest, if_neg (by simp)] at htakes
          rw [List.drop_eq_nil_of_le (Nat.le_of_eq htakes)] at hv
          cases hv
      · cases h
    · cases h
  · rintro ⟨one, many, h⟩
    have hnone : misfit? s.fixed s.rest args = none := by
      rw [misfit?_eq_none_iff _ (le_of_takes h.takes_length), h.one_eq, h.many_eq]
      refine ⟨h.one_fit, fun v hv f hf => ?_⟩
      obtain ⟨f', hf', hkind⟩ := h.many_fit v hv
      cases hf.symm.trans hf'
      exact hkind
    rw [check, if_pos h.takes_length, hnone]

/-- What the check refuses, it refuses in the name of the schema. -/
theorem exists_mismatch_of_check_error {e : Error} (h : s.check args = .error e) :
    ∃ m, e = .mismatch s.name m := by
  unfold check at h
  split at h
  · split at h
    · cases h
    · cases h
      exact ⟨_, rfl⟩
  · cases h
    exact ⟨_, rfl⟩

/-! ### What the fields hold -/

/-- The data of the fields, in order, for the two parts of the arguments. -/
def dataOf (s : Schema) (one many : List Value) : List FieldData :=
  one.map .one ++ s.rest.toList.map fun _ => .many many

theorem Divides.split_eq (h : s.Divides args one many) :
    s.split args = .ok (s.dataOf one many) := by
  rw [split, check_eq_ok_iff.2 ⟨one, many, h⟩, h.one_eq, h.many_eq]
  rfl

theorem refusal?_split (s : Schema) (args : List Value) :
    refusal? (s.split args) = refusal? (s.check args) := refusal?_map _ _

theorem length_fields (s : Schema) : s.fields.length = s.fixed.length + s.rest.toList.length :=
  List.length_append

theorem Divides.length_dataOf (h : s.Divides args one many) :
    (s.dataOf one many).length = s.fields.length := by
  rw [dataOf, List.length_append, List.length_map, List.length_map, h.length_one, length_fields]

theorem Divides.getElem?_fixed (h : s.Divides args one many) {i : Nat} (hi : i < s.fixed.length) :
    (s.dataOf one many)[i]? = one[i]?.map .one := by
  rw [dataOf, List.getElem?_append_left (by rwa [List.length_map, h.length_one]), List.getElem?_map]

theorem Divides.getElem?_rest (h : s.Divides args one many) (hrest : s.rest.isSome) :
    (s.dataOf one many)[s.fixed.length]? = some (.many many) := by
  obtain ⟨f, hf⟩ := Option.isSome_iff_exists.1 hrest
  have hlength : (one.map FieldData.one).length = s.fixed.length := by
    rw [List.length_map, h.length_one]
  rw [dataOf, hf, ← hlength, List.getElem?_append_right (Nat.le_refl _), Nat.sub_self]
  rfl

theorem Divides.flatMap_dataOf (h : s.Divides args one many) :
    (s.dataOf one many).flatMap FieldData.values = args := by
  have hone (vs : List Value) : (vs.map FieldData.one).flatMap FieldData.values = vs := by
    rw [List.flatMap_map]
    exact List.flatMap_singleton' vs
  rw [dataOf, List.flatMap_append, hone, h.args_eq]
  refine congrArg (one ++ ·) ?_
  cases hrest : s.rest with
  | some f => simp [FieldData.values]
  | none =>
    refine (List.eq_nil_iff_forall_not_mem.2 fun v hv => ?_).symm
    obtain ⟨f, hf, -⟩ := h.many_fit v hv
    rw [hrest] at hf
    cases hf

end Schema

namespace Matched

/-- What a match shows of the arguments of its node. -/
structure Shows (m : Matched) (args : List Value) : Prop where
  /-- Put together, what the fields hold are the arguments. -/
  flat : m.data.flatMap FieldData.values = args
  length_eq : m.data.length = m.schema.fields.length
  /-- A fixed field holds one value. -/
  one : ∀ i < m.schema.fixed.length, ∃ v, m.data[i]? = some (.one v)
  /-- A field at the end holds any number. -/
  many : m.schema.rest.isSome → ∃ vs, m.data[m.schema.fixed.length]? = some (.many vs)
  /-- A field's name leads to what the field holds. -/
  get?_eq : ∀ (i : Nat) (f : Field), m.schema.fields[i]? = some f → m.get? f.name = m.data[i]?
  /-- No other name leads to anything. -/
  isSome_get?_iff : ∀ name, (m.get? name).isSome ↔ name ∈ m.schema.fields.map Field.name

/-- A field's name leads to what stands at the place of the field. -/
theorem get?_name (m : Matched) {i : Nat} {f : Field} (hf : m.schema.fields[i]? = some f) :
    m.get? f.name = m.data[i]? := by
  have hname : (m.schema.fields.map Field.name)[i]? = some f.name := by
    rw [List.getElem?_map, hf]
    rfl
  exact lookup_zip_of_nodup m.schema.distinct hname m.data

theorem shows_of_divides {s : Schema} {args one many : List Value} (h : s.Divides args one many)
    (n : Node) : Shows ⟨s, n, s.dataOf one many⟩ args := by
  refine ⟨h.flatMap_dataOf, h.length_dataOf, fun i hi => ?_,
    fun hrest => ⟨many, h.getElem?_rest hrest⟩, fun i f => get?_name _,
    fun name => isSome_lookup_zip_iff ?_⟩
  · have hi' : i < one.length := by rw [h.length_one]; exact hi
    refine ⟨one[i], (h.getElem?_fixed hi).trans ?_⟩
    rw [List.getElem?_eq_getElem hi']
    rfl
  · rw [List.length_map]
    exact h.length_dataOf

end Matched

end TermGraph
