import TermGraph.Proofs.Dialect.Typed

/-!
Why arguments are refused. Either there are too few or too many of them, or the first that is not of
its field's kind is at fault, whatever comes after it. Main statement: typed nodes and arguments that
are not refused are in one-to-one correspondence, and reading a typed node gives the same reason as
the check of its schema.
-/

namespace TermGraph

namespace Schema

variable {s : Schema} {args : List Value} {m : Mismatch} {e : Error}

/-- The field for the argument at a place, if there is one for it. -/
def fieldFor? (fs : List Field) (rest : Option Field) (i : Nat) : Option Field := fs[i]?.or rest

/-- The arguments up to some place are of their fields' kinds. -/
def FitsUpTo (fs : List Field) (rest : Option Field) (before : List Value) : Prop :=
  ∀ i v, before[i]? = some v → ∃ f, fieldFor? fs rest i = some f ∧ f.kind.accepts v = true

/-- The reason for refusing arguments, said without the check. -/
inductive Refuses (s : Schema) (args : List Value) : Mismatch → Prop
  /-- There are too few or too many. -/
  | arity : ¬ (if s.rest.isSome then s.fixed.length ≤ args.length else args.length = s.fixed.length) →
    Refuses s args (.arity s.fixed.length s.rest.isSome args.length)
  /-- Their number is right, and the first misfit is `v`, which the field `f` should take. -/
  | kind {before after : List Value} {v : Value} {f : Field} :
    (if s.rest.isSome then s.fixed.length ≤ args.length else args.length = s.fixed.length) →
    args = before ++ v :: after → FitsUpTo s.fixed s.rest before →
    fieldFor? s.fixed s.rest before.length = some f → f.kind.accepts v = false →
    Refuses s args (.kind f.name f.kind v)

theorem fitsUpTo_nil (fs : List Field) (rest : Option Field) : FitsUpTo fs rest [] := by
  intro i v hv
  simp at hv

/-- The field after the first one is the first of the others. -/
theorem fieldFor?_succ (fs : List Field) (rest : Option Field) (i : Nat) :
    fieldFor? fs rest (i + 1) = fieldFor? fs.tail rest i := by
  simp [fieldFor?]

theorem fitsUpTo_cons {fs : List Field} {rest : Option Field} {v : Value} {vs : List Value} :
    FitsUpTo fs rest (v :: vs) ↔
      (∃ f, fieldFor? fs rest 0 = some f ∧ f.kind.accepts v = true) ∧ FitsUpTo fs.tail rest vs := by
  constructor
  · intro h
    refine ⟨h 0 v rfl, fun i w hw => ?_⟩
    rw [← fieldFor?_succ]
    exact h (i + 1) w hw
  · rintro ⟨hv, hvs⟩ i w hw
    cases i with
    | zero =>
      cases hw
      exact hv
    | succ i =>
      rw [fieldFor?_succ]
      exact hvs i w hw

/-- One step of the scan: the field of the first value decides, or the scan goes on. -/
theorem misfit?_cons (fs : List Field) (rest : Option Field) (v : Value) (vs : List Value) :
    misfit? fs rest (v :: vs) = match fieldFor? fs rest 0 with
      | some f =>
        if f.kind.accepts v then misfit? fs.tail rest vs else some (.kind f.name f.kind v)
      | none => none := by
  cases fs with
  | nil => cases rest <;> rfl
  | cons f fs => rfl

/-- The scan finds the first misfit. -/
theorem misfit?_eq_some_iff {fs : List Field} {rest : Option Field} {vs : List Value} :
    misfit? fs rest vs = some m ↔ ∃ before v after f, vs = before ++ v :: after
      ∧ FitsUpTo fs rest before ∧ fieldFor? fs rest before.length = some f
      ∧ f.kind.accepts v = false ∧ m = .kind f.name f.kind v := by
  induction vs generalizing fs with
  | nil => cases fs <;> cases rest <;> simp [misfit?]
  | cons v vs ih =>
    rw [misfit?_cons]
    constructor
    · intro h
      split at h
      · next f hf =>
        split at h
        · next hv =>
          obtain ⟨before, w, after, f', rfl, hbefore, hf', hw, rfl⟩ := ih.1 h
          exact ⟨v :: before, w, after, f', rfl, fitsUpTo_cons.2 ⟨⟨f, hf, hv⟩, hbefore⟩,
            by rwa [List.length_cons, fieldFor?_succ], hw, rfl⟩
        · next hv =>
          cases h
          exact ⟨[], v, vs, f, rfl, fitsUpTo_nil fs rest, hf, by simpa using hv, rfl⟩
      · cases h
    · rintro ⟨before, w, after, f, hvs, hbefore, hf, hw, rfl⟩
      cases before with
      | nil =>
        cases hvs
        rw [List.length_nil] at hf
        simp [hf, hw]
      | cons b before =>
        cases hvs
        obtain ⟨⟨f', hf', hb⟩, hbefore⟩ := fitsUpTo_cons.1 hbefore
        rw [List.length_cons, fieldFor?_succ] at hf
        rw [hf']
        simp only [hb, if_true]
        exact ih.2 ⟨before, w, after, f, rfl, hbefore, hf, hw, rfl⟩

/-- The check gives the reason for refusing the arguments, in the name of the schema. -/
theorem check_eq_error_iff :
    s.check args = .error e ↔ ∃ m, e = .mismatch s.name m ∧ s.Refuses args m := by
  constructor
  · intro h
    rw [check] at h
    split at h
    · next htakes =>
      rw [takes_eq_true_iff] at htakes
      split at h
      · cases h
      · next m hm =>
        cases h
        obtain ⟨before, v, after, f, hargs, hbefore, hf, hv, rfl⟩ := misfit?_eq_some_iff.1 hm
        exact ⟨_, rfl, .kind htakes hargs hbefore hf hv⟩
    · next htakes =>
      cases h
      rw [takes_eq_true_iff] at htakes
      exact ⟨_, rfl, .arity htakes⟩
  · rintro ⟨m, rfl, hm⟩
    cases hm with
    | arity htakes =>
      rw [← takes_eq_true_iff] at htakes
      rw [check, if_neg htakes]
    | kind htakes hargs hbefore hf hv =>
      rw [← takes_eq_true_iff] at htakes
      rw [check, if_pos htakes, misfit?_eq_some_iff.2 ⟨_, _, _, _, hargs, hbefore, hf, hv, rfl⟩]

end Schema

namespace Typed

/-- Writing out and reading are inverse to each other. A typed node that is written out is read back
as it was; arguments that are read as a typed node are what it is written out as; and arguments are
refused just if the check of the schema refuses them, with the same error: it names the schema and
says that the number of arguments is wrong, or which is the first of them that is not of its field's
kind. -/
theorem reads_exactly (s : Schema) :
    (∀ t : Typed s, ofArgs s t.toArgs = .ok t)
    ∧ (∀ args (t : Typed s), ofArgs s args = .ok t → t.toArgs = args)
    ∧ ∀ args e, (ofArgs s args = .error e ↔ s.check args = .error e)
      ∧ (ofArgs s args = .error e ↔ ∃ m, e = .mismatch s.name m ∧ s.Refuses args m) := by
  refine ⟨ofArgs_toArgs, fun args t => toArgs_of_ofArgs, fun args e => ?_⟩
  have hsame : ofArgs s args = .error e ↔ s.check args = .error e := by
    rw [← refusal?_eq_some, refusal?_ofArgs, refusal?_eq_some]
  exact ⟨hsame, hsame.trans Schema.check_eq_error_iff⟩

/-- A schema with two fixed fields and a field at the end. -/
def tagged : Schema := ⟨"Tagged", [⟨"tag", .str⟩, ⟨"count", .int⟩], some ⟨"items", .node⟩, by decide⟩

/-- Of two wrong fields the first is named; without the rest the node is read, and written out as it
was; a single argument is too few. -/
theorem reads_exactly_tagged :
    ofArgs tagged [.str "t", .bool true, .int 1]
      = .error (.mismatch "Tagged" (.kind "count" .int (.bool true)))
    ∧ tagged.check [.str "t", .bool true, .int 1]
      = .error (.mismatch "Tagged" (.kind "count" .int (.bool true)))
    ∧ (∃ t, ofArgs tagged [.str "t", .int 2] = .ok t ∧ t.toArgs = [.str "t", .int 2])
    ∧ ofArgs tagged [.str "t"] = .error (.mismatch "Tagged" (.arity 2 true 1)) := by
  obtain ⟨-, hwrites, hrefuses⟩ := reads_exactly tagged
  have hbefore : Schema.FitsUpTo tagged.fixed tagged.rest [.str "t"] :=
    Schema.fitsUpTo_cons.2 ⟨⟨_, rfl, rfl⟩, Schema.fitsUpTo_nil _ _⟩
  have hargs : ([.str "t", .bool true, .int 1] : List Value) = [.str "t"] ++ .bool true :: [.int 1] :=
    rfl
  have hfield : Schema.fieldFor? tagged.fixed tagged.rest 1 = some ⟨"count", .int⟩ := rfl
  have hrefuses₁ := Schema.Refuses.kind (by decide) hargs hbefore hfield rfl
  have hkind := (hrefuses _ _).2.2 ⟨_, rfl, hrefuses₁⟩
  exact ⟨hkind, (hrefuses _ _).1.1 hkind, ⟨_, rfl, hwrites _ _ rfl⟩,
    (hrefuses _ _).2.2 ⟨_, rfl, .arity (by decide)⟩⟩

end Typed

end TermGraph
