import TermGraph.Proofs.Dialect.Fits

/-!
Typed nodes and their arguments. The arguments that a typed node is written out as fit its schema,
and reading gives the node back. Reading refuses any arguments that the schema refuses, and for the
same reason, although it looks at the fields one by one and the check at the values in a row.
-/

namespace TermGraph

namespace Field

/-! ### Reading what was written -/

theorem decode_toValue (f : Field) (c : f.kind.Carrier) :
    f.decode (some (f.kind.toValue c)) = .ok c := by
  rw [decode, f.kind.ofValue?_toValue]

theorem accepts_toValue (f : Field) (c : f.kind.Carrier) :
    f.kind.accepts (f.kind.toValue c) = true := by
  rw [← f.kind.isSome_ofValue?, f.kind.ofValue?_toValue]
  rfl

/-- The member of one of the fields. -/
def Members.get : (fs : List Field) → Members fs → (i : Fin fs.length) → fs[i].kind.Carrier
  | _ :: _, (c, _), ⟨0, _⟩ => c
  | _ :: fs, (_, cs), ⟨i + 1, h⟩ => get fs cs ⟨i, Nat.lt_of_succ_lt_succ h⟩

theorem encodeMembers_get : ∀ (fs : List Field) (cs : Members fs) (i : Fin fs.length),
    (encodeMembers fs cs)[i.val]? = some (fs[i].kind.toValue (Members.get fs cs i))
  | _ :: _, (_, _), ⟨0, _⟩ => rfl
  | _ :: fs, (_, cs), ⟨i + 1, h⟩ => encodeMembers_get fs cs ⟨i, Nat.lt_of_succ_lt_succ h⟩

/-- A member is written as a value of its field's kind. -/
theorem forall₂_encodeMembers : ∀ (fs : List Field) (cs : Members fs),
    List.Forall₂ (fun f v => f.kind.accepts v = true) fs (encodeMembers fs cs)
  | [], _ => .nil
  | f :: fs, (c, cs) => .cons (f.accepts_toValue c) (forall₂_encodeMembers fs cs)

theorem accepts_of_mem_encodeRest {rest : Option Field} {cs : Rest rest} {v : Value}
    (h : v ∈ encodeRest rest cs) : ∃ f, rest = some f ∧ f.kind.accepts v = true := by
  cases rest with
  | none => cases h
  | some f =>
    obtain ⟨c, -, rfl⟩ := List.mem_map.1 h
    exact ⟨f, rfl, f.accepts_toValue c⟩

theorem decodeMembers_encodeMembers : ∀ (fs : List Field) (cs : Members fs) (vs : List Value),
    decodeMembers fs (encodeMembers fs cs ++ vs) = .ok cs
  | [], (), _ => rfl
  | f :: fs, (c, cs), vs => by
    rw [encodeMembers, List.cons_append, decodeMembers, List.head?_cons, f.decode_toValue,
      List.tail_cons]
    dsimp only
    rw [decodeMembers_encodeMembers fs cs vs]
    rfl

theorem decodeRest_encodeRest (rest : Option Field) (cs : Rest rest) :
    decodeRest rest (encodeRest rest cs) = .ok cs := by
  cases rest with
  | none => rfl
  | some f =>
    have hmap : ∀ cs : List f.kind.Carrier,
        (cs.map f.kind.toValue).mapM (fun v => f.decode (some v)) = .ok cs := fun cs => by
      induction cs with
      | nil => rfl
      | cons c cs ih =>
        rw [List.map_cons, List.mapM_cons, f.decode_toValue, ih]
        rfl
    exact hmap cs

/-! ### Writing what was read -/

theorem toValue_of_decode {f : Field} {v : Option Value} {c : f.kind.Carrier}
    (h : f.decode v = .ok c) : v = some (f.kind.toValue c) := by
  cases v with
  | none => cases h
  | some v =>
    rw [decode] at h
    split at h
    · next hc =>
      cases h
      rw [Kind.toValue_of_ofValue? hc]
    · cases h

theorem encodeMembers_of_decodeMembers : ∀ {fs : List Field} {vs : List Value} {cs : Members fs},
    decodeMembers fs vs = .ok cs → encodeMembers fs cs = vs.take fs.length
  | [], _, _, _ => rfl
  | f :: fs, vs, cs, h => by
    rw [decodeMembers] at h
    split at h
    · cases h
    · next c hc =>
      obtain ⟨cs', hcs, rfl⟩ := ok_of_map_ok h
      obtain ⟨vs', rfl⟩ := List.head?_eq_some_iff.1 (toValue_of_decode hc)
      rw [encodeMembers, List.length_cons, List.take_succ_cons, encodeMembers_of_decodeMembers hcs,
        List.tail_cons]

/-- Without a field at the end nothing is read, so nothing may be left for it. -/
theorem encodeRest_of_decodeRest {rest : Option Field} {vs : List Value} {cs : Rest rest}
    (h : decodeRest rest vs = .ok cs) (hsome : ∀ v ∈ vs, rest.isSome) :
    encodeRest rest cs = vs := by
  cases rest with
  | none =>
    cases vs with
    | nil => rfl
    | cons v vs => cases hsome v (List.mem_cons_self ..)
  | some f =>
    have hmap : List.map f.kind.toValue cs = vs.map fun v => v :=
      map_eq_of_mapM_ok (fun v _ c hc => (Option.some.inj (toValue_of_decode hc)).symm) h
    rwa [List.map_id'] at hmap

/-! ### What reading refuses -/

theorem refusal?_decode (f : Field) (v : Value) : refusal? (f.decode (some v)) =
    if f.kind.accepts v then none else some (.kind f.name f.kind v) := by
  rw [decode, ← f.kind.isSome_ofValue?]
  cases f.kind.ofValue? v <;> rfl

theorem refusal?_decodeRest (rest : Option Field) (vs : List Value) :
    refusal? (decodeRest rest vs) = Schema.misfit? [] rest vs := by
  cases rest with
  | none => cases vs <;> rfl
  | some f =>
    refine (refusal?_mapM _ vs).trans ?_
    induction vs with
    | nil => rfl
    | cons v vs ih =>
      rw [List.findSome?_cons, refusal?_decode, Schema.misfit?, ih]
      cases f.kind.accepts v <;> rfl

/-- The first value that misfits is one of the values of the fixed fields, else one of the rest. -/
theorem misfit?_eq_refusal? (rest : Option Field) : ∀ (fs : List Field) (vs : List Value),
    fs.length ≤ vs.length → Schema.misfit? fs rest vs =
      (refusal? (decodeMembers fs vs)).or (refusal? (decodeRest rest (vs.drop fs.length)))
  | [], vs, _ => (refusal?_decodeRest rest vs).symm
  | f :: fs, v :: vs, h => by
    have hv := f.refusal?_decode v
    rw [Schema.misfit?, misfit?_eq_refusal? rest fs vs (Nat.le_of_succ_le_succ h), decodeMembers,
      List.head?_cons, List.tail_cons, List.length_cons, List.drop_succ_cons]
    cases hd : f.decode (some v) with
    | error m =>
      rw [hd] at hv
      split at hv
      · cases hv
      · next hno => rw [if_neg hno, ← hv]; rfl
    | ok c =>
      rw [hd] at hv
      split at hv
      · next hyes => rw [if_pos hyes]; exact congrArg (Option.or · _) (refusal?_map _ _).symm
      · cases hv

end Field

namespace Typed

variable {s : Schema} {args : List Value}

/-- What a typed node is written out as is divided among the fields. -/
theorem divides_toArgs (t : Typed s) : s.Divides t.toArgs (Field.encodeMembers s.fixed t.fixed)
    (Field.encodeRest s.rest t.rest) where
  args_eq := rfl
  one_fit := Field.forall₂_encodeMembers s.fixed t.fixed
  many_fit _ := Field.accepts_of_mem_encodeRest

/-- Where the number of arguments is right, reading is reading the two parts. -/
theorem ofArgs_of_takes (h : s.takes args.length = true) : ofArgs s args =
    Except.mapError (.mismatch s.name) ((Field.decodeMembers s.fixed args).bind fun fixed =>
      (Field.decodeRest s.rest (args.drop s.fixed.length)).map fun rest => ⟨fixed, rest⟩) := by
  rw [ofArgs, if_pos h]
  cases Field.decodeMembers s.fixed args with
  | error m => rfl
  | ok cs => cases Field.decodeRest s.rest (args.drop s.fixed.length) <;> rfl

/-- A typed node that was written out is read back. -/
theorem ofArgs_toArgs (t : Typed s) : ofArgs s t.toArgs = .ok t := by
  have hfixed : Field.decodeMembers s.fixed t.toArgs = .ok t.fixed :=
    Field.decodeMembers_encodeMembers s.fixed t.fixed _
  rw [ofArgs_of_takes t.divides_toArgs.takes_length, hfixed, t.divides_toArgs.many_eq,
    Field.decodeRest_encodeRest]
  rfl

/-- Reading refuses what the check refuses, for the same reason. -/
theorem refusal?_ofArgs (s : Schema) (args : List Value) :
    refusal? (ofArgs s args) = refusal? (s.check args) := by
  by_cases htakes : s.takes args.length = true
  · rw [ofArgs_of_takes htakes, Schema.check, if_pos htakes,
      Field.misfit?_eq_refusal? s.rest s.fixed args (Schema.le_of_takes htakes)]
    cases Field.decodeMembers s.fixed args with
    | error m => rfl
    | ok cs => cases Field.decodeRest s.rest (args.drop s.fixed.length) <;> rfl
  · rw [ofArgs, Schema.check, if_neg htakes, if_neg htakes]
    rfl

theorem exists_ofArgs_iff : (∃ t, ofArgs s args = .ok t) ↔ s.Fits args := by
  rw [← refusal?_eq_none, refusal?_ofArgs, refusal?_eq_none_of_unit, Schema.check_eq_ok_iff]

/-- A typed node that was read is written out as what it was read from. -/
theorem toArgs_of_ofArgs {t : Typed s} (h : ofArgs s args = .ok t) : t.toArgs = args := by
  obtain ⟨one, many, hdivides⟩ := exists_ofArgs_iff.1 ⟨t, h⟩
  rw [ofArgs_of_takes hdivides.takes_length, hdivides.many_eq] at h
  cases hfixed : Field.decodeMembers s.fixed args with
  | error m => rw [hfixed] at h; cases h
  | ok cs =>
    cases hrest : Field.decodeRest s.rest many with
    | error m => rw [hfixed, hrest] at h; cases h
    | ok cs' =>
      rw [hfixed, hrest] at h
      cases h
      have hsome : ∀ v ∈ many, s.rest.isSome := fun v hv => by
        obtain ⟨f, hf, -⟩ := hdivides.many_fit v hv
        rw [hf]
        rfl
      rw [toArgs, Field.encodeMembers_of_decodeMembers hfixed, hdivides.one_eq,
        Field.encodeRest_of_decodeRest hrest hsome, hdivides.args_eq]

end Typed

end TermGraph
