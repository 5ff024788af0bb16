import TermGraph.Proofs.Graph.Append

/-!
Which atoms a graph has. Interning adds a text if it is new and nothing else, and a record is
refused before any of its texts is interned. So the atoms are the heads and the texts among the
arguments of the records, each once.
-/

namespace TermGraph

namespace Atoms

variable {t : Atoms} {s r : String}

theorem mem_toList : s ∈ t.toList ↔ ∃ k, t.text? k = some s := by
  rw [toList, Array.mem_toList_iff, Array.mem_iff_getElem?]
  rfl

theorem text_mem_toList {k : Nat} (h : k < t.size) : t.text k ∈ t.toList := by
  have hk : t.text? k = some t.texts[k] := Array.getElem?_eq_getElem h
  rw [text, hk]
  exact mem_toList.2 ⟨k, hk⟩

/-- No text is an atom twice, for it has one token. -/
theorem Consistent.nodup_toList (h : t.Consistent) : t.toList.Nodup := by
  rw [List.nodup_iff_pairwise_ne, List.pairwise_iff_getElem]
  intro i j hi hj hij he
  have hr : t.text? i = some (t.toList[i]) := Array.getElem?_eq_getElem hi
  have hs : t.text? j = some (t.toList[j]) := Array.getElem?_eq_getElem hj
  rw [he] at hr
  exact Nat.ne_of_lt hij (Option.some.inj (((h _ i).2 hr).symm.trans ((h _ j).2 hs)))

/-- Interning makes its text an atom. -/
theorem Consistent.mem_intern (h : t.Consistent) :
    s ∈ (t.intern r).2.toList ↔ s ∈ t.toList ∨ s = r := by
  cases hr : t.token? r with
  | some k =>
    rw [intern_of_token? hr]
    refine ⟨.inl, fun hs => hs.elim id ?_⟩
    rintro rfl
    exact mem_toList.2 ⟨k, (h s k).1 hr⟩
  | none =>
    rw [intern_of_token?_none hr, toList, Array.toList_push, List.mem_append, List.mem_singleton]
    rfl

/-- Numbering arguments makes the texts among them atoms. -/
theorem Consistent.mem_internArgs {ν : Type} {s : String} : ∀ {t : Atoms}, t.Consistent →
    ∀ args : List (Datum String ν),
      s ∈ (t.internArgs args).2.toList ↔ s ∈ t.toList ∨ Datum.str s ∈ args
  | _, _, [] => (or_iff_left List.not_mem_nil).symm
  | t, h, .str r :: rest => by
    have ih := (h.intern r).mem_internArgs (s := s) rest
    rw [h.mem_intern] at ih
    rw [List.mem_cons, Datum.str.injEq, ← or_assoc]
    exact ih
  | _, h, .int _ :: rest => (h.mem_internArgs rest).trans (by simp)
  | _, h, .bool _ :: rest => (h.mem_internArgs rest).trans (by simp)
  | _, h, .node _ :: rest => (h.mem_internArgs rest).trans (by simp)

end Atoms

theorem Datum.str_mem_iff {σ ν : Type} {s : σ} {ds : List (Datum σ ν)} :
    .str s ∈ ds ↔ some s ∈ ds.map Datum.str? := by
  rw [List.mem_map]
  constructor
  · exact fun h => ⟨_, h, rfl⟩
  · rintro ⟨d, hd, he⟩
    cases d <;> cases he
    exact hd

/-- Arguments that are read one by one have the same texts, if each reading keeps its text. -/
theorem str_mem_iff_of_mapM_ok {ε σ ν μ : Type} {f : Datum σ ν → Except ε (Datum σ μ)} {s : σ}
    {vs : List (Datum σ ν)} {ds : List (Datum σ μ)}
    (hf : ∀ v d, f v = .ok d → d.str? = v.str?) (h : vs.mapM f = .ok ds) :
    .str s ∈ ds ↔ .str s ∈ vs := by
  rw [Datum.str_mem_iff, Datum.str_mem_iff, map_eq_of_mapM_ok (fun v _ d => hf v d) h]

namespace Graph

variable {g g' : Graph} {head s : String}

theorem mem_atoms_push {args : List (Datum String (Fin g.size))} :
    s ∈ (g.push head args).atoms.toList ↔
      s ∈ g.atoms.toList ∨ Datum.str s ∈ args ∨ s = head := by
  obtain ⟨id, atoms, records, ok, fits⟩ := g
  rw [← or_assoc, ← ok.mem_internArgs args]
  exact (ok.internArgs args).consistent.mem_intern

/-- A record that is accepted brings its head and its texts. -/
theorem mem_atoms_of_append {args : List Value} {n : Node}
    (h : g.append head args = (.ok n, g')) :
    s ∈ g'.atoms.toList ↔ s ∈ g.atoms.toList ∨ s = head ∨ Datum.str s ∈ args := by
  unfold append at h
  cases hds : args.mapM g.locateArg with
  | error e => rw [hds] at h; cases h
  | ok ds =>
    rw [hds] at h
    cases h
    have hmem : Datum.str s ∈ ds ↔ Datum.str s ∈ args := by
      refine str_mem_iff_of_mapM_ok (fun v d hd => ?_) hds
      cases v with
      | node n => obtain ⟨p, -, rfl⟩ := ok_of_map_ok hd; rfl
      | _ => cases hd; rfl
    rw [mem_atoms_push, hmem, or_comm (a := s = head)]

end Graph

end TermGraph
