import TermGraph.Value

/-!
Atoms: texts numbered by tokens `0, 1, 2, ...` in the order in which they are first seen. The array
leads from a token to its text and the map back. `Consistent` says that the two are each other's
converse; the empty table has it and `intern` keeps it.

Tokens are natural numbers without a bound. With thirty-two bits for a token, those of more than 2³²
texts would be cut down and meet; that is left out.
-/

namespace TermGraph

/-- A table of texts and their tokens. -/
structure Atoms where
  texts : Array String := #[]
  tokens : Std.TreeMap String Nat := ∅

namespace Atoms

/-- The table without atoms. -/
def empty : Atoms := {}

/-- How many atoms there are. -/
def size (t : Atoms) : Nat := t.texts.size

/-- The token of the text, a new one at the end if the text is new. -/
def intern (t : Atoms) (s : String) : Nat × Atoms :=
  match t.tokens[s]? with
  | some k => (k, t)
  | none =>
    match t with
    | ⟨texts, tokens⟩ => let k := texts.size; (k, ⟨texts.push s, tokens.insert s k⟩)

/-- The text of a token. -/
def text? (t : Atoms) (k : Nat) : Option String := t.texts[k]?

/-- The token of a text. -/
def token? (t : Atoms) (s : String) : Option Nat := t.tokens[s]?

/-- The text of a token that the table has given out; the empty text for any other. -/
def text (t : Atoms) (k : Nat) : String := (t.text? k).getD ""

/-- The atoms in the order of their tokens. -/
def toList (t : Atoms) : List String := t.texts.toList

/-- Array and map say the same. -/
def Consistent (t : Atoms) : Prop := ∀ s k, t.token? s = some k ↔ t.text? k = some s

theorem consistent_empty : empty.Consistent := by
  intro s k; simp [empty, token?, text?]

/-- A table without repetitions can be read back: a known text keeps its token. -/
theorem intern_of_token? {t : Atoms} {s : String} {k : Nat} (h : t.token? s = some k) :
    t.intern s = (k, t) := by
  simp only [token?] at h; simp [intern, h]

theorem intern_of_token?_none {t : Atoms} {s : String} (h : t.token? s = none) :
    t.intern s = (t.size, ⟨t.texts.push s, t.tokens.insert s t.size⟩) := by
  simp only [token?] at h; simp [intern, h, size]

theorem text?_lt {t : Atoms} {k : Nat} {s : String} (h : t.text? k = some s) : k < t.size :=
  (Array.getElem?_eq_some_iff.1 h).1

/-- Tokens keep their texts. -/
theorem text?_intern_of_lt {t : Atoms} {k : Nat} (s : String) (h : k < t.size) :
    (t.intern s).2.text? k = t.text? k := by
  cases hs : t.token? s with
  | some j => rw [intern_of_token? hs]
  | none =>
    rw [intern_of_token?_none hs]
    simp only [text?, Array.getElem?_push]
    rw [if_neg (by simp only [size] at h; omega)]

theorem size_le_intern (t : Atoms) (s : String) : t.size ≤ (t.intern s).2.size := by
  cases hs : t.token? s with
  | some j => simp [intern_of_token? hs]
  | none => rw [intern_of_token?_none hs]; simp [size]

/-- The table stays consistent. -/
theorem Consistent.intern {t : Atoms} (h : t.Consistent) (s : String) :
    (t.intern s).2.Consistent := by
  cases hs : t.token? s with
  | some j => rw [intern_of_token? hs]; exact h
  | none =>
    rw [intern_of_token?_none hs]
    intro r k
    simp only [token?, text?, Std.TreeMap.getElem?_insert, Array.getElem?_push,
      Std.LawfulEqCmp.compare_eq_iff_eq]
    by_cases hr : s = r
    · subst hr
      have hn : ∀ j, t.texts[j]? ≠ some s := fun j hj => by
        have := (h s j).2 hj; rw [hs] at this; cases this
      by_cases hk : k = t.texts.size
      · simp [hk, size]
      · simp only [if_true, if_neg hk, size, Option.some.injEq]
        exact ⟨fun e => absurd e.symm hk, fun e => absurd e (hn k)⟩
    · have hk := h r k
      simp only [token?, text?] at hk
      by_cases hl : k = t.texts.size
      · subst hl
        simp only [if_neg hr, if_true, Option.some.injEq, hk]
        exact ⟨fun e => by simp at e, fun e => absurd e hr⟩
      · simp only [if_neg hr, if_neg hl, hk]

/-- The token given is one of the new table's, and leads back to the text. -/
theorem Consistent.text?_intern {t : Atoms} (h : t.Consistent) (s : String) :
    (t.intern s).2.text? (t.intern s).1 = some s := by
  cases hs : t.token? s with
  | some j => rw [intern_of_token? hs]; exact (h s j).1 hs
  | none => rw [intern_of_token?_none hs]; simp [text?, size]

theorem Consistent.intern_lt {t : Atoms} (h : t.Consistent) (s : String) :
    (t.intern s).1 < (t.intern s).2.size := text?_lt (h.text?_intern s)

/-- Numbers the texts among the arguments, from left to right. -/
def internArgs {ν : Type} (t : Atoms) : List (Datum String ν) → List (Datum Nat ν) × Atoms
  | [] => ([], t)
  | .str s :: rest =>
    match t.intern s with
    | (k, t) => match t.internArgs rest with
      | (slots, t) => (.str k :: slots, t)
  | .int i :: rest => match t.internArgs rest with
    | (slots, t) => (.int i :: slots, t)
  | .bool b :: rest => match t.internArgs rest with
    | (slots, t) => (.bool b :: slots, t)
  | .node n :: rest => match t.internArgs rest with
    | (slots, t) => (.node n :: slots, t)

/-- What numbering the arguments keeps and gives. -/
structure Interned {ν : Type} (t : Atoms) (args : List (Datum String ν))
    (slots : List (Datum Nat ν)) (t' : Atoms) : Prop where
  consistent : t'.Consistent
  size_le : t.size ≤ t'.size
  text?_eq : ∀ k, k < t.size → t'.text? k = t.text? k
  read : slots.map (fun d => d.map t'.text? id) = args.map (fun d => d.map some id)

theorem Interned.cons {ν : Type} {t t' : Atoms} {rest : List (Datum String ν)}
    {slots : List (Datum Nat ν)} {d : Datum String ν} {e : Datum Nat ν}
    (h : Interned t rest slots t') (he : e.map t'.text? id = d.map some id) :
    Interned t (d :: rest) (e :: slots) t' :=
  ⟨h.consistent, h.size_le, h.text?_eq, by simp [he, h.read]⟩

/-- Numbering may start from a larger table. -/
theorem Interned.of_le {ν : Type} {t₀ t t' : Atoms} {args : List (Datum String ν)}
    {slots : List (Datum Nat ν)} (h : Interned t args slots t') (hs : t₀.size ≤ t.size)
    (ht : ∀ k, k < t₀.size → t.text? k = t₀.text? k) : Interned t₀ args slots t' :=
  ⟨h.consistent, Nat.le_trans hs h.size_le,
    fun k hk => (h.text?_eq k (Nat.lt_of_lt_of_le hk hs)).trans (ht k hk), h.read⟩

theorem Consistent.internArgs {ν : Type} : ∀ {t : Atoms}, t.Consistent →
    ∀ args : List (Datum String ν),
      Interned t args (t.internArgs args).1 (t.internArgs args).2
  | _, h, [] => ⟨h, Nat.le_refl _, fun _ _ => rfl, rfl⟩
  | t, h, .str s :: rest => by
    have hi := (h.intern s).internArgs rest
    have hs := t.size_le_intern s
    have hr := (hi.text?_eq _ (h.intern_lt s)).trans (h.text?_intern s)
    exact (Interned.cons (d := .str s) (e := .str (t.intern s).1) hi (congrArg Datum.str hr)).of_le hs
      fun k hk => text?_intern_of_lt s hk
  | _, h, .int _ :: rest => (h.internArgs rest).cons rfl
  | _, h, .bool _ :: rest => (h.internArgs rest).cons rfl
  | _, h, .node _ :: rest => (h.internArgs rest).cons rfl

/-- Every token given to an argument is one of the table's. -/
theorem Interned.token_lt {ν : Type} {t t' : Atoms} {args : List (Datum String ν)}
    {slots : List (Datum Nat ν)} (h : Interned t args slots t') {k : Nat}
    (hk : Datum.str k ∈ slots) : k < t'.size := by
  have hm := List.mem_map_of_mem (f := fun d => Datum.map t'.text? id d) hk
  rw [h.read] at hm
  obtain ⟨d, -, hd⟩ := List.mem_map.1 hm
  cases d <;> simp only [Datum.map] at hd <;> try cases hd
  · exact text?_lt (Datum.str.inj hd).symm

end Atoms

end TermGraph
