import Mathlib.Data.List.Induction
import TermGraph.Proofs.Graph.Atoms

/-!
Tokens. Whatever texts are interned one after the other, the table lists each of them once, in the
order in which they were first seen, and the token of a text is its place in this list. Main
statement: texts and tokens lead to each other and nowhere else, a text that is known changes
nothing, and a token keeps its text whatever is interned later.
-/

namespace TermGraph.Atoms

variable {t : Atoms} {ss : List String} {s : String} {k : Nat}

/-- The table after the texts were interned one after the other, the empty one being the first. -/
def ofTexts (ss : List String) : Atoms := ss.foldl (fun t s => (t.intern s).2) empty

theorem ofTexts_concat (ss : List String) (s : String) :
    ofTexts (ss ++ [s]) = ((ofTexts ss).intern s).2 := by
  rw [ofTexts, List.foldl_append]
  rfl

theorem consistent_ofTexts (ss : List String) : (ofTexts ss).Consistent := by
  induction ss using List.reverseRecOn with
  | nil => exact consistent_empty
  | append_singleton ss s ih =>
    rw [ofTexts_concat]
    exact ih.intern s

/-! ### One text more -/

theorem text?_eq_getElem? (t : Atoms) (k : Nat) : t.text? k = t.toList[k]? :=
  Array.getElem?_toList.symm

theorem Consistent.mem_toList_iff (h : t.Consistent) : s ∈ t.toList ↔ ∃ k, t.token? s = some k := by
  rw [mem_toList]
  exact exists_congr fun k => (h s k).symm

theorem Consistent.intern_of_mem (h : t.Consistent) (hs : s ∈ t.toList) : (t.intern s).2 = t := by
  obtain ⟨k, hk⟩ := h.mem_toList_iff.1 hs
  rw [intern_of_token? hk]

theorem Consistent.token?_eq_none (h : t.Consistent) (hs : s ∉ t.toList) : t.token? s = none :=
  Option.eq_none_iff_forall_ne_some.2 fun k hk => hs (h.mem_toList_iff.2 ⟨k, hk⟩)

/-- A new text goes to the end of the list. -/
theorem Consistent.toList_intern_of_not_mem (h : t.Consistent) (hs : s ∉ t.toList) :
    (t.intern s).2.toList = t.toList ++ [s] := by
  rw [intern_of_token?_none (h.token?_eq_none hs)]
  exact Array.toList_push

/-- The token of a text is its place in the list. -/
theorem Consistent.token?_eq_idxOf (h : t.Consistent) (hk : t.token? s = some k) :
    k = t.toList.idxOf s := by
  have htext := (h s k).1 hk
  rw [text?_eq_getElem?] at htext
  obtain ⟨hlt, hs⟩ := List.getElem?_eq_some_iff.1 htext
  rw [← hs, h.nodup_toList.idxOf_getElem]

/-- No token is left out: a new text gets the least that was not given out. -/
theorem Consistent.token_le_size (h : t.Consistent) (s : String) : (t.intern s).1 ≤ t.size := by
  cases hs : t.token? s with
  | some k =>
    rw [intern_of_token? hs]
    exact Nat.le_of_lt (text?_lt ((h s k).1 hs))
  | none => exact Nat.le_of_eq (congrArg Prod.fst (intern_of_token?_none hs))

/-- Map and array stay of one size: both grow by a text that is new, and by no other. -/
theorem size_tokens_intern (h : t.tokens.size = t.texts.size) (s : String) :
    (t.intern s).2.tokens.size = (t.intern s).2.texts.size := by
  cases hs : t.token? s with
  | some k => rwa [intern_of_token? hs]
  | none =>
    have hnew : t.tokens.contains s = false := by
      rw [Std.TreeMap.contains_eq_isSome_getElem?]
      exact congrArg Option.isSome hs
    rw [intern_of_token?_none hs, Std.TreeMap.size_insert, Array.size_push, hnew, h]
    rfl

/-! ### Any number of texts -/

theorem eraseDups_concat (ss : List String) (s : String) :
    (ss ++ [s]).eraseDups = if s ∈ ss then ss.eraseDups else ss.eraseDups ++ [s] := by
  rw [List.eraseDups_append]
  by_cases hs : s ∈ ss <;> simp [List.removeAll, List.eraseDups_cons, hs]

theorem size_tokens_ofTexts (ss : List String) :
    (ofTexts ss).tokens.size = (ofTexts ss).texts.size := by
  induction ss using List.reverseRecOn with
  | nil => rfl
  | append_singleton ss s ih =>
    rw [ofTexts_concat]
    exact size_tokens_intern ih s

/-- The table lists the texts in the order in which they were first seen. -/
theorem toList_ofTexts (ss : List String) : (ofTexts ss).toList = ss.eraseDups := by
  induction ss using List.reverseRecOn with
  | nil => rfl
  | append_singleton ss s ih =>
    have hok := consistent_ofTexts ss
    rw [ofTexts_concat, eraseDups_concat]
    split
    · next hs =>
      have hmem : s ∈ (ofTexts ss).toList := by rwa [ih, List.mem_eraseDups]
      rw [hok.intern_of_mem hmem, ih]
    · next hs =>
      have hmem : s ∉ (ofTexts ss).toList := by rwa [ih, List.mem_eraseDups]
      rw [hok.toList_intern_of_not_mem hmem, ih]

theorem mem_toList_ofTexts : s ∈ (ofTexts ss).toList ↔ s ∈ ss := by
  rw [toList_ofTexts, List.mem_eraseDups]

/-- The table numbers the texts `ss`: it has each of them under one token, and the tokens are the
numbers below the number of distinct texts. -/
structure Numbers (ss : List String) (t : Atoms) : Prop where
  toList_eq : t.toList = ss.eraseDups
  text?_eq : ∀ k, t.text? k = t.toList[k]?
  token?_eq_some_iff : ∀ s k, t.token? s = some k ↔ t.text? k = some s
  known_iff : ∀ s, (∃ k, t.token? s = some k) ↔ s ∈ ss
  token_iff : ∀ k, (∃ s, t.token? s = some k) ↔ k < ss.eraseDups.length
  size_eq : t.size = ss.eraseDups.length
  size_tokens_eq : t.tokens.size = t.texts.size

/-- Interning `s` in the table `t` of the texts `ss` gives the token `k` and leaves the table `t'`. A
word of thirty-two bits holds the token while it holds the number of distinct texts. -/
structure Interning (ss : List String) (t : Atoms) (s : String) (k : Nat) (t' : Atoms) : Prop where
  token_eq : k = t'.toList.idxOf s
  text_eq : t'.text? k = some s ∧ t'.text k = s
  token?_eq : t'.token? s = some k
  known : s ∈ ss → t' = t
  new : s ∉ ss → k = t.size ∧ t'.toList = t.toList ++ [s]
  word_eq : ss.eraseDups.length < UInt32.size → k.toUInt32.toNat = k

theorem numbers_ofTexts (ss : List String) : Numbers ss (ofTexts ss) := by
  have hok := consistent_ofTexts ss
  have hlist := toList_ofTexts ss
  refine ⟨hlist, text?_eq_getElem? _, hok, fun s => ?_, fun k => ?_, ?_, size_tokens_ofTexts ss⟩
  · rw [← hok.mem_toList_iff, mem_toList_ofTexts]
  · rw [← hlist]
    constructor
    · rintro ⟨s, hs⟩
      exact text?_lt ((hok s k).1 hs)
    · intro hk
      exact ⟨_, (hok _ k).2 (Array.getElem?_eq_getElem hk)⟩
  · rw [← hlist]
    rfl

theorem interning_ofTexts (ss : List String) (s : String) :
    Interning ss (ofTexts ss) s ((ofTexts ss).intern s).1 ((ofTexts ss).intern s).2 := by
  have hok := consistent_ofTexts ss
  have htext := hok.text?_intern s
  have htoken := ((hok.intern s) s _).2 htext
  refine ⟨(hok.intern s).token?_eq_idxOf htoken, ⟨htext, ?_⟩, htoken, fun hs => ?_, fun hs => ?_,
    fun hfew => ?_⟩
  · rw [text, htext]
    rfl
  · exact hok.intern_of_mem (mem_toList_ofTexts.2 hs)
  · have hnew : s ∉ (ofTexts ss).toList := fun h => hs (mem_toList_ofTexts.1 h)
    refine ⟨?_, hok.toList_intern_of_not_mem hnew⟩
    rw [intern_of_token?_none (hok.token?_eq_none hnew)]
  · have hle := hok.token_le_size s
    rw [(numbers_ofTexts ss).size_eq] at hle
    exact UInt32.toNat_ofNat'.trans (Nat.mod_eq_of_lt (Nat.lt_of_le_of_lt hle hfew))

/-- Whatever was interned, texts and tokens are each other's converse, interning one text more gives
its place in the list and adds it only if it is new, and whatever is interned after that, a token
keeps its text and a text its token. -/
theorem tokens_number_texts (ss : List String) : Numbers ss (ofTexts ss)
    ∧ (∀ s, Interning ss (ofTexts ss) s ((ofTexts ss).intern s).1 ((ofTexts ss).intern s).2)
    ∧ ∀ more s k, (ofTexts ss).text? k = some s →
      (ofTexts (ss ++ more)).text? k = some s ∧ (ofTexts (ss ++ more)).token? s = some k := by
  refine ⟨numbers_ofTexts ss, interning_ofTexts ss, fun more s k hk => ?_⟩
  have htext : (ofTexts (ss ++ more)).text? k = some s := by
    rw [text?_eq_getElem?, toList_ofTexts] at hk ⊢
    rw [List.eraseDups_append, List.getElem?_append_left (List.getElem?_eq_some_iff.1 hk).1, hk]
  exact ⟨htext, (consistent_ofTexts _ s k).2 htext⟩

end TermGraph.Atoms
