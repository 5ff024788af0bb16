import TermGraph.Proofs.Print.Page
import TermGraph.Proofs.Text.Word

/-!
Reading a rendering. If no head has a blank or a closing bracket in it, the text of a node in full
tells its head, its label and how each of its arguments is written, and where it ends; for arguments
that stand in full themselves, by induction. Main statement: two nodes whose texts are the same,
perhaps of different graphs, have the same head, the same label, and arguments written alike.
-/

namespace TermGraph

theorem Token.toList_spelled {ν : Type} : ∀ ts : List (Token ν),
    (Token.spelled ts).toList = ts.flatMap fun t => t.text.toList
  | [] => rfl
  | t :: ts => by rw [Token.spelled, String.toList_append, toList_spelled ts, List.flatMap_cons]

namespace Graph

variable {g g' : Graph} {root p q : Fin g.size} {root' p' q' : Fin g'.size} {s s' : Place}
  {d : Datum String (Fin g.size)} {d' : Datum String (Fin g'.size)} {r r' : List Char}

/-- No head of what the root depends on has a blank or a closing bracket in it. -/
def HeadsAreWords (g : Graph) (root : Fin g.size) : Prop :=
  ∀ p : Fin g.size, g.Path root.val p.val → Text.IsWord (g.headAt p).toList

/-! ### The characters of a rendering -/

/-- The text of a node in full, with its label. -/
def chars (g : Graph) (root p : Fin g.size) : List Char := (Token.spelled (g.spell root p)).toList

/-- The text of an argument at a place. -/
def charsArg (g : Graph) (root : Fin g.size) (s : Place) (d : Datum String (Fin g.size)) :
    List Char :=
  (Token.spelled (g.spellArg root s d)).toList

/-- What stands after the closing bracket. -/
def suffixChars (g : Graph) (root p : Fin g.size) : List Char :=
  (Token.suffix (g.label? root p)).toList

theorem chars_eq (root p : Fin g.size) : g.chars root p =
    '(' :: (g.headAt p).toList ++ ((g.argsAt p).zipIdx.flatMap
      (fun x => ' ' :: g.charsArg root ⟨p.val, x.2⟩ x.1) ++ ')' :: g.suffixChars root p) := by
  have hopens : (Token.opens p (g.headAt p)).text.toList = '(' :: (g.headAt p).toList :=
    String.toList_append
  have hcloses : (Token.closes p (g.label? root p)).text.toList = ')' :: g.suffixChars root p :=
    String.toList_append
  have hblank : (Token.blank : Token (Fin g.size)).text.toList = [' '] := by simp [Token.text]
  rw [chars, spell_eq, Token.toList_spelled, List.flatMap_append, List.flatMap_cons,
    List.flatMap_singleton, List.flatMap_assoc, hopens, hcloses, List.append_assoc]
  simp only [List.flatMap_cons, ← Token.toList_spelled, hblank]
  rfl

/-- The argument as a lexeme, if it does not stand in full. -/
def lexemeAt? (g : Graph) (root : Fin g.size) (s : Place) :
    Datum String (Fin g.size) → Option (Datum String Nat)
  | .node n => if g.isInFull root s n then none else some (.node (g.rank root n))
  | .int i => some (.int i)
  | .bool b => some (.bool b)
  | .str s => some (.str s)

/-- An argument is written as a lexeme or as a node in full. -/
theorem charsArg_cases (root : Fin g.size) (s : Place) (d : Datum String (Fin g.size)) :
    (∃ l, g.lexemeAt? root s d = some l ∧
      g.charsArg root s d = Text.lexemeWith Text.isPlain '$' l) ∨
      ∃ q, d = .node q ∧ g.isInFull root s q = true ∧ g.charsArg root s d = g.chars root q := by
  have hsingle : ∀ t : Token (Fin g.size), (Token.spelled [t]).toList = t.text.toList := fun t => by
    rw [Token.toList_spelled, List.flatMap_singleton]
  cases d with
  | node q =>
    rw [charsArg, spellArg]
    by_cases hfull : g.isInFull root s q = true
    · exact .inr ⟨q, rfl, hfull, by rw [if_pos hfull, chars]⟩
    · refine .inl ⟨.node (g.rank root q), if_neg hfull, ?_⟩
      rw [if_neg hfull, hsingle]
      exact String.toList_append
  | int i => exact .inl ⟨.int i, rfl, hsingle _⟩
  | bool b => exact .inl ⟨.bool b, rfl, hsingle _⟩
  | str t => exact .inl ⟨.str t, rfl, hsingle _⟩

/-! ### The label -/

theorem isWord_suffix (label : Option Nat) : Text.IsWord (Token.suffix label).toList := by
  cases label with
  | none => decide
  | some k =>
    rw [Token.suffix, Page.labelText, String.toList_append, String.toList_append,
      String.toList_append]
    exact .append (.append (by decide) (.append (by decide) (Text.isWord_repr k))) (by decide)

theorem suffix_inj {label label' : Option Nat} (h : Token.suffix label = Token.suffix label') :
    label = label' := by
  cases label with
  | none =>
    cases label' with
    | none => rfl
    | some k => exact absurd h (by simp [Token.suffix])
  | some k =>
    cases label' with
    | none => exact absurd h (by simp [Token.suffix])
    | some k' =>
      rw [Token.suffix, Token.suffix, Page.labelText, Page.labelText, String.append_left_inj,
        String.append_right_inj, String.append_right_inj] at h
      exact congrArg some (Nat.repr_inj.1 h)

/-! ### What a text tells -/

/-- Two arguments are written alike: as the same lexeme, or both in full with the same text. -/
inductive WrittenAlike (root : Fin g.size) (root' : Fin g'.size) (s s' : Place) :
    Datum String (Fin g.size) → Datum String (Fin g'.size) → Prop
  | lexeme {d : Datum String (Fin g.size)} {d' : Datum String (Fin g'.size)}
    {l : Datum String Nat} : g.lexemeAt? root s d = some l → g'.lexemeAt? root' s' d' = some l →
      WrittenAlike root root' s s' d d'
  | full {q : Fin g.size} {q' : Fin g'.size} : g.isInFull root s q = true →
    g'.isInFull root' s' q' = true → g.chars root q = g'.chars root' q' →
      WrittenAlike root root' s s' (.node q) (.node q')

/-- Two nodes show the same head, the same label and arguments written alike. -/
structure ShownAlike (root p : Fin g.size) (root' p' : Fin g'.size) : Prop where
  head : g.headAt p = g'.headAt p'
  label : g.label? root p = g'.label? root' p'
  args : List.Forall₂ (fun x x' => WrittenAlike root root' ⟨p.val, x.2⟩ ⟨p'.val, x'.2⟩ x.1 x'.1)
    (g.argsAt p).zipIdx (g'.argsAt p').zipIdx

/-- A lexeme does not begin like a node in full. -/
theorem lexeme_ne_chars {l : Datum String Nat}
    (h : Text.lexemeWith Text.isPlain '$' l ++ r = g.chars root p ++ r') : False := by
  have hmark : Text.kindOf '$' = .node := rfl
  obtain ⟨c, t, ht, hc⟩ := Text.exists_cons_lexemeWith Text.isPlain hmark l
  rw [ht, chars_eq] at h
  rw [(List.cons.inj h).1] at hc
  cases l <;> cases hc

/-- An argument is told apart from what follows it, if that holds of the nodes in full. -/
theorem charsArg_append_inj (hr : Text.Breaks r) (hr' : Text.Breaks r')
    (hfull : ∀ q q', d = .node q → d' = .node q' →
      g.chars root q ++ r = g'.chars root' q' ++ r' → r = r')
    (h : g.charsArg root s d ++ r = g'.charsArg root' s' d' ++ r') :
    WrittenAlike root root' s s' d d' ∧ r = r' := by
  rcases charsArg_cases root s d with ⟨l, hl, ht⟩ | ⟨q, rfl, hq, ht⟩ <;>
    rcases charsArg_cases root' s' d' with ⟨l', hl', ht'⟩ | ⟨q', rfl, hq', ht'⟩ <;>
      rw [ht, ht'] at h
  · obtain ⟨rfl, hrest⟩ := Text.lexemeWith_append_inj Text.isPlain rfl hr hr' h
    exact ⟨.lexeme hl hl', hrest⟩
  · exact (lexeme_ne_chars h).elim
  · exact (lexeme_ne_chars h.symm).elim
  · have hrest := hfull q q' rfl rfl h
    subst hrest
    exact ⟨.full hq hq' (List.append_cancel_right h), rfl⟩

/-- A node in full is told apart from what follows it, and its text tells what it shows. -/
theorem chars_append_inj (hwords : g.HeadsAreWords root) (hwords' : g'.HeadsAreWords root')
    {p : Fin g.size} {p' : Fin g'.size} {r r' : List Char} (hp : p ∈ g.below root)
    (hp' : p' ∈ g'.below root') (hr : Text.Breaks r) (hr' : Text.Breaks r')
    (h : g.chars root p ++ r = g'.chars root' p' ++ r') :
    ShownAlike root p root' p' ∧ r = r' := by
  rw [chars_eq, chars_eq, List.cons_append, List.cons_append, List.append_assoc, List.append_assoc,
    List.append_assoc, List.append_assoc] at h
  have hhead := hwords p (mem_below.1 hp)
  have hhead' := hwords' p' (mem_below.1 hp')
  obtain ⟨hhead, hargs⟩ := hhead.append_inj hhead' (Text.breaks_args _ _ _) (Text.breaks_args _ _ _)
    (List.cons.inj h).2
  obtain ⟨hargs, hsuffix⟩ := Text.args_append_inj (R := fun x x' =>
    WrittenAlike root root' ⟨p.val, x.2⟩ ⟨p'.val, x'.2⟩ x.1 x'.1) (fun x hx x' hx' t t' ht ht' => by
      have hmem := List.fst_mem_of_mem_zipIdx hx
      have hmem' := List.fst_mem_of_mem_zipIdx hx'
      refine charsArg_append_inj ht ht' fun q q' hq hq' hchars => ?_
      rw [hq] at hmem
      rw [hq'] at hmem'
      have hlt := lt_of_mem_argsAt hmem
      exact (chars_append_inj hwords hwords' (mem_below_of_arg hp hmem)
        (mem_below_of_arg hp' hmem') ht ht' hchars).2) hargs
  obtain ⟨hlabel, hrest⟩ := (isWord_suffix _).append_inj (isWord_suffix _) hr hr' hsuffix
  exact ⟨⟨String.toList_inj.1 hhead, suffix_inj (String.toList_inj.1 hlabel), hargs⟩, hrest⟩
termination_by p.val
decreasing_by exact hlt

/-- Nodes with the same text show the same. -/
theorem shownAlike_of_chars_eq (hwords : g.HeadsAreWords root) (hwords' : g'.HeadsAreWords root')
    (hp : p ∈ g.below root) (hp' : p' ∈ g'.below root') (h : g.chars root p = g'.chars root' p') :
    ShownAlike root p root' p' :=
  (chars_append_inj hwords hwords' hp hp' Text.breaks_nil Text.breaks_nil (congrArg (· ++ []) h)).1

end Graph

end TermGraph
