import Mathlib.Data.List.Forall2
import Std.Data.String.ToInt
import TermGraph.Dialect.Kind
import TermGraph.Proofs.Text.Quoted

/-!
Words and lexemes. A word ends at a blank or a closing bracket, so it is told apart from what
follows it. A lexeme is an argument on its own: a literal, or a number after a mark that stands for
a node. Its first character tells which kind of argument it is, and then the lexeme can be read.
Arguments between blanks and a closing bracket can be read if each of them can.
-/

namespace TermGraph

/-- The kind of an argument. -/
def Datum.kind {σ ν : Type} : Datum σ ν → Kind
  | int _ => .int
  | bool _ => .bool
  | str _ => .str
  | node _ => .node

namespace Text

/-! ### Words -/

/-- Does a word end before this character? -/
def isBreak (c : Char) : Bool := c == ' ' || c == ')'

/-- No character ends the word. -/
def IsWord (cs : List Char) : Prop := ∀ c ∈ cs, isBreak c = false

instance (cs : List Char) : Decidable (IsWord cs) := List.decidableBAll (isBreak · = false) cs

/-- What follows a word: nothing, or something that ends it. -/
def Breaks (r : List Char) : Prop := ∀ c ∈ r.head?, isBreak c = true

theorem breaks_nil : Breaks [] := fun _ h => nomatch h

theorem breaks_cons {c : Char} {r : List Char} (h : isBreak c = true) : Breaks (c :: r) := by
  intro d hd
  cases hd
  exact h

theorem IsWord.takeWhile_append {w r : List Char} (hw : IsWord w) (hr : Breaks r) :
    (w ++ r).takeWhile (fun c => !isBreak c) = w := by
  rw [List.takeWhile_append_of_pos fun c hc => by rw [hw c hc]; rfl]
  cases r with
  | nil => exact List.append_nil w
  | cons c r =>
    rw [List.takeWhile_cons, hr c rfl]
    exact List.append_nil w

/-- A word is told apart from what follows it. -/
theorem IsWord.append_inj {w w' r r' : List Char} (hw : IsWord w) (hw' : IsWord w')
    (hr : Breaks r) (hr' : Breaks r') (h : w ++ r = w' ++ r') : w = w' ∧ r = r' := by
  have htake := congrArg (List.takeWhile fun c => !isBreak c) h
  rw [hw.takeWhile_append hr, hw'.takeWhile_append hr'] at htake
  subst htake
  exact ⟨rfl, List.append_cancel_left h⟩

theorem IsWord.append {w w' : List Char} (hw : IsWord w) (hw' : IsWord w') : IsWord (w ++ w') := by
  intro c hc
  rcases List.mem_append.1 hc with hc | hc
  · exact hw c hc
  · exact hw' c hc

theorem isWord_of_isDigit {cs : List Char} (h : ∀ c ∈ cs, c.isDigit = true) : IsWord cs := by
  intro c hc
  have hd := h c hc
  rw [isBreak, Bool.or_eq_false_iff, beq_eq_false_iff_ne, beq_eq_false_iff_ne]
  constructor <;>
  · rintro rfl
    exact absurd hd (by decide)

theorem isDigit_of_mem_repr {n : Nat} {c : Char} (h : c ∈ n.repr.toList) : c.isDigit = true := by
  rw [Nat.toList_repr] at h
  exact Nat.isDigit_of_mem_toDigits (by decide) (by decide) h

theorem isWord_repr (n : Nat) : IsWord n.repr.toList :=
  isWord_of_isDigit fun _ => isDigit_of_mem_repr

/-! ### Lexemes -/

/-- How an argument is written on its own, a node being a number after a mark, and a text with the
plain characters as they are. -/
def lexemeWith (plain : Char → Bool) (mark : Char) : Datum String Nat → List Char
  | .int i => i.toInt.repr.toList
  | .bool b => (if b then "true" else "false").toList
  | .str s => (quoteWith plain s).toList
  | .node k => mark :: k.repr.toList

/-- The kind of the lexemes that begin with a character; the marks begin nodes. -/
def kindOf (c : Char) : Kind :=
  if c = '-' ∨ c.isDigit then .int
  else if c = 't' ∨ c = 'f' then .bool
  else if c = '"' then .str
  else if c = '$' ∨ c = '#' then .node
  else .any

theorem exists_cons_repr (n : Nat) : ∃ c t, n.repr.toList = c :: t ∧ c.isDigit = true := by
  cases h : n.repr.toList with
  | nil => exact absurd (Nat.toList_repr.symm.trans h) Nat.toDigits_ne_nil
  | cons c t => exact ⟨c, t, rfl, isDigit_of_mem_repr (h ▸ List.mem_cons_self ..)⟩

/-- The first character of a lexeme tells its kind. -/
theorem exists_cons_lexemeWith (plain : Char → Bool) {mark : Char} (hm : kindOf mark = .node)
    (d : Datum String Nat) : ∃ c t, lexemeWith plain mark d = c :: t ∧ kindOf c = d.kind := by
  cases d with
  | int i =>
    rw [lexemeWith, Int.repr_eq_if]
    split
    · obtain ⟨c, t, ht, hc⟩ := exists_cons_repr i.toInt.toNat
      exact ⟨c, t, ht, if_pos (.inr hc)⟩
    · exact ⟨'-', _, String.toList_append, rfl⟩
  | bool b =>
    cases b with
    | false => exact ⟨'f', _, rfl, rfl⟩
    | true => exact ⟨'t', _, rfl, rfl⟩
  | str s => exact ⟨'"', _, String.toList_ofList, rfl⟩
  | node k => exact ⟨mark, _, rfl, hm⟩

theorem isWord_int (i : Int) : IsWord i.repr.toList := by
  rw [Int.repr_eq_if]
  split
  · exact isWord_repr _
  · rw [String.toList_append]
    exact IsWord.append (by decide) (isWord_repr _)

theorem isWord_bool (b : Bool) : IsWord (if b then "true" else "false").toList := by
  cases b <;> decide

/-- A lexeme is told apart from what follows it. -/
theorem lexemeWith_append_inj (plain : Char → Bool) {mark : Char} (hm : kindOf mark = .node)
    {d d' : Datum String Nat} {r r' : List Char} (hr : Breaks r) (hr' : Breaks r')
    (h : lexemeWith plain mark d ++ r = lexemeWith plain mark d' ++ r') : d = d' ∧ r = r' := by
  have hkind : d.kind = d'.kind := by
    obtain ⟨c, t, ht, hc⟩ := exists_cons_lexemeWith plain hm d
    obtain ⟨c', t', ht', hc'⟩ := exists_cons_lexemeWith plain hm d'
    rw [ht, ht'] at h
    rw [← hc, ← hc', (List.cons.inj h).1]
  cases d <;> cases d' <;> cases hkind
  case int.int i j =>
    obtain ⟨hw, hr⟩ := (isWord_int _).append_inj (isWord_int _) hr hr' h
    exact ⟨congrArg Datum.int (Int64.toInt_inj.1 (Int.repr_inj.1 (String.toList_inj.1 hw))), hr⟩
  case bool.bool b b' =>
    obtain ⟨hw, hr⟩ := (isWord_bool b).append_inj (isWord_bool b') hr hr' h
    have hb : ∀ b b' : Bool, (if b then "true" else "false") = (if b' then "true" else "false") →
      b = b' := by decide
    exact ⟨congrArg Datum.bool (hb b b' (String.toList_inj.1 hw)), hr⟩
  case str.str s s' =>
    obtain ⟨hs, hr⟩ := quoteWith_append_inj plain h
    exact ⟨congrArg Datum.str hs, hr⟩
  case node.node k l =>
    obtain ⟨hw, hr⟩ := (isWord_repr k).append_inj (isWord_repr l) hr hr' (List.cons.inj h).2
    exact ⟨congrArg Datum.node (Nat.repr_inj.1 (String.toList_inj.1 hw)), hr⟩

/-! ### Arguments in a row -/

theorem breaks_args {α : Type} (t : α → List Char) (xs : List α) (r : List Char) :
    Breaks (xs.flatMap (fun x => ' ' :: t x) ++ ')' :: r) := by
  cases xs with
  | nil => exact breaks_cons rfl
  | cons x xs => exact breaks_cons rfl

/-- Arguments with a blank before each and a closing bracket after the last can be read if each of
them is told apart from what follows it. -/
theorem args_append_inj {α β : Type} {t : α → List Char} {u : β → List Char} {R : α → β → Prop}
    {r r' : List Char} : ∀ {xs : List α} {ys : List β},
    (∀ x ∈ xs, ∀ y ∈ ys, ∀ s s', Breaks s → Breaks s' → t x ++ s = u y ++ s' → R x y ∧ s = s') →
    xs.flatMap (fun x => ' ' :: t x) ++ ')' :: r = ys.flatMap (fun y => ' ' :: u y) ++ ')' :: r' →
      List.Forall₂ R xs ys ∧ r = r'
  | [], [], _, h => ⟨.nil, (List.cons.inj h).2⟩
  | [], y :: ys, _, h => absurd (List.cons.inj h).1 (by decide)
  | x :: xs, [], _, h => absurd (List.cons.inj h).1 (by decide)
  | x :: xs, y :: ys, hread, h => by
    rw [List.flatMap_cons, List.flatMap_cons, List.append_assoc, List.append_assoc] at h
    obtain ⟨hxy, hrest⟩ := hread x (List.mem_cons_self ..) y (List.mem_cons_self ..) _ _
      (breaks_args t xs r) (breaks_args u ys r') (List.cons.inj h).2
    obtain ⟨hxys, hr⟩ := args_append_inj
      (fun x hx y hy => hread x (List.mem_cons_of_mem _ hx) y (List.mem_cons_of_mem _ hy)) hrest
    exact ⟨.cons hxy hxys, hr⟩

end Text

end TermGraph
