import Mathlib.Tactic.SplitIfs
import TermGraph.Text.Quoted

/-!
Reading quoted texts back. One character is read at a time: after a backslash it is said in another
way which character is meant, and every other character stands for itself. Main statement: what a
quoted text is and where it ends can be told from what is written, whatever follows and whichever
characters are plain.
-/

namespace TermGraph.Text

/-! ### Numbers in sixteens -/

/-- The value of a digit, of digits up to sixteen. -/
def digitOf (c : Char) : Nat := if c.isDigit then c.toNat - 48 else c.toNat - 87

/-- The number that digits in sixteens are. -/
def numberOf (cs : List Char) : Nat := cs.foldl (fun n c => 16 * n + digitOf c) 0

theorem digitOf_digitChar : ∀ d < 16, digitOf d.digitChar = d := by decide

theorem digitChar_ne_brace : ∀ d < 16, d.digitChar ≠ '\x7d' := by decide

theorem numberOf_toDigits (n : Nat) : numberOf (Nat.toDigits 16 n) = n := by
  rw [Nat.toDigits_eq_if (by decide)]
  split
  · next h => exact (Nat.zero_add _).trans (digitOf_digitChar n h)
  · have hinit := numberOf_toDigits (n / 16)
    have hlast := digitOf_digitChar (n % 16) (Nat.mod_lt _ (by decide))
    rw [numberOf, List.foldl_append, ← numberOf, hinit, List.foldl_cons, List.foldl_nil, hlast]
    exact Nat.div_add_mod n 16

/-- No digit is the brace that ends a number. -/
theorem ne_brace_of_mem_toDigits {n : Nat} {c : Char} (h : c ∈ Nat.toDigits 16 n) :
    c ≠ '\x7d' := by
  rw [Nat.toDigits_eq_if (by decide)] at h
  split at h
  · next hn =>
    cases List.mem_singleton.1 h
    exact digitChar_ne_brace n hn
  · rcases List.mem_append.1 h with h | h
    · exact ne_brace_of_mem_toDigits h
    · cases List.mem_singleton.1 h
      exact digitChar_ne_brace _ (Nat.mod_lt _ (by decide))

/-! ### One character -/

/-- What stands after a backslash: the character meant, and the rest. -/
def readEscape : List Char → Option (Char × List Char)
  | 'n' :: r => some ('\n', r)
  | 'r' :: r => some ('\r', r)
  | 't' :: r => some ('\t', r)
  | '0' :: r => some ('\x00', r)
  | 'u' :: '\x7b' :: r =>
    some (Char.ofNat (numberOf (r.takeWhile (· != '\x7d'))), (r.dropWhile (· != '\x7d')).tail)
  | c :: r => some (c, r)
  | [] => none

/-- The first character meant, and the rest. -/
def readChar : List Char → Option (Char × List Char)
  | '\\' :: r => readEscape r
  | c :: r => some (c, r)
  | [] => none

theorem readEscape_toDigits (c : Char) (r : List Char) :
    readEscape ('u' :: '\x7b' :: (Nat.toDigits 16 c.toNat ++ '\x7d' :: r)) = some (c, r) := by
  have hdigits : ∀ d ∈ Nat.toDigits 16 c.toNat, (d != '\x7d') = true := fun d hd =>
    bne_iff_ne.2 (ne_brace_of_mem_toDigits hd)
  rw [readEscape, List.takeWhile_append_of_pos hdigits, List.dropWhile_append_of_pos hdigits]
  simp [numberOf_toDigits]

/-- An escaped character is read back, whatever follows. -/
theorem readChar_escape (plain : Char → Bool) (c : Char) (r : List Char) :
    readChar (escape plain c ++ r) = some (c, r) := by
  unfold escape
  split_ifs with hquote hslash hn hr ht hnul hplain
  · rw [hquote]; rfl
  · rw [hslash]; rfl
  · rw [hn]; rfl
  · rw [hr]; rfl
  · rw [ht]; rfl
  · rw [hnul]; rfl
  · unfold readChar
    split
    · next h => exact absurd (List.cons.inj h).1 hslash
    · next h => cases h; rfl
    · next h => cases h
  · rw [List.append_assoc, List.append_assoc]
    exact readEscape_toDigits c r

/-- A quote inside a text does not stand alone. -/
theorem head?_escape (plain : Char → Bool) (c : Char) (r : List Char) :
    (escape plain c ++ r).head? ≠ some '"' := by
  unfold escape
  split_ifs with hquote
  all_goals simp [hquote]

/-! ### Quoted texts -/

/-- What is written between the quotes tells which text it is and where it ends. -/
theorem flatMap_escape_inj (plain : Char → Bool) {r r' : List Char} : ∀ {cs cs' : List Char},
    cs.flatMap (escape plain) ++ '"' :: r = cs'.flatMap (escape plain) ++ '"' :: r' →
      cs = cs' ∧ r = r'
  | [], [], h => ⟨rfl, (List.cons.inj h).2⟩
  | [], c :: cs, h => by
    rw [List.flatMap_cons, List.append_assoc] at h
    exact absurd (congrArg List.head? h).symm (head?_escape plain c _)
  | c :: cs, [], h => by
    rw [List.flatMap_cons, List.append_assoc] at h
    exact absurd (congrArg List.head? h) (head?_escape plain c _)
  | c :: cs, c' :: cs', h => by
    rw [List.flatMap_cons, List.flatMap_cons, List.append_assoc, List.append_assoc] at h
    have hread := congrArg readChar h
    rw [readChar_escape, readChar_escape, Option.some.injEq, Prod.mk.injEq] at hread
    obtain ⟨rfl, hrest⟩ := flatMap_escape_inj plain hread.2
    exact ⟨congrArg (· :: cs) hread.1, hrest⟩

/-- A quoted text is told apart from what follows it. -/
theorem quoteWith_append_inj (plain : Char → Bool) {s s' : String} {r r' : List Char}
    (h : (quoteWith plain s).toList ++ r = (quoteWith plain s').toList ++ r') :
    s = s' ∧ r = r' := by
  have hlist : ∀ (s : String) (r : List Char), (quoteWith plain s).toList ++ r
      = '"' :: (s.toList.flatMap (escape plain) ++ '"' :: r) := fun s r => by
    rw [quoteWith, String.toList_ofList, List.append_assoc]
    rfl
  rw [hlist, hlist] at h
  obtain ⟨hs, hr⟩ := flatMap_escape_inj plain (List.cons.inj h).2
  exact ⟨String.toList_inj.1 hs, hr⟩

end TermGraph.Text
