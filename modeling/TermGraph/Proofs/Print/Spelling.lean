import Mathlib.Data.List.Perm.Basic
import TermGraph.Print.Render
import TermGraph.Proofs.Print.Places

/-!
What a rendering says, without tables. Whether a node stands in full at a place, and which label it
has, is read off the graph alone; so the rendering is a recursion over the arguments. It is kept as
a list of tokens that say which node they are about. Main statements: below a root every node that
is not simple stands in full just once, the labels defined are the numbers from zero on, and every
label used is defined.

That a node stands in full just once is counted from below: it does so as often as the record of its
first place stands in full, and that record is nearer to the root.
-/

namespace TermGraph

/-- A piece of a rendering, of nodes `ν`. -/
inductive Token (ν : Type) where
  /-- The opening bracket of a node in full, and its head. -/
  | opens (n : ν) (head : String)
  | blank
  | literal (text : String)
  /-- The closing bracket of a node in full, and its label if it has one. -/
  | closes (n : ν) (label : Option Nat)
  /-- A node that stands in full elsewhere, by its label. -/
  | again (n : ν) (k : Nat)
deriving DecidableEq

namespace Token

variable {ν : Type}

/-- What stands after a node in full. -/
def suffix : Option Nat → String
  | some k => "[" ++ Page.labelText k ++ "]"
  | none => ""

/-- The text of a token. -/
def text : Token ν → String
  | opens _ head => "(" ++ head
  | blank => " "
  | literal s => s
  | closes _ label => ")" ++ suffix label
  | again _ k => Page.labelText k

/-- The node that begins to stand in full, if one does. -/
def opened? : Token ν → Option ν
  | opens n _ => some n
  | _ => none

/-- The node that ends to stand in full, if one does. -/
def closed? : Token ν → Option ν
  | closes n _ => some n
  | _ => none

/-- The label that is defined, if one is. -/
def defined? : Token ν → Option Nat
  | closes _ label => label
  | _ => none

/-- The text of tokens one after the other. -/
def spelled : List (Token ν) → String
  | [] => ""
  | t :: ts => t.text ++ spelled ts

theorem spelled_append : ∀ ts us : List (Token ν), spelled (ts ++ us) = spelled ts ++ spelled us
  | [], us => (String.empty_append ..).symm
  | t :: ts, us => by
    rw [List.cons_append, spelled, spelled_append ts us, spelled, String.append_assoc]

end Token

namespace Graph

variable {g : Graph} {root n p q : Fin g.size}

/-- Does the node stand in full at the place? -/
def isInFull (g : Graph) (root : Fin g.size) (s : Place) (n : Fin g.size) : Bool :=
  (g.exprAt n).isSimple || decide (g.first? root n = some s)

/-- A node in full with all that it depends on, as an argument below the root or as the root. -/
def spell (g : Graph) (root p : Fin g.size) : List (Token (Fin g.size)) :=
  .opens p (g.headAt p) :: ((g.argsAt p).attach.zipIdx.flatMap fun
    | (⟨.node n, _⟩, i) =>
      .blank :: if g.isInFull root ⟨p, i⟩ n then g.spell root n else [.again n (g.rank root n)]
    | (⟨.int k, _⟩, _) => [.blank, .literal (Datum.int k).text]
    | (⟨.bool b, _⟩, _) => [.blank, .literal (Datum.bool b).text]
    | (⟨.str s, _⟩, _) => [.blank, .literal (Datum.str s).text])
    ++ [.closes p (g.label? root p)]
termination_by p.val
decreasing_by exact lt_of_mem_argsAt (by assumption)

/-- An argument at a place. -/
def spellArg (g : Graph) (root : Fin g.size) (s : Place) :
    Datum String (Fin g.size) → List (Token (Fin g.size))
  | .node n => if g.isInFull root s n then g.spell root n else [.again n (g.rank root n)]
  | .int k => [.literal (Datum.int k).text]
  | .bool b => [.literal (Datum.bool b).text]
  | .str s => [.literal (Datum.str s).text]

theorem spell_eq (root p : Fin g.size) : g.spell root p =
    .opens p (g.headAt p) :: ((g.argsAt p).zipIdx.flatMap fun x =>
      .blank :: g.spellArg root ⟨p, x.2⟩ x.1) ++ [.closes p (g.label? root p)] := by
  have hval : (g.argsAt p).zipIdx
      = (g.argsAt p).attach.zipIdx.map (Prod.map Subtype.val fun i => i) := by
    refine Eq.trans ?_ List.zipIdx_map
    rw [List.attach_map_subtype_val]
  rw [spell, hval, List.flatMap_map]
  congr 3
  funext x
  rcases x with ⟨⟨d, hd⟩, i⟩
  cases d <;> rfl

theorem isInFull_iff {s : Place} : g.isInFull root s n = true ↔
    (g.exprAt n).isSimple = true ∨ g.first? root n = some s := by
  rw [isInFull, Bool.or_eq_true, decide_eq_true_eq]

/-- A node that is not simple stands in full at its first place only. -/
theorem isInFull_iff_eq {s t : Place} (hn : (g.exprAt n).isSimple = false)
    (hfirst : g.first? root n = some s) : g.isInFull root t n = true ↔ t = s := by
  rw [isInFull_iff, hn, hfirst, Option.some.injEq, eq_comm (a := s)]
  exact or_iff_right Bool.false_ne_true

/-! ### What stands in full -/

/-- The nodes that stand in full, in the order of their closing brackets. -/
def inFull (g : Graph) (root p : Fin g.size) : List (Fin g.size) :=
  (g.spell root p).filterMap Token.closed?

/-- The nodes that stand in full at a place. -/
def inFullArg (g : Graph) (root p : Fin g.size)
    (x : Datum String (Fin g.size) × Nat) : List (Fin g.size) :=
  (g.spellArg root ⟨p.val, x.2⟩ x.1).filterMap Token.closed?

theorem inFull_eq (root p : Fin g.size) :
    g.inFull root p = (g.argsAt p).zipIdx.flatMap (g.inFullArg root p) ++ [p] := by
  rw [inFull, spell_eq, List.filterMap_append, List.filterMap_cons, List.filterMap_flatMap]
  rfl

theorem inFullArg_node (p : Fin g.size) (i : Nat) : g.inFullArg root p (.node n, i)
    = if g.isInFull root ⟨p.val, i⟩ n then g.inFull root n else [] := by
  rw [inFullArg, spellArg]
  split <;> rfl

/-- As many nodes begin to stand in full as end to. -/
theorem opened_perm (root p : Fin g.size) :
    List.Perm ((g.spell root p).filterMap Token.opened?) (g.inFull root p) := by
  have hopened : (g.spell root p).filterMap Token.opened? = p :: (g.argsAt p).zipIdx.flatMap
      fun x => (g.spellArg root ⟨p.val, x.2⟩ x.1).filterMap Token.opened? := by
    rw [spell_eq, List.filterMap_append, List.filterMap_cons, List.filterMap_flatMap]
    exact List.append_nil _
  rw [inFull_eq, hopened]
  refine List.Perm.trans ?_ (List.perm_append_singleton ..).symm
  refine List.Perm.cons p (List.Perm.flatMap_left _ fun ⟨d, i⟩ hd => ?_)
  cases d with
  | node q =>
    have hlt := lt_of_mem_argsAt (List.fst_mem_of_mem_zipIdx hd)
    rw [inFullArg_node, spellArg]
    split
    · exact opened_perm root q
    · exact .nil
  | _ => exact .nil
termination_by p.val
decreasing_by exact hlt

theorem exists_arg_of_mem (h : n ∈ (g.argsAt p).zipIdx.flatMap (g.inFullArg root p)) :
    ∃ q, Datum.node q ∈ g.argsAt p ∧ n ∈ g.inFull root q := by
  obtain ⟨⟨d, i⟩, hd, hn⟩ := List.mem_flatMap.1 h
  cases d with
  | node q =>
    rw [inFullArg_node] at hn
    split at hn
    · exact ⟨q, List.fst_mem_of_mem_zipIdx hd, hn⟩
    · cases hn
  | _ => cases hn

/-- Only what a node depends on stands in full in it. -/
theorem path_of_mem_inFull {p : Fin g.size} (h : n ∈ g.inFull root p) : g.Path p.val n.val := by
  rw [inFull_eq] at h
  rcases List.mem_append.1 h with h | h
  · obtain ⟨q, hq, hn⟩ := exists_arg_of_mem h
    have hlt := lt_of_mem_argsAt hq
    exact .step (mem_childrenAt_iff.2 hq) (path_of_mem_inFull hn)
  · cases List.mem_singleton.1 h
    exact .refl _
termination_by p.val
decreasing_by exact hlt

/-- A place that a node has in a record it has there once. -/
theorem countP_place {α : Type} {xs : List α} {p q i : Nat} (hi : p = q → i < xs.length) :
    xs.zipIdx.countP (fun x => decide (Place.mk p i = ⟨q, x.2⟩)) = if p = q then 1 else 0 := by
  by_cases hpq : p = q
  · have hi := hi hpq
    subst hpq
    rw [if_pos rfl]
    have hcount : (xs.zipIdx.map Prod.snd).count i = 1 := by
      rw [List.zipIdx_map_snd, List.Nodup.count (List.nodup_range'), if_pos]
      exact List.mem_range'_1.2 ⟨Nat.zero_le _, by omega⟩
    rw [← hcount, List.count, List.countP_map]
    refine List.countP_congr fun x _ => ?_
    rw [decide_eq_true_eq, Place.mk.injEq, Function.comp, beq_iff_eq]
    exact ⟨fun h => h.2.symm, fun h => ⟨rfl, h.symm⟩⟩
  · rw [if_neg hpq, List.countP_eq_zero]
    intro x _ hx
    exact hpq (congrArg Place.record (of_decide_eq_true hx))

/-- A node that is not simple stands in full once as itself, and otherwise as often as the record
of its first place does. -/
theorem count_inFull {c : Fin g.size} {i : Nat} (hn : (g.exprAt n).isSimple = false)
    (hfirst : g.first? root n = some ⟨c.val, i⟩) (p : Fin g.size) :
    (g.inFull root p).count n = (if p = n then 1 else 0) + (g.inFull root p).count c := by
  obtain ⟨c', -, hc', harg⟩ := mem_places.1 (first?_eq_some_iff.1 hfirst).1
  cases Fin.ext hc'
  -- argument by argument; one that stands in full is the same statement below `p`
  have hargs : ((g.argsAt p).zipIdx.flatMap (g.inFullArg root p)).count n
      = (if c = p then 1 else 0) + ((g.argsAt p).zipIdx.flatMap (g.inFullArg root p)).count c := by
    rw [count_flatMap_add (t := fun x => decide (Place.mk c i = ⟨p, x.2⟩)) (c := c), countP_place]
    · simp only [Fin.ext_iff]
    · intro hcp
      rw [← Fin.ext hcp]
      exact (List.getElem?_eq_some_iff.1 harg).1
    intro ⟨d, j⟩ hd
    have hj : (g.argsAt p)[j]? = some d := List.mem_zipIdx_iff_getElem?.1 hd
    have hplace : Place.mk c i = ⟨p, j⟩ → d = .node n := by
      intro he
      obtain ⟨hcp, hij⟩ := Place.mk.inj he
      cases Fin.ext hcp
      cases hij
      exact Option.some.inj (hj.symm.trans harg)
    cases d with
    | node q =>
      have hlt := lt_of_mem_argsAt (List.mem_of_getElem? hj)
      rw [inFullArg_node]
      split
      · next hfull =>
        -- standing in full, the node is `n` just if the place is the first of `n`
        have hiff : q = n ↔ Place.mk c i = ⟨p, j⟩ := by
          constructor
          · rintro rfl
            exact ((isInFull_iff_eq hn hfirst).1 hfull).symm
          · exact fun he => Datum.node.inj (hplace he)
        rw [count_inFull hn hfirst q]
        simp only [hiff, decide_eq_true_eq]
      · next hfull =>
        rw [if_neg]
        · rfl
        · intro h
          have he := of_decide_eq_true h
          cases hplace he
          exact hfull (isInFull_iff.2 (.inr (hfirst.trans (congrArg some he))))
    | _ =>
      rw [if_neg]
      · rfl
      · intro h
        cases hplace (of_decide_eq_true h)
  rw [inFull_eq, List.count_append, List.count_append, hargs, List.count_singleton,
    List.count_singleton]
  simp only [beq_iff_eq, eq_comm (a := c)]
  omega
termination_by p.val
decreasing_by exact hlt

/-- Below the root every node that is not simple stands in full just once. -/
theorem count_inFull_root (n : Fin g.size) (hn : n ∈ g.below root)
    (hsimple : (g.exprAt n).isSimple = false) : (g.inFull root root).count n = 1 := by
  by_cases hne : n = root
  · subst hne
    rw [inFull_eq, List.count_append, List.count_singleton_self, List.count_eq_zero_of_not_mem]
    intro h
    obtain ⟨q, hq, hmem⟩ := exists_arg_of_mem h
    exact Nat.lt_irrefl _ (Nat.lt_of_le_of_lt (path_of_mem_inFull hmem).le (lt_of_mem_argsAt hq))
  · -- the record of the first place is nearer to the root
    obtain ⟨c, hc, i, hfirst, harg⟩ := exists_first_arg (places_ne_nil hn hne)
    have hmem := List.mem_of_getElem? harg
    have hlt := lt_of_mem_argsAt hmem
    have hle := le_of_mem_below hc
    rw [count_inFull hsimple hfirst, if_neg (Ne.symm hne),
      count_inFull_root c hc (isSimple_eq_false hmem)]
termination_by root.val - n.val
decreasing_by omega

/-! ### What is said about labels -/

/-- What a token says about labels is what the graph says. -/
def Right (g : Graph) (root : Fin g.size) : Token (Fin g.size) → Prop
  | .closes n label => label = g.label? root n
  | .again n k => g.label? root n = some k
  | _ => True

/-- A node that does not stand in full at one of its places has a label. -/
theorem isLabelled_of_not_isInFull {s : Place} (hs : s ∈ g.places root n)
    (h : ¬ g.isInFull root s n = true) : g.isLabelled root n = true := by
  rw [isInFull_iff, not_or, Bool.not_eq_true] at h
  obtain ⟨t, ht, -⟩ := exists_first hs
  have hmem := (first?_eq_some_iff.1 ht).1
  refine isLabelled_iff.2 ⟨h.1, ?_⟩
  rcases hpl : g.places root n with _ | ⟨u, _ | ⟨v, us⟩⟩
  · rw [hpl] at hs
    cases hs
  · rw [hpl] at hs hmem
    cases List.mem_singleton.1 hs
    cases List.mem_singleton.1 hmem
    exact absurd ht h.2
  · rw [List.length_cons, List.length_cons]
    omega

theorem right_of_mem_spell {p : Fin g.size} (hp : p ∈ g.below root) :
    ∀ t ∈ g.spell root p, g.Right root t := by
  intro t ht
  rw [spell_eq] at ht
  rcases List.mem_append.1 ht with ht | ht
  · rcases List.mem_cons.1 ht with rfl | ht
    · trivial
    obtain ⟨⟨d, i⟩, hd, ht⟩ := List.mem_flatMap.1 ht
    rcases List.mem_cons.1 ht with rfl | ht
    · trivial
    cases d with
    | node q =>
      have hi : (g.argsAt p)[i]? = some (.node q) := List.mem_zipIdx_iff_getElem?.1 hd
      have hq := List.mem_of_getElem? hi
      have hlt := lt_of_mem_argsAt hq
      rw [spellArg] at ht
      split at ht
      · exact right_of_mem_spell (mem_below_of_arg hp hq) t ht
      · next hfull =>
        cases List.mem_singleton.1 ht
        have hplace : Place.mk p.val i ∈ g.places root q := mem_places.2 ⟨p, hp, rfl, hi⟩
        exact if_pos (isLabelled_of_not_isInFull hplace hfull)
    | _ =>
      cases List.mem_singleton.1 ht
      trivial
  · cases List.mem_singleton.1 ht
    exact rfl
termination_by p.val
decreasing_by exact hlt

/-- The labels defined are the numbers from zero on, each once. -/
theorem defined_perm (root : Fin g.size) :
    List.Perm ((g.spell root root).filterMap Token.defined?)
      (List.range ((g.below root).countP (g.isLabelled root))) := by
  have hdefined : (g.spell root root).filterMap Token.defined?
      = (g.inFull root root).filterMap (g.label? root) := by
    rw [inFull, List.filterMap_filterMap]
    refine List.filterMap_congr fun t ht => ?_
    have := right_of_mem_spell (root_mem_below root) t ht
    cases t with
    | closes n label => exact this
    | _ => rfl
  have hfilter : List.Perm ((g.inFull root root).filter (g.isLabelled root))
      ((g.below root).filter (g.isLabelled root)) := by
    refine List.perm_iff_count.2 fun n => ?_
    by_cases hn : g.isLabelled root n = true
    · have hmem := mem_below_of_isLabelled hn
      rw [List.count_filter hn, List.count_filter hn, (below_nodup root).count, if_pos hmem,
        count_inFull_root n hmem (isLabelled_iff.1 hn).1]
    · rw [List.count_eq_zero_of_not_mem fun h => hn (List.mem_filter.1 h).2,
        List.count_eq_zero_of_not_mem fun h => hn (List.mem_filter.1 h).2]
  refine List.Perm.trans ?_ (labels_perm root)
  rw [hdefined, filterMap_label?, filterMap_label?]
  exact hfilter.map _

/-- Every label used is defined. -/
theorem defined_of_again {k : Nat} (h : Token.again n k ∈ g.spell root root) :
    Token.closes n (some k) ∈ g.spell root root := by
  have hright : g.label? root n = some k := right_of_mem_spell (root_mem_below root) _ h
  have hlabelled := isLabelled_of_label? hright
  have hmem : n ∈ g.inFull root root := by
    refine List.count_pos_iff.1 ?_
    rw [count_inFull_root n (mem_below_of_isLabelled hlabelled) (isLabelled_iff.1 hlabelled).1]
    exact Nat.one_pos
  obtain ⟨t, ht, hn⟩ := List.mem_filterMap.1 hmem
  have hlabel := right_of_mem_spell (root_mem_below root) t ht
  cases t with
  | closes m label =>
    cases hn
    rw [show label = some k from Eq.trans hlabel hright] at ht
    exact ht
  | _ => cases hn

end Graph

end TermGraph
