import TermGraph.Proofs.Print.Page

/-!
Left to right in a text. A shared node stands in full where it is first met in the order of the
records, and its label stands wherever else the node is an argument. The text is read in another
order: the arguments of the root from left to right, each with what stands in full in it. So a label
may be read before the node that it labels. Main statement: a text defines its labels before it uses
them just if, for each node with a label, the first place in the order of the records is also the
first in the order of the text, which is that of the argument indices on the way down from the root.
-/

namespace TermGraph

/-! ### One kind of member before another -/

section Heralded

variable {α β : Type} {P Q : α → Prop} {t : α} {ts us : List α}

/-- Every member with the property `Q` comes after a member with the property `P`. -/
def Heralded (P Q : α → Prop) (ts : List α) : Prop :=
  ∀ before t after, ts = before ++ t :: after → Q t → ∃ u ∈ before, P u

theorem heralded_of_none (h : ∀ t ∈ ts, ¬ Q t) : Heralded P Q ts := by
  rintro before t after rfl ht
  exact absurd ht (h t (by simp))

theorem heralded_cons : Heralded P Q (t :: ts) ↔ ¬ Q t ∧ (P t ∨ Heralded P Q ts) := by
  constructor
  · intro h
    refine ⟨fun ht => ?_, or_iff_not_imp_left.2 fun hP before u after hu hQ => ?_⟩
    · obtain ⟨_, hu, -⟩ := h [] t ts rfl ht
      cases hu
    · obtain ⟨v, hv, hPv⟩ := h (t :: before) u after (by rw [hu]; rfl) hQ
      rcases List.mem_cons.1 hv with rfl | hv
      · exact absurd hPv hP
      · exact ⟨v, hv, hPv⟩
  · rintro ⟨hQ, h⟩ before u after hu hQu
    cases before with
    | nil =>
      cases hu
      exact absurd hQu hQ
    | cons v before =>
      obtain ⟨rfl, hts⟩ := List.cons.inj hu
      rcases h with hP | h
      · exact ⟨t, List.mem_cons_self .., hP⟩
      · obtain ⟨w, hw, hPw⟩ := h before u after hts hQu
        exact ⟨w, List.mem_cons_of_mem _ hw, hPw⟩

theorem heralded_append : Heralded P Q (ts ++ us) ↔
    Heralded P Q ts ∧ ((∃ t ∈ ts, P t) ∨ Heralded P Q us) := by
  induction ts with
  | nil =>
    have hnil : Heralded P Q ([] : List α) := heralded_of_none (by simp)
    simp [hnil]
  | cons t ts ih =>
    simp only [List.cons_append, heralded_cons, ih, List.mem_cons, exists_eq_or_imp]
    by_cases hP : P t <;> simp [hP, and_assoc]

theorem heralded_filterMap {f : α → Option β} {P' Q' : β → Prop}
    (hP : ∀ t, P t ↔ ∃ b, f t = some b ∧ P' b) (hQ : ∀ t, Q t ↔ ∃ b, f t = some b ∧ Q' b) :
    Heralded P' Q' (ts.filterMap f) ↔ Heralded P Q ts := by
  induction ts with
  | nil => exact iff_of_true (heralded_of_none (by simp)) (heralded_of_none (by simp))
  | cons t ts ih =>
    cases ht : f t with
    | none => simp [List.filterMap_cons_none ht, heralded_cons, hP t, hQ t, ht, ih]
    | some b => simp [List.filterMap_cons_some ht, heralded_cons, hP t, hQ t, ht, ih]

theorem heralded_map {f : β → α} {xs : List β} :
    Heralded P Q (xs.map f) ↔ Heralded (fun x => P (f x)) (fun x => Q (f x)) xs := by
  rw [← List.filterMap_eq_map]
  exact heralded_filterMap (fun x => by simp) (fun x => by simp)

/-- If the first members with the property `P` are in one piece of the list, and none with the
property `Q` is in it, those with the property `Q` all come after the piece. -/
theorem heralded_iff_of_piece {piece vs : List α} (hts : ∀ t ∈ ts, ¬ P t)
    (hQ : ∀ t ∈ piece, ¬ Q t) (hP : ∃ t ∈ piece, P t) :
    Heralded P Q (ts ++ (piece ++ vs)) ↔ ∀ t ∈ ts, ¬ Q t := by
  have hpiece : Heralded P Q (piece ++ vs) :=
    heralded_append.2 ⟨heralded_of_none hQ, .inl hP⟩
  rw [heralded_append, and_iff_left (.inr hpiece)]
  constructor
  · rintro h t ht hQt
    obtain ⟨before, after, rfl⟩ := List.append_of_mem ht
    obtain ⟨u, hu, hPu⟩ := h before t after rfl hQt
    exact hts u (List.mem_append_left _ hu) hPu
  · exact heralded_of_none

/-- What a list has once and one piece of it has, is not before the piece. -/
theorem not_mem_of_count_eq_one [DecidableEq β] {f : α → Option β} {b : β} {piece vs : List α}
    (hone : ((ts ++ (piece ++ vs)).filterMap f).count b = 1) (hpiece : b ∈ piece.filterMap f) :
    b ∉ ts.filterMap f := by
  intro hts
  have hts := List.count_pos_iff.2 hts
  have hpiece := List.count_pos_iff.2 hpiece
  rw [List.filterMap_append, List.filterMap_append, List.count_append, List.count_append] at hone
  omega

/-- In a sorted list only one member of which has the property `P`. -/
theorem heralded_iff_of_sorted {r : α → α → Prop} (hsorted : ts.Pairwise r)
    (hasymm : ∀ x y, r x y → ¬ r y x) {u : α} (hu : u ∈ ts) (hP : ∀ t ∈ ts, P t ↔ t = u) :
    Heralded P Q ts ↔ ∀ t ∈ ts, Q t → r u t := by
  constructor
  · intro h t ht hQ
    obtain ⟨before, after, rfl⟩ := List.append_of_mem ht
    obtain ⟨v, hv, hPv⟩ := h before t after rfl hQ
    rw [(hP v (List.mem_append_left _ hv)).1 hPv] at hv
    exact (List.pairwise_append.1 hsorted).2.2 u hv t (List.mem_cons_self ..)
  · rintro h before t after rfl hQ
    have hut := h t (by simp) hQ
    obtain ⟨-, hafter, -⟩ := List.pairwise_append.1 hsorted
    rcases List.mem_append.1 hu with hu | hu
    · exact ⟨u, hu, (hP u (List.mem_append_left _ hu)).2 rfl⟩
    · rcases List.mem_cons.1 hu with rfl | hu
      · exact absurd hut (hasymm u u hut)
      · exact absurd hut (hasymm t u ((List.pairwise_cons.1 hafter).1 u hu))

end Heralded

/-- What goes on is greater than where it starts. -/
theorem lt_append_cons (a : List Nat) (i : Nat) (l : List Nat) : a < a ++ i :: l := by
  have h : a ++ [] < a ++ i :: l := List.append_left_lt (List.nil_lt_cons i l)
  rwa [List.append_nil] at h

namespace Graph

variable {g : Graph} {root n p : Fin g.size} {s t : Place} {a : List Nat}

/-! ### The way down to a place -/

/-- The argument indices on the way down from the root to where the node stands in full. -/
def trail (g : Graph) (root p : Fin g.size) : List Nat :=
  match g.first? root p with
  | some s =>
    if h : p.val < s.record ∧ s.record ≤ root.val then
      g.trail root ⟨s.record, Nat.lt_of_le_of_lt h.2 root.isLt⟩ ++ [s.index]
    else []
  | none => []
termination_by root.val - p.val
decreasing_by omega

/-- The argument indices on the way down from the root to a place. -/
def address (g : Graph) (root : Fin g.size) (s : Place) : List Nat :=
  if h : s.record < g.size then g.trail root ⟨s.record, h⟩ ++ [s.index] else []

theorem address_eq (root c : Fin g.size) (i : Nat) :
    g.address root ⟨c.val, i⟩ = g.trail root c ++ [i] := dif_pos c.isLt

theorem trail_root (root : Fin g.size) : g.trail root root = [] := by
  rw [trail]
  split
  · next s hs => exact dif_neg (by omega)
  · rfl

/-- A node stands in full at its first place. -/
theorem trail_of_first (h : g.first? root n = some s) : g.trail root n = g.address root s := by
  obtain ⟨c, hc, hrec, harg⟩ := mem_places.1 (first?_eq_some_iff.1 h).1
  have hlt := lt_of_mem_argsAt (List.mem_of_getElem? harg)
  have hle := le_of_mem_below hc
  have hs : s = ⟨c.val, s.index⟩ := Place.ext hrec rfl
  rw [hs] at h ⊢
  rw [trail, h, address_eq]
  exact dif_pos ⟨hlt, hle⟩

/-! ### Reading from left to right -/

/-- A node read as an argument: at which place, and on which way down. -/
structure Mention (g : Graph) where
  address : List Nat
  place : Place
  node : Fin g.size

/-- The nodes read as arguments in a node that stands in full, from left to right. -/
def reading (g : Graph) (root : Fin g.size) (a : List Nat) (p : Fin g.size) : List (Mention g) :=
  (g.argsAt p).attach.zipIdx.flatMap fun
    | (⟨.node n, _⟩, i) =>
      ⟨a ++ [i], ⟨p, i⟩, n⟩ ::
        if g.isInFull root ⟨p, i⟩ n then g.reading root (a ++ [i]) n else []
    | (⟨.int _, _⟩, _) => []
    | (⟨.bool _, _⟩, _) => []
    | (⟨.str _, _⟩, _) => []
termination_by p.val
decreasing_by exact lt_of_mem_argsAt (by assumption)

/-- What is read at an argument. -/
def readingArg (g : Graph) (root : Fin g.size) (a : List Nat) (p : Fin g.size) :
    Datum String (Fin g.size) × Nat → List (Mention g)
  | (.node n, i) =>
    ⟨a ++ [i], ⟨p, i⟩, n⟩ :: if g.isInFull root ⟨p, i⟩ n then g.reading root (a ++ [i]) n else []
  | _ => []

theorem reading_eq (root : Fin g.size) (a : List Nat) (p : Fin g.size) :
    g.reading root a p = (g.argsAt p).zipIdx.flatMap (g.readingArg root a p) := by
  have hval : (g.argsAt p).zipIdx
      = (g.argsAt p).attach.zipIdx.map (Prod.map Subtype.val fun i => i) := by
    refine Eq.trans ?_ List.zipIdx_map
    rw [List.attach_map_subtype_val]
  rw [reading, hval, List.flatMap_map]
  congr 1
  funext x
  rcases x with ⟨⟨d, hd⟩, i⟩
  cases d <;> rfl

/-- What is read in a node is each of its node arguments, and what is read in one in full. -/
theorem mem_reading {x : Mention g} : x ∈ g.reading root a p ↔ ∃ n i,
    (g.argsAt p)[i]? = some (.node n) ∧ (x = ⟨a ++ [i], ⟨p, i⟩, n⟩
      ∨ g.isInFull root ⟨p, i⟩ n = true ∧ x ∈ g.reading root (a ++ [i]) n) := by
  rw [reading_eq, List.mem_flatMap]
  constructor
  · rintro ⟨⟨d, i⟩, hd, hx⟩
    have hi := List.mem_zipIdx_iff_getElem?.1 hd
    cases d with
    | node n =>
      refine ⟨n, i, hi, (List.mem_cons.1 hx).imp_right fun hx => ?_⟩
      split at hx
      · next hfull => exact ⟨hfull, hx⟩
      · cases hx
    | _ => cases hx
  · rintro ⟨n, i, hi, hx⟩
    refine ⟨(.node n, i), List.mem_zipIdx_iff_getElem?.2 hi, List.mem_cons.2 (hx.imp_right ?_)⟩
    rintro ⟨hfull, hx⟩
    rw [if_pos hfull]
    exact hx

/-- What is read in a node is read further down. -/
theorem exists_address_of_mem_reading {x : Mention g} (a : List Nat) (p : Fin g.size)
    (h : x ∈ g.reading root a p) : ∃ i l, x.address = a ++ i :: l := by
  obtain ⟨n, i, hi, rfl | ⟨-, hx⟩⟩ := mem_reading.1 h
  · exact ⟨i, [], rfl⟩
  · have hlt := lt_of_mem_argsAt (List.mem_of_getElem? hi)
    obtain ⟨j, l, hl⟩ := exists_address_of_mem_reading (a ++ [i]) n hx
    exact ⟨i, j :: l, by rw [hl, List.append_assoc]; rfl⟩
termination_by p.val
decreasing_by exact hlt

theorem exists_address_of_mem_readingArg {x : Mention g} {d : Datum String (Fin g.size)} {i : Nat}
    (h : x ∈ g.readingArg root a p (d, i)) : ∃ l, x.address = a ++ i :: l := by
  cases d with
  | node n =>
    rcases List.mem_cons.1 h with rfl | h
    · exact ⟨[], rfl⟩
    · split at h
      · obtain ⟨j, l, hl⟩ := exists_address_of_mem_reading _ _ h
        exact ⟨j :: l, by rw [hl, List.append_assoc]; rfl⟩
      · cases h
  | _ => cases h

/-- Reading goes through the places in the order of their addresses. -/
theorem reading_sorted (root : Fin g.size) (a : List Nat) (p : Fin g.size) :
    (g.reading root a p).Pairwise fun x y => x.address < y.address := by
  rw [reading_eq, List.pairwise_flatMap]
  constructor
  · rintro ⟨d, i⟩ hd
    cases d with
    | node n =>
      have hlt := lt_of_mem_argsAt (List.fst_mem_of_mem_zipIdx hd)
      refine List.pairwise_cons.2 ⟨fun x hx => ?_, ?_⟩
      · split at hx
        · obtain ⟨j, l, hl⟩ := exists_address_of_mem_reading _ _ hx
          rw [hl]
          exact lt_append_cons _ j l
        · cases hx
      · split
        · exact reading_sorted root (a ++ [i]) n
        · exact .nil
    | _ => exact .nil
  · have hindex : (g.argsAt p).zipIdx.Pairwise fun x y => x.2 < y.2 := by
      rw [← List.pairwise_map (f := Prod.snd) (R := (· < ·)), List.zipIdx_map_snd]
      exact List.pairwise_lt_range'
    refine hindex.imp fun {x y} hxy m hm m' hm' => ?_
    obtain ⟨l, hl⟩ := exists_address_of_mem_readingArg hm
    obtain ⟨l', hl'⟩ := exists_address_of_mem_readingArg hm'
    rw [hl, hl']
    exact List.append_left_lt (List.cons_lt_cons_iff.2 (.inl hxy))
termination_by p.val
decreasing_by exact hlt

/-- What is read below the root is read where the graph has it. -/
theorem place_of_mem_reading {x : Mention g} (p : Fin g.size) (hp : p ∈ g.below root)
    (h : x ∈ g.reading root (g.trail root p) p) :
    x.place ∈ g.places root x.node ∧ x.address = g.address root x.place := by
  obtain ⟨n, i, hi, rfl | ⟨hfull, hx⟩⟩ := mem_reading.1 h
  · exact ⟨mem_places.2 ⟨p, hp, rfl, hi⟩, (address_eq root p i).symm⟩
  · have hn := List.mem_of_getElem? hi
    have hlt := lt_of_mem_argsAt hn
    rcases isInFull_iff.1 hfull with hsimple | hfirst
    · obtain ⟨m, j, hj, -⟩ := mem_reading.1 hx
      rw [isSimple_eq_false (List.mem_of_getElem? hj)] at hsimple
      cases hsimple
    · rw [← address_eq, ← trail_of_first hfirst] at hx
      exact place_of_mem_reading n (mem_below_of_arg hp hn) hx
termination_by p.val
decreasing_by exact hlt

/-- What is read in a node that the root depends on is read below the root. -/
theorem reading_subset (p : Fin g.size) (hp : p ∈ g.below root) :
    g.reading root (g.trail root p) p ⊆ g.reading root [] root := by
  by_cases hroot : p = root
  · subst hroot
    rw [trail_root]
    exact List.Subset.refl _
  · obtain ⟨c, hc, i, hfirst, harg⟩ := exists_first_arg (places_ne_nil hp hroot)
    have hlt := lt_of_mem_argsAt (List.mem_of_getElem? harg)
    have hle := le_of_mem_below hc
    refine List.Subset.trans (fun x hx => ?_) (reading_subset c hc)
    rw [trail_of_first hfirst, address_eq] at hx
    exact mem_reading.2 ⟨p, i, harg, .inr ⟨isInFull_iff.2 (.inr hfirst), hx⟩⟩
termination_by root.val - p.val
decreasing_by omega

/-- Below the root every place is read, on its own way down. -/
theorem mem_reading_root {x : Mention g} : x ∈ g.reading root [] root ↔
    x.place ∈ g.places root x.node ∧ x.address = g.address root x.place := by
  constructor
  · intro h
    rw [← trail_root root] at h
    exact place_of_mem_reading root (root_mem_below root) h
  · rcases x with ⟨a, ⟨r, i⟩, n⟩
    rintro ⟨hs, ha⟩
    obtain ⟨p, hp, rfl, harg⟩ := mem_places.1 hs
    obtain rfl : a = g.trail root p ++ [i] := ha.trans (address_eq root p i)
    exact reading_subset p hp (mem_reading.2 ⟨n, i, harg, .inl rfl⟩)

end Graph

/-! ### Tokens that mention a node -/

namespace Token

variable {ν : Type}

/-- The node that is written as a label, if one is. -/
def again? : Token ν → Option ν
  | again n _ => some n
  | _ => none

/-- The node that is mentioned, if one is, and whether it begins to stand in full. -/
def mention? : Token ν → Option (ν × Bool)
  | opens n _ => some (n, true)
  | again n _ => some (n, false)
  | _ => none

theorem opened?_iff {n : ν} (t : Token ν) :
    t.opened? = some n ↔ ∃ m, t.mention? = some m ∧ m = (n, true) := by
  cases t <;> simp [opened?, mention?]

theorem again?_iff {n : ν} (t : Token ν) :
    t.again? = some n ↔ ∃ m, t.mention? = some m ∧ m = (n, false) := by
  cases t <;> simp [again?, mention?]

end Token

namespace Graph

variable {g : Graph} {root n p : Fin g.size} {s t : Place}

/-- The nodes that a node in full mentions are itself and those read in it. -/
theorem filterMap_mention? (a : List Nat) (p : Fin g.size) :
    (g.spell root p).filterMap Token.mention? = (p, true) ::
      (g.reading root a p).map fun x => (x.node, g.isInFull root x.place x.node) := by
  have hopens : Token.mention? (.opens p (g.headAt p)) = some (p, true) := rfl
  rw [spell_eq, reading_eq, List.cons_append, List.filterMap_cons_some hopens,
    List.filterMap_append, List.filterMap_flatMap, List.map_flatMap]
  refine congrArg ((p, true) :: ·) ((List.append_nil _).trans (List.flatMap_congr fun x hx => ?_))
  obtain ⟨d, i⟩ := x
  rw [List.filterMap_cons_none rfl]
  cases d with
  | node n =>
    have hlt := lt_of_mem_argsAt (List.fst_mem_of_mem_zipIdx hx)
    rw [spellArg, readingArg, List.map_cons]
    split
    · next hfull => rw [filterMap_mention? (a ++ [i]) n, hfull]
    · next hfull =>
      exact congrArg (fun b => [(n, b)]) (Bool.eq_false_iff.2 hfull).symm
  | _ => rfl
termination_by p.val
decreasing_by exact hlt

/-- A labelled node is mentioned in full first just if its first place is reached first. -/
theorem heralded_opened_iff (hn : g.isLabelled root n = true) (hs : g.first? root n = some s) :
    Heralded (Token.opened? · = some n) (Token.again? · = some n) (g.spell root root)
      ↔ ∀ t ∈ g.places root n, t ≠ s → g.address root s < g.address root t := by
  have hroot : root ≠ n := by
    rintro rfl
    exact not_isLabelled_root root hn
  have hfull : ∀ t, g.isInFull root t n = true ↔ t = s := fun t =>
    isInFull_iff_eq (isLabelled_iff.1 hn).1 hs
  have hread : (⟨g.address root s, s, n⟩ : Mention g) ∈ g.reading root [] root :=
    mem_reading_root.2 ⟨(first?_eq_some_iff.1 hs).1, rfl⟩
  rw [← heralded_filterMap Token.opened?_iff Token.again?_iff, filterMap_mention? [],
    heralded_cons, heralded_map,
    heralded_iff_of_sorted (reading_sorted root [] root) (fun x y => List.lt_asymm) hread]
  · simp only [Prod.mk.injEq, hroot, false_and, not_false_eq_true, false_or, true_and]
    constructor
    · intro h t ht hne
      refine h ⟨g.address root t, t, n⟩ (mem_reading_root.2 ⟨ht, rfl⟩) ⟨rfl, ?_⟩
      exact Bool.eq_false_iff.2 (mt (hfull t).1 hne)
    · rintro h ⟨a, t, m⟩ hx ⟨rfl, hagain⟩
      obtain ⟨ht, ha⟩ := mem_reading_root.1 hx
      obtain rfl : a = g.address root t := ha
      exact h t ht fun he => Bool.eq_false_iff.1 hagain ((hfull t).2 he)
  · rintro ⟨a, t, m⟩ hx
    obtain ⟨-, ha⟩ := mem_reading_root.1 hx
    obtain rfl : a = g.address root t := ha
    simp only [Prod.mk.injEq, Mention.mk.injEq]
    constructor
    · rintro ⟨rfl, ht⟩
      obtain rfl := (hfull t).1 ht
      exact ⟨rfl, rfl, rfl⟩
    · rintro ⟨-, rfl, rfl⟩
      exact ⟨rfl, (hfull t).2 rfl⟩

/-! ### Labels defined before they are used -/

/-- A node in full is a piece of each text in which it stands in full. -/
theorem exists_piece (p : Fin g.size) (h : n ∈ g.inFull root p) :
    ∃ before after, g.spell root p = before ++ (g.spell root n ++ after) := by
  rw [inFull_eq] at h
  rcases List.mem_append.1 h with h | h
  · obtain ⟨⟨d, i⟩, hd, hn⟩ := List.mem_flatMap.1 h
    obtain ⟨xs, ys, hxs⟩ := List.append_of_mem hd
    cases d with
    | node q =>
      have hlt := lt_of_mem_argsAt (List.fst_mem_of_mem_zipIdx hd)
      rw [inFullArg_node] at hn
      split at hn
      · next hfull =>
        obtain ⟨before, after, hq⟩ := exists_piece q hn
        rw [spell_eq, hxs, List.flatMap_append, List.flatMap_cons, spellArg, if_pos hfull, hq]
        refine ⟨.opens p (g.headAt p) :: (xs.flatMap fun x =>
          .blank :: g.spellArg root ⟨p, x.2⟩ x.1) ++ .blank :: before, after ++ (ys.flatMap fun x =>
          .blank :: g.spellArg root ⟨p, x.2⟩ x.1) ++ [.closes p (g.label? root p)], ?_⟩
        simp only [List.append_assoc, List.cons_append]
      · cases hn
    | _ => cases hn
  · cases List.mem_singleton.1 h
    exact ⟨[], [], (List.append_nil _).symm⟩
termination_by p.val
decreasing_by exact hlt

theorem self_mem_inFull (root n : Fin g.size) : n ∈ g.inFull root n := by
  rw [inFull_eq]
  exact List.mem_append_right _ (List.mem_singleton.2 rfl)

/-- In the text before a node that stands in full just once, it neither begins nor ends to. -/
theorem exists_text_before (hn : n ∈ g.below root) (hsimple : (g.exprAt n).isSimple = false) :
    ∃ before after, g.spell root root = before ++ (g.spell root n ++ after)
      ∧ n ∉ before.filterMap Token.opened? ∧ n ∉ before.filterMap Token.closed? := by
  have hclosed := count_inFull_root n hn hsimple
  have hopened := hclosed
  rw [← (opened_perm root root).count_eq] at hopened
  have hself := self_mem_inFull root n
  obtain ⟨before, after, hsplit⟩ :=
    exists_piece root (List.count_pos_iff.1 (hclosed ▸ Nat.one_pos))
  rw [inFull] at hclosed
  rw [hsplit] at hopened hclosed
  exact ⟨before, after, hsplit,
    not_mem_of_count_eq_one hopened ((opened_perm root n).mem_iff.2 hself),
    not_mem_of_count_eq_one hclosed hself⟩

/-- What is read in a node stands before it. -/
theorem lt_of_mem_reading {x : Mention g} (a : List Nat) (p : Fin g.size)
    (h : x ∈ g.reading root a p) : x.node.val < p.val := by
  obtain ⟨n, i, hi, h⟩ := mem_reading.1 h
  have hlt := lt_of_mem_argsAt (List.mem_of_getElem? hi)
  rcases h with rfl | ⟨-, hx⟩
  · exact hlt
  · exact Nat.lt_trans (lt_of_mem_reading _ n hx) hlt
termination_by p.val
decreasing_by exact hlt

/-- A node in full is not written as a label in itself. -/
theorem not_mem_again (root n : Fin g.size) : n ∉ (g.spell root n).filterMap Token.again? := by
  intro h
  obtain ⟨t, ht, hagain⟩ := List.mem_filterMap.1 h
  obtain ⟨m, hm, rfl⟩ := (Token.again?_iff t).1 hagain
  have hmem := List.mem_filterMap.2 ⟨t, ht, hm⟩
  rw [filterMap_mention? []] at hmem
  rcases List.mem_cons.1 hmem with he | hmem
  · cases he
  · obtain ⟨x, hx, he⟩ := List.mem_map.1 hmem
    have hnode : x.node = n := congrArg Prod.fst he
    have hlt := lt_of_mem_reading [] n hx
    rw [hnode] at hlt
    exact Nat.lt_irrefl _ hlt

section

variable {before after : List (Token (Fin g.size))}
  (hsplit : g.spell root root = before ++ (g.spell root n ++ after))
include hsplit

/-- What is in a node in full, and not before it, comes before its label just if the label is not
before the node. -/
theorem heralded_iff_not_mem {f : Token (Fin g.size) → Option (Fin g.size)}
    (hbefore : n ∉ before.filterMap f) (hself : n ∈ (g.spell root n).filterMap f) :
    Heralded (f · = some n) (Token.again? · = some n) (g.spell root root)
      ↔ n ∉ before.filterMap Token.again? := by
  rw [List.mem_filterMap] at hself
  rw [hsplit, heralded_iff_of_piece (fun t ht he => hbefore (List.mem_filterMap.2 ⟨t, ht, he⟩))
    (fun t ht he => not_mem_again root n (List.mem_filterMap.2 ⟨t, ht, he⟩)) hself,
    List.mem_filterMap]
  simp only [not_exists, not_and]

end

/-- A text that defines labels before it uses them. -/
structure DefinesFirst (g : Graph) (root : Fin g.size) : Prop where
  /-- Where a labelled node is first met, it stands in full, and its label after it. -/
  expanded : ∀ n, g.isLabelled root n = true → ∃ before after,
    g.spell root root = before ++ (g.spell root n ++ after)
      ∧ n ∉ before.filterMap Token.opened? ∧ n ∉ before.filterMap Token.again?
  /-- A label that is used stands to the right of the node in full that it labels. -/
  defined : ∀ before n k after, g.spell root root = before ++ .again n k :: after →
    .closes n (some k) ∈ before

/-- Labels are defined before they are used just if each labelled node begins to stand in full before
its label is used. -/
theorem definesFirst_iff_heralded : g.DefinesFirst root ↔ ∀ n, g.isLabelled root n = true →
    Heralded (Token.opened? · = some n) (Token.again? · = some n) (g.spell root root) := by
  have htext : ∀ n, g.isLabelled root n = true → ∃ before after,
      g.spell root root = before ++ (g.spell root n ++ after)
        ∧ n ∉ before.filterMap Token.opened?
        ∧ (Heralded (Token.opened? · = some n) (Token.again? · = some n) (g.spell root root)
          ↔ n ∉ before.filterMap Token.again?)
        ∧ (Heralded (Token.closed? · = some n) (Token.again? · = some n) (g.spell root root)
          ↔ n ∉ before.filterMap Token.again?) := by
    intro n hn
    obtain ⟨before, after, hsplit, hopened, hclosed⟩ :=
      exists_text_before (mem_below_of_isLabelled hn) (isLabelled_iff.1 hn).1
    have hself := self_mem_inFull root n
    exact ⟨before, after, hsplit, hopened,
      heralded_iff_not_mem hsplit hopened ((opened_perm root n).mem_iff.2 hself),
      heralded_iff_not_mem hsplit hclosed hself⟩
  constructor
  · intro h n hn
    obtain ⟨before, after, hsplit, hopened, hiff, hiff'⟩ := htext n hn
    rw [hiff, ← hiff']
    rintro ts t us hts hagain
    cases t with
    | again m k =>
      cases hagain
      exact ⟨_, h.defined ts n k us hts, rfl⟩
    | _ => cases hagain
  · intro h
    refine ⟨fun n hn => ?_, fun ts n k us hts => ?_⟩
    · obtain ⟨before, after, hsplit, hopened, hiff, -⟩ := htext n hn
      exact ⟨before, after, hsplit, hopened, hiff.1 (h n hn)⟩
    · have hright := right_of_mem_spell (root_mem_below root)
      rw [hts] at hright
      have hlabel : g.label? root n = some k := hright (.again n k) (by simp)
      have hn := isLabelled_of_label? hlabel
      obtain ⟨_, _, _, _, hiff, hiff'⟩ := htext n hn
      obtain ⟨t, ht, hclosed⟩ := hiff'.2 (hiff.1 (h n hn)) ts _ us hts rfl
      have htag := hright t (List.mem_append_left _ ht)
      cases t with
      | closes m label =>
        cases hclosed
        rwa [Eq.trans htag hlabel] at ht
      | _ => cases hclosed

/-- The text of a root that is no note defines its labels before it uses them just if each labelled
node is reached first, in the order of the argument indices on the way down, at the place that comes
first in the order of the records. -/
theorem render_definesFirst_iff {r : Node} (hroot : g.locate r = .ok root)
    (hnote : (g.exprAt root).isNote = false) :
    g.render r = .ok (Token.spelled (g.spell root root))
      ∧ (g.DefinesFirst root ↔ ∀ n s, g.isLabelled root n = true → g.first? root n = some s →
          ∀ t ∈ g.places root n, t ≠ s → g.address root s < g.address root t) := by
  refine ⟨render_spelled hroot hnote, definesFirst_iff_heralded.trans ⟨?_, ?_⟩⟩
  · exact fun h n s hn hs => (heralded_opened_iff hn hs).1 (h n hn)
  · intro h n hn
    obtain ⟨p, -, i, hs, -⟩ := exists_first_arg (places_ne_nil_of_isLabelled hn)
    exact (heralded_opened_iff hn hs).2 (h n _ hn hs)

theorem definesFirst_square : ∃ root, square.locate (square.node 3) = .ok root
    ∧ (square.exprAt root).isNote = false ∧ square.DefinesFirst root := by
  refine ⟨⟨3, by decide⟩, rfl, rfl, (render_definesFirst_iff (r := square.node 3) rfl rfl).2.2 ?_⟩
  have hmul : ∀ i, square.address ⟨3, by decide⟩ ⟨3, i⟩ = [i] := fun i => by
    rw [address_eq ⟨3, by decide⟩ ⟨3, by decide⟩, trail_root]
    rfl
  have hcases : ∀ n, square.isLabelled ⟨3, by decide⟩ n = true →
      square.places ⟨3, by decide⟩ n = [⟨3, 0⟩, ⟨3, 1⟩] := by decide
  intro n s hn hs t ht hne
  rw [first?, hcases n hn] at hs
  obtain rfl := Option.some.inj hs
  rw [hcases n hn] at ht
  simp only [List.mem_cons, List.not_mem_nil, or_false, hne, false_or] at ht
  obtain rfl := ht
  rw [hmul, hmul]
  decide

/-- A pair of a node and of another that has it as its argument. -/
def crossed : Graph :=
  let g := ((Graph.empty 0).append "num" [.int 1]).2
  let g := (g.append "neg" [.node (g.node 0)]).2
  let g := (g.append "neg" [.node (g.node 1)]).2
  (g.append "pair" [.node (g.node 1), .node (g.node 2)]).2

/-- A text in which a label is used before it is defined. -/
theorem crossed_not_definesFirst :
    crossed.render (crossed.node 3) = .ok "(pair $0 (neg (neg (num 1))[$0]))"
      ∧ ¬ crossed.DefinesFirst ⟨3, by decide⟩ := by
  refine ⟨by decide +kernel, fun h => ?_⟩
  have hpair : ∀ i, crossed.address ⟨3, by decide⟩ ⟨3, i⟩ = [i] := fun i => by
    rw [address_eq ⟨3, by decide⟩ ⟨3, by decide⟩, trail_root]
    rfl
  have hneg : crossed.address ⟨3, by decide⟩ ⟨2, 0⟩ = [1, 0] := by
    have hfirst : crossed.first? ⟨3, by decide⟩ ⟨2, by decide⟩ = some ⟨3, 1⟩ := by decide
    rw [address_eq ⟨3, by decide⟩ ⟨2, by decide⟩, trail_of_first hfirst, hpair]
    rfl
  have hlt := (heralded_opened_iff (n := ⟨1, by decide⟩) (s := ⟨2, 0⟩) (by decide) (by decide)).1
    (definesFirst_iff_heralded.1 h _ (by decide)) ⟨3, 0⟩ (by decide) (by decide)
  rw [hneg, hpair] at hlt
  exact absurd hlt (by decide)

end Graph

end TermGraph
