import TermGraph.Print.Occurrences
import TermGraph.Proofs.Graph.Fold
import TermGraph.Proofs.Graph.Reach
import TermGraph.Proofs.Print.Counting

/-!
Where the nodes below a root stand as arguments. A place is the position of a record and the index
of one of its arguments; places are ordered by record, then by index. A node that is an argument at
two places or more is shared; one that is shared and not simple gets a label, and the label counts
the labelled nodes that come first at an earlier place.
-/

namespace TermGraph

/-- The position of a record, and the index of one of its arguments. -/
@[ext] structure Place where
  record : Nat
  index : Nat
deriving DecidableEq

namespace Place

/-- Is the place that of an earlier record, or an earlier one in the same record? -/
def Before (s t : Place) : Prop := s.record < t.record ∨ s.record = t.record ∧ s.index < t.index

instance (s t : Place) : Decidable (s.Before t) :=
  inferInstanceAs (Decidable (_ ∨ _))

variable {s t u : Place}

theorem Before.irrefl (s : Place) : ¬ s.Before s := by
  unfold Before
  omega

theorem Before.trans (h : s.Before t) (h' : t.Before u) : s.Before u := by
  unfold Before at *
  omega

theorem Before.asymm (h : s.Before t) : ¬ t.Before s := fun h' => Before.irrefl s (h.trans h')

theorem before_or_eq_or_before (s t : Place) : s.Before t ∨ s = t ∨ t.Before s := by
  rw [Place.ext_iff]
  unfold Before
  omega

/-- Up to the next place of a record there is one place more. -/
theorem before_succ {s : Place} {p i : Nat} :
    s.Before ⟨p, i + 1⟩ ↔ s.Before ⟨p, i⟩ ∨ s = ⟨p, i⟩ := by
  rw [Place.ext_iff]
  unfold Before
  dsimp only
  omega

end Place

namespace Graph

variable {g : Graph} {root m n p : Fin g.size} {s t : Place}

/-! ### What the root depends on -/

/-- The positions that the root depends on, itself included, ascending. -/
def below (g : Graph) (root : Fin g.size) : List (Fin g.size) :=
  (List.finRange g.size).filter fun p => g.reaches root.val p.val

theorem mem_below : p ∈ g.below root ↔ g.Path root.val p.val := by
  rw [below, List.mem_filter, reaches_iff]
  exact ⟨And.right, fun h => ⟨List.mem_finRange p, h⟩⟩

theorem below_ascending (root : Fin g.size) : (g.below root).Pairwise (· < ·) :=
  (List.pairwise_lt_finRange _).filter _

theorem below_nodup (root : Fin g.size) : (g.below root).Nodup :=
  (below_ascending root).imp fun h => by
    rintro rfl
    exact Nat.lt_irrefl _ h

/-- What stands before a member is smaller, and what stands after it is greater. -/
theorem below_split {ps rest : List (Fin g.size)} (h : g.below root = ps ++ p :: rest) :
    (∀ q ∈ ps, q.val < p.val) ∧ ∀ q ∈ rest, p.val < q.val := by
  have hord := below_ascending root
  rw [h, List.pairwise_append, List.pairwise_cons] at hord
  obtain ⟨-, ⟨hrest, -⟩, hps⟩ := hord
  exact ⟨fun q hq => hps q hq p (List.mem_cons_self ..), hrest⟩

theorem root_mem_below (root : Fin g.size) : root ∈ g.below root := mem_below.2 (.refl _)

theorem le_of_mem_below (h : p ∈ g.below root) : p.val ≤ root.val := (mem_below.1 h).le

theorem closureAt_eq_below (root : Fin g.size) :
    g.closureAt [root.val] = (g.below root).map Fin.val := by
  refine List.Perm.eq_of_pairwise (fun a b _ _ h h' => by omega) (closureAt_ascending _)
    ((below_ascending root).map _ fun _ _ h => h) ?_
  refine (List.perm_ext_iff_of_nodup (closureAt_nodup _) ?_).2 fun c => ?_
  · exact List.Pairwise.map _ (fun _ _ h he => h (Fin.ext he)) (below_nodup root)
  · rw [mem_closureAt, List.mem_map]
    constructor
    · rintro ⟨p, hp, hpath⟩
      cases List.mem_singleton.1 hp
      exact ⟨⟨c, Nat.lt_of_le_of_lt hpath.le root.isLt⟩, mem_below.2 hpath, rfl⟩
    · rintro ⟨p, hp, rfl⟩
      exact ⟨root.val, List.mem_singleton.2 rfl, mem_below.1 hp⟩

theorem unfolding_eq {r : Node} (h : g.locate r = .ok root) :
    g.unfolding [r] = .ok ((g.below root).map g.exprAt) := by
  rw [unfolding, closure_singleton, h]
  refine congrArg Except.ok ?_
  dsimp only
  have hread : g.expr? ∘ Fin.val = some ∘ g.exprAt := funext expr?_eq_some
  rw [closureAt_eq_below, List.filterMap_map, hread, List.filterMap_eq_map]

/-- Arguments of what the root depends on are among what it depends on. -/
theorem mem_below_of_arg (hp : p ∈ g.below root) (h : Datum.node n ∈ g.argsAt p) :
    n ∈ g.below root :=
  mem_below.2 ((mem_below.1 hp).trans (path_of_child (mem_childrenAt_iff.2 h)))

/-! ### Places -/

/-- The places where `n` is an argument, in order. -/
def places (g : Graph) (root n : Fin g.size) : List Place :=
  (g.below root).flatMap fun p =>
    ((List.range (g.argsAt p).length).filter fun i => (g.argsAt p)[i]? = some (.node n)).map
      (Place.mk p.val)

theorem mem_places : s ∈ g.places root n ↔
    ∃ p ∈ g.below root, s.record = p.val ∧ (g.argsAt p)[s.index]? = some (.node n) := by
  rw [places, List.mem_flatMap]
  constructor
  · rintro ⟨p, hp, hs⟩
    obtain ⟨i, hi, rfl⟩ := List.mem_map.1 hs
    exact ⟨p, hp, rfl, of_decide_eq_true (List.mem_filter.1 hi).2⟩
  · rintro ⟨p, hp, hrec, harg⟩
    refine ⟨p, hp, List.mem_map.2 ⟨s.index, ?_, ?_⟩⟩
    · rw [List.mem_filter, List.mem_range]
      exact ⟨(List.getElem?_eq_some_iff.1 harg).1, decide_eq_true harg⟩
    · rw [← hrec]

theorem places_ordered (root n : Fin g.size) : (g.places root n).Pairwise Place.Before := by
  rw [places, List.pairwise_flatMap]
  constructor
  · intro p _
    refine List.Pairwise.map _ (fun i j h => ?_) ((List.pairwise_lt_range).filter _)
    exact .inr ⟨rfl, h⟩
  · refine (below_ascending root).imp fun hpq s hs t ht => ?_
    obtain ⟨i, -, rfl⟩ := List.mem_map.1 hs
    obtain ⟨j, -, rfl⟩ := List.mem_map.1 ht
    exact .inl hpq

/-- The first place where `n` is an argument. -/
def first? (g : Graph) (root n : Fin g.size) : Option Place := (g.places root n).head?

theorem first?_eq_some_iff : g.first? root n = some s ↔
    s ∈ g.places root n ∧ ∀ t ∈ g.places root n, ¬ t.Before s := by
  have hord := places_ordered root n
  rw [first?]
  cases hpl : g.places root n with
  | nil => simp
  | cons u us =>
    rw [hpl] at hord
    rw [List.head?_cons, Option.some.injEq]
    have hu : ∀ {t}, t ∈ us → u.Before t := fun ht => List.rel_of_pairwise_cons hord ht
    constructor
    · rintro rfl
      refine ⟨List.mem_cons_self .., fun t ht => ?_⟩
      rcases List.mem_cons.1 ht with rfl | ht
      · exact Place.Before.irrefl t
      · exact (hu ht).asymm
    · rintro ⟨hs, hmin⟩
      rcases List.mem_cons.1 hs with rfl | hs
      · rfl
      · exact absurd (hu hs) (hmin u (List.mem_cons_self ..))

theorem exists_first (h : s ∈ g.places root n) :
    ∃ t, g.first? root n = some t ∧ (t.Before s ∨ t = s) := by
  have hne : g.first? root n ≠ none := fun he => by
    rw [first?, List.head?_eq_none_iff] at he
    rw [he] at h
    cases h
  obtain ⟨t, ht⟩ := Option.ne_none_iff_exists'.1 hne
  refine ⟨t, ht, ?_⟩
  rcases Place.before_or_eq_or_before t s with hb | he | hb
  · exact .inl hb
  · exact .inr he
  · exact absurd hb ((first?_eq_some_iff.1 ht).2 s h)

/-- The first place of a node is that of an argument of some record. -/
theorem exists_first_arg (h : g.places root n ≠ []) : ∃ p ∈ g.below root, ∃ i,
    g.first? root n = some ⟨p.val, i⟩ ∧ (g.argsAt p)[i]? = some (.node n) := by
  obtain ⟨s, hs⟩ := List.exists_mem_of_ne_nil _ h
  obtain ⟨⟨r, i⟩, hfirst, -⟩ := exists_first hs
  obtain ⟨p, hp, rfl, harg⟩ := mem_places.1 (first?_eq_some_iff.1 hfirst).1
  exact ⟨p, hp, i, hfirst, harg⟩

/-- A place holds one argument only. -/
theorem eq_of_mem_places (hm : s ∈ g.places root m) (hn : s ∈ g.places root n) : m = n := by
  obtain ⟨p, -, hp, harg⟩ := mem_places.1 hm
  obtain ⟨q, -, hq, harg'⟩ := mem_places.1 hn
  cases Fin.ext (hp.symm.trans hq)
  rw [harg] at harg'
  cases harg'
  rfl

/-! ### Labels -/

/-- A node gets a label if it is not simple and an argument at two places or more. -/
def isLabelled (g : Graph) (root n : Fin g.size) : Bool :=
  !(g.exprAt n).isSimple && decide (2 ≤ (g.places root n).length)

/-- Is the first place of `m` before the first place of `n`? -/
def comesFirst (g : Graph) (root m n : Fin g.size) : Bool :=
  match g.first? root m, g.first? root n with
  | some s, some t => decide (s.Before t)
  | _, _ => false

/-- How many labelled nodes come first at an earlier place. -/
def rank (g : Graph) (root n : Fin g.size) : Nat :=
  (g.below root).countP fun m => g.isLabelled root m && g.comesFirst root m n

/-- The label of a node, if it gets one. -/
def label? (g : Graph) (root n : Fin g.size) : Option Nat :=
  if g.isLabelled root n then some (g.rank root n) else none

theorem isLabelled_iff : g.isLabelled root n = true ↔
    (g.exprAt n).isSimple = false ∧ 2 ≤ (g.places root n).length := by
  rw [isLabelled, Bool.and_eq_true, Bool.not_eq_true', decide_eq_true_eq]

theorem label?_of_isSimple (h : (g.exprAt n).isSimple = true) : g.label? root n = none := by
  refine if_neg fun hl => ?_
  rw [(isLabelled_iff.1 hl).1] at h
  cases h

theorem isLabelled_of_label? {k : Nat} (h : g.label? root n = some k) :
    g.isLabelled root n = true := by
  unfold label? at h
  split at h
  · assumption
  · cases h

theorem comesFirst_iff : g.comesFirst root m n = true ↔
    ∃ s t, g.first? root m = some s ∧ g.first? root n = some t ∧ s.Before t := by
  unfold comesFirst
  constructor
  · intro h
    split at h
    · next s t hs ht => exact ⟨s, t, hs, ht, of_decide_eq_true h⟩
    · cases h
  · rintro ⟨s, t, hs, ht, hst⟩
    rw [hs, ht]
    exact decide_eq_true hst

theorem comesFirst_irrefl (n : Fin g.size) : g.comesFirst root n n = false := by
  rw [Bool.eq_false_iff]
  intro h
  obtain ⟨s, t, hs, ht, hst⟩ := comesFirst_iff.1 h
  rw [hs] at ht
  cases ht
  exact Place.Before.irrefl s hst

theorem comesFirst_trans (h : g.comesFirst root m n = true) (h' : g.comesFirst root n p = true) :
    g.comesFirst root m p = true := by
  obtain ⟨s, t, hs, ht, hst⟩ := comesFirst_iff.1 h
  obtain ⟨t', u, ht', hu, htu⟩ := comesFirst_iff.1 h'
  rw [ht] at ht'
  cases ht'
  exact comesFirst_iff.2 ⟨s, u, hs, hu, hst.trans htu⟩

/-- Of two nodes that are arguments somewhere, one comes first. -/
theorem comesFirst_total (hm : g.places root m ≠ []) (hn : g.places root n ≠ []) (hne : m ≠ n) :
    g.comesFirst root m n = true ∨ g.comesFirst root n m = true := by
  obtain ⟨p, -, i, hs, -⟩ := exists_first_arg hm
  obtain ⟨q, -, j, ht, -⟩ := exists_first_arg hn
  rcases Place.before_or_eq_or_before ⟨p.val, i⟩ ⟨q.val, j⟩ with h | h | h
  · exact .inl (comesFirst_iff.2 ⟨_, _, hs, ht, h⟩)
  · rw [h] at hs
    exact absurd (eq_of_mem_places (first?_eq_some_iff.1 hs).1 (first?_eq_some_iff.1 ht).1) hne
  · exact .inr (comesFirst_iff.2 ⟨_, _, ht, hs, h⟩)

theorem places_ne_nil_of_isLabelled (h : g.isLabelled root n = true) : g.places root n ≠ [] := by
  intro he
  have := (isLabelled_iff.1 h).2
  rw [he] at this
  exact absurd this (by decide)

theorem mem_below_of_isLabelled (h : g.isLabelled root n = true) : n ∈ g.below root := by
  obtain ⟨p, hp, _, _, harg⟩ := exists_first_arg (places_ne_nil_of_isLabelled h)
  exact mem_below_of_arg hp (List.mem_of_getElem? harg)

/-- Every node below the root but the root itself is an argument there. -/
theorem places_ne_nil (hn : n ∈ g.below root) (hne : n ≠ root) : g.places root n ≠ [] := by
  obtain ⟨c, hc, hchild⟩ := (mem_below.1 hn).exists_parent fun he => hne (Fin.ext he.symm)
  have hlt : c < g.size := Nat.lt_of_le_of_lt hc.le root.isLt
  have harg : Datum.node n ∈ g.argsAt ⟨c, hlt⟩ := mem_childrenAt_iff.1 hchild
  obtain ⟨i, hi⟩ := List.mem_iff_getElem?.1 harg
  have hplace : Place.mk c i ∈ g.places root n :=
    mem_places.2 ⟨⟨c, hlt⟩, mem_below.2 hc, rfl, hi⟩
  exact List.ne_nil_of_mem hplace

theorem filterMap_label? (ns : List (Fin g.size)) :
    ns.filterMap (g.label? root) = (ns.filter (g.isLabelled root)).map (g.rank root) := by
  rw [← List.filterMap_eq_map, List.filterMap_filter]
  rfl

/-- The labels of all nodes below the root are the numbers from zero on, each once. -/
theorem labels_perm (root : Fin g.size) : List.Perm ((g.below root).filterMap (g.label? root))
    (List.range ((g.below root).countP (g.isLabelled root))) := by
  have hrank : g.rank root = fun n =>
      ((g.below root).filter (g.isLabelled root)).countP (g.comesFirst root · n) := by
    funext n
    rw [List.countP_filter, rank]
    refine List.countP_congr fun m _ => ?_
    rw [Bool.and_comm]
  rw [filterMap_label?, hrank, List.countP_eq_length_filter]
  refine map_countP_perm_range ((below_nodup root).filter _) comesFirst_irrefl
    (fun _ _ _ => comesFirst_trans) fun m hm n hn hne => ?_
  exact comesFirst_total (places_ne_nil_of_isLabelled (List.mem_filter.1 hm).2)
    (places_ne_nil_of_isLabelled (List.mem_filter.1 hn).2) hne

/-! ### Counting -/

theorem count_nodesOf (n : Fin g.size) : ∀ xs : List (Datum String (Fin g.size)),
    (nodesOf (xs.map (Datum.mapNode fun q => g.node q.val))).count (g.node n.val)
      = xs.count (.node n)
  | [] => rfl
  | d :: xs => by
    have ih := count_nodesOf n xs
    rw [nodesOf] at ih
    rw [nodesOf, List.map_cons, List.filterMap_cons, List.count_cons]
    cases d with
    | node q =>
      refine (List.count_cons ..).trans (congr (congrArg HAdd.hAdd ih) ?_)
      by_cases hq : q = n
      · subst hq
        rw [if_pos (beq_self_eq_true _), if_pos (beq_self_eq_true _)]
      · have hnode : g.node q.val ≠ g.node n.val := fun h => hq (Fin.ext (congrArg Node.index h))
        have hdatum : (Datum.node q : Datum String (Fin g.size)) ≠ .node n :=
          fun h => hq (Datum.node.inj h)
        rw [if_neg (by simpa using hnode), if_neg (by simpa using hdatum)]
    | _ => exact ih

end Graph

namespace Occurrences

theorem getD_foldl_bump (n : Node) : ∀ (ns : List Node) (counts : Std.TreeMap Node Nat),
    (ns.foldl bump counts).getD n 0 = counts.getD n 0 + ns.count n
  | [], counts => rfl
  | k :: ns, counts => by
    rw [List.foldl_cons, getD_foldl_bump n ns, bump, Std.TreeMap.getD_insert, List.count_cons]
    by_cases hk : k = n
    · subst hk
      rw [if_pos Std.ReflCmp.compare_self, if_pos (beq_self_eq_true k)]
      omega
    · rw [if_neg (mt Std.LawfulEqCmp.compare_eq_iff_eq.1 hk), if_neg (by simpa using hk)]
      omega

/-- What is counted are the arguments of all the expressions. -/
theorem get_ofExprs (n : Node) (es : List Expr) :
    (ofExprs es).get n = (es.flatMap Expr.children).count n := by
  suffices h : ∀ o : Occurrences, (es.foldl (fun o e => o.add e.node e.children) o).get n
      = o.get n + (es.flatMap Expr.children).count n by
    refine (h {}).trans ?_
    exact Nat.zero_add _
  induction es with
  | nil => exact fun o => rfl
  | cons e es ih =>
    intro o
    rw [List.foldl_cons, ih, List.flatMap_cons, List.count_append, ← Nat.add_assoc]
    refine congrArg (· + _) ?_
    exact getD_foldl_bump n e.children o.counts

end Occurrences

namespace Graph

variable {g : Graph}

theorem length_places (root n : Fin g.size) : (g.places root n).length
    = (Occurrences.ofExprs ((g.below root).map g.exprAt)).get (g.node n.val) := by
  rw [Occurrences.get_ofExprs, places, List.length_flatMap, List.count_flatMap, List.map_map]
  refine congrArg List.sum (List.map_congr_left fun p _ => ?_)
  rw [List.length_map, length_filter_range, ← count_nodesOf, ← exprAt_args]
  rfl

end Graph

end TermGraph
