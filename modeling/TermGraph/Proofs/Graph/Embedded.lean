import Mathlib.Data.Set.Monotone
import TermGraph.Proofs.Graph.Stable
import TermGraph.Proofs.Print.Renamed

/-!
Records of one graph within another. If some records, which mention only each other, are those of
another graph at other positions, in the same order, then whatever is made from what one of them
depends on comes out the same: closures, up to the renumbering, counts of occurrences, and the text.

A copy is such a place: it puts the records that the roots depend on after the old records of the
target, in their order. The other roots of a forest only add records in between, so each root is
written in the copy as it was.
-/

namespace TermGraph

theorem Expr.mapNode_congr {f f' : Node → Node} {e : Expr} (hnode : f e.node = f' e.node)
    (hargs : ∀ n, Datum.node n ∈ e.args → f n = f' n) : e.mapNode f = e.mapNode f' := by
  rw [mapNode, mapNode, hnode, Expr.mk.injEq]
  refine ⟨rfl, rfl, List.map_congr_left fun v hv => ?_⟩
  cases v with
  | node n => exact congrArg Datum.node (hargs n hv)
  | _ => rfl

/-- In an ascending list, what is greater stands later. -/
theorem strictMonoOn_idxOf {cs : List Nat} (h : cs.Pairwise (· < ·)) :
    StrictMonoOn cs.idxOf { p | p ∈ cs } := by
  intro a ha b hb hab
  have ha' := List.idxOf_lt_length_of_mem ha
  have hb' := List.idxOf_lt_length_of_mem hb
  refine Nat.lt_of_not_le fun hle => ?_
  have hba : b ≤ a := by
    rcases Nat.eq_or_lt_of_le hle with heq | hlt
    · exact Nat.le_of_eq ((List.idxOf_inj hb).1 heq)
    · have := List.pairwise_iff_getElem.1 h _ _ hb' ha' hlt
      rw [List.getElem_idxOf, List.getElem_idxOf] at this
      exact Nat.le_of_lt this
  omega

namespace Graph

variable {g g' src dst dst' : Graph} {cs : List Nat} {f : Nat → Nat} {p q k l : Nat}

theorem Closed.mem_of_path (h : g.Closed cs) (hpath : g.Path p q) (hp : p ∈ cs) : q ∈ cs := by
  induction hpath with
  | refl p => exact hp
  | step hc _ ih => exact ih (h.child_mem _ hp _ hc)

/-- The records at the positions `cs`, which mention only each other, are those of the second graph
at the positions that `f` says, in the same order. -/
structure Embeds (cs : List Nat) (f : Nat → Nat) (g g' : Graph) : Prop where
  closed : g.Closed cs
  mono : StrictMonoOn f { p | p ∈ cs }
  expr?_eq : ∀ p ∈ cs, g'.expr? (f p) = (g.expr? p).map (Expr.mapNode fun n => g'.node (f n.index))

/-- What `m'` depends on in the second graph is what `m` does in the first, at the positions that `f`
says, in the same order. -/
structure Renumbered (f : Nat → Nat) (g g' : Graph) (m m' : Node) : Prop where
  root : m' = g'.node (f m.index)
  closure : ∃ cs, g.closure [m] = .ok cs ∧ g'.closure [m'] = .ok (cs.map f)
    ∧ StrictMonoOn f { c | c ∈ cs }
  unfolding : ∃ es, g.unfolding [m] = .ok es
    ∧ g'.unfolding [m'] = .ok (es.map (Expr.mapNode fun n => g'.node (f n.index)))

namespace Embeds

variable (h : Embeds cs f g g')
include h

/-! ### Paths -/

theorem expr?_image (hp : p ∈ cs) : g'.expr? (f p) = some ((g.exprAt ⟨p, h.closed.lt_size p hp⟩).mapNode
    fun n => g'.node (f n.index)) := by
  rw [h.expr?_eq p hp, expr?_eq_some ⟨p, h.closed.lt_size p hp⟩, Option.map_some]

theorem lt_size (hp : p ∈ cs) : f p < g'.size := by
  have he := h.expr?_image hp
  unfold expr? at he
  split at he
  · assumption
  · cases he

/-- An image mentions the images of what is mentioned. -/
theorem mem_childrenAt (hp : p ∈ cs) : l ∈ g'.childrenAt (f p) ↔ ∃ c ∈ g.childrenAt p, l = f c := by
  have he := expr?_eq_some (g := g) ⟨p, h.closed.lt_size p hp⟩
  rw [mem_childrenAt_iff_of_expr? (h.expr?_image hp)]
  constructor
  · intro hl
    obtain ⟨v, hv, hvl⟩ := List.mem_map.1 hl
    cases v with
    | node n =>
      obtain ⟨c, hc, rfl⟩ := exists_childrenAt_of_mem_expr? he hv
      exact ⟨c, hc, (congrArg Node.index (Datum.node.inj hvl)).symm⟩
    | _ => cases hvl
  · rintro ⟨c, hc, rfl⟩
    exact List.mem_map_of_mem ((mem_childrenAt_iff_of_expr? he).1 hc)

theorem path_image (hpath : g.Path p q) (hp : p ∈ cs) : g'.Path (f p) (f q) := by
  induction hpath with
  | refl p => exact .refl _
  | step hc _ ih =>
    exact .step ((h.mem_childrenAt hp).2 ⟨_, hc, rfl⟩) (ih (h.closed.child_mem _ hp _ hc))

theorem exists_path (hpath : g'.Path k l) : ∀ {p : Nat}, p ∈ cs → f p = k →
    ∃ c, g.Path p c ∧ f c = l := by
  induction hpath with
  | refl k => exact fun {p} _ hk => ⟨p, .refl p, hk⟩
  | step hm _ ih =>
    rintro p hp rfl
    obtain ⟨c, hc, rfl⟩ := (h.mem_childrenAt hp).1 hm
    obtain ⟨d, hd, hl⟩ := ih (h.closed.child_mem p hp c hc) rfl
    exact ⟨d, .step hc hd, hl⟩

theorem mem_of_mem_closureAt (hp : p ∈ cs) (hq : q ∈ g.closureAt [p]) : q ∈ cs := by
  obtain ⟨r, hr, hpath⟩ := mem_closureAt.1 hq
  cases List.mem_singleton.1 hr
  exact h.closed.mem_of_path hpath hp

/-- What an image depends on are the images of what is depended on, in the same order. -/
theorem closureAt_eq (hp : p ∈ cs) : g'.closureAt [f p] = (g.closureAt [p]).map f := by
  have hasc : ((g.closureAt [p]).map f).Pairwise (· < ·) := by
    refine List.pairwise_map.2 ((closureAt_ascending _).imp_of_mem fun {a b} ha hb hab => ?_)
    exact h.mono (h.mem_of_mem_closureAt hp ha) (h.mem_of_mem_closureAt hp hb) hab
  refine List.Pairwise.eq_of_mem_iff (closureAt_ascending _) hasc fun l => ?_
  simp only [mem_closureAt, List.mem_singleton, exists_eq_left, List.mem_map]
  constructor
  · exact fun hpath => h.exists_path hpath hp rfl
  · rintro ⟨c, hpath, rfl⟩
    exact h.path_image hpath hp

theorem renumbered (hp : p ∈ cs) : Renumbered f g g' (g.node p) (g'.node (f p)) := by
  have hclosure := closure_node (h.closed.lt_size p hp)
  have hclosure' := closure_node (h.lt_size hp)
  have hmem : ∀ c ∈ g.closureAt [p], c ∈ cs := fun c => h.mem_of_mem_closureAt hp
  refine ⟨rfl, ⟨_, hclosure, hclosure'.trans (congrArg _ (h.closureAt_eq hp)), h.mono.mono hmem⟩, ?_⟩
  refine ⟨_, by rw [Graph.unfolding, hclosure]; rfl, ?_⟩
  rw [Graph.unfolding, hclosure', h.closureAt_eq hp]
  refine congrArg Except.ok ?_
  rw [List.filterMap_map, List.map_filterMap]
  exact List.filterMap_congr fun c hc => h.expr?_eq c (hmem c hc)

/-! ### Counts and texts -/

theorem unfolding_image (hp : p ∈ cs) : g'.unfolding [g'.node (f p)]
    = .ok (((g.below ⟨p, h.closed.lt_size p hp⟩).map g.exprAt).map
      (Expr.mapNode fun n => g'.node (f n.index))) := by
  obtain ⟨es, hes, hes'⟩ := (h.renumbered hp).unfolding
  rw [unfolding_eq (locate_node (h.closed.lt_size p hp))] at hes
  cases hes
  exact hes'

/-- Different nodes that something depends on have different images. -/
theorem injOn_below (hp : p ∈ cs) : Set.InjOn (fun n : Node => g'.node (f n.index))
    { n | ∃ q ∈ g.below ⟨p, h.closed.lt_size p hp⟩, n = g.node q.val } := by
  have hbelow : ∀ q ∈ g.below ⟨p, h.closed.lt_size p hp⟩, q.val ∈ cs := fun q hq =>
    h.closed.mem_of_path (mem_below.1 hq) hp
  rintro _ ⟨a, ha, rfl⟩ _ ⟨b, hb, rfl⟩ hab
  exact congrArg g.node (h.mono.injOn (hbelow a ha) (hbelow b hb) (congrArg Node.index hab))

/-- An image occurs as often as its original. -/
theorem occurrences (hp : p ∈ cs) : ∃ o o', Occurrences.count g (g.node p) = .ok o
    ∧ Occurrences.count g' (g'.node (f p)) = .ok o'
    ∧ ∀ q, g.Path p q → o'.get (g'.node (f q)) = o.get (g.node q) := by
  have hlocate := locate_node (h.closed.lt_size p hp)
  refine ⟨_, _, by rw [Occurrences.count, unfolding_eq hlocate]; rfl,
    by rw [Occurrences.count, h.unfolding_image hp]; rfl, fun q hpath => ?_⟩
  have hq : q < g.size := Nat.lt_of_le_of_lt hpath.le (h.closed.lt_size p hp)
  exact Occurrences.get_mapNode (h.injOn_below hp) (children_below _)
    (n := g.node q) ⟨⟨q, hq⟩, mem_below.2 hpath, rfl⟩

/-- An image is written like its original, unless that is a note. -/
theorem render_eq (hp : p ∈ cs) {e : Expr} (hread : g.read (g.node p) = .ok e)
    (hnote : e.isNote = false) : g'.render (g'.node (f p)) = g.render (g.node p) := by
  have hlocate := locate_node (h.closed.lt_size p hp)
  obtain rfl := Except.ok.inj ((read_node ⟨p, h.closed.lt_size p hp⟩).symm.trans hread)
  have himage := h.expr?_image hp
  rw [expr?_eq_some ⟨f p, h.lt_size hp⟩] at himage
  refine render_eq_of_renamed hlocate hnote (h.injOn_below hp) ?_ (h.unfolding_image hp)
  exact (read_node ⟨f p, h.lt_size hp⟩).trans (congrArg Except.ok (Option.some.inj himage))

end Embeds

/-! ### Copies -/

/-- Where a copy is. -/
theorem Copied.image_eq {φ : Node → Node} (h : Copied src cs φ dst dst') (hp : p ∈ cs) :
    φ (src.node p) = dst'.node (dst.size + cs.idxOf p) := by
  rw [(h.copy _ p (List.getElem?_idxOf hp)).1, h.grown.node_eq]

theorem Copied.embeds {φ : Node → Node} (h : Copied src cs φ dst dst') (hclosed : src.Closed cs)
    (hasc : cs.Pairwise (· < ·)) : Embeds cs (fun p => dst.size + cs.idxOf p) src dst' where
  closed := hclosed
  mono a ha b hb hab := Nat.add_lt_add_left (strictMonoOn_idxOf hasc ha hb hab) dst.size
  expr?_eq p hp := by
    obtain ⟨-, e, he, hcopy⟩ := h.copy _ p (List.getElem?_idxOf hp)
    rw [hcopy, he, Option.map_some]
    refine congrArg some (Expr.mapNode_congr ?_ fun n hn => ?_)
    · rw [node_of_expr? he]
      exact h.image_eq hp
    · obtain ⟨c, hc, rfl⟩ := exists_childrenAt_of_mem_expr? he hn
      exact h.image_eq (hclosed.child_mem p hp c hc)

theorem Relocated.closed {roots out : List Node} {φ : Node → Node}
    (h : Relocated src roots dst cs φ out dst') (hroots : ∀ r ∈ roots, r ∈ src.nodes) :
    src.Closed cs := by
  constructor
  · intro p hp
    obtain ⟨r, hr, hpath⟩ := (h.mem_iff p).1 hp
    exact Nat.lt_of_le_of_lt hpath.le (Graph.mem_nodes.1 (hroots r hr)).2
  · intro p hp q hq
    obtain ⟨r, hr, hpath⟩ := (h.mem_iff p).1 hp
    exact (h.mem_iff q).2 ⟨r, hr, hpath.trans (path_of_child hq)⟩

/-- What the root depends on stands in the second graph as well, as `φ` says: the same is written for
the root, unless it is a note, and each node occurs as often. -/
structure Reproduced (φ : Node → Node) (g g' : Graph) (root : Node) : Prop where
  render : ∀ e, g.read root = .ok e → e.isNote = false →
    ∃ text, g.render root = .ok text ∧ g'.render (φ root) = .ok text
  occurrences : ∃ o o', Occurrences.count g root = .ok o ∧ Occurrences.count g' (φ root) = .ok o'
    ∧ ∀ n, g.contains root n = .ok true → o'.get (φ n) = o.get n

theorem Relocated.reproduced {roots out : List Node} {φ : Node → Node} {r : Node}
    (h : Relocated src roots dst cs φ out dst') (hroots : ∀ r ∈ roots, r ∈ src.nodes)
    (hr : r ∈ roots) : Reproduced φ src dst' r := by
  have hembeds := h.toCopied.embeds (h.closed hroots) h.ascending
  obtain ⟨p, hp⟩ := exists_locate (hroots r hr)
  obtain rfl := eq_node_of_locate hp
  have hmem : p.val ∈ cs := (h.mem_iff _).2 ⟨_, hr, .refl _⟩
  have himage := h.toCopied.image_eq hmem
  constructor
  case render =>
    intro e hread hnote
    obtain ⟨text, htext⟩ := refusal?_eq_none.1
      ((src.refusal?_render _).trans (refusal?_locate_eq_none.2 (hroots _ hr)))
    rw [himage]
    exact ⟨text, htext, (hembeds.render_eq hmem hread hnote).trans htext⟩
  case occurrences =>
    obtain ⟨o, o', ho, ho', hget⟩ := hembeds.occurrences hmem
    rw [himage]
    refine ⟨o, o', ho, ho', fun n hn => ?_⟩
    obtain ⟨_, q, -, hroot, rfl, hpath⟩ := contains_iff.1 hn
    cases hroot
    rw [h.toCopied.image_eq (hembeds.closed.mem_of_path hpath hmem)]
    exact hget q hpath

/-- Copies are written like their originals, and what they depend on occurs as often as in the source,
whatever the target holds and whatever other roots are copied along. -/
theorem copies_render_alike (src : Graph) (roots : List Node) (root : Node) (dst : Graph) :
    ((∀ r ∈ roots, r ∈ src.nodes) → ∃ out dst', src.copyForest roots dst = (.ok out, dst'))
      ∧ (∀ out dst', src.copyForest roots dst = (.ok out, dst') →
        ∃ cs φ, Relocated src roots dst cs φ out dst' ∧ ∀ r ∈ roots, Reproduced φ src dst' r)
      ∧ (root ∈ src.nodes → ∃ m dst', src.copyTree root dst = (.ok m, dst'))
      ∧ ∀ m dst', src.copyTree root dst = (.ok m, dst') →
        ∃ cs φ, Relocated src [root] dst cs φ [m] dst' ∧ m = φ root ∧ Reproduced φ src dst' root := by
  have hforest : ∀ roots out dst', src.copyForest roots dst = (.ok out, dst') →
      ∃ cs φ, Relocated src roots dst cs φ out dst' ∧ ∀ r ∈ roots, Reproduced φ src dst' r := by
    intro roots out dst' hcopy
    rcases src.copyForest_cases roots dst with ⟨e, -, he⟩ | ⟨_, _, cs, φ, hroots, hok, hrel⟩
    · rw [hcopy] at he
      cases he
    · rw [hcopy] at hok
      cases hok
      exact ⟨cs, φ, hrel, fun r => hrel.reproduced hroots⟩
  have hsingle := src.copyForest_singleton root dst
  refine ⟨fun hroots => ?_, hforest roots, fun hroot => ?_, fun m dst' hcopy => ?_⟩
  · obtain ⟨out, dst', -, -, hcopy, -⟩ := exists_relocated hroots dst
    exact ⟨out, dst', hcopy⟩
  · have hroots : ∀ r ∈ [root], r ∈ src.nodes := by simpa using hroot
    obtain ⟨out, dst', -, -, hcopy, -⟩ := exists_relocated hroots dst
    rcases htree : src.copyTree root dst with ⟨e | m, dst''⟩
    · rw [hcopy, htree] at hsingle
      cases hsingle
    · exact ⟨m, dst'', rfl⟩
  · rw [hcopy] at hsingle
    obtain ⟨cs, φ, hrel, halike⟩ := hforest [root] [m] dst' hsingle
    exact ⟨cs, φ, hrel, List.singleton_inj.1 hrel.out_eq, halike root (List.mem_singleton_self _)⟩

/-- Two records that mention the one below them, which mentions a third twice. -/
def knot : Graph :=
  let g := ((Graph.empty 0).append "a" [.int 1]).2
  let g := (g.append "b" [.node (g.node 0), .node (g.node 0)]).2
  let g := (g.append "c" [.node (g.node 1), .node (g.node 1)]).2
  (g.append "d" [.node (g.node 0), .node (g.node 1)]).2

theorem copies_render_alike_knot : ∃ dst',
    knot.copyForest [knot.node 3, knot.node 2, knot.node 1] (pair.renumber 1)
        = (.ok [⟨1, 5⟩, ⟨1, 4⟩, ⟨1, 3⟩], dst')
      ∧ knot.render (knot.node 2) = .ok "(c (b (a 1) (a 1))[$0] $0)"
      ∧ dst'.render ⟨1, 4⟩ = .ok "(c (b (a 1) (a 1))[$0] $0)"
      ∧ ∃ o, Occurrences.count dst' ⟨1, 4⟩ = .ok o ∧ o.get ⟨1, 3⟩ = 2 := by
  obtain ⟨hok, hforest, -, -⟩ := copies_render_alike knot [knot.node 3, knot.node 2, knot.node 1]
    (knot.node 2) (pair.renumber 1)
  obtain ⟨out, dst', hcopy⟩ := hok (by decide)
  obtain ⟨cs, φ, hrel, halike⟩ := hforest out dst' hcopy
  obtain rfl : [⟨1, 5⟩, ⟨1, 4⟩, ⟨1, 3⟩] = out := Except.ok.inj (congrArg Prod.fst hcopy)
  have hout : _ = [φ (knot.node 3), φ (knot.node 2), φ (knot.node 1)] := hrel.out_eq
  obtain ⟨-, hmid, hlow⟩ := by simpa only [List.cons.injEq, and_true] using hout
  have hcopied := halike (knot.node 2) (by simp)
  obtain ⟨text, htext, htext'⟩ := hcopied.render _ rfl rfl
  obtain ⟨o, o', ho, ho', hget⟩ := hcopied.occurrences
  obtain rfl : "(c (b (a 1) (a 1))[$0] $0)" = text := Except.ok.inj htext
  refine ⟨dst', hcopy, rfl, hmid ▸ htext', o', hmid ▸ ho', ?_⟩
  rw [hlow, hget _ (by decide)]
  cases ho
  rfl

end Graph

end TermGraph
