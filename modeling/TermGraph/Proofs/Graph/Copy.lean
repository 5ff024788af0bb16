import Mathlib.Data.Set.Function
import TermGraph.Graph.Copy
import TermGraph.Proofs.Graph.Append

/-!
Copying into another graph. The records are copied in ascending order, so at each of them the copies
of its arguments are there already: the table of moved nodes has them, and the target accepts the
new record. `Grafting` is what holds between two records, `Grafting.step` copies one more. Main
statement: copying is refused for a root that is no node of the source only, and else it appends one
renamed record for each that the roots depend on.
-/

namespace TermGraph

/-- The expression with other nodes for its own and for those that it mentions. -/
def Expr.mapNode (f : Node → Node) (e : Expr) : Expr :=
  ⟨f e.node, e.head, e.args.map (Datum.mapNode f)⟩

theorem Moved.node_insert (moved : Moved) (n m k : Node) :
    Moved.node (moved.insert n m) k = if n = k then .ok m else Moved.node moved k := by
  rw [Moved.node, Std.TreeMap.getElem?_insert]
  by_cases h : n = k
  · rw [if_pos h, if_pos (Std.LawfulEqCmp.compare_eq_iff_eq.2 h)]
  · rw [if_neg h, if_neg (h ∘ Std.LawfulEqCmp.compare_eq_iff_eq.1)]
    rfl

namespace Graph

variable {src dst dst' : Graph} {f : Node → Node} {cs done rest : List Nat} {moved : Moved}
  {p q : Nat}

/-- A clone reads as its original does, with its own nodes. -/
theorem expr?_renumber (g : Graph) (i k : Nat) :
    (g.renumber i).expr? k = (g.expr? k).map (Expr.mapNode fun n => ⟨i, n.index⟩) := by
  by_cases hk : k < g.size
  · rw [expr?_eq_some ⟨k, hk⟩, expr?_eq_some (g := g.renumber i) ⟨k, hk⟩, Option.map_some]
    refine congrArg some (Expr.mk.injEq .. |>.mpr ⟨rfl, rfl, ?_⟩)
    rw [exprAt, List.map_map]
    refine List.map_congr_left fun d _ => ?_
    cases d <;> rfl
  · rw [expr?, expr?, dif_neg hk]
    exact dif_neg hk

theorem spread_renumber (g : Graph) (i lo k : Nat) (marks : Std.TreeSet Nat) :
    (g.renumber i).spread lo k marks = g.spread lo k marks := by
  induction k generalizing marks with
  | zero => rfl
  | succ k ih => exact ih _

/-- Positions in a clone depend on each other as those in its original do. -/
theorem closureAt_renumber (g : Graph) (i : Nat) (ps : List Nat) :
    (g.renumber i).closureAt ps = g.closureAt ps := by
  rw [closureAt, spread_renumber]
  rfl

/-- `dst'` is `dst` followed by the records of `src` at the positions `cs`, renamed by `f`. -/
structure Copied (src : Graph) (cs : List Nat) (f : Node → Node) (dst dst' : Graph) : Prop where
  grown : dst.Extends dst'
  size_eq : dst'.size = dst.size + cs.length
  copy : ∀ (i : Nat) p, cs[i]? = some p → f (src.node p) = dst.node (dst.size + i)
    ∧ ∃ e, src.expr? p = some e ∧ dst'.expr? (dst.size + i) = some (e.mapNode f)

/-- The argument `k` of the record at `p`. -/
def arg? (g : Graph) (p k : Nat) : Option Value := (g.expr? p).bind fun e => e.args[k]?

/-- The argument `k` of the record at `p` and the argument `l` of that at `q` are one node. -/
def Shares (g : Graph) (p k q l : Nat) : Prop :=
  ∃ n, g.arg? p k = some (.node n) ∧ g.arg? q l = some (.node n)

/-- The positions hold records, and with each record those that it mentions. -/
structure Closed (g : Graph) (cs : List Nat) : Prop where
  lt_size : ∀ p ∈ cs, p < g.size
  child_mem : ∀ p ∈ cs, ∀ q ∈ g.childrenAt p, q ∈ cs

theorem closed_closureAt {ps : List Nat} (h : ∀ p ∈ ps, p < src.size) :
    src.Closed (src.closureAt ps) := by
  constructor
  · intro q hq
    obtain ⟨p, hp, hpath⟩ := mem_closureAt.1 hq
    exact Nat.lt_of_le_of_lt hpath.le (h p hp)
  · intro q hq c hc
    obtain ⟨p, hp, hpath⟩ := mem_closureAt.1 hq
    exact mem_closureAt.2 ⟨p, hp, hpath.trans (path_of_child hc)⟩

/-- In ascending order, what a record mentions comes before it. -/
theorem Closed.child_mem_done (h : src.Closed (done ++ p :: rest))
    (hasc : (done ++ p :: rest).Pairwise (· < ·)) (hq : q ∈ src.childrenAt p) : q ∈ done := by
  have hlt := lt_of_mem_childrenAt hq
  have hmem := h.child_mem p (List.mem_append_right _ (List.mem_cons_self ..)) q hq
  rcases List.mem_append.1 hmem with hdone | hrest
  · exact hdone
  · have hcons := (List.pairwise_append.1 hasc).2.1
    rcases List.mem_cons.1 hrest with rfl | hrest
    · exact absurd hlt (Nat.lt_irrefl _)
    · exact absurd hlt (Nat.lt_asymm ((List.pairwise_cons.1 hcons).1 q hrest))

/-! ### One record -/

/-- The positions `done` are copied, and the table leads to their copies. -/
structure Grafting (src : Graph) (done : List Nat) (f : Node → Node) (moved : Moved)
    (dst dst' : Graph) : Prop extends Copied src done f dst dst' where
  moved_eq : ∀ p ∈ done, moved.node (src.node p) = .ok (f (src.node p))

theorem grafting_nil (src : Graph) (f : Node → Node) (dst : Graph) :
    Grafting src [] f ∅ dst dst :=
  ⟨⟨.refl dst, rfl, fun _ _ h => by cases h⟩, fun _ h => by cases h⟩

/-- A copy is a node of the target. -/
theorem Copied.mem_nodes (h : Copied src done f dst dst') (hp : p ∈ done) :
    f (src.node p) ∈ dst'.nodes := by
  obtain ⟨i, hi, rfl⟩ := List.mem_iff_getElem.1 hp
  rw [(h.copy i _ (List.getElem?_eq_getElem hi)).1, ← h.grown.node_eq, node_mem_nodes, h.size_eq]
  exact Nat.add_lt_add_left hi _

/-- One more record is copied: all its arguments have moved, and the target accepts it. -/
theorem Grafting.step (h : Grafting src done f moved dst dst') (hp : p < src.size)
    (hchildren : ∀ q ∈ src.childrenAt p, q ∈ done)
    (hf : f (src.node p) = dst.node (dst.size + done.length)) :
    let e := src.exprAt ⟨p, hp⟩
    let args := e.args.map (Datum.mapNode f)
    e.args.mapM moved.value = .ok args ∧ ∃ dst'', dst'.append e.head args = (.ok (f e.node), dst'')
      ∧ Grafting src (done ++ [p]) f (moved.insert e.node (f e.node)) dst dst'' := by
  intro e args
  have hchild : ∀ n, Datum.node n ∈ e.args → ∃ q ∈ done, n = src.node q := fun n hn => by
    obtain ⟨q, hq, hnq⟩ := exists_childrenAt_of_mem_args hn
    exact ⟨q, hchildren q hq, hnq⟩
  have hmoved : e.args.mapM moved.value = .ok args := by
    refine mapM_eq_ok fun v hv => ?_
    cases v with
    | node n =>
      obtain ⟨q, hq, rfl⟩ := hchild n hv
      rw [Moved.value, h.moved_eq q hq]
      rfl
    | _ => rfl
  have hnodes : ∀ m, Datum.node m ∈ args → m ∈ dst'.nodes := fun m hm => by
    obtain ⟨v, hv, he⟩ := List.mem_map.1 hm
    cases v with
    | node n =>
      cases he
      obtain ⟨q, hq, rfl⟩ := hchild n hv
      exact h.mem_nodes hq
    | _ => cases he
  obtain ⟨dst'', happend, happended⟩ := exists_append e.head hnodes
  have hnode : dst'.node dst'.size = f e.node := by
    rw [h.grown.node_eq, h.size_eq]
    exact hf.symm
  rw [hnode] at happend
  refine ⟨hmoved, dst'', happend, ⟨h.grown.trans happended.grown, ?_, fun i q hq => ?_⟩, ?_⟩
  · rw [happended.size_eq, h.size_eq, List.length_append, List.length_singleton, Nat.add_assoc]
  · rw [List.getElem?_append] at hq
    split at hq
    · next hi =>
      obtain ⟨hfq, e', he', hcopy⟩ := h.copy i q hq
      have hlt : dst.size + i < dst'.size := by
        rw [h.size_eq]
        exact Nat.add_lt_add_left hi _
      exact ⟨hfq, e', he', (happended.grown.expr?_eq hlt).trans hcopy⟩
    · next hi =>
      obtain ⟨hz, rfl⟩ := List.getElem?_eq_some_iff.1 hq
      have hi' : i = done.length := by
        rw [List.length_singleton] at hz
        omega
      subst hi'
      simp only [Nat.sub_self, List.getElem_cons_zero]
      refine ⟨hf, e, expr?_eq_some ⟨p, hp⟩, ?_⟩
      rw [← h.size_eq, happended.expr?_eq, hnode]
      rfl
  · intro q hq
    rw [Moved.node_insert]
    split
    · next heq => rw [← heq]
    · next hne =>
      rcases List.mem_append.1 hq with hdone | hlast
      · exact h.moved_eq q hdone
      · rw [List.mem_singleton.1 hlast] at hne
        exact absurd rfl hne

/-- All records are copied, one after the other. -/
theorem Grafting.run : ∀ {rest done : List Nat} {moved : Moved} {dst' : Graph},
    Grafting src done f moved dst dst' → src.Closed (done ++ rest) →
    (done ++ rest).Pairwise (· < ·) →
    (∀ (i : Nat) p, (done ++ rest)[i]? = some p → f (src.node p) = dst.node (dst.size + i)) →
    ∃ moved' dst'', dst'.graft (rest.filterMap src.expr?) moved = (.ok moved', dst'')
      ∧ Grafting src (done ++ rest) f moved' dst dst''
  | [], done, moved, dst', h, _, _, _ => by
    rw [List.append_nil]
    exact ⟨moved, dst', rfl, h⟩
  | p :: rest, done, moved, dst', h, hclosed, hasc, hf => by
    have hp := hclosed.lt_size p (List.mem_append_right _ (List.mem_cons_self ..))
    have hfp : f (src.node p) = dst.node (dst.size + done.length) := hf _ _ (by simp)
    obtain ⟨hargs, dst'', happend, hstep⟩ :=
      h.step hp (fun q hq => hclosed.child_mem_done hasc hq) hfp
    rw [List.append_cons] at hclosed hasc hf ⊢
    obtain ⟨moved', dst''', hgraft, hrun⟩ := hstep.run hclosed hasc hf
    refine ⟨moved', dst''', ?_, hrun⟩
    rw [List.filterMap_cons_some (expr?_eq_some ⟨p, hp⟩), graft, hargs]
    dsimp only
    rw [happend]
    exact hgraft

/-! ### All of them -/

/-- Copies of different records are different nodes. -/
theorem Copied.inj (h : Copied src cs f dst dst') (hp : p ∈ cs) (hq : q ∈ cs)
    (he : f (src.node p) = f (src.node q)) : p = q := by
  obtain ⟨i, hi, rfl⟩ := List.mem_iff_getElem.1 hp
  obtain ⟨j, hj, rfl⟩ := List.mem_iff_getElem.1 hq
  rw [(h.copy i _ (List.getElem?_eq_getElem hi)).1,
    (h.copy j _ (List.getElem?_eq_getElem hj)).1] at he
  have hij : i = j := Nat.add_left_cancel (congrArg Node.index he)
  subst hij
  rfl

/-- An argument that is a node is copied to the copy of that node. -/
theorem Copied.arg?_eq_node_iff (h : Copied src cs f dst dst') {i k : Nat} (hi : cs[i]? = some p)
    {m : Node} : dst'.arg? (dst.size + i) k = some (.node m) ↔
      ∃ n, src.arg? p k = some (.node n) ∧ m = f n := by
  obtain ⟨-, e, he, hcopy⟩ := h.copy i p hi
  simp only [arg?, he, hcopy, Option.bind_some, Expr.mapNode, List.getElem?_map]
  rcases e.args[k]? with _ | ⟨_ | _ | _ | n⟩ <;> simp [Datum.mapNode, Datum.map, eq_comm]

theorem mem_of_arg? (hclosed : src.Closed cs) (hp : p ∈ cs) {k : Nat} {n : Node}
    (h : src.arg? p k = some (.node n)) : ∃ c ∈ cs, n = src.node c := by
  have hlt := hclosed.lt_size p hp
  rw [arg?, expr?_eq_some ⟨p, hlt⟩, Option.bind_some] at h
  obtain ⟨c, hc, rfl⟩ := exists_childrenAt_of_mem_args (List.mem_of_getElem? h)
  exact ⟨c, hclosed.child_mem p hp c hc, rfl⟩

/-- Arguments share a node in the copy just if they do in the source. -/
theorem Copied.shares_iff (h : Copied src cs f dst dst') (hclosed : src.Closed cs) {i j k l : Nat}
    (hi : cs[i]? = some p) (hj : cs[j]? = some q) :
    dst'.Shares (dst.size + i) k (dst.size + j) l ↔ src.Shares p k q l := by
  simp only [Shares, h.arg?_eq_node_iff hi, h.arg?_eq_node_iff hj]
  constructor
  · rintro ⟨m, ⟨n, hn, rfl⟩, n', hn', he⟩
    obtain ⟨c, hc, rfl⟩ := mem_of_arg? hclosed (List.mem_of_getElem? hi) hn
    obtain ⟨c', hc', rfl⟩ := mem_of_arg? hclosed (List.mem_of_getElem? hj) hn'
    rw [← h.inj hc hc' he] at hn'
    exact ⟨_, hn, hn'⟩
  · rintro ⟨n, hn, hn'⟩
    exact ⟨f n, ⟨n, hn, rfl⟩, n, hn', rfl⟩

/-- `dst'` is `dst` with a copy of all that the roots depend on, the record at `p` as
`f (src.node p)`. -/
structure Relocated (src : Graph) (roots : List Node) (dst : Graph) (cs : List Nat)
    (f : Node → Node) (out : List Node) (dst' : Graph) : Prop extends Copied src cs f dst dst' where
  ascending : cs.Pairwise (· < ·)
  mem_iff : ∀ p, p ∈ cs ↔ ∃ r ∈ roots, src.Path r.index p
  out_eq : out = roots.map f
  earlier_eq : ∀ p < dst.size, dst'.expr? p = dst.expr? p
  shares_iff : ∀ (i p j q : Nat), cs[i]? = some p → cs[j]? = some q → ∀ k l,
    dst'.Shares (dst.size + i) k (dst.size + j) l ↔ src.Shares p k q l

/-! ### The roots -/

theorem closure_eq_map (g : Graph) (roots : List Node) :
    g.closure roots = (roots.mapM g.locate).map fun ps => g.closureAt (ps.map Fin.val) := by
  rw [closure]
  cases roots.mapM g.locate <;> rfl

/-- A closure is refused for the first root that is no node of the graph. -/
theorem refusal?_closure (g : Graph) (roots : List Node) :
    refusal? (g.closure roots) = roots.findSome? fun r => refusal? (g.locate r) := by
  rw [closure_eq_map, refusal?_map, refusal?_mapM]

theorem closure_eq {g : Graph} {roots : List Node} (h : ∀ r ∈ roots, r ∈ g.nodes) :
    g.closure roots = .ok (g.closureAt (roots.map Node.index)) := by
  have hnone : refusal? (roots.mapM g.locate) = none := by
    rw [refusal?_mapM, List.findSome?_eq_none_iff]
    exact fun r hr => refusal?_locate_eq_none.2 (h r hr)
  obtain ⟨ps, hps⟩ := refusal?_eq_none.1 hnone
  rw [closure_eq_map, hps, ← map_eq_of_mapM_ok (fun r _ p hp => ?_) hps]
  · rfl
  · rw [eq_node_of_locate hp]
    rfl

/-- Roots that are nodes of the source are copied. -/
theorem exists_relocated {roots : List Node} (hroots : ∀ r ∈ roots, r ∈ src.nodes) (dst : Graph) :
    ∃ out dst' cs f, src.copyForest roots dst = (.ok out, dst')
      ∧ Relocated src roots dst cs f out dst' := by
  have hlt : ∀ p ∈ roots.map Node.index, p < src.size := fun p hp => by
    obtain ⟨r, hr, rfl⟩ := List.mem_map.1 hp
    exact (mem_nodes.1 (hroots r hr)).2
  have hmem : ∀ p, p ∈ src.closureAt (roots.map Node.index) ↔ ∃ r ∈ roots, src.Path r.index p :=
    fun p => by simp only [mem_closureAt, List.mem_map, exists_exists_and_eq_and]
  have hclosed := closed_closureAt hlt
  have hasc := src.closureAt_ascending (roots.map Node.index)
  have hunfolding := congrArg (Except.map (List.filterMap src.expr?)) (closure_eq hroots)
  generalize src.closureAt (roots.map Node.index) = cs at hmem hclosed hasc hunfolding
  -- the record at `cs[i]` goes to the place `i` after the old records
  let f : Node → Node := fun n => dst.node (dst.size + cs.idxOf n.index)
  have hf : ∀ (i : Nat) p, cs[i]? = some p → f (src.node p) = dst.node (dst.size + i) := by
    intro i p hi
    obtain ⟨hlt, rfl⟩ := List.getElem?_eq_some_iff.1 hi
    exact congrArg (fun k => dst.node (dst.size + k))
      (List.Nodup.idxOf_getElem (hasc.imp Nat.ne_of_lt) i hlt)
  obtain ⟨moved, dst', hgraft, h⟩ := (grafting_nil src f dst).run hclosed hasc hf
  rw [List.nil_append] at h
  have hout : roots.mapM moved.node = .ok (roots.map f) := mapM_eq_ok fun r hr => by
    have hr' := mem_nodes.1 (hroots r hr)
    have hnode : r = src.node r.index := Node.ext hr'.1 rfl
    rw [hnode]
    exact h.moved_eq r.index ((hmem _).2 ⟨r, hr, .refl _⟩)
  refine ⟨roots.map f, dst', cs, f, ?_, h.toCopied, hasc, hmem, rfl,
    fun p hp => h.grown.expr?_eq hp, fun i p j q hi hj k l => h.shares_iff hclosed hi hj⟩
  rw [copyForest, unfolding, hunfolding]
  simp only [Except.map, hgraft, hout]

/-- A root that is no node of the source is refused, before anything is copied. -/
theorem copyForest_of_refused {roots : List Node} {e : Error}
    (h : (roots.findSome? fun r => refusal? (src.locate r)) = some e) (dst : Graph) :
    src.copyForest roots dst = (.error e, dst) := by
  rw [← refusal?_closure, refusal?_eq_some] at h
  rw [copyForest, unfolding, h]
  rfl

/-- What copying comes to: the refusal of a root, or a copy of what the roots depend on. -/
theorem copyForest_cases (src : Graph) (roots : List Node) (dst : Graph) :
    (∃ e, (roots.findSome? fun r => refusal? (src.locate r)) = some e
        ∧ src.copyForest roots dst = (.error e, dst))
      ∨ ∃ out dst' cs f, (∀ r ∈ roots, r ∈ src.nodes)
        ∧ src.copyForest roots dst = (.ok out, dst') ∧ Relocated src roots dst cs f out dst' := by
  cases h : roots.findSome? fun r => refusal? (src.locate r) with
  | some e => exact .inl ⟨e, rfl, copyForest_of_refused h dst⟩
  | none =>
    have hroots : ∀ r ∈ roots, r ∈ src.nodes := fun r hr =>
      refusal?_locate_eq_none.1 (List.findSome?_eq_none_iff.1 h r hr)
    obtain ⟨out, dst', cs, f, hcopy, hrel⟩ := exists_relocated hroots dst
    exact .inr ⟨out, dst', cs, f, hroots, hcopy, hrel⟩

/-- A forest is refused for its first root that is no node of the source. -/
theorem refusal?_copyForest (src : Graph) (roots : List Node) (dst : Graph) :
    refusal? (src.copyForest roots dst).1 = roots.findSome? fun r => refusal? (src.locate r) := by
  rcases copyForest_cases src roots dst with ⟨e, he, hcopy⟩ | ⟨out, dst', cs, f, hroots, hcopy, -⟩
  · rw [hcopy, he]
    rfl
  · rw [hcopy, List.findSome?_eq_none_iff.2 fun r hr => refusal?_locate_eq_none.2 (hroots r hr)]
    rfl

theorem extends_copyForest (src : Graph) (roots : List Node) (dst : Graph) :
    dst.Extends (src.copyForest roots dst).2 := by
  rcases copyForest_cases src roots dst with ⟨e, -, hcopy⟩ | ⟨out, dst', cs, f, -, hcopy, hrel⟩
  · rw [hcopy]
    exact .refl dst
  · rw [hcopy]
    exact hrel.grown

/-- The copies of roots are nodes of the target. -/
theorem Relocated.mem_nodes {roots out : List Node} (h : Relocated src roots dst cs f out dst')
    (hroots : ∀ r ∈ roots, r ∈ src.nodes) : ∀ m ∈ out, m ∈ dst'.nodes := by
  intro m hm
  rw [h.out_eq] at hm
  obtain ⟨r, hr, rfl⟩ := List.mem_map.1 hm
  have hnode : src.node r.index = r := Node.ext (Graph.mem_nodes.1 (hroots r hr)).1.symm rfl
  rw [← hnode]
  exact h.toCopied.mem_nodes ((h.mem_iff _).2 ⟨r, hr, .refl _⟩)

/-- A tree is a forest with one root. -/
theorem copyForest_singleton (src : Graph) (root : Node) (dst : Graph) :
    src.copyForest [root] dst
      = ((src.copyTree root dst).1.map fun n => [n], (src.copyTree root dst).2) := by
  rw [copyTree]
  rcases copyForest_cases src [root] dst with ⟨e, -, hcopy⟩ | ⟨out, dst', cs, f, -, hcopy, hrel⟩
  · rw [hcopy]
    rfl
  · rw [hcopy, hrel.out_eq]
    rfl

theorem extends_copyTree (src : Graph) (root : Node) (dst : Graph) :
    dst.Extends (src.copyTree root dst).2 := by
  have h := extends_copyForest src [root] dst
  rw [copyForest_singleton] at h
  exact h

/-- Copying a forest fails just if some root is no node of the source, with the error for such a
root and without touching the target; otherwise the target ends with the records that the roots
depend on, each once, renamed to their new places. A tree is a forest with one root. -/
theorem copyForest_relocates (src : Graph) (roots : List Node) (dst : Graph) :
    ((∃ e, (src.copyForest roots dst).1 = .error e) ↔
        ∃ r ∈ roots, r.graph ≠ src.id ∨ src.size ≤ r.index)
      ∧ (∀ e dst', src.copyForest roots dst = (.error e, dst') →
          dst' = dst ∧ ∃ r ∈ roots, src.locate r = .error e)
      ∧ (∀ out dst', src.copyForest roots dst = (.ok out, dst') →
          ∃ cs f, Relocated src roots dst cs f out dst')
      ∧ ∀ root, src.copyForest [root] dst
          = ((src.copyTree root dst).1.map fun n => [n], (src.copyTree root dst).2) := by
  have htree := copyForest_singleton src
  simp only [← not_mem_nodes]
  rcases copyForest_cases src roots dst with
    ⟨e, hfirst, hcopy⟩ | ⟨out, dst', cs, f, hroots, hcopy, hrel⟩ <;> rw [hcopy]
  · obtain ⟨r, hr, he⟩ := List.exists_of_findSome?_eq_some hfirst
    have hno : r ∉ src.nodes := fun hmem => by
      rw [refusal?_locate_eq_none.2 hmem] at he
      cases he
    refine ⟨iff_of_true ⟨e, rfl⟩ ⟨r, hr, hno⟩, ?_, nofun, fun root => htree root dst⟩
    rintro e' dst' ⟨⟩
    exact ⟨rfl, r, hr, refusal?_eq_some.1 he⟩
  · refine ⟨iff_of_false nofun fun ⟨r, hr, hn⟩ => hn (hroots r hr), nofun, ?_,
      fun root => htree root dst⟩
    rintro out' dst'' ⟨⟩
    exact ⟨cs, f, hrel⟩

end Graph

end TermGraph
