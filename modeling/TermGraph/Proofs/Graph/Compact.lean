import TermGraph.Proofs.Graph.Embedded
import TermGraph.Proofs.Graph.Notes
import TermGraph.Proofs.Workspace.Plain

/-!
Copying into an empty graph keeps what is needed and nothing else. The copy is `Built`: it comes
from appending its own records to an empty graph, so it has no atom but those of its records, each
under the token that it gets when it is first seen. Appending the records of a built graph to
another empty graph gives that graph under another number, tokens included. Main statement: the copy
of a forest is all reachable from its roots, is no larger than the source, and when it is copied
again it is as before.
-/

namespace TermGraph

/-- The texts in an expression: its head and its text arguments. -/
def Expr.texts (e : Expr) : List String := (Entry.mk e.head e.args).texts

/-- The expression with its nodes moved to the graph numbered `i`. -/
def Expr.retag (i : Nat) (e : Expr) : Expr := e.mapNode fun n => ⟨i, n.index⟩

theorem Expr.textWith_retag (plain : Char → Bool) (i : Nat) (e : Expr) :
    (e.retag i).textWith plain = e.textWith plain := by
  rw [textWith, textWith, retag, mapNode, List.map_map]
  congr 2
  funext d
  cases d <;> rfl

namespace Graph

variable {g g' src dst dst' : Graph} {i j : Nat} {es : List Expr} {moved moved' : Moved}
  {head s : String} {args : List Value} {n : Node}

/-! ### Graphs that were built -/

/-- Graphs that came from appending to the empty graph numbered `i`. -/
inductive Built (i : Nat) : Graph → Prop
  | empty : Built i (.empty i)
  | append {g g' : Graph} {head : String} {args : List Value} {n : Node} :
    Built i g → g.append head args = (.ok n, g') → Built i g'

/-- Grafting succeeds by appending records one by one. -/
theorem graft_cons {e : Expr} (h : dst.graft (e :: es) moved = (.ok moved', dst')) :
    ∃ args n dst₁, e.args.mapM moved.value = .ok args ∧ dst.append e.head args = (.ok n, dst₁)
      ∧ dst₁.graft es (moved.insert e.node n) = (.ok moved', dst') := by
  rw [graft] at h
  split at h
  · cases h
  next args hargs =>
    split at h
    · cases h
    next n dst₁ happend => exact ⟨args, n, dst₁, hargs, happend, h⟩

theorem Built.graft : ∀ {es : List Expr} {moved : Moved} {g : Graph}, Built i g →
    g.graft es moved = (.ok moved', g') → Built i g'
  | [], _, _, h, hgraft => by
    cases hgraft
    exact h
  | _ :: _, _, _, h, hgraft => by
    obtain ⟨_, _, _, -, happend, hrest⟩ := graft_cons hgraft
    exact (h.append happend).graft hrest

theorem exprs_of_append (h : g.append head args = (.ok n, g')) :
    g'.exprs = g.exprs ++ [⟨n, head, args⟩] := by
  obtain ⟨rfl, happended⟩ := appended_of_append h
  rw [happended.grown.exprs_eq, happended.added_eq]

/-! ### Appending under another number -/

/-- A graph and the same one under another number accept the same records. -/
theorem append_renumber (h : g.append head args = (.ok n, g')) (j : Nat) :
    (g.renumber j).append head (args.map (Datum.mapNode fun m => ⟨j, m.index⟩))
      = (.ok ⟨j, n.index⟩, g'.renumber j) := by
  unfold append at h
  cases hds : args.mapM g.locateArg with
  | error e => rw [hds] at h; cases h
  | ok ds =>
    rw [hds] at h
    cases h
    have hargs : (args.map (Datum.mapNode fun m => (⟨j, m.index⟩ : Node))).mapM
        (g.renumber j).locateArg = .ok ds := by
      rw [List.mapM_map]
      refine mapM_ok_mono (fun v _ d hd => ?_) hds
      cases v with
      | node m =>
        obtain ⟨p, hp, rfl⟩ := ok_of_map_ok hd
        rw [eq_node_of_locate hp]
        exact congrArg (Except.map Datum.node) (locate_node (g := g.renumber j) p.isLt)
      | _ => exact hd
    rw [append, hargs]
    obtain ⟨id, atoms, records, ok, fits⟩ := g
    rfl

theorem graft_concat (e : Expr) : ∀ {es : List Expr} {moved : Moved} {dst : Graph},
    dst.graft es moved = (.ok moved', dst') → dst.graft (es ++ [e]) moved = dst'.graft [e] moved'
  | [], _, _, h => by
    cases h
    rfl
  | _ :: es, _, _, h => by
    obtain ⟨args, n, dst₁, hargs, happend, hrest⟩ := graft_cons h
    rw [List.cons_append, Graph.graft, hargs]
    dsimp only
    rw [happend]
    exact graft_concat e hrest

/-- The records of a built graph, grafted onto an empty graph, give it under another number. -/
theorem Built.graft_exprs (h : Built i g) (j : Nat) : ∃ moved,
    (Graph.empty j).graft g.exprs ∅ = (.ok moved, g.renumber j)
      ∧ ∀ n ∈ g.nodes, moved.node n = .ok ⟨j, n.index⟩ := by
  induction h with
  | empty => exact ⟨∅, rfl, fun n hn => by cases hn⟩
  | @append g g' head args n _ happend ih =>
    obtain ⟨moved, hgraft, hmoved⟩ := ih
    obtain ⟨rfl, happended⟩ := appended_of_append happend
    -- the record was accepted, so all that it mentions is in `g` and has moved
    have hmem : ∀ m, Datum.node m ∈ args → m ∈ g.nodes := by
      rw [← findSome?_refusalArg?_eq_none, ← refusal?_append head, happend]
      rfl
    have hargs : args.mapM moved.value = .ok (args.map (Datum.mapNode fun m => ⟨j, m.index⟩)) := by
      refine mapM_eq_ok fun v hv => ?_
      cases v with
      | node m => exact congrArg (Except.map Datum.node) (hmoved m (hmem m hv))
      | _ => rfl
    refine ⟨moved.insert (g.node g.size) ⟨j, g.size⟩, ?_, fun m hm => ?_⟩
    · rw [exprs_of_append happend, graft_concat _ hgraft, Graph.graft, hargs]
      dsimp only
      rw [append_renumber happend]
      rfl
    · rw [Moved.node_insert]
      split
      · next heq => rw [← heq]; rfl
      · next hne =>
        refine hmoved m (mem_nodes.2 ?_)
        obtain ⟨hid, hlt⟩ := mem_nodes.1 hm
        rw [happended.grown.id_eq] at hid
        rw [happended.size_eq] at hlt
        have hindex : g.size ≠ m.index := fun he => hne (Node.ext hid.symm he)
        exact ⟨hid, by omega⟩

/-! ### Atoms -/

/-- The texts of a record are atoms. -/
theorem text_mem_atoms {p : Nat} {e : Expr} (he : g.expr? p = some e) (hs : s ∈ e.texts) :
    s ∈ g.atoms.toList := by
  unfold expr? at he
  split at he
  · next hp =>
    cases he
    have hfit := g.fits p _ (Array.getElem?_eq_getElem hp)
    rcases Entry.mem_texts.1 hs with rfl | harg
    · exact Atoms.text_mem_toList hfit.head_lt
    · obtain ⟨d, hd, hds⟩ := List.mem_map.1 harg
      cases d with
      | str k =>
        cases hds
        exact Atoms.text_mem_toList (hfit.token_lt k hd)
      | _ => cases hds
  · cases he

/-- Grafting brings the texts of the records that are grafted. -/
theorem mem_atoms_of_graft : ∀ {es : List Expr} {moved : Moved} {dst : Graph},
    dst.graft es moved = (.ok moved', dst') →
      (s ∈ dst'.atoms.toList ↔ s ∈ dst.atoms.toList ∨ s ∈ es.flatMap Expr.texts)
  | [], _, _, h => by
    cases h
    exact (or_iff_left List.not_mem_nil).symm
  | e :: es, moved, _, h => by
    obtain ⟨args, n, dst₁, hargs, happend, hrest⟩ := graft_cons h
    have hmem : Datum.str s ∈ args ↔ Datum.str s ∈ e.args := by
      refine str_mem_iff_of_mapM_ok (fun v d hd => ?_) hargs
      cases v with
      | node m => obtain ⟨m', -, rfl⟩ := ok_of_map_ok hd; rfl
      | _ => cases hd; rfl
    rw [mem_atoms_of_graft hrest, mem_atoms_of_append happend, hmem, List.flatMap_cons,
      List.mem_append, or_assoc, Expr.texts, Entry.mem_texts]

/-! ### Compact copies -/

theorem dump_renumber (g : Graph) (j : Nat) : (g.renumber j).dump = g.dump := by
  have hexprs : (g.renumber j).exprs = g.exprs.map (Expr.retag j) := by
    refine List.ext_getElem? fun p => ?_
    rw [getElem?_exprs, expr?_renumber, List.getElem?_map, getElem?_exprs]
    rfl
  rw [dump, dumpWith, hexprs, List.foldl_map]
  simp only [Expr.textWith_retag]
  rfl

/-- All of the copy is reachable from its roots. -/
theorem Relocated.closure_out {roots out : List Node} {cs : List Nat} {f : Node → Node}
    (h : Relocated src roots (.empty i) cs f out dst') (hroots : ∀ r ∈ roots, r ∈ src.nodes) :
    dst'.closure out = .ok (List.range dst'.size) := by
  have hsize : dst'.size = cs.length := h.size_eq.trans (Nat.zero_add _)
  have hout := h.mem_nodes hroots
  rw [closure_eq hout]
  refine congrArg Except.ok (List.Pairwise.eq_of_mem_iff (closureAt_ascending _)
    List.pairwise_lt_range fun q => ?_)
  simp only [mem_closureAt, List.mem_map, exists_exists_and_eq_and, List.mem_range]
  constructor
  · rintro ⟨m, hm, hpath⟩
    exact Nat.lt_of_le_of_lt hpath.le (Graph.mem_nodes.1 (hout m hm)).2
  · intro hq
    have hq' : q < cs.length := hsize ▸ hq
    obtain ⟨r, hr, hpath⟩ := (h.mem_iff _).1 (List.getElem_mem hq')
    have hmem := (h.mem_iff r.index).2 ⟨r, hr, .refl _⟩
    have himage : dst'.Path (0 + cs.idxOf r.index) (0 + cs.idxOf cs[q]) :=
      (h.toCopied.embeds (h.closed hroots) h.ascending).path_image hpath hmem
    rw [List.Nodup.idxOf_getElem (h.ascending.imp Nat.ne_of_lt) q hq', Nat.zero_add q] at himage
    have hnode : r = src.node r.index := Node.ext (Graph.mem_nodes.1 (hroots r hr)).1 rfl
    refine ⟨f r, h.out_eq ▸ List.mem_map_of_mem hr, ?_⟩
    rw [hnode, h.toCopied.image_eq hmem]
    exact himage

/-- The graph holds what the records at the positions `cs` of the source need, and nothing else. -/
structure Compacts (src : Graph) (cs : List Nat) (out : List Node) (g : Graph) : Prop where
  reachable_eq : g.reachable out = .ok g.nodes
  size_eq : g.size = cs.length
  size_le : g.size ≤ src.size
  atoms_size_eq : g.atoms.size = ((cs.filterMap src.expr?).flatMap Expr.texts).dedup.length
  atoms_size_le : g.atoms.size ≤ src.atoms.size

/-- The second graph has the records of the first at their positions, and its atoms under their
tokens, so that the same is dumped; the roots are where they were. -/
structure Repeats (g : Graph) (roots : List Node) (j : Nat) (out : List Node) (g' : Graph) :
    Prop where
  id_eq : g'.id = j
  records_eq : g'.records = g.records
  atoms_eq : g'.atoms = g.atoms
  out_eq : out = roots.map fun r => ⟨j, r.index⟩
  dump_eq : g'.dump = g.dump

/-- A copy of a built graph whose roots need all of it is that graph under another number. -/
theorem Built.copyForest (h : Built i g) {roots : List Node} (hroots : ∀ r ∈ roots, r ∈ g.nodes)
    (hall : g.closure roots = .ok (List.range g.size)) (j : Nat) :
    g.copyForest roots (.empty j)
      = (.ok (roots.map fun r => ⟨j, r.index⟩), g.renumber j) := by
  obtain ⟨moved, hgraft, hmoved⟩ := h.graft_exprs j
  have hunfolding : g.unfolding roots = .ok g.exprs := by
    rw [unfolding, hall, exprs_eq_filterMap]
    rfl
  have hout := mapM_eq_ok fun r hr => hmoved r (hroots r hr)
  rw [Graph.copyForest, hunfolding]
  dsimp only
  rw [hgraft]
  dsimp only
  rw [hout]

/-- What was copied is built from the records that the roots need. -/
theorem exists_graft_of_copyForest {roots out : List Node} (hes : src.unfolding roots = .ok es)
    (h : src.copyForest roots dst = (.ok out, dst')) :
    ∃ moved, dst.graft es ∅ = (.ok moved, dst') := by
  rw [copyForest, hes] at h
  dsimp only at h
  split at h
  · cases h
  · next moved dst₁ hgraft =>
    obtain ⟨-, rfl⟩ := Prod.mk.inj h
    exact ⟨moved, hgraft⟩

theorem Relocated.compacts {roots out : List Node} {cs : List Nat} {f : Node → Node}
    (h : Relocated src roots (.empty i) cs f out g) (hroots : ∀ r ∈ roots, r ∈ src.nodes)
    (hgraft : (Graph.empty i).graft (cs.filterMap src.expr?) ∅ = (.ok moved, g)) :
    Compacts src cs out g := by
  have hsize : g.size = cs.length := h.size_eq.trans (Nat.zero_add _)
  have hatoms : ∀ s, s ∈ g.atoms.toList ↔ s ∈ (cs.filterMap src.expr?).flatMap Expr.texts :=
    fun s => (mem_atoms_of_graft hgraft).trans (or_iff_right List.not_mem_nil)
  have hnodup := g.consistent.nodup_toList
  refine ⟨?_, hsize, ?_, ?_, ?_⟩
  · rw [reachable, h.closure_out hroots]
    rfl
  · have hsubset : cs ⊆ List.range src.size := fun p hp =>
      List.mem_range.2 ((h.closed hroots).lt_size p hp)
    have hle := (List.subperm_of_subset (h.ascending.imp Nat.ne_of_lt) hsubset).length_le
    rwa [List.length_range, ← hsize] at hle
  · exact (List.perm_ext_iff_of_nodup hnodup (List.nodup_dedup _)).2
      (fun s => (hatoms s).trans List.mem_dedup.symm) |>.length_eq
  · refine (List.subperm_of_subset hnodup fun s hs => ?_).length_le
    obtain ⟨e, he, hse⟩ := List.mem_flatMap.1 ((hatoms s).1 hs)
    obtain ⟨p, -, hp⟩ := List.mem_filterMap.1 he
    exact text_mem_atoms hp hse

/-- A copy into an empty graph has what the roots need and nothing else, and to copy it again
changes nothing but the number of the graph. -/
theorem copyForest_compacts (src : Graph) (roots : List Node) (i j : Nat)
    (hroots : ∀ r ∈ roots, r ∈ src.nodes) :
    ∃ cs out g, src.closure roots = .ok cs ∧ src.copyForest roots (.empty i) = (.ok out, g)
      ∧ Compacts src cs out g
      ∧ ∃ out' g', g.copyForest out (.empty j) = (.ok out', g') ∧ Repeats g out j out' g' := by
  obtain ⟨out, g, cs, f, hcopy, hrel⟩ := exists_relocated hroots (.empty i)
  have hcs : src.closure roots = .ok cs := by
    rw [closure_eq hroots]
    refine congrArg Except.ok (List.Pairwise.eq_of_mem_iff (closureAt_ascending _) hrel.ascending
      fun p => ?_)
    simp only [mem_closureAt, List.mem_map, exists_exists_and_eq_and, hrel.mem_iff]
  obtain ⟨moved, hgraft⟩ := exists_graft_of_copyForest (by rw [unfolding, hcs]; rfl) hcopy
  -- the copy is built and all reachable from its roots, so all its records are grafted once more
  have hagain := (Built.empty.graft hgraft).copyForest (hrel.mem_nodes hroots)
    (hrel.closure_out hroots) j
  exact ⟨cs, out, g, hcs, hcopy, hrel.compacts hroots hgraft, _, _, hagain, rfl, rfl, rfl, rfl,
    dump_renumber g j⟩

/-- A graph whose first record is not needed by the others. The text "b" is an atom before "a" is,
for arguments come before heads. -/
def spare : Graph :=
  let g := ((Graph.empty 0).append "x" [.str "y"]).2
  let g := (g.append "a" [.str "b"]).2
  (g.append "b" [.node (g.node 1), .node (g.node 1)]).2

theorem copyForest_compacts_spare : ∃ g g',
    spare.copyForest [spare.node 2, spare.node 1, spare.node 2] (.empty 1)
        = (.ok [⟨1, 1⟩, ⟨1, 0⟩, ⟨1, 1⟩], g)
      ∧ g.size = 2 ∧ g.atoms.size = 2
      ∧ g.copyForest [⟨1, 1⟩, ⟨1, 0⟩, ⟨1, 1⟩] (.empty 2) = (.ok [⟨2, 1⟩, ⟨2, 0⟩, ⟨2, 1⟩], g')
      ∧ g'.atoms.toList = ["b", "a"] ∧ g'.dump = g.dump := by
  obtain ⟨cs, out, g, hcs, hcopy, hcompacts, out', g', hagain, hrepeats⟩ :=
    copyForest_compacts spare [spare.node 2, spare.node 1, spare.node 2] 1 2 (by decide)
  obtain rfl : [1, 2] = cs := Except.ok.inj hcs
  obtain rfl : [⟨1, 1⟩, ⟨1, 0⟩, ⟨1, 1⟩] = out := Except.ok.inj (congrArg Prod.fst hcopy)
  obtain rfl := hrepeats.out_eq
  have hg : g.atoms.toList = ["b", "a"] := by
    obtain rfl : _ = g := congrArg Prod.snd hcopy
    rfl
  exact ⟨g, g', hcopy, hcompacts.size_eq, hcompacts.atoms_size_eq, hagain,
    hrepeats.atoms_eq ▸ hg, hrepeats.dump_eq⟩

end Graph

end TermGraph
