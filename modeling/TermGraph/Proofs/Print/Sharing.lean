import Mathlib.Data.List.Nodup
import Mathlib.Data.Set.Function
import TermGraph.Proofs.Print.Reading

/-!
A rendering tells what is rendered, with the sharing of all nodes that are not simple. Two nodes of
two graphs meet if they stand in full at the same spot of renderings that are the same. Since a node
that is not simple stands in full at its first place only, it meets just one node; and a label says
which of them is meant. Main statement: meeting is a bijection between the nodes that are not simple,
and nodes that meet have the same head and arguments that agree.
-/

namespace TermGraph

/-- Two lists are related member by member if they are as long and so are the members at each
index. -/
theorem forall₂_iff_getElem? {α β : Type} {R : α → β → Prop} {xs : List α} {ys : List β} :
    List.Forall₂ R xs ys ↔
      xs.length = ys.length ∧ ∀ (i : Nat) x y, xs[i]? = some x → ys[i]? = some y → R x y := by
  rw [List.forall₂_iff_get]
  refine and_congr_right fun _ => ⟨fun h i x y hx hy => ?_, fun h i hi hi' => ?_⟩
  · obtain ⟨hi, rfl⟩ := List.getElem?_eq_some_iff.1 hx
    obtain ⟨hi', rfl⟩ := List.getElem?_eq_some_iff.1 hy
    exact h i hi hi'
  · exact h i _ _ (List.getElem?_eq_getElem hi) (List.getElem?_eq_getElem hi')

namespace Graph

variable {g g' : Graph} {root p q n : Fin g.size} {root' p' q' n' : Fin g'.size} {i : Nat}
  {s s' : Place} {d : Datum String (Fin g.size)} {d' : Datum String (Fin g'.size)}

/-- The nodes that the root depends on, itself included, and that are not simple. -/
def compound (g : Graph) (root : Fin g.size) : Set (Fin g.size) :=
  { n | g.Path root.val n.val ∧ (g.exprAt n).isSimple = false }

/-- A node is simple just if no argument is a node. -/
theorem isSimple_iff : (g.exprAt p).isSimple = true ↔ ∀ d ∈ g.argsAt p, d.kind ≠ .node := by
  constructor
  · intro h d hd hk
    cases d with
    | node q => rw [isSimple_eq_false hd] at h; cases h
    | _ => cases hk
  · intro h
    rw [Expr.isSimple, List.isEmpty_iff, Expr.children, nodesOf, List.filterMap_eq_nil_iff,
      exprAt_args]
    intro v hv
    obtain ⟨d, hd, rfl⟩ := List.mem_map.1 hv
    cases d with
    | node q => exact absurd rfl (h _ hd)
    | _ => rfl

/-! ### Labels tell nodes apart -/

theorem label?_inj {m : Fin g.size} {k : Nat} (hm : g.label? root m = some k)
    (hn : g.label? root n = some k) : m = n := by
  have hlm := isLabelled_of_label? hm
  have hln := isLabelled_of_label? hn
  have hnodup : (((g.below root).filter (g.isLabelled root)).map (g.rank root)).Nodup := by
    rw [← filterMap_label?]
    exact (labels_perm root).nodup_iff.2 List.nodup_range
  refine List.inj_on_of_nodup_map hnodup
    (List.mem_filter.2 ⟨mem_below_of_isLabelled hlm, hlm⟩)
    (List.mem_filter.2 ⟨mem_below_of_isLabelled hln, hln⟩) ?_
  rw [label?, if_pos hlm] at hm
  rw [label?, if_pos hln] at hn
  exact Option.some.inj (hm.trans hn.symm)

/-! ### Arguments written alike -/

theorem kind_of_lexemeAt? {l : Datum String Nat} (h : g.lexemeAt? root s d = some l) :
    l.kind = d.kind := by
  cases d with
  | node n =>
    rw [lexemeAt?] at h
    split at h
    · cases h
    · cases h
      rfl
  | _ => cases h; rfl

theorem WrittenAlike.kind_eq (h : WrittenAlike root root' s s' d d') : d.kind = d'.kind := by
  cases h with
  | lexeme hl hl' => rw [← kind_of_lexemeAt? hl, kind_of_lexemeAt? hl']
  | full => rfl

theorem mapNode_eq_of_lexemeAt? {ν : Type} {l : Datum String Nat} (h : g.lexemeAt? root s d = some l)
    (hd : d.kind ≠ .node) (k : Fin g.size → ν) (k' : Nat → ν) : d.mapNode k = l.mapNode k' := by
  cases d with
  | node n => exact absurd rfl hd
  | _ => cases h; rfl

/-- Literals written alike are the same. -/
theorem WrittenAlike.literal (h : WrittenAlike root root' s s' d d') (hd : d.kind ≠ .node) :
    d.mapNode (fun q => g.node q.val) = d'.mapNode fun q => g'.node q.val := by
  have hd' := h.kind_eq ▸ hd
  cases h with
  | lexeme hl hl' =>
    rw [mapNode_eq_of_lexemeAt? hl hd _ g.node, mapNode_eq_of_lexemeAt? hl' hd' _ g.node]
  | full => exact absurd rfl hd

/-- An argument has a counterpart that is written alike. -/
theorem ShownAlike.arg (h : ShownAlike root p root' p') (hd : (g.argsAt p)[i]? = some d) :
    ∃ d', (g'.argsAt p')[i]? = some d' ∧
      WrittenAlike root root' ⟨p.val, i⟩ ⟨p'.val, i⟩ d d' := by
  obtain ⟨hlen, hargs⟩ := forall₂_iff_getElem?.1 h.args
  rw [List.length_zipIdx, List.length_zipIdx] at hlen
  have hi : i < (g'.argsAt p').length := hlen ▸ (List.getElem?_eq_some_iff.1 hd).1
  refine ⟨(g'.argsAt p')[i], List.getElem?_eq_getElem hi, hargs i (d, i) (_, i) ?_ ?_⟩
  · rw [List.getElem?_zipIdx, hd, Option.map_some, Nat.zero_add]
  · rw [List.getElem?_zipIdx, List.getElem?_eq_getElem hi, Option.map_some, Nat.zero_add]

theorem ShownAlike.arg_eq (h : ShownAlike root p root' p') (hd : (g.argsAt p)[i]? = some d)
    (hd' : (g'.argsAt p')[i]? = some d') :
    WrittenAlike root root' ⟨p.val, i⟩ ⟨p'.val, i⟩ d d' := by
  obtain ⟨d'', hd'', hw⟩ := h.arg hd
  rw [hd'] at hd''
  cases hd''
  exact hw

theorem ShownAlike.length_eq (h : ShownAlike root p root' p') :
    (g.argsAt p).length = (g'.argsAt p').length := by
  have := h.args.length_eq
  rwa [List.length_zipIdx, List.length_zipIdx] at this

/-- Two simple nodes with the same head and the same literals. -/
structure SimpleAlike (q : Fin g.size) (q' : Fin g'.size) : Prop where
  simple : (g.exprAt q).isSimple = true
  simple' : (g'.exprAt q').isSimple = true
  head : g.headAt q = g'.headAt q'
  args : (g.exprAt q).args = (g'.exprAt q').args

theorem ShownAlike.simpleAlike (h : ShownAlike root p root' p')
    (hp : (g.exprAt p).isSimple = true) : SimpleAlike p p' := by
  have hkinds := isSimple_iff.1 hp
  refine ⟨hp, isSimple_iff.2 fun d' hd' => ?_, h.head, ?_⟩
  · obtain ⟨i, hi, rfl⟩ := List.mem_iff_getElem.1 hd'
    have hi' : i < (g.argsAt p).length := h.length_eq ▸ hi
    have hw := h.arg_eq (List.getElem?_eq_getElem hi') (List.getElem?_eq_getElem hi)
    exact hw.kind_eq ▸ hkinds _ (List.getElem_mem hi')
  · rw [exprAt_args, exprAt_args]
    refine List.ext_getElem? fun i => ?_
    rw [List.getElem?_map, List.getElem?_map]
    cases hd : (g.argsAt p)[i]? with
    | none =>
      rw [List.getElem?_eq_none (h.length_eq ▸ List.getElem?_eq_none_iff.1 hd)]
      rfl
    | some d =>
      obtain ⟨d', hd', hw⟩ := h.arg hd
      rw [hd', Option.map_some, Option.map_some, hw.literal (hkinds d (List.mem_of_getElem? hd))]

/-! ### Nodes that meet -/

/-- Two nodes stand in full at the same spot of two renderings: both are the root, or they are the
same argument of two nodes that meet. -/
inductive Meets (root : Fin g.size) (root' : Fin g'.size) : Fin g.size → Fin g'.size → Prop
  | root : Meets root root' root root'
  | arg {p q : Fin g.size} {p' q' : Fin g'.size} {i : Nat} : Meets root root' p p' →
    (g.argsAt p)[i]? = some (.node q) → (g'.argsAt p')[i]? = some (.node q') →
    g.isInFull root ⟨p.val, i⟩ q = true → g'.isInFull root' ⟨p'.val, i⟩ q' = true →
      Meets root root' q q'

namespace Meets

theorem symm (h : Meets root root' p p') : Meets root' root p' p := by
  induction h with
  | root => exact .root
  | arg _ hq hq' hfull hfull' ih => exact .arg ih hq' hq hfull' hfull

theorem mem_below (h : Meets root root' p p') : p ∈ g.below root := by
  induction h with
  | root => exact root_mem_below root
  | arg _ hq _ _ _ ih => exact mem_below_of_arg ih (List.mem_of_getElem? hq)

/-- The root meets the other root only. -/
theorem eq_root (h : Meets root root' root p') : p' = root' := by
  cases h with
  | root => rfl
  | arg h hq =>
    have hlt := lt_of_mem_argsAt (List.mem_of_getElem? hq)
    exact absurd (le_of_mem_below h.mem_below) (Nat.not_le_of_lt hlt)

/-- A node that is not simple and stands in full does so at its first place. -/
theorem first_of_isInFull (hn : (g.exprAt n).isSimple = false) (h : g.isInFull root s n = true) :
    g.first? root n = some s := by
  refine (isInFull_iff.1 h).resolve_left fun hs => ?_
  rw [hn] at hs
  cases hs

/-- A node that is not simple meets one node only: it stands in full at its first place, and the
record of that place meets one node only. -/
theorem right_unique (h : Meets root root' n p') (h' : Meets root root' n q')
    (hn : (g.exprAt n).isSimple = false) : p' = q' := by
  induction h generalizing q' with
  | root => exact h'.eq_root.symm
  | @arg p n _ _ i hp hi hi' hfull _ ih =>
    cases h' with
    | root =>
      have hlt := lt_of_mem_argsAt (List.mem_of_getElem? hi)
      exact absurd (le_of_mem_below hp.mem_below) (Nat.not_le_of_lt hlt)
    | @arg c _ c' _ j hc hj hj' hcfull =>
      have hplace := (first_of_isInFull hn hfull).symm.trans (first_of_isInFull hn hcfull)
      obtain ⟨hpc, rfl⟩ := Place.mk.inj (Option.some.inj hplace)
      cases Fin.ext hpc
      cases ih hc (isSimple_eq_false (List.mem_of_getElem? hi))
      rw [hi'] at hj'
      cases hj'
      rfl

end Meets

section Same

variable (hwords : g.HeadsAreWords root) (hwords' : g'.HeadsAreWords root')
  (htext : g.chars root root = g'.chars root' root')
include hwords hwords' htext

/-- Nodes that meet have the same text, so they show the same. -/
theorem Meets.shownAlike (h : Meets root root' p p') : ShownAlike root p root' p' := by
  suffices hchars : g.chars root p = g'.chars root' p' from
    shownAlike_of_chars_eq hwords hwords' h.mem_below h.symm.mem_below hchars
  induction h with
  | root => exact htext
  | arg hp hi hi' hfull _ ih =>
    have hshown := shownAlike_of_chars_eq hwords hwords' hp.mem_below hp.symm.mem_below ih
    cases hshown.arg_eq hi hi' with
    | lexeme hl => rw [lexemeAt?, if_pos hfull] at hl; cases hl
    | full _ _ hchars => exact hchars

/-- An argument that stands in full meets its counterpart. -/
theorem Meets.full (h : Meets root root' p p') (hi : (g.argsAt p)[i]? = some (.node q))
    (hfull : g.isInFull root ⟨p.val, i⟩ q = true) :
    ∃ q', (g'.argsAt p')[i]? = some (.node q') ∧ Meets root root' q q' := by
  obtain ⟨d', hd', hw⟩ := (h.shownAlike hwords hwords' htext).arg hi
  cases hw with
  | lexeme hl => rw [lexemeAt?, if_pos hfull] at hl; cases hl
  | @full _ q' _ hfull' _ => exact ⟨q', hd', .arg h hi hd' hfull hfull'⟩

/-- Every node below the root meets one. -/
theorem exists_meets (n : Fin g.size) (hn : n ∈ g.below root) :
    ∃ n', Meets root root' n n' := by
  by_cases hne : n = root
  · subst hne
    exact ⟨root', .root⟩
  · -- the record of the first place is nearer to the root
    obtain ⟨c, hc, i, hfirst, hi⟩ := exists_first_arg (places_ne_nil hn hne)
    have hmem := List.mem_of_getElem? hi
    have hlt := lt_of_mem_argsAt hmem
    have hle := le_of_mem_below hc
    obtain ⟨c', hcc'⟩ := exists_meets c hc
    obtain ⟨q', -, hmeets⟩ := hcc'.full hwords hwords' htext hi (isInFull_iff.2 (.inr hfirst))
    exact ⟨q', hmeets⟩
termination_by root.val - n.val
decreasing_by omega

/-- The nodes that are the same argument of two nodes that meet do so themselves, be it that they
stand in full there or that they have the same label. -/
theorem Meets.of_arg (h : Meets root root' p p') (hi : (g.argsAt p)[i]? = some (.node q))
    (hi' : (g'.argsAt p')[i]? = some (.node q')) : Meets root root' q q' := by
  cases (h.shownAlike hwords hwords' htext).arg_eq hi hi' with
  | full hfull hfull' => exact .arg h hi hi' hfull hfull'
  | @lexeme _ _ l hl hl' =>
    rw [lexemeAt?] at hl hl'
    split at hl
    · cases hl
    · next hfull =>
      split at hl'
      · cases hl'
      · next hfull' =>
        cases hl
        have hrank : g'.rank root' q' = g.rank root q := Datum.node.inj (Option.some.inj hl')
        have hplace : Place.mk p.val i ∈ g.places root q := mem_places.2 ⟨p, h.mem_below, rfl, hi⟩
        have hplace' : Place.mk p'.val i ∈ g'.places root' q' :=
          mem_places.2 ⟨p', h.symm.mem_below, rfl, hi'⟩
        have hlabel : g.label? root q = some (g.rank root q) :=
          if_pos (isLabelled_of_not_isInFull hplace hfull)
        have hlabel' : g'.label? root' q' = some (g'.rank root' q') :=
          if_pos (isLabelled_of_not_isInFull hplace' hfull')
        -- the node that `q` meets has the label of `q'`
        obtain ⟨m', hm'⟩ := exists_meets hwords hwords' htext q
          (mem_below_of_isLabelled (isLabelled_of_label? hlabel))
        have hshown := (hm'.shownAlike hwords hwords' htext).label
        rw [hlabel] at hshown
        rw [hrank] at hlabel'
        cases label?_inj hshown.symm hlabel'
        exact hm'

end Same

/-! ### The correspondence -/

/-- Two arguments agree: they are the same literal, nodes that are not simple and correspond, or
simple nodes that are alike. -/
inductive ArgsAgree (f : Fin g.size → Fin g'.size) :
    Datum String (Fin g.size) → Datum String (Fin g'.size) → Prop
  | int (k : Int64) : ArgsAgree f (.int k) (.int k)
  | bool (b : Bool) : ArgsAgree f (.bool b) (.bool b)
  | str (s : String) : ArgsAgree f (.str s) (.str s)
  | compound {q : Fin g.size} : (g.exprAt q).isSimple = false → ArgsAgree f (.node q) (.node (f q))
  | simple {q : Fin g.size} {q' : Fin g'.size} : SimpleAlike q q' → ArgsAgree f (.node q) (.node q')

theorem Meets.isSimple_eq (hwords : g.HeadsAreWords root) (hwords' : g'.HeadsAreWords root')
    (htext : g.chars root root = g'.chars root' root') (h : Meets root root' p p') :
    (g.exprAt p).isSimple = (g'.exprAt p').isSimple := by
  have hshown := h.shownAlike hwords hwords' htext
  have hshown' := h.symm.shownAlike hwords' hwords htext.symm
  rw [Bool.eq_iff_iff]
  exact ⟨fun hp => (hshown.simpleAlike hp).simple', fun hp => (hshown'.simpleAlike hp).simple'⟩

theorem WrittenAlike.agree {f : Fin g.size → Fin g'.size} (h : WrittenAlike root root' s s' d d')
    (hnode : ∀ q q', d = .node q → d' = .node q' → ArgsAgree f (.node q) (.node q')) :
    ArgsAgree f d d' := by
  have hkind := h.kind_eq
  have hliteral := h.literal
  cases d <;> cases d' <;> cases hkind
  case node.node q q' => exact hnode q q' rfl rfl
  case int.int => cases hliteral nofun; exact .int _
  case bool.bool => cases hliteral nofun; exact .bool _
  case str.str => cases hliteral nofun; exact .str _

/-- If two renderings are the same, then the nodes that are not simple correspond one to one: what
corresponds has the same head and arguments that agree, and the roots correspond or are simple and
alike. -/
theorem sharing_of_render_eq {r r' : Node} (hroot : g.locate r = .ok root)
    (hroot' : g'.locate r' = .ok root') (hnote : (g.exprAt root).isNote = false)
    (hnote' : (g'.exprAt root').isNote = false) (hwords : g.HeadsAreWords root)
    (hwords' : g'.HeadsAreWords root') (h : g.render r = g'.render r') :
    ∃ f : Fin g.size → Fin g'.size, Set.BijOn f (g.compound root) (g'.compound root')
      ∧ (∀ n ∈ g.compound root, g.headAt n = g'.headAt (f n)
          ∧ List.Forall₂ (ArgsAgree f) (g.argsAt n) (g'.argsAt (f n)))
      ∧ (root ∈ g.compound root ∧ f root = root' ∨ SimpleAlike root root') := by
  have htext : g.chars root root = g'.chars root' root' := by
    rw [render_spelled hroot hnote, render_spelled hroot' hnote'] at h
    exact congrArg String.toList (Except.ok.inj h)
  have htotal : ∀ n, ∃ n', n ∈ g.compound root → Meets root root' n n' := fun n => by
    by_cases hn : n ∈ g.compound root
    · obtain ⟨n', hn'⟩ := exists_meets hwords hwords' htext n (mem_below.2 hn.1)
      exact ⟨n', fun _ => hn'⟩
    · exact ⟨root', fun h => absurd h hn⟩
  obtain ⟨f, hf⟩ := Classical.axiomOfChoice htotal
  have hcompound : ∀ {n n'}, Meets root root' n n' → (n ∈ g.compound root ↔ n' ∈ g'.compound root') :=
    fun {n n'} hm => by
      have hsimple := hm.isSimple_eq hwords hwords' htext
      exact ⟨fun hn => ⟨mem_below.1 hm.symm.mem_below, hsimple.symm.trans hn.2⟩,
        fun hn => ⟨mem_below.1 hm.mem_below, hsimple.trans hn.2⟩⟩
  have hunique : ∀ {n n'}, Meets root root' n n' → n ∈ g.compound root → f n = n' :=
    fun hm hn => (hf _ hn).right_unique hm hn.2
  refine ⟨f, ⟨fun n hn => (hcompound (hf n hn)).1 hn, fun m hm n hn hmn => ?_, fun n' hn' => ?_⟩,
    fun n hn => ?_, ?_⟩
  · have hn' := (hcompound (hf n hn)).1 hn
    exact (hmn ▸ (hf m hm).symm).right_unique (hf n hn).symm hn'.2
  · obtain ⟨n, hm⟩ := exists_meets hwords' hwords htext.symm n' (mem_below.2 hn'.1)
    have hn := (hcompound hm.symm).2 hn'
    exact ⟨n, hn, hunique hm.symm hn⟩
  · have hmeets := hf n hn
    have hshown := hmeets.shownAlike hwords hwords' htext
    refine ⟨hshown.head, forall₂_iff_getElem?.2 ⟨hshown.length_eq, fun i d d' hd hd' => ?_⟩⟩
    refine (hshown.arg_eq hd hd').agree fun q q' hq hq' => ?_
    subst hq hq'
    have hqq' := hmeets.of_arg hwords hwords' htext hd hd'
    cases hsimple : (g.exprAt q).isSimple with
    | false =>
      rw [← hunique hqq' ⟨mem_below.1 hqq'.mem_below, hsimple⟩]
      exact .compound hsimple
    | true => exact .simple ((hqq'.shownAlike hwords hwords' htext).simpleAlike hsimple)
  · cases hsimple : (g.exprAt root).isSimple with
    | false =>
      have hmem : root ∈ g.compound root := ⟨.refl _, hsimple⟩
      exact .inl ⟨hmem, hunique .root hmem⟩
    | true => exact .inr ((Meets.root.shownAlike hwords hwords' htext).simpleAlike hsimple)

/-- `square` again, after a record that it does not depend on. -/
def squareAside : Graph :=
  let g := ((Graph.empty 1).append "aside" []).2
  let g := (g.append "num" [.int 1]).2
  let g := (g.append "num" [.int 2]).2
  let g := (g.append "add" [.node (g.node 1), .node (g.node 2)]).2
  (g.append "mul" [.node (g.node 3), .node (g.node 3)]).2

theorem sharing_squareAside :
    square.render (square.node 3) = squareAside.render (squareAside.node 4)
      ∧ ∃ (root : Fin square.size) (root' : Fin squareAside.size)
          (f : Fin square.size → Fin squareAside.size), root.val = 3 ∧ root'.val = 4
        ∧ Set.BijOn f (square.compound root) (squareAside.compound root') ∧ f root = root' := by
  have hrender : square.render (square.node 3) = squareAside.render (squareAside.node 4) := rfl
  have hwords : ∀ p, Text.IsWord (square.headAt p).toList := by decide
  have hwords' : ∀ p, Text.IsWord (squareAside.headAt p).toList := by decide
  have hroot : square.locate (square.node 3) = .ok ⟨3, by decide⟩ := rfl
  have hroot' : squareAside.locate (squareAside.node 4) = .ok ⟨4, by decide⟩ := rfl
  obtain ⟨f, hf, -, hroot⟩ := sharing_of_render_eq hroot hroot' rfl rfl (fun p _ => hwords p)
    (fun p _ => hwords' p) hrender
  refine ⟨hrender, _, _, f, rfl, rfl, hf, ?_⟩
  rcases hroot with ⟨-, hroot⟩ | hsimple
  · exact hroot
  · exact absurd hsimple.simple (by decide)

end Graph

end TermGraph
