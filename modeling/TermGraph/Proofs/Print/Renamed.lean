import Mathlib.Data.Set.Function
import TermGraph.Print.Render
import TermGraph.Proofs.Fold.Table
import TermGraph.Proofs.Graph.Copy
import TermGraph.Proofs.Print.Places

/-!
Renaming does not show. A rendering numbers its labels and never names a node, as long as the full
text of every argument is there when it is written. So two pages on which the same is written with
other nodes stay alike, and what depends on a root renders as its image under a renaming does.
-/

namespace TermGraph

variable {f : Node → Node} {D : Set Node} {e : Expr} {es : List Expr} {n : Node}

theorem Expr.children_mapNode (f : Node → Node) (e : Expr) :
    (e.mapNode f).children = e.children.map f := nodesOf_mapNode f e.args

/-! ### Counts -/

/-- A node occurs as often as its image does. -/
theorem Occurrences.get_mapNode (hf : Set.InjOn f D)
    (hes : ∀ e ∈ es, ∀ c ∈ e.children, c ∈ D) (hn : n ∈ D) :
    (ofExprs (es.map (Expr.mapNode f))).get (f n) = (ofExprs es).get n := by
  have hchildren : (es.map (Expr.mapNode f)).flatMap Expr.children
      = (es.flatMap Expr.children).map f := by
    rw [List.flatMap_map, List.map_flatMap]
    exact List.flatMap_congr fun e _ => e.children_mapNode f
  rw [get_ofExprs, get_ofExprs, hchildren, List.count, List.count, List.countP_map]
  refine List.countP_congr fun c hc => ?_
  obtain ⟨e, he, hc⟩ := List.mem_flatMap.1 hc
  simp only [Function.comp_apply, beq_iff_eq]
  exact hf.eq_iff (hes e he c hc) hn

/-! ### Pages -/

namespace Page

variable {page page' : Page} {o o' : Occurrences}

/-- The second page says of the images what the first says of the nodes in `D`. -/
structure Renamed (f : Node → Node) (D : Set Node) (page page' : Page) : Prop where
  texts : ∀ n ∈ D, page'.texts[f n]? = page.texts[n]?
  met : ∀ n ∈ D, f n ∈ page'.met ↔ n ∈ page.met
  labels : ∀ n ∈ D, page'.labels[f n]? = page.labels[n]?
  size_eq : page'.labels.size = page.labels.size

theorem renamed_empty (f : Node → Node) (D : Set Node) : Renamed f D {} {} :=
  ⟨fun _ _ => rfl, fun _ _ => Iff.rfl, fun _ _ => rfl, rfl⟩

/-- Writing an argument leaves the full texts alone. -/
theorem texts_arg (o : Occurrences) (page : Page) (v : Value) : (page.arg o v).2.texts = page.texts := by
  cases v with
  | node n =>
    rw [arg]
    dsimp only
    split
    · rfl
    split
    · split <;> rfl
    · split <;> rfl
  | _ => rfl

theorem compare_image (hf : Set.InjOn f D) {m : Node} (hm : m ∈ D) (hn : n ∈ D) :
    compare (f n) (f m) = .eq ↔ compare n m = .eq := by
  rw [Std.LawfulEqCmp.compare_eq_iff_eq, Std.LawfulEqCmp.compare_eq_iff_eq]
  exact hf.eq_iff hn hm

namespace Renamed

theorem printed (h : Renamed f D page page') (hn : n ∈ D) (htext : n ∈ page.texts) :
    page'.printed (f n) = page.printed n := by
  obtain ⟨p, hp⟩ := Option.isSome_iff_exists.1 (Std.TreeMap.isSome_getElem?_iff_mem.2 htext)
  rw [Page.printed, Page.printed, Std.TreeMap.getD_eq_getD_getElem?, Std.TreeMap.getD_eq_getD_getElem?,
    h.texts n hn, hp]
  rfl

theorem insert_met (h : Renamed f D page page') (hf : Set.InjOn f D) (hn : n ∈ D) :
    Renamed f D { page with met := page.met.insert n } { page' with met := page'.met.insert (f n) } := by
  refine ⟨h.texts, fun m hm => ?_, h.labels, h.size_eq⟩
  rw [Std.TreeSet.mem_insert, Std.TreeSet.mem_insert, compare_image hf hm hn, h.met m hm]

theorem insert_label (h : Renamed f D page page') (hf : Set.InjOn f D) (hn : n ∈ D) (k : Nat) :
    Renamed f D { page with labels := page.labels.insert n k }
      { page' with labels := page'.labels.insert (f n) k } := by
  refine ⟨h.texts, h.met, fun m hm => ?_, ?_⟩
  · rw [Std.TreeMap.getElem?_insert, Std.TreeMap.getElem?_insert]
    simp only [compare_image hf hm hn, h.labels m hm]
  · dsimp only
    rw [Std.TreeMap.size_insert, Std.TreeMap.size_insert]
    simp only [← Std.TreeMap.isSome_getElem?_eq_contains, h.labels n hn, h.size_eq]

/-- An argument and its image are written alike. -/
theorem arg (h : Renamed f D page page') (hf : Set.InjOn f D)
    (ho : ∀ n ∈ D, o'.isShared (f n) = o.isShared n) {v : Value}
    (hv : ∀ n, v = .node n → n ∈ D ∧ n ∈ page.texts) :
    (page'.arg o' (v.mapNode f)).1 = (page.arg o v).1
      ∧ Renamed f D (page.arg o v).2 (page'.arg o' (v.mapNode f)).2 := by
  cases v with
  | node n =>
    obtain ⟨hn, htext⟩ := hv n rfl
    have hmet : page'.met.contains (f n) = page.met.contains n := by
      rw [Bool.eq_iff_iff, Std.TreeSet.contains_iff_mem, Std.TreeSet.contains_iff_mem, h.met n hn]
    have hlabel : page'.labels.getD (f n) page'.labels.size = page.labels.getD n page.labels.size := by
      rw [Std.TreeMap.getD_eq_getD_getElem?, Std.TreeMap.getD_eq_getD_getElem?, h.labels n hn, h.size_eq]
    dsimp only [Datum.mapNode, Datum.map, Page.arg]
    rw [h.printed hn htext, hmet, h.labels n hn, ho n hn, hlabel]
    cases (page.printed n).simple with
    | true => exact ⟨rfl, h⟩
    | false =>
      rw [if_neg Bool.false_ne_true, if_neg Bool.false_ne_true]
      cases page.met.contains n with
      | true => cases page.labels[n]? <;> exact ⟨rfl, h⟩
      | false =>
        rw [if_neg Bool.false_ne_true, if_neg Bool.false_ne_true]
        cases o.isShared n with
        | true => exact ⟨rfl, (h.insert_met hf hn).insert_label hf hn _⟩
        | false => exact ⟨rfl, h.insert_met hf hn⟩
  | _ => exact ⟨rfl, h⟩

theorem args (hf : Set.InjOn f D) (ho : ∀ n ∈ D, o'.isShared (f n) = o.isShared n) :
    ∀ {vs : List Value} {page page' : Page}, Renamed f D page page' →
      (∀ n, Datum.node n ∈ vs → n ∈ D ∧ n ∈ page.texts) →
      (page'.args o' (vs.map (Datum.mapNode f))).1 = (page.args o vs).1
        ∧ Renamed f D (page.args o vs).2 (page'.args o' (vs.map (Datum.mapNode f))).2
        ∧ (page.args o vs).2.texts = page.texts
  | [], _, _, h, _ => ⟨rfl, h, rfl⟩
  | v :: vs, page, page', h, hvs => by
    obtain ⟨htext, hpage⟩ := h.arg hf ho fun n hn => hvs n (hn ▸ List.mem_cons_self ..)
    have hkept := texts_arg o page v
    obtain ⟨htexts, hpages, hkepts⟩ := args hf ho hpage fun n hn => by
      rw [hkept]
      exact hvs n (List.mem_cons_of_mem _ hn)
    exact ⟨congrArg₂ List.cons htext htexts, hpages, hkepts.trans hkept⟩

/-- An expression and its image are written alike. -/
theorem add (h : Renamed f D page page') (hf : Set.InjOn f D)
    (ho : ∀ n ∈ D, o'.isShared (f n) = o.isShared n) (he : e.node ∈ D)
    (hargs : ∀ n, Datum.node n ∈ e.args → n ∈ D ∧ n ∈ page.texts) :
    Renamed f D (page.add o e) (page'.add o' (e.mapNode f))
      ∧ ∀ n, n = e.node ∨ n ∈ page.texts → n ∈ (page.add o e).texts := by
  obtain ⟨htexts, hpage, hkept⟩ := args hf ho h hargs
  have hsimple : (e.mapNode f).isSimple = e.isSimple := by
    rw [Expr.isSimple, Expr.isSimple, Expr.children_mapNode, List.isEmpty_map]
  obtain ⟨ts, hts⟩ : ∃ r, page.args o e.args = r := ⟨_, rfl⟩
  obtain ⟨ts', hts'⟩ : ∃ r, page'.args o' (e.args.map (Datum.mapNode f)) = r := ⟨_, rfl⟩
  rw [hts, hts'] at htexts hpage
  rw [hts] at hkept
  have hadd : page.add o e
      = { ts.2 with texts := ts.2.texts.insert e.node ⟨applied e.head ts.1, e.isSimple⟩ } := by
    rw [Page.add, hts]
  have hadd' : page'.add o' (e.mapNode f)
      = { ts'.2 with texts := ts'.2.texts.insert (f e.node) ⟨applied e.head ts.1, e.isSimple⟩ } := by
    rw [Page.add, ← htexts, ← hsimple]
    exact congrArg (fun r : List String × Page =>
      { r.2 with texts := r.2.texts.insert (f e.node) ⟨applied e.head r.1, (e.mapNode f).isSimple⟩ }) hts'
  rw [hadd, hadd']
  refine ⟨⟨fun m hm => ?_, hpage.met, hpage.labels, hpage.size_eq⟩, fun m hm => ?_⟩
  · rw [Std.TreeMap.getElem?_insert, Std.TreeMap.getElem?_insert]
    simp only [compare_image hf hm he, hpage.texts m hm]
  · rw [Std.TreeMap.mem_insert, hkept, Std.LawfulEqCmp.compare_eq_iff_eq, eq_comm]
    exact hm

end Renamed

/-! ### Records in order -/

/-- Each expression comes after those of its arguments, except for the nodes known before. -/
inductive InOrder : Set Node → List Expr → Prop
  | nil {known : Set Node} : InOrder known []
  | cons {known : Set Node} {e : Expr} {es : List Expr} :
    (∀ n, Datum.node n ∈ e.args → n ∈ known) → InOrder (insert e.node known) es →
    InOrder known (e :: es)

/-- Expressions in order and their images are written alike. -/
theorem Renamed.foldl (hf : Set.InjOn f D) (ho : ∀ n ∈ D, o'.isShared (f n) = o.isShared n)
    {known : Set Node} (hes : InOrder known es) :
    ∀ {page page' : Page}, (∀ n ∈ known, n ∈ D ∧ n ∈ page.texts) → (∀ e ∈ es, e.node ∈ D) →
      Renamed f D page page' →
      Renamed f D (es.foldl (Page.add o) page) ((es.map (Expr.mapNode f)).foldl (Page.add o') page') := by
  induction hes with
  | nil => exact fun _ _ h => h
  | @cons known e es hargs _ ih =>
    intro page page' hknown hnodes h
    have he := hnodes e (List.mem_cons_self ..)
    obtain ⟨hpage, htexts⟩ := h.add hf ho he fun n hn => hknown n (hargs n hn)
    refine ih (fun n hn => ?_) (fun x hx => hnodes x (List.mem_cons_of_mem _ hx)) hpage
    rcases Set.mem_insert_iff.1 hn with rfl | hn
    · exact ⟨he, htexts _ (.inl rfl)⟩
    · exact ⟨(hknown n hn).1, htexts n (.inr (hknown n hn).2)⟩

end Page

namespace Graph

variable {g g' : Graph} {r : Node} {root : Fin g.size}

theorem inOrder_below (root : Fin g.size) : ∀ {ps rest : List (Fin g.size)},
    g.below root = ps ++ rest →
      Page.InOrder { n | ∃ q ∈ ps, n = g.node q.val } (rest.map g.exprAt)
  | _, [], _ => .nil
  | ps, p :: rest, h => by
    refine .cons (fun n hn => ?_) ?_
    · rw [exprAt_args] at hn
      obtain ⟨d, hd, he⟩ := List.mem_map.1 hn
      cases d with
      | node q =>
        cases he
        refine ⟨q, ?_, rfl⟩
        -- an argument stands before its record, so it is not among the rest
        have hlt := lt_of_mem_argsAt hd
        have hp : p ∈ g.below root := h ▸ List.mem_append_right _ (List.mem_cons_self ..)
        have hq := mem_below_of_arg hp hd
        rw [h] at hq
        rcases List.mem_append.1 hq with hq | hq
        · exact hq
        rcases List.mem_cons.1 hq with rfl | hq
        · exact absurd hlt (Nat.lt_irrefl _)
        · exact absurd hlt (Nat.lt_asymm ((below_split h).2 q hq))
      | _ => cases he
    · rw [List.append_cons] at h
      have hrest := inOrder_below root h
      have hknown : insert (g.exprAt p).node { n | ∃ q ∈ ps, n = g.node q.val }
          = { n | ∃ q ∈ ps ++ [p], n = g.node q.val } := by
        ext n
        simp only [Set.mem_insert_iff, Set.mem_ofPred_eq, List.mem_append, List.mem_singleton]
        constructor
        · rintro (rfl | ⟨q, hq, rfl⟩)
          · exact ⟨p, .inr rfl, rfl⟩
          · exact ⟨q, .inl hq, rfl⟩
        · rintro ⟨q, hq | rfl, rfl⟩
          · exact .inr ⟨q, hq, rfl⟩
          · exact .inl rfl
      rw [hknown]
      exact hrest

theorem children_below (root : Fin g.size) : ∀ e ∈ (g.below root).map g.exprAt, ∀ c ∈ e.children,
    c ∈ { n | ∃ q ∈ g.below root, n = g.node q.val } := by
  intro e he c hc
  obtain ⟨p, hp, rfl⟩ := List.mem_map.1 he
  rw [exprAt_children] at hc
  obtain ⟨q, hq, rfl⟩ := List.mem_map.1 hc
  exact ⟨q, mem_below_of_arg hp (mem_nodesOf.1 hq), rfl⟩

/-- What depends on a root that is no note renders as its image under a renaming does. -/
theorem render_eq_of_renamed (hroot : g.locate r = .ok root) (hnote : (g.exprAt root).isNote = false)
    (hf : Set.InjOn f { n | ∃ q ∈ g.below root, n = g.node q.val })
    (hread : g'.read (f r) = .ok ((g.exprAt root).mapNode f))
    (hes : g'.unfolding [f r] = .ok (((g.below root).map g.exprAt).map (Expr.mapNode f))) :
    g'.render (f r) = g.render r := by
  have hr := eq_node_of_locate hroot
  have hpages := Page.Renamed.foldl hf
    (fun n hn => congrArg (fun k => decide (1 < k))
      (Occurrences.get_mapNode hf (children_below root) hn))
    (inOrder_below root (List.nil_append _).symm)
    (fun n ⟨q, hq, _⟩ => absurd hq List.not_mem_nil)
    (fun e he => by obtain ⟨q, hq, rfl⟩ := List.mem_map.1 he; exact ⟨q, hq, rfl⟩)
    (Page.renamed_empty f _)
  have htext := hpages.texts r ⟨root, root_mem_below root, hr⟩
  have hread' : g.read r = .ok (g.exprAt root) := by
    rw [read, hroot]
    rfl
  have hnote' : ((g.exprAt root).mapNode f).isNote = false := hnote
  simp only [render, hread, hread', hnote, hnote', hes, unfolding_eq hroot, bind, Except.bind,
    Bool.false_eq_true, if_false, htext]

end Graph

end TermGraph
