import Mathlib.Data.List.Induction
import TermGraph.Proofs.Print.Spelling

/-!
A rendering says what its spelling says. The invariant of the page: up to a place, it holds the full
texts of the nodes before the record of the place, and has met and labelled just the nodes that stand
as arguments before the place. One argument takes it from a place to the next.
-/

namespace TermGraph

namespace Graph

variable {g : Graph} {root n p : Fin g.size} {b s : Place}

/-! ### Nodes met before a place -/

/-- Is the node an argument before the place? -/
def isMet (g : Graph) (root : Fin g.size) (b : Place) (n : Fin g.size) : Bool :=
  (g.places root n).any fun s => decide (s.Before b)

theorem isMet_iff : g.isMet root b n = true ↔ ∃ s ∈ g.places root n, s.Before b := by
  rw [isMet, List.any_eq_true]
  simp only [decide_eq_true_eq]

theorem isMet_iff_before (h : g.first? root n = some s) :
    g.isMet root b n = true ↔ s.Before b := by
  rw [isMet_iff]
  constructor
  · rintro ⟨t, ht, hb⟩
    obtain ⟨u, hu, hut⟩ := exists_first ht
    rw [h] at hu
    cases hu
    rcases hut with hut | rfl
    · exact hut.trans hb
    · exact hb
  · exact fun hb => ⟨s, (first?_eq_some_iff.1 h).1, hb⟩

theorem isMet_succ {i : Nat} : g.isMet root ⟨p.val, i + 1⟩ n = true ↔
    g.isMet root ⟨p.val, i⟩ n = true ∨ Place.mk p.val i ∈ g.places root n := by
  simp only [isMet_iff, Place.before_succ]
  constructor
  · rintro ⟨s, hs, hb | rfl⟩
    · exact .inl ⟨s, hs, hb⟩
    · exact .inr hs
  · rintro (⟨s, hs, hb⟩ | hs)
    · exact ⟨s, hs, .inl hb⟩
    · exact ⟨_, hs, .inr rfl⟩

/-- Past the first place of a node, that node is met and no other. -/
theorem isMet_succ_of_first {i : Nat} (h : g.first? root n = some ⟨p.val, i⟩) (m : Fin g.size) :
    g.isMet root ⟨p.val, i + 1⟩ m = (g.isMet root ⟨p.val, i⟩ m || decide (m = n)) := by
  have hn := (first?_eq_some_iff.1 h).1
  rw [Bool.eq_iff_iff, isMet_succ, Bool.or_eq_true, decide_eq_true_eq]
  refine or_congr_right ⟨fun hm => eq_of_mem_places hm hn, ?_⟩
  rintro rfl
  exact hn

theorem isMet_first (h : g.first? root n = some s) : g.isMet root s n = false := by
  rw [Bool.eq_false_iff, ne_eq, isMet_iff_before h]
  exact Place.Before.irrefl s

/-- A place where the node was not met before is its first. -/
theorem first?_of_not_isMet (hs : s ∈ g.places root n) (h : ¬ g.isMet root s n = true) :
    g.first? root n = some s :=
  first?_eq_some_iff.2 ⟨hs, fun t ht hb => h (isMet_iff.2 ⟨t, ht, hb⟩)⟩

/-- The label of a node counts the labelled nodes met before its first place. -/
theorem rank_eq (h : g.first? root n = some s) : g.rank root n
    = (g.below root).countP fun m => g.isLabelled root m && g.isMet root s m := by
  refine List.countP_congr fun m _ => ?_
  rw [Bool.and_eq_true, Bool.and_eq_true, comesFirst_iff, isMet_iff]
  refine and_congr_right fun _ => ?_
  constructor
  · rintro ⟨t, u, ht, hu, htu⟩
    rw [h] at hu
    cases hu
    exact ⟨t, (first?_eq_some_iff.1 ht).1, htu⟩
  · rintro ⟨t, ht, hts⟩
    obtain ⟨u, hu, hut⟩ := exists_first ht
    refine ⟨u, s, hu, h, ?_⟩
    rcases hut with hut | rfl
    · exact hut.trans hts
    · exact hts

/-! ### The text of a spelling -/

/-- The text of a node in full, without its label. -/
def fullText (g : Graph) (root p : Fin g.size) : String :=
  applied (g.headAt p) ((g.argsAt p).zipIdx.map fun x =>
    Token.spelled (g.spellArg root ⟨p.val, x.2⟩ x.1))

theorem foldl_spelled {α ν : Type} {f : α → List (Token ν)} : ∀ (xs : List α) (acc : String),
    (xs.map fun x => Token.spelled (f x)).foldl (fun acc arg => acc ++ " " ++ arg) acc
      = acc ++ Token.spelled (xs.flatMap fun x => .blank :: f x)
  | [], acc => String.append_empty.symm
  | x :: xs, acc => by
    rw [List.map_cons, List.foldl_cons, foldl_spelled xs, List.flatMap_cons,
      Token.spelled_append, Token.spelled, Token.text]
    simp only [String.append_assoc]

theorem spelled_spell (root p : Fin g.size) :
    Token.spelled (g.spell root p) = g.fullText root p ++ Token.suffix (g.label? root p) := by
  rw [spell_eq, fullText, applied, foldl_spelled, Token.spelled_append]
  simp only [Token.spelled, Token.text, String.append_assoc, String.append_empty]

theorem not_isLabelled_root (root : Fin g.size) : ¬ g.isLabelled root root = true := by
  intro h
  obtain ⟨p, hp, _, _, harg⟩ := exists_first_arg (places_ne_nil_of_isLabelled h)
  have hlt := lt_of_mem_argsAt (List.mem_of_getElem? harg)
  exact absurd (le_of_mem_below hp) (Nat.not_le_of_lt hlt)

theorem label?_root (root : Fin g.size) : g.label? root root = none :=
  if_neg (not_isLabelled_root root)

end Graph

/-- Positions of a graph are told apart by their nodes. -/
theorem Graph.compare_node {g : Graph} {m n : Fin g.size} :
    compare (g.node n.val) (g.node m.val) = .eq ↔ m = n := by
  rw [Std.LawfulEqCmp.compare_eq_iff_eq]
  exact ⟨fun he => Fin.ext (congrArg Node.index he).symm, fun he => he ▸ rfl⟩

/-! ### The page up to a place -/

variable {g : Graph} {root n p q : Fin g.size} {page : Page}

/-- What the page holds up to a place. -/
structure Page.Upto (page : Page) (root : Fin g.size) (b : Place) : Prop where
  texts : ∀ q ∈ g.below root, q.val < b.record →
    page.texts[g.node q.val]? = some ⟨g.fullText root q, (g.exprAt q).isSimple⟩
  met : ∀ n : Fin g.size, g.node n.val ∈ page.met ↔
    (g.exprAt n).isSimple = false ∧ g.isMet root b n = true
  labels : ∀ n : Fin g.size, page.labels[g.node n.val]? =
    if g.isMet root b n then g.label? root n else none
  size : page.labels.size = (g.below root).countP fun n => g.isLabelled root n && g.isMet root b n

/-- The labels after a node was met. -/
def Page.labelsWith (page : Page) (root n : Fin g.size) : Std.TreeMap Node Nat :=
  match g.label? root n with
  | some k => page.labels.insert (g.node n.val) k
  | none => page.labels

namespace Page.Upto

/-- Nothing is to be done between places if no node is newly met that is not simple. -/
theorem of_met {b b' : Place} (h : page.Upto root b)
    (hrecord : ∀ q ∈ g.below root, q.val < b'.record → q.val < b.record)
    (hmet : ∀ n : Fin g.size, (g.exprAt n).isSimple = false →
      g.isMet root b' n = g.isMet root b n) : page.Upto root b' where
  texts q hq hlt := h.texts q hq (hrecord q hq hlt)
  met n := by
    rw [h.met n]
    exact and_congr_right fun hn => by rw [hmet n hn]
  labels n := by
    rw [h.labels n]
    cases hn : (g.exprAt n).isSimple with
    | false => rw [hmet n hn]
    | true =>
      rw [Graph.label?_of_isSimple hn, ite_self, ite_self]
  size := by
    rw [h.size]
    refine List.countP_congr fun n _ => ?_
    rw [Bool.and_eq_true, Bool.and_eq_true]
    exact and_congr_right fun hn => by rw [hmet n (Graph.isLabelled_iff.1 hn).1]

/-- A node that is met for the first time is the next to get a label, if it gets one. -/
theorem size_eq_rank {s : Place} (h : page.Upto root s) (hfirst : g.first? root n = some s) :
    page.labels.size = g.rank root n := by
  rw [h.size, Graph.rank_eq hfirst]

section Meet

variable {i : Nat} (h : page.Upto root ⟨p.val, i⟩) (hfirst : g.first? root n = some ⟨p.val, i⟩)
include h hfirst

theorem labels_meet (m : Fin g.size) : (page.labelsWith root n)[g.node m.val]? =
    if g.isMet root ⟨p.val, i + 1⟩ m then g.label? root m else none := by
  rw [Graph.isMet_succ_of_first hfirst, labelsWith]
  cases hl : g.label? root n with
  | none =>
    dsimp only
    rw [h.labels m]
    by_cases hm : m = n
    · subst hm
      rw [hl, ite_self, ite_self]
    · rw [decide_eq_false hm, Bool.or_false]
  | some k =>
    dsimp only
    rw [Std.TreeMap.getElem?_insert]
    by_cases hm : m = n
    · subst hm
      rw [if_pos (Graph.compare_node.2 rfl), decide_eq_true rfl, Bool.or_true, if_pos rfl, hl]
    · rw [if_neg (mt Graph.compare_node.1 hm), decide_eq_false hm, Bool.or_false, h.labels m]

theorem size_meet : (page.labelsWith root n).size =
    (g.below root).countP fun m => g.isLabelled root m && g.isMet root ⟨p.val, i + 1⟩ m := by
  simp only [Graph.isMet_succ_of_first hfirst]
  rw [labelsWith, Graph.label?]
  cases hl : g.isLabelled root n with
  | false =>
    refine h.size.trans (List.countP_congr fun m _ => ?_)
    by_cases hm : m = n
    · subst hm
      rw [hl, Bool.false_and, Bool.false_and]
    · rw [decide_eq_false hm, Bool.or_false]
  | true =>
    have hnew : g.isMet root ⟨p.val, i⟩ n = false := Graph.isMet_first hfirst
    have hnone : ¬ page.labels.contains (g.node n.val) = true := by
      rw [← Std.TreeMap.isSome_getElem?_eq_contains, h.labels n, hnew]
      exact Bool.false_ne_true
    refine Std.TreeMap.size_insert.trans ?_
    rw [if_neg hnone, h.size]
    refine (countP_succ (Graph.below_nodup root) (Graph.mem_below_of_isLabelled hl) ?_ ?_ ?_).symm
    · rw [hnew, Bool.and_false]
    · rw [hl, decide_eq_true rfl, Bool.or_true, Bool.and_self]
    · intro m hm
      rw [decide_eq_false hm, Bool.or_false]

/-- At its first place a node is met. -/
theorem meet (hn : (g.exprAt n).isSimple = false) :
    Page.Upto ⟨page.texts, page.met.insert (g.node n.val), page.labelsWith root n⟩ root
      ⟨p.val, i + 1⟩ := by
  refine ⟨h.texts, fun m => ?_, h.labels_meet hfirst, h.size_meet hfirst⟩
  rw [Std.TreeSet.mem_insert, Graph.compare_node, h.met m, Graph.isMet_succ_of_first hfirst,
    Bool.or_eq_true, decide_eq_true_eq]
  constructor
  · rintro (rfl | ⟨hm, hb⟩)
    · exact ⟨hn, .inr rfl⟩
    · exact ⟨hm, .inl hb⟩
  · rintro ⟨hm, hb | he⟩
    · exact .inr ⟨hm, hb⟩
    · exact .inl he

end Meet

/-! ### Writing an argument -/

variable {i : Nat} {d : Datum String (Fin g.size)}

/-- The full text of an argument is there. -/
theorem printed_arg (h : page.Upto root ⟨p.val, i⟩) (hp : p ∈ g.below root)
    (hq : Datum.node q ∈ g.argsAt p) :
    page.texts[g.node q.val]? = some ⟨g.fullText root q, (g.exprAt q).isSimple⟩ :=
  h.texts q (Graph.mem_below_of_arg hp hq) (Graph.lt_of_mem_argsAt hq)

/-- A node met before that is not simple has a label. -/
theorem label_of_met (h : page.Upto root ⟨p.val, i⟩) (hp : p ∈ g.below root)
    (hi : (g.argsAt p)[i]? = some (.node q)) (hmet : g.node q.val ∈ page.met) :
    ¬ g.isInFull root ⟨p.val, i⟩ q = true
      ∧ page.labels[g.node q.val]? = some (g.rank root q) := by
  obtain ⟨hsimple, hbefore⟩ := (h.met q).1 hmet
  have hplace : Place.mk p.val i ∈ g.places root q := Graph.mem_places.2 ⟨p, hp, rfl, hi⟩
  have hfull : ¬ g.isInFull root ⟨p.val, i⟩ q = true := by
    rw [Graph.isInFull_iff, hsimple]
    rintro (hs | hf)
    · cases hs
    · exact Place.Before.irrefl _ ((Graph.isMet_iff_before hf).1 hbefore)
  refine ⟨hfull, ?_⟩
  rw [h.labels q, if_pos hbefore]
  exact if_pos (Graph.isLabelled_of_not_isInFull hplace hfull)

theorem isShared_eq (hq : (g.exprAt q).isSimple = false) :
    (Occurrences.ofExprs ((g.below root).map g.exprAt)).isShared (g.node q.val)
      = g.isLabelled root q := by
  rw [Graph.isLabelled, hq, Occurrences.isShared, ← Graph.length_places]
  rfl

/-- Past a place that meets no new node the page is as before. -/
theorem stay (h : page.Upto root ⟨p.val, i⟩) (hi : (g.argsAt p)[i]? = some d)
    (hd : ∀ n, d = .node n → (g.exprAt n).isSimple = false → g.node n.val ∈ page.met) :
    page.Upto root ⟨p.val, i + 1⟩ := by
  refine h.of_met (fun _ _ hlt => hlt) fun n hn => ?_
  rw [Bool.eq_iff_iff, Graph.isMet_succ]
  refine ⟨?_, .inl⟩
  rintro (hb | hplace)
  · exact hb
  · obtain ⟨c, -, hc, harg⟩ := Graph.mem_places.1 hplace
    cases Fin.ext hc
    exact ((h.met n).1 (hd n (Option.some.inj (hi.symm.trans harg)) hn)).2

/-- Writing an argument gives its text and takes the page to the next place. -/
theorem arg (h : page.Upto root ⟨p.val, i⟩) (hp : p ∈ g.below root)
    (hi : (g.argsAt p)[i]? = some d) {o : Occurrences}
    (ho : o = Occurrences.ofExprs ((g.below root).map g.exprAt)) :
    (page.arg o (d.mapNode fun q => g.node q.val)).1
        = Token.spelled (g.spellArg root ⟨p.val, i⟩ d)
      ∧ (page.arg o (d.mapNode fun q => g.node q.val)).2.Upto root ⟨p.val, i + 1⟩ := by
  cases d with
  | node q =>
    have hq := List.mem_of_getElem? hi
    have hprinted : page.printed (g.node q.val) = ⟨g.fullText root q, (g.exprAt q).isSimple⟩ := by
      rw [Page.printed, Std.TreeMap.getD_eq_getD_getElem?, h.printed_arg hp hq]
      rfl
    dsimp only [Datum.mapNode, Datum.map, Page.arg]
    rw [hprinted, Graph.spellArg]
    dsimp only
    cases hsimple : (g.exprAt q).isSimple with
    | true =>
      rw [if_pos (Graph.isInFull_iff.2 (.inl hsimple)), Graph.spelled_spell,
        Graph.label?_of_isSimple hsimple]
      refine ⟨String.append_empty.symm, h.stay hi fun n hn hn' => ?_⟩
      cases hn
      rw [hsimple] at hn'
      cases hn'
    | false =>
      by_cases hmet : g.node q.val ∈ page.met
      · obtain ⟨hfull, hlabel⟩ := h.label_of_met hp hi hmet
        rw [if_neg hfull, if_neg Bool.false_ne_true, if_pos (Std.TreeSet.contains_iff_mem.2 hmet),
          hlabel]
        refine ⟨String.append_empty.symm, h.stay hi fun n hn _ => ?_⟩
        cases hn
        exact hmet
      · have hfirst : g.first? root q = some ⟨p.val, i⟩ :=
          Graph.first?_of_not_isMet (Graph.mem_places.2 ⟨p, hp, rfl, hi⟩) fun hb =>
            hmet ((h.met q).2 ⟨hsimple, hb⟩)
        rw [if_pos (Graph.isInFull_iff.2 (.inr hfirst)), Graph.spelled_spell, ho,
          isShared_eq hsimple, if_neg Bool.false_ne_true,
          if_neg (mt Std.TreeSet.contains_iff_mem.1 hmet)]
        cases hl : g.isLabelled root q with
        | false =>
          have hlabel : g.label? root q = none := by rw [Graph.label?, hl]; rfl
          have hmeet := h.meet hfirst hsimple
          rw [labelsWith, hlabel] at hmeet
          rw [hlabel]
          exact ⟨String.append_empty.symm, hmeet⟩
        | true =>
          have hlabel : g.label? root q = some (g.rank root q) := if_pos hl
          have hk : page.labels.getD (g.node q.val) page.labels.size = g.rank root q := by
            rw [Std.TreeMap.getD_eq_getD_getElem?, h.labels q, if_neg fun hb => hmet
              ((h.met q).2 ⟨hsimple, hb⟩), Option.getD_none, h.size_eq_rank hfirst]
          have hmeet := h.meet hfirst hsimple
          rw [labelsWith, hlabel] at hmeet
          rw [hlabel, if_pos rfl, hk]
          refine ⟨?_, hmeet⟩
          simp only [Token.suffix, String.append_assoc]
  | _ =>
    refine ⟨String.append_empty.symm, h.stay hi fun n hn => ?_⟩
    cases hn

/-- Writing arguments gives their texts and takes the page past their places. -/
theorem args (hp : p ∈ g.below root) {o : Occurrences}
    (ho : o = Occurrences.ofExprs ((g.below root).map g.exprAt)) :
    ∀ (ds pre rest : List (Datum String (Fin g.size))) (page : Page),
      g.argsAt p = pre ++ ds ++ rest → page.Upto root ⟨p.val, pre.length⟩ →
      (page.args o (ds.map (Datum.mapNode fun q => g.node q.val))).1
          = (ds.zipIdx pre.length).map (fun x =>
              Token.spelled (g.spellArg root ⟨p.val, x.2⟩ x.1))
        ∧ (page.args o (ds.map (Datum.mapNode fun q => g.node q.val))).2.Upto root
            ⟨p.val, pre.length + ds.length⟩
  | [], pre, rest, page, _, h => ⟨rfl, h⟩
  | d :: ds, pre, rest, page, hargs, h => by
    have hi : (g.argsAt p)[pre.length]? = some d := by
      rw [hargs, List.append_assoc, List.getElem?_append_right (Nat.le_refl _), Nat.sub_self]
      rfl
    obtain ⟨htext, hpage⟩ := h.arg hp hi ho
    have hnext : g.argsAt p = (pre ++ [d]) ++ ds ++ rest := by
      rw [hargs, List.append_assoc pre [d], List.singleton_append]
    have hlen : (pre ++ [d]).length = pre.length + 1 := List.length_append
    obtain ⟨htexts, hpage'⟩ := args hp ho ds (pre ++ [d]) rest _ hnext (hlen ▸ hpage)
    rw [hlen] at htexts hpage'
    rw [List.map_cons, Page.args, List.zipIdx_cons, List.map_cons, ← htext, ← htexts]
    refine ⟨rfl, ?_⟩
    rw [List.length_cons, Nat.add_comm ds.length, ← Nat.add_assoc]
    exact hpage'

/-- Writing a node takes the page to the next record below the root. -/
theorem add (h : page.Upto root ⟨p.val, 0⟩) (hp : p ∈ g.below root) {o : Occurrences}
    (ho : o = Occurrences.ofExprs ((g.below root).map g.exprAt)) {next : Nat}
    (hnext : ∀ q ∈ g.below root, q.val < next ↔ q.val ≤ p.val) :
    (page.add o (g.exprAt p)).Upto root ⟨next, 0⟩ := by
  obtain ⟨htexts, hpage⟩ := args hp ho (g.argsAt p) [] [] page (List.append_nil _).symm h
  rw [← g.exprAt_args] at htexts hpage
  have hmet : ∀ n, g.isMet root ⟨next, 0⟩ n = g.isMet root ⟨p.val, (g.argsAt p).length⟩ n := by
    intro n
    rw [Bool.eq_iff_iff, Graph.isMet_iff, Graph.isMet_iff]
    refine exists_congr fun s => and_congr_right fun hs => ?_
    obtain ⟨c, hc, hrec, harg⟩ := Graph.mem_places.1 hs
    have hle := hnext c hc
    have hlen : c = p → s.index < (g.argsAt p).length := by
      rintro rfl
      exact (List.getElem?_eq_some_iff.1 harg).1
    rw [Fin.ext_iff] at hlen
    unfold Place.Before
    dsimp only
    omega
  rw [List.length_nil, Nat.zero_add] at hpage
  obtain ⟨⟨ts, texts, met, labels⟩, hr⟩ : ∃ r, page.args o (g.exprAt p).args = r := ⟨_, rfl⟩
  rw [hr] at htexts hpage
  rw [Page.add, hr]
  refine ⟨fun q hq hlt => ?_, fun n => ?_, fun n => ?_, ?_⟩
  · dsimp only
    have hnode : compare (g.exprAt p).node (g.node q.val) = .eq ↔ q = p := Graph.compare_node
    rw [Std.TreeMap.getElem?_insert]
    by_cases hqp : q = p
    · subst hqp
      rw [if_pos (hnode.2 rfl)]
      have htext : applied (g.headAt q) ts = g.fullText root q :=
        congrArg (applied (g.headAt q)) htexts
      exact congrArg (fun t => some (Printed.mk t (g.exprAt q).isSimple)) htext
    · have hne : q.val ≠ p.val := fun he => hqp (Fin.ext he)
      have hle := (hnext q hq).1 hlt
      rw [if_neg (mt hnode.1 hqp)]
      exact hpage.texts q hq (Nat.lt_of_le_of_ne hle hne)
  · rw [hmet n]
    exact hpage.met n
  · rw [hmet n]
    exact hpage.labels n
  · simp only [hmet]
    exact hpage.size

/-- Writing what comes first takes the page to what comes next. -/
theorem foldl_add {o : Occurrences}
    (ho : o = Occurrences.ofExprs ((g.below root).map g.exprAt)) {next : Nat}
    {ps rest : List (Fin g.size)} (hps : g.below root = ps ++ rest)
    (hlt : ∀ q ∈ ps, q.val < next) (hle : ∀ q ∈ rest, next ≤ q.val) :
    ((ps.map g.exprAt).foldl (Page.add o) {}).Upto root ⟨next, 0⟩ := by
  -- from the end, so that the page before the last record is known up to that record
  induction ps using List.reverseRecOn generalizing rest next with
  | nil =>
    rw [List.nil_append] at hps
    have hmet : ∀ n, g.isMet root ⟨next, 0⟩ n = false := by
      intro n
      rw [Bool.eq_false_iff, ne_eq, Graph.isMet_iff]
      rintro ⟨s, hs, hb⟩
      obtain ⟨c, hc, hrec, -⟩ := Graph.mem_places.1 hs
      have := hle c (hps ▸ hc)
      unfold Place.Before at hb
      dsimp only at hb
      omega
    refine ⟨fun q hq hlt => ?_, fun n => ?_, fun n => ?_, ?_⟩
    · exact absurd (hle q (hps ▸ hq)) (Nat.not_le_of_lt hlt)
    · rw [hmet n]
      exact ⟨fun hn => absurd hn Std.TreeSet.not_mem_emptyc, fun hn => nomatch hn.2⟩
    · rw [hmet n]
      rfl
    · refine (List.countP_eq_zero.2 fun n _ hn => ?_).symm
      rw [hmet n, Bool.and_false] at hn
      cases hn
  | append_singleton ps p ih =>
    rw [List.append_assoc, List.singleton_append] at hps
    obtain ⟨hbefore, hrest⟩ := Graph.below_split hps
    have hp : p ∈ g.below root := by
      rw [hps]
      exact List.mem_append_right _ (List.mem_cons_self ..)
    have hprev : ((ps.map g.exprAt).foldl (Page.add o) {}).Upto root ⟨p.val, 0⟩ := by
      refine ih hps hbefore fun q hq => ?_
      rcases List.mem_cons.1 hq with rfl | hq
      · exact Nat.le_refl _
      · exact Nat.le_of_lt (hrest q hq)
    rw [List.map_append, List.foldl_append]
    refine hprev.add hp ho fun q hq => ?_
    have hpnext := hlt p (List.mem_append_right _ (List.mem_cons_self ..))
    rw [hps] at hq
    rcases List.mem_append.1 hq with hq | hq
    · have := hbefore q hq
      omega
    · rcases List.mem_cons.1 hq with rfl | hq
      · omega
      · have := hle q hq
        have := hrest q hq
        omega

end Page.Upto

namespace Graph

/-- When an argument is about to be written, its full text is there, and if it was met before and is
not simple, it has a label. -/
theorem page_before_arg (root : Fin g.size) {es₁ es₂ : List Expr} {e : Expr} {vs₁ vs₂ : List Value}
    {m : Node} {o : Occurrences} (ho : o = Occurrences.ofExprs ((g.below root).map g.exprAt))
    (hes : (g.below root).map g.exprAt = es₁ ++ e :: es₂)
    (hargs : e.args = vs₁ ++ .node m :: vs₂)
    {page : Page} (hpage : page = ((es₁.foldl (Page.add o) {}).args o vs₁).2) :
    m ∈ page.texts ∧ ((page.printed m).simple = false → m ∈ page.met → m ∈ page.labels) := by
  obtain ⟨ps, rest, hbelow, rfl, hrest⟩ := List.map_eq_append_iff.1 hes
  obtain ⟨p, qs, rfl, rfl, -⟩ := List.map_eq_cons_iff.1 hrest
  rw [exprAt_args] at hargs
  obtain ⟨ds, ds', hds, rfl, hrest⟩ := List.map_eq_append_iff.1 hargs
  obtain ⟨d, ds₂, rfl, hd, -⟩ := List.map_eq_cons_iff.1 hrest
  cases d with
  | node q =>
    cases hd
    obtain ⟨hps, hqs⟩ := below_split hbelow
    have hp : p ∈ g.below root := by
      rw [hbelow]
      exact List.mem_append_right _ (List.mem_cons_self ..)
    have hrecord : ((ps.map g.exprAt).foldl (Page.add o) {}).Upto root ⟨p.val, 0⟩ := by
      refine Page.Upto.foldl_add ho hbelow hps fun q hq => ?_
      rcases List.mem_cons.1 hq with rfl | hq
      · exact Nat.le_refl _
      · exact Nat.le_of_lt (hqs q hq)
    obtain ⟨-, hplace⟩ := Page.Upto.args hp ho ds [] (.node q :: ds₂) _ hds hrecord
    rw [← hpage, List.length_nil, Nat.zero_add] at hplace
    have hi : (g.argsAt p)[ds.length]? = some (.node q) := by
      rw [hds, List.getElem?_append_right (Nat.le_refl _), Nat.sub_self]
      rfl
    have htext := hplace.printed_arg hp (List.mem_of_getElem? hi)
    refine ⟨?_, fun _ hmet => ?_⟩
    · rw [← Std.TreeMap.isSome_getElem?_iff_mem, htext]
      rfl
    · rw [← Std.TreeMap.isSome_getElem?_iff_mem, (hplace.label_of_met hp hi hmet).2]
      rfl
  | _ => cases hd

/-- The text of a root that is no note is its spelling. -/
theorem render_spelled {r : Node} {root : Fin g.size} (hroot : g.locate r = .ok root)
    (hnote : (g.exprAt root).isNote = false) :
    g.render r = .ok (Token.spelled (g.spell root root)) := by
  have hunfolding := unfolding_eq hroot
  have hpage : (((g.below root).map g.exprAt).foldl
      (Page.add (Occurrences.ofExprs ((g.below root).map g.exprAt))) {}).Upto root
      ⟨root.val + 1, 0⟩ := by
    refine Page.Upto.foldl_add rfl (List.append_nil _).symm (fun q hq => ?_) fun q hq => ?_
    · exact Nat.lt_succ_of_le (le_of_mem_below hq)
    · cases hq
  have htext := hpage.texts root (root_mem_below root) (Nat.lt_succ_self _)
  have hread : g.read r = .ok (g.exprAt root) := by
    rw [read, hroot]
    rfl
  rw [spelled_spell, label?_root, Token.suffix, String.append_empty]
  rw [← eq_node_of_locate hroot] at htext
  simp only [render, hread, hunfolding, hnote, htext, bind, Except.bind, Bool.false_eq_true,
    if_false]
  rfl

/-- The text of a root that is no note is its spelling. In the spelling every node that is not
simple stands in full just once, the labels defined are the numbers from zero on, and every label
used is defined. While it is written no text and no label is found missing. -/
theorem render_eq_spelled {r : Node} {root : Fin g.size} (hroot : g.locate r = .ok root)
    (hnote : (g.exprAt root).isNote = false) :
    g.render r = .ok (Token.spelled (g.spell root root))
      ∧ (∀ n ∈ g.below root, (g.exprAt n).isSimple = false →
          ((g.spell root root).filterMap Token.opened?).count n = 1)
      ∧ List.Perm ((g.spell root root).filterMap Token.defined?)
          (List.range ((g.below root).countP (g.isLabelled root)))
      ∧ (∀ n k, Token.again n k ∈ g.spell root root →
          Token.closes n (some k) ∈ g.spell root root)
      ∧ ∀ es es₁ e es₂ vs₁ m vs₂, g.unfolding [r] = .ok es → es = es₁ ++ e :: es₂ →
          e.args = vs₁ ++ .node m :: vs₂ → ∀ o page, o = Occurrences.ofExprs es →
          page = ((es₁.foldl (Page.add o) {}).args o vs₁).2 →
          m ∈ page.texts
            ∧ ((page.printed m).simple = false → m ∈ page.met → m ∈ page.labels) := by
  refine ⟨render_spelled hroot hnote, fun n hn hsimple => ?_, defined_perm root,
    fun _ _ h => defined_of_again h, ?_⟩
  · rw [(opened_perm root root).count_eq, count_inFull_root n hn hsimple]
  · rintro es es₁ e es₂ vs₁ m vs₂ hes rfl hargs o page rfl hpage
    rw [unfolding_eq hroot] at hes
    have hes := Except.ok.inj hes
    exact page_before_arg root (congrArg _ hes.symm) hes hargs hpage

/-- `(add (num 1) (num 2))` times itself. -/
def square : Graph :=
  let g := ((Graph.empty 0).append "num" [.int 1]).2
  let g := (g.append "num" [.int 2]).2
  let g := (g.append "add" [.node (g.node 0), .node (g.node 1)]).2
  (g.append "mul" [.node (g.node 2), .node (g.node 2)]).2

theorem render_square : ∃ root, square.locate (square.node 3) = .ok root
    ∧ (square.exprAt root).isNote = false
    ∧ square.render (square.node 3) = .ok (Token.spelled (square.spell root root)) :=
  ⟨⟨3, by decide⟩, rfl, rfl, (render_eq_spelled rfl rfl).1⟩

end Graph

end TermGraph
