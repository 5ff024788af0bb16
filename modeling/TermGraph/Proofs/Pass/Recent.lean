import TermGraph.Proofs.Pass.Exchanges
import TermGraph.Proofs.Pass.Lineage

/-!
When a lineage names the last replacement first. Going back, a lineage takes the oldest note about
each node and never compares where notes stand, so its order is up to the passes: a node may be
given for one that was itself given before, or for one that is only given later. What counts is when
each node was given first. Main statement: the notes of a lineage get ever older, and it meets no
node twice, just if on the way back each node was first given after the node it was given for, if
that one ever was. So it is if no pass gives a node that has been replaced; in `Graph.overtaken` one
does, and the older note comes first.
-/

namespace TermGraph

/-- The note of `c` stands after that of `d`. -/
def Replacement.Newer (c d : Replacement) : Prop := d.record.index < c.record.index

instance : Trans Replacement.Newer Replacement.Newer Replacement.Newer :=
  ⟨fun h h' => Nat.lt_trans h' h⟩

/-- The notes get older along the chain. -/
def RecentFirst (chain : List Replacement) : Prop := chain.Pairwise Replacement.Newer

instance : DecidableRel Replacement.Newer := fun c d => Nat.decLt d.record.index c.record.index

instance (chain : List Replacement) : Decidable (RecentFirst chain) :=
  inferInstanceAs (Decidable (chain.Pairwise Replacement.Newer))

/-! ### Who was given first -/

section Given

variable {es : List Exchange} {n m k : Node}

/-- `n` was given for another node, and `m` was given before if it ever was. -/
def GivenAfter (es : List Exchange) (n m : Node) : Prop :=
  n ∈ es.map Exchange.given ∧
    (m ∈ es.map Exchange.given → (es.map Exchange.given).idxOf m < (es.map Exchange.given).idxOf n)

theorem GivenAfter.trans (h : GivenAfter es n m) (h' : GivenAfter es m k) : GivenAfter es n k :=
  ⟨h.1, fun hk => (h'.2 hk).trans (h.2 h'.1)⟩

theorem GivenAfter.ne (h : GivenAfter es n m) : n ≠ m := by
  rintro rfl
  exact lt_irrefl _ (h.2 h.1)

instance (es : List Exchange) : Trans (GivenAfter es) (GivenAfter es) (GivenAfter es) :=
  ⟨GivenAfter.trans⟩

theorem nodup_of_isChain_givenAfter {ns : List Node} (h : ns.IsChain (GivenAfter es)) : ns.Nodup :=
  (List.isChain_iff_pairwise.1 h).imp GivenAfter.ne

/-- No node is given that is replaced by then. -/
structure Forward (es : List Exchange) : Prop where
  ne : ∀ x ∈ es, x.given ≠ x.old
  later : es.Pairwise fun x y => y.given ≠ x.old

/-- The first exchange that gave a node tells when it was given. -/
theorem idxOf_given {before after : List Exchange} {x : Exchange} (h : es = before ++ x :: after)
    (hfirst : ∀ y ∈ before, y.given ≠ x.given) :
    (es.map Exchange.given).idxOf x.given = before.length := by
  have hnew : x.given ∉ before.map Exchange.given := by
    intro hmem
    obtain ⟨y, hy, heq⟩ := List.mem_map.1 hmem
    exact hfirst y hy heq
  rw [h, List.map_append, List.map_cons, List.idxOf_append_of_notMem hnew, List.idxOf_cons_self,
    List.length_map, Nat.add_zero]

/-- If all goes forward, the node that is replaced when another one is given first was itself given
before, if ever. -/
theorem Forward.givenAfter (h : Forward es) {before after : List Exchange} {x : Exchange}
    (hx : es = before ++ x :: after) (hfirst : ∀ y ∈ before, y.given ≠ x.given) :
    GivenAfter es x.given x.old := by
  have hmem : x ∈ es := hx ▸ List.mem_append_right _ (List.mem_cons_self ..)
  refine ⟨List.mem_map_of_mem hmem, fun hold => ?_⟩
  have hbefore : x.old ∈ before.map Exchange.given := by
    have hlater := h.later
    rw [hx, List.map_append, List.map_cons, List.mem_append, List.mem_cons] at hold
    rw [hx, List.pairwise_append, List.pairwise_cons] at hlater
    rcases hold with hold | hold | hold
    · exact hold
    · exact absurd hold.symm (h.ne x hmem)
    · obtain ⟨y, hy, heq⟩ := List.mem_map.1 hold
      exact absurd heq (hlater.2.1.1 y hy)
  rw [idxOf_given hx hfirst, hx, List.map_append, List.idxOf_append_of_mem hbefore]
  simpa using List.idxOf_lt_length_of_mem hbefore

end Given

namespace Graph

variable {g : Graph} {n m : Node} {c d : Replacement} {seen : List Node} {chain : List Replacement}

/-! ### The place of a first note -/

theorem firstNoted_iff : g.FirstNoted n c ↔ (g.noted n).head? = some c := by
  constructor
  · rintro ⟨rs, hrs⟩
    have hn : n ∈ g.nodes := by
      rw [← refusal?_locate_eq_none, ← refusal?_provenance, hrs]
      rfl
    rw [provenance_eq hn] at hrs
    rw [Except.ok.inj hrs, List.head?_cons]
  · intro h
    have hn : n ∈ g.nodes := Decidable.byContradiction fun hn => by
      rw [noted_eq_nil hn] at h
      cases h
    obtain ⟨rs, hrs⟩ := List.head?_eq_some_iff.1 h
    exact ⟨rs, by rw [provenance_eq hn, hrs]⟩

/-- The first note about a node among the records: none of those before it gives the node. -/
theorem FirstNoted.exists_cut (h : g.FirstNoted n c) : ∃ older e newer,
    g.exprs = older ++ e :: newer ∧ older.length = c.record.index
      ∧ Exchange.ofNote? e = some ⟨c.replaced, n⟩
      ∧ ∀ x ∈ older.filterMap Exchange.ofNote?, x.given ≠ n := by
  have hfirst := firstNoted_iff.1 h
  rw [noted, List.head?_filterMap, List.findSome?_eq_some_iff] at hfirst
  obtain ⟨older, e, newer, hexprs, hc, holder⟩ := hfirst
  refine ⟨older, e, newer, hexprs, ?_, Replacement.exchange_of_ofNote? hc, fun x hx => ?_⟩
  · have he : g.expr? older.length = some e := by
      rw [← getElem?_exprs, hexprs, List.getElem?_append_right (Nat.le_refl _), Nat.sub_self]
      rfl
    have hnode : e.node = g.node older.length := node_of_expr? he
    rw [Replacement.ofNote?_eq_some_iff.1 hc] at hnode
    exact (congrArg Node.index hnode).symm
  · rintro rfl
    obtain ⟨e', he', hx'⟩ := List.mem_filterMap.1 hx
    obtain ⟨r, hr⟩ := Exchange.exists_ofNote? hx'
    rw [holder e' he'] at hr
    cases hr

theorem exchanges_of_cut {older newer : List Expr} {e : Expr} {x : Exchange}
    (hexprs : g.exprs = older ++ e :: newer) (hx : Exchange.ofNote? e = some x) : g.exchanges =
      older.filterMap Exchange.ofNote? ++ x :: newer.filterMap Exchange.ofNote? := by
  rw [exchanges, hexprs, List.filterMap_append, List.filterMap_cons_some hx]

theorem mem_given_iff :
    n ∈ g.exchanges.map Exchange.given ↔ ∃ c, g.FirstNoted n c := by
  constructor
  · intro h
    obtain ⟨x, hx, rfl⟩ := List.mem_map.1 h
    obtain ⟨e, he, hxe⟩ := List.mem_filterMap.1 hx
    obtain ⟨r, hr⟩ := Exchange.exists_ofNote? hxe
    have hmem : r ∈ g.noted x.given := List.mem_filterMap.2 ⟨e, he, hr⟩
    exact ⟨_, firstNoted_iff.2 (List.head?_eq_some_head (List.ne_nil_of_mem hmem))⟩
  · rintro ⟨c, hc⟩
    obtain ⟨older, e, newer, hexprs, -, hx, -⟩ := hc.exists_cut
    rw [exchanges_of_cut hexprs hx]
    simp

theorem not_mem_given (h : g.provenance n = .ok []) : n ∉ g.exchanges.map Exchange.given := by
  rw [mem_given_iff]
  rintro ⟨c, rs, hrs⟩
  rw [h] at hrs
  cases hrs

theorem FirstNoted.idxOf_lt (hc : g.FirstNoted n c) (hd : g.FirstNoted m d)
    (h : d.record.index < c.record.index) :
    (g.exchanges.map Exchange.given).idxOf m < (g.exchanges.map Exchange.given).idxOf n := by
  obtain ⟨older, e, newer, hexprs, hlength, hx, hfirst⟩ := hc.exists_cut
  obtain ⟨older', e', newer', hexprs', hlength', hx', hfirst'⟩ := hd.exists_cut
  -- the first note about `m` is among the records before the one about `n`
  have hstart : older' ++ [e'] <+: older := by
    have hall : older <+: g.exprs := ⟨e :: newer, hexprs.symm⟩
    have hall' : older' ++ [e'] <+: g.exprs := ⟨newer', by simp [hexprs']⟩
    refine List.prefix_of_prefix_length_le hall' hall ?_
    rw [List.length_append, List.length_singleton]
    omega
  have hle := (hstart.sublist.filterMap Exchange.ofNote?).length_le
  rw [List.filterMap_append, List.filterMap_cons_some hx', List.filterMap_nil, List.length_append,
    List.length_singleton] at hle
  rw [idxOf_given (exchanges_of_cut hexprs hx) hfirst,
    idxOf_given (exchanges_of_cut hexprs' hx') hfirst']
  omega

/-- First notes stand in the order in which their nodes were given first. -/
theorem FirstNoted.lt_iff (hc : g.FirstNoted n c) (hd : g.FirstNoted m d) :
    d.record.index < c.record.index ↔
      (g.exchanges.map Exchange.given).idxOf m < (g.exchanges.map Exchange.given).idxOf n := by
  refine ⟨hc.idxOf_lt hd, fun hlt => ?_⟩
  rcases Nat.lt_trichotomy d.record.index c.record.index with hdc | heq | hcd
  · exact hdc
  · obtain ⟨older, e, newer, hexprs, hlength, hx, -⟩ := hc.exists_cut
    obtain ⟨older', e', newer', hexprs', hlength', hx', -⟩ := hd.exists_cut
    obtain ⟨-, htail⟩ := List.append_inj (hexprs.symm.trans hexprs') (by omega)
    rw [(List.cons.inj htail).1, hx'] at hx
    have hmn : m = n := congrArg Exchange.given (Option.some.inj hx)
    exact absurd hlt (hmn ▸ Nat.lt_irrefl _)
  · exact absurd hlt (Nat.lt_asymm (hd.idxOf_lt hc hcd))

/-! ### Links of a chain -/

theorem FirstNoted.givenAfter_iff (hc : g.FirstNoted n c) (hd : g.FirstNoted m d) :
    GivenAfter g.exchanges n m ↔ c.Newer d := by
  rw [Replacement.Newer, hc.lt_iff hd]
  exact ⟨fun h => h.2 (mem_given_iff.2 ⟨d, hd⟩), fun h => ⟨mem_given_iff.2 ⟨c, hc⟩, fun _ => h⟩⟩

theorem FirstNoted.givenAfter_of_ungiven (hc : g.FirstNoted n c) (hm : g.provenance m = .ok []) :
    GivenAfter g.exchanges n m :=
  ⟨mem_given_iff.2 ⟨c, hc⟩, fun h => absurd h (not_mem_given hm)⟩

theorem FirstNoted.givenAfter_of_forward (hc : g.FirstNoted n c) (h : Forward g.exchanges) :
    GivenAfter g.exchanges n c.replaced := by
  obtain ⟨older, e, newer, hexprs, -, hx, hfirst⟩ := hc.exists_cut
  exact h.givenAfter (exchanges_of_cut hexprs hx) hfirst

/-- The nodes on the way back from `n`. -/
def origins (n : Node) (chain : List Replacement) : List Node := n :: chain.map Replacement.replaced

theorem ChainFrom.isChain_givenAfter (h : g.ChainFrom seen n chain)
    (hrecent : chain.IsChain Replacement.Newer)
    (hnodup : (seen ++ chain.map Replacement.replaced).Nodup) :
    (origins n chain).IsChain (GivenAfter g.exchanges) := by
  -- on the links still to come, like the loop
  induction chain generalizing seen n with
  | nil => exact .singleton n
  | cons c chain ih =>
    rcases chain with _ | ⟨d, chain⟩
    · obtain ⟨-, hc, hlast⟩ := chainFrom_singleton_iff.1 h
      have hend : g.provenance c.replaced = .ok [] := hlast.resolve_right fun hmem =>
        (List.nodup_append.1 hnodup).2.2 _ hmem _ (List.mem_singleton_self _) rfl
      exact .cons_cons (hc.givenAfter_of_ungiven hend) (.singleton _)
    · obtain ⟨hc, hrest⟩ := chainFrom_cons_cons_iff.1 h
      obtain ⟨hnewer, hrecent⟩ := List.isChain_cons_cons.1 hrecent
      exact .cons_cons ((hc.givenAfter_iff (hrest.first d rfl)).2 hnewer)
        (ih hrest hrecent (List.nodup_middle.1 hnodup))

theorem ChainFrom.isChain_newer (h : g.ChainFrom seen n chain)
    (hgiven : (origins n chain).IsChain (GivenAfter g.exchanges)) :
    chain.IsChain Replacement.Newer := by
  induction chain generalizing seen n with
  | nil => exact .nil
  | cons c chain ih =>
    rcases chain with _ | ⟨d, chain⟩
    · exact .singleton c
    · obtain ⟨hc, hrest⟩ := chainFrom_cons_cons_iff.1 h
      obtain ⟨hlink, hgiven⟩ := List.isChain_cons_cons.1 hgiven
      exact .cons_cons ((hc.givenAfter_iff (hrest.first d rfl)).1 hlink) (ih hrest hgiven)

theorem ChainFrom.isChain_of_forward (h : g.ChainFrom seen n chain)
    (hforward : Forward g.exchanges) : (origins n chain).IsChain (GivenAfter g.exchanges) := by
  induction chain generalizing seen n with
  | nil => exact .singleton n
  | cons c chain ih =>
    have hlink := (h.first c rfl).givenAfter_of_forward hforward
    rcases chain with _ | ⟨d, chain⟩
    · exact .cons_cons hlink (.singleton _)
    · exact .cons_cons hlink (ih (chainFrom_cons_cons_iff.1 h).2)

theorem ChainFrom.recentFirst_iff (h : g.ChainFrom [n] n chain) :
    RecentFirst chain ∧ (origins n chain).Nodup
      ↔ (origins n chain).IsChain (GivenAfter g.exchanges) := by
  rw [RecentFirst, ← List.isChain_iff_pairwise]
  exact ⟨fun ⟨hrecent, hnodup⟩ => h.isChain_givenAfter hrecent hnodup,
    fun hgiven => ⟨h.isChain_newer hgiven, nodup_of_isChain_givenAfter hgiven⟩⟩

theorem exists_lineage (hn : n ∈ g.nodes) :
    ∃ chain, g.lineage n = .ok chain ∧ g.ChainFrom [n] n chain := by
  have hrefusal := g.refusal?_lineageFrom [n] n
  rw [refusal?_locate_eq_none.2 hn] at hrefusal
  obtain ⟨chain, hchain⟩ := refusal?_eq_none.1 hrefusal
  exact ⟨chain, hchain, (lineageFrom_eq_ok_iff (List.nodup_singleton n)).1 hchain⟩

/-- The notes of a lineage get ever older, and it closes no circle, just if each node that it comes
by was first given after the node it was given for, if that was given at all. So it is where no node
was given that had been replaced. Of a graph that appends and runs have made, the exchanges to look
at are those that they made. -/
theorem lineage_recentFirst_iff (hn : n ∈ g.nodes) :
    (∃ chain, g.lineage n = .ok chain ∧
      (RecentFirst chain ∧ (origins n chain).Nodup
        ↔ (origins n chain).IsChain (GivenAfter g.exchanges)) ∧
      (Forward g.exchanges → RecentFirst chain ∧ (origins n chain).Nodup)) ∧
    ∀ es, Chronicle es g → g.exchanges = es := by
  obtain ⟨chain, hchain, hfrom⟩ := exists_lineage hn
  refine ⟨⟨chain, hchain, hfrom.recentFirst_iff, fun hforward => ?_⟩, fun es h => h.exchanges_eq⟩
  exact hfrom.recentFirst_iff.2 (hfrom.isChain_of_forward hforward)

/-- Three records that know nothing of each other. -/
def letters : Graph := (((Graph.empty 0).append "a" []).2.append "b" []).2.append "c" [] |>.2

theorem chronicle_letters : Chronicle [] letters := by
  have ha : Chronicle [] ((Graph.empty 0).append "a" []).2 :=
    (Chronicle.empty 0).append_of_ne "a" [] (by decide) rfl
  have hb : Chronicle [] (((Graph.empty 0).append "a" []).2.append "b" []).2 :=
    ha.append_of_ne "b" [] (by decide) rfl
  exact hb.append_of_ne "c" [] (by decide) rfl

/-- The graph after a pass that gives the record at one position for the one at another. -/
def gaveFor (g : Graph) (name head : String) (old given : Nat) : Graph :=
  (Routine.run (Pass.run (g.node old)) (Pass.giving name head given) g).2.2

theorem chronicle_gaveFor {es : List Exchange} (h : Chronicle es g) (name head : String)
    (old given : Nat) {t : Term Empty} {p' : Pass Unit Empty}
    (hns : g.reachable [g.node old] = .ok [g.node old]) (hhead : g.head (g.node old) = .ok head)
    (hnote : head ≠ historyHead)
    (hrun : Routine.run (Pass.run (g.node old)) (Pass.giving name head given) g
      = (.ok t, p', g.gaveFor name head old given)) :
    Chronicle (es ++ (Pass.giving name head given).exchanges p' [g.node old])
      (g.gaveFor name head old given) := by
  refine h.run rfl hns ((Pass.giving_quiet name head given).discreet fun n hn => ?_) hrun
  rw [List.mem_singleton.1 hn, hhead]
  refine ⟨mem_nodes_of_mem_reachable hns (List.mem_singleton_self _), fun h => ?_⟩
  exact hnote (Except.ok.inj h)

/-- The `b` is given for the `a`, and then the `c` for the `b`. -/
def relayed : Graph := (letters.gaveFor "first" "a" 0 1).gaveFor "second" "b" 1 2

theorem chronicle_relayed :
    Chronicle [⟨relayed.node 0, relayed.node 1⟩, ⟨relayed.node 1, relayed.node 2⟩] relayed := by
  have hfirst := chronicle_gaveFor chronicle_letters "first" "a" 0 1 rfl rfl (by decide) rfl
  exact chronicle_gaveFor hfirst "second" "b" 1 2 rfl rfl (by decide) rfl

theorem lineage_recentFirst_relayed : relayed.node 2 ∈ relayed.nodes ∧
    relayed.lineage (relayed.node 2) = .ok
      [⟨"second", relayed.node 1, relayed.node 4⟩, ⟨"first", relayed.node 0, relayed.node 3⟩] ∧
    RecentFirst
      [⟨"second", relayed.node 1, relayed.node 4⟩, ⟨"first", relayed.node 0, relayed.node 3⟩] := by
  have hmem : relayed.node 2 ∈ relayed.nodes := by decide
  have hlineage : relayed.lineage (relayed.node 2) = .ok
      [⟨"second", relayed.node 1, relayed.node 4⟩, ⟨"first", relayed.node 0, relayed.node 3⟩] := by
    rw [lineage, lineageFrom_cons (show _ = Except.ok [_] from rfl), if_neg (by decide),
      lineageFrom_cons (show _ = Except.ok [_] from rfl), if_neg (by decide), lineageFrom_nil rfl]
    rfl
  obtain ⟨⟨chain, hchain, -, hrecent⟩, hexchanges⟩ := lineage_recentFirst_iff hmem
  rw [hlineage] at hchain
  cases hchain
  rw [hexchanges _ chronicle_relayed] at hrecent
  exact ⟨hmem, hlineage, (hrecent ⟨by decide, by decide⟩).1⟩

/-- The `b` is given for the `a`, and then the `a` for the `c`. -/
def overtaken : Graph := (letters.gaveFor "first" "a" 0 1).gaveFor "second" "c" 2 0

/-- The `b` was given before anything was replaced by the `a`; its lineage goes on to the later note
all the same. -/
theorem overtaken_not_recentFirst :
    Chronicle [⟨overtaken.node 0, overtaken.node 1⟩, ⟨overtaken.node 2, overtaken.node 0⟩]
      overtaken ∧
    ∃ chain, overtaken.lineage (overtaken.node 1) = .ok chain ∧
      (origins (overtaken.node 1) chain).Nodup ∧ ¬ RecentFirst chain := by
  have hlineage : overtaken.lineage (overtaken.node 1) = .ok
      [⟨"first", overtaken.node 0, overtaken.node 3⟩,
        ⟨"second", overtaken.node 2, overtaken.node 4⟩] := by
    rw [lineage, lineageFrom_cons (show _ = Except.ok [_] from rfl), if_neg (by decide),
      lineageFrom_cons (show _ = Except.ok [_] from rfl), if_neg (by decide), lineageFrom_nil rfl]
    rfl
  have hfirst := chronicle_gaveFor chronicle_letters "first" "a" 0 1 rfl rfl (by decide) rfl
  exact ⟨chronicle_gaveFor hfirst "second" "c" 2 0 rfl rfl (by decide) rfl, _, hlineage,
    by decide, by decide⟩

end Graph

end TermGraph
