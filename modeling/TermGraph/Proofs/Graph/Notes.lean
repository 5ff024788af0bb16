import TermGraph.Pass.History
import TermGraph.Proofs.Fold.Table
import TermGraph.Proofs.Graph.Stable

/-!
The notes about a node, read off all records. A note that `n` replaced another node mentions `n`, so
it stands after `n` and is found among the records that mention `n`: searching only those finds
every note, in the order of the records. Read like this, what was noted about a node grows with the
records: those of a longer graph are those of the shorter one, followed by those of the records
added.
-/

namespace TermGraph

/-- The replacement by `n` that the expression notes, if it notes one. -/
def Replacement.ofNote? (n : Node) (e : Expr) : Option Replacement :=
  if Replacement.notes n e then Replacement.ofExpr? e else none

theorem Replacement.ofNote?_eq_some_iff {n : Node} {e : Expr} {r : Replacement} :
    Replacement.ofNote? n e = some r ↔
      e = ⟨r.record, historyHead, [.str r.pass, .node n, .node r.replaced]⟩ := by
  obtain ⟨m, head, args⟩ := e
  obtain ⟨pass, replaced, record⟩ := r
  simp only [ofNote?, notes, Bool.and_eq_true, beq_iff_eq, decide_eq_true_eq, Expr.mk.injEq]
  constructor
  · intro h
    split at h
    · next hnotes =>
      obtain ⟨rfl, hsecond⟩ := hnotes
      simp only [ofExpr?] at h
      split at h
      · next hargs =>
        cases hargs
        cases h
        exact ⟨rfl, rfl, by simpa using hsecond⟩
      · cases h
    · cases h
  · rintro ⟨rfl, rfl, rfl⟩
    exact if_pos ⟨rfl, rfl⟩

namespace Graph

variable {g g' g'' : Graph} {n m : Node} {head : String} {args : List Value}

/-! ### Records that were added -/

/-- The records that the second graph has and the first has not. -/
def added (g g' : Graph) : List Expr := g'.exprs.drop g.size

theorem length_exprs (g : Graph) : g.exprs.length = g.size := by simp [exprs]

theorem getElem?_exprs (g : Graph) (p : Nat) : g.exprs[p]? = g.expr? p := by
  by_cases hp : p < g.size
  · have he := expr?_eq_some (g := g) ⟨p, hp⟩
    simp [exprs, he, hp]
  · rw [List.getElem?_eq_none (by rw [length_exprs]; omega), expr?, dif_neg hp]

theorem exprs_eq_filterMap (g : Graph) : g.exprs = (List.range g.size).filterMap g.expr? := by
  rw [exprs, ← List.map_coe_finRange_eq_range, List.filterMap_map, ← List.filterMap_eq_map]
  exact List.filterMap_congr fun p _ => (expr?_eq_some p).symm

theorem read_of_mem_exprs {e : Expr} (h : e ∈ g.exprs) : g.read e.node = .ok e := by
  obtain ⟨p, -, rfl⟩ := List.mem_map.1 h
  exact read_node p

theorem mem_exprs_of_read {e : Expr} (h : g.read m = .ok e) : e ∈ g.exprs := by
  obtain ⟨p, -, rfl⟩ := ok_of_map_ok h
  exact List.mem_map_of_mem (List.mem_finRange p)

theorem pairwise_exprs (g : Graph) : g.exprs.Pairwise fun d e => d.node.index < e.node.index :=
  (List.pairwise_lt_finRange _).map _ fun _ _ h => h

theorem Extends.exprs_eq (h : g.Extends g') : g'.exprs = g.exprs ++ g.added g' := by
  refine (List.take_append_drop g.size g'.exprs).symm.trans (congrArg (· ++ _) ?_)
  refine List.ext_getElem? fun p => ?_
  rw [List.getElem?_take, getElem?_exprs, getElem?_exprs]
  split
  · next hp => exact h.expr?_eq hp
  · next hp => rw [expr?, dif_neg hp]

theorem added_self (g : Graph) : g.added g = [] := by
  rw [added, List.drop_eq_nil_iff, length_exprs]

theorem Appended.added_eq (h : g.Appended head args g') :
    g.added g' = [⟨g.node g.size, head, args⟩] := by
  have hlength : (g.added g').length = 1 := by
    rw [added, List.length_drop, length_exprs, h.size_eq]
    omega
  obtain ⟨e, he⟩ := List.length_eq_one_iff.1 hlength
  have hlast : g'.exprs[g.size]? = some e := by
    rw [h.grown.exprs_eq, he, List.getElem?_append_right (length_exprs g).le, length_exprs,
      Nat.sub_self]
    rfl
  rw [getElem?_exprs, h.expr?_eq] at hlast
  rw [he, Option.some.inj hlast]

/-! ### What is noted about a node -/

/-- The replacements by `n` that are noted in the graph, in the order of their records. -/
def noted (g : Graph) (n : Node) : List Replacement := g.exprs.filterMap (Replacement.ofNote? n)

theorem read_of_mem_noted {r : Replacement} (h : r ∈ g.noted n) : g.read r.record
    = .ok ⟨r.record, historyHead, [.str r.pass, .node n, .node r.replaced]⟩ := by
  obtain ⟨e, he, hr⟩ := List.mem_filterMap.1 h
  have hread := read_of_mem_exprs he
  rw [Replacement.ofNote?_eq_some_iff.1 hr] at hread
  exact hread

/-- The notes about a node are the records of the one shape that a note has. -/
theorem mem_noted_iff {r : Replacement} : r ∈ g.noted n ↔ g.read r.record
    = .ok ⟨r.record, historyHead, [.str r.pass, .node n, .node r.replaced]⟩ := by
  refine ⟨read_of_mem_noted, fun hread => ?_⟩
  exact List.mem_filterMap.2 ⟨_, mem_exprs_of_read hread, Replacement.ofNote?_eq_some_iff.2 rfl⟩

theorem pairwise_noted (g : Graph) (n : Node) :
    (g.noted n).Pairwise fun r s => r.record.index < s.record.index := by
  refine (pairwise_exprs g).filterMap _ fun d e hlt r hr s hs => ?_
  rw [Replacement.ofNote?_eq_some_iff.1 hr, Replacement.ofNote?_eq_some_iff.1 hs] at hlt
  exact hlt

/-- A record that notes something about a node mentions it. -/
theorem mem_childrenAt_of_ofNote? {p q : Nat} {e : Expr} {r : Replacement} (he : g.expr? q = some e)
    (hr : Replacement.ofNote? (g.node p) e = some r) : p ∈ g.childrenAt q := by
  rw [Replacement.ofNote?_eq_some_iff.1 hr] at he
  obtain ⟨c, hc, hn⟩ := exists_childrenAt_of_mem_expr? he (n := g.node p) (by simp)
  have hpc : p = c := congrArg Node.index hn
  exact hpc ▸ hc

/-- Nothing is noted about a node that the graph does not have. -/
theorem noted_eq_nil (h : n ∉ g.nodes) : g.noted n = [] := by
  rw [noted, exprs_eq_filterMap, List.filterMap_filterMap]
  refine List.filterMap_eq_nil_iff.2 fun q _ => Option.eq_none_iff_forall_ne_some.2 fun r hr => h ?_
  obtain ⟨e, he, hr⟩ := Option.bind_eq_some_iff.1 hr
  rw [Replacement.ofNote?_eq_some_iff.1 hr] at he
  exact mem_nodes_of_expr? he (by simp)

/-- Searching the records that mention a node finds all notes about it. -/
theorem provenance_eq (h : n ∈ g.nodes) : g.provenance n = .ok (g.noted n) := by
  obtain ⟨p, hp⟩ := exists_locate h
  have hn := eq_node_of_locate hp
  subst hn
  rw [provenance, searchParents, hp]
  refine congrArg Except.ok ?_
  dsimp only
  -- only a record after `p` that mentions it can be a note
  have hfirst : (List.range (p.val + 1)).filterMap
      (fun q => (g.expr? q).bind (Replacement.ofNote? (g.node p.val))) = [] := by
    refine List.filterMap_eq_nil_iff.2 fun q hq => Option.eq_none_iff_forall_ne_some.2 fun r hr => ?_
    obtain ⟨e, he, hr⟩ := Option.bind_eq_some_iff.1 hr
    have hlt := lt_of_mem_childrenAt (mem_childrenAt_of_ofNote? he hr)
    have := List.mem_range.1 hq
    omega
  have hrange : List.range g.size
      = List.range (p.val + 1) ++ List.range' (p.val + 1) (g.size - (p.val + 1)) := by
    have hlt := p.isLt
    have hsize : p.val + 1 + (g.size - (p.val + 1)) = g.size := by omega
    conv_lhs => rw [← hsize]
    rw [List.range_eq_range', List.range_eq_range', ← List.range'_append_1, Nat.zero_add]
  rw [noted, exprs_eq_filterMap, List.filterMap_filterMap, hrange, List.filterMap_append, hfirst,
    List.nil_append, parentsAt, List.filterMap_filter, List.filterMap_filter,
    List.filterMap_filterMap]
  refine List.filterMap_congr fun q _ => ?_
  cases hq : (g.childrenAt q).contains p.val with
  | true => rfl
  | false =>
    refine (Option.eq_none_iff_forall_ne_some.2 fun r hr => ?_).symm
    obtain ⟨e, he, hr⟩ := Option.bind_eq_some_iff.1 hr
    have hmem := List.contains_iff_mem.2 (mem_childrenAt_of_ofNote? he hr)
    rw [hq] at hmem
    cases hmem

end Graph

end TermGraph
