import Mathlib.Data.List.Sort
import TermGraph.Evaluation.Descent
import TermGraph.Proofs.Graph.Copy

/-!
Searching with a stack. The sweep over positions and a depth-first search come to the same: a search
takes a position off its stack, leaves it if it was seen before, and else puts the arguments of its
record on the stack. `Pending` is what both kinds of search keep: whatever an argument of a seen
record is, it was seen or is on the stack. A search for one target may leave out all positions below
the target, because arguments stand before their records and no way leads back up.

Main statement: `contains`, `closure` and `reachable` tell exactly what paths lead to, and so do the
searches.
-/

namespace TermGraph

namespace Graph

variable {g : Graph} {lo p c target : Nat} {stack : List Nat} {seen : Std.TreeSet Nat}

/-- What a search that leaves out the positions below `lo` puts in place of `p`, the last argument
first. -/
def entries (g : Graph) (lo p : Nat) : List Nat :=
  ((g.childrenAt p).filter (lo ≤ ·)).reverse

theorem mem_entries : c ∈ g.entries lo p ↔ c ∈ g.childrenAt p ∧ lo ≤ c := by
  simp [entries]

/-- Such entries stand before the position, so a search ends. -/
theorem descends_entries (g : Graph) (lo p : Nat) (stack : List Nat) :
    Descends (· < ·) (g.entries lo p ++ stack) (p :: stack) :=
  .replace _ _ _ fun _ hc => lt_of_mem_childrenAt (mem_entries.1 hc).1

/-- Looks for a target from the positions on a stack, without following what is below the target. -/
def search (g : Graph) (target : Nat) : List Nat → Std.TreeSet Nat → Bool
  | [], _ => false
  | p :: stack, seen =>
    if p = target then true
    else if seen.contains p then search g target stack seen
    else search g target (g.entries target p ++ stack) (seen.insert p)
termination_by stack => (Descends.wellFounded Nat.lt_wfRel.wf).wrap stack
decreasing_by
  · exact .replace [] _ _ (by simp)
  · exact descends_entries g target p stack

/-- Collects what can be seen from the positions on a stack. -/
def explore (g : Graph) : List Nat → Std.TreeSet Nat → Std.TreeSet Nat
  | [], seen => seen
  | p :: stack, seen =>
    if seen.contains p then explore g stack seen
    else explore g (g.entries 0 p ++ stack) (seen.insert p)
termination_by stack => (Descends.wellFounded Nat.lt_wfRel.wf).wrap stack
decreasing_by
  · exact .replace [] _ _ (by simp)
  · exact descends_entries g 0 p stack

/-! ### One turn of a search -/

/-- An argument of a seen record was seen or is on the stack, unless it stands below `lo`. -/
def Pending (g : Graph) (lo : Nat) (stack : List Nat) (seen : Std.TreeSet Nat) : Prop :=
  ∀ p ∈ seen, ∀ c ∈ g.childrenAt p, lo ≤ c → c ∈ seen ∨ c ∈ stack

theorem pending_empty (g : Graph) (lo : Nat) (stack : List Nat) : g.Pending lo stack ∅ := by
  intro p hp
  simp at hp

theorem mem_insert_seen : c ∈ seen.insert p ↔ c = p ∨ c ∈ seen := by
  rw [Std.TreeSet.mem_insert, Std.LawfulEqCmp.compare_eq_iff_eq, eq_comm]

/-- A position that was seen is left. -/
theorem Pending.drop (h : g.Pending lo (p :: stack) seen) (hp : p ∈ seen) :
    g.Pending lo stack seen := by
  intro q hq c hc hlo
  rcases h q hq c hc hlo with hseen | hstack
  · exact .inl hseen
  · rcases List.mem_cons.1 hstack with rfl | hstack
    · exact .inl hp
    · exact .inr hstack

/-- A new position is seen, and its arguments are put on the stack. -/
theorem Pending.expand (h : g.Pending lo (p :: stack) seen) :
    g.Pending lo (g.entries lo p ++ stack) (seen.insert p) := by
  intro q hq c hc hlo
  rw [mem_insert_seen, List.mem_append, mem_entries]
  rcases mem_insert_seen.1 hq with rfl | hq
  · exact .inr (.inl ⟨hc, hlo⟩)
  · rcases h q hq c hc hlo with hseen | hstack
    · exact .inl (.inr hseen)
    · rcases List.mem_cons.1 hstack with rfl | hstack
      · exact .inl (.inl rfl)
      · exact .inr (.inr hstack)

/-- Once the stack is empty, paths do not lead out of what was seen, down to `lo`. -/
theorem Pending.mem_of_path (h : g.Pending lo [] seen) (hpath : g.Path p c) (hlo : lo ≤ c)
    (hp : p ∈ seen) : c ∈ seen := by
  induction hpath with
  | refl p => exact hp
  | step hchild hpath ih =>
    have hle := hpath.le
    have hseen := h _ hp _ hchild (by omega)
    exact ih hlo (by simpa using hseen)

/-- A path leads to `c` from what is on the stack or was seen. -/
def Leads (g : Graph) (stack : List Nat) (seen : Std.TreeSet Nat) (c : Nat) : Prop :=
  ∃ p, (p ∈ stack ∨ p ∈ seen) ∧ g.Path p c

theorem leads_drop (hp : p ∈ seen) : g.Leads (p :: stack) seen c ↔ g.Leads stack seen c := by
  constructor
  · rintro ⟨q, hq, hpath⟩
    refine ⟨q, ?_, hpath⟩
    rcases hq with hq | hq
    · rcases List.mem_cons.1 hq with rfl | hq
      · exact .inr hp
      · exact .inl hq
    · exact .inr hq
  · rintro ⟨q, hq, hpath⟩
    exact ⟨q, hq.imp_left (List.mem_cons_of_mem _), hpath⟩

theorem leads_expand :
    g.Leads (g.entries lo p ++ stack) (seen.insert p) c ↔ g.Leads (p :: stack) seen c := by
  constructor
  · rintro ⟨q, hq, hpath⟩
    rw [List.mem_append, mem_entries, mem_insert_seen] at hq
    rcases hq with (⟨hchild, -⟩ | hq) | rfl | hq
    · exact ⟨p, .inl (List.mem_cons_self ..), .step hchild hpath⟩
    · exact ⟨q, .inl (List.mem_cons_of_mem _ hq), hpath⟩
    · exact ⟨q, .inl (List.mem_cons_self ..), hpath⟩
    · exact ⟨q, .inr hq, hpath⟩
  · rintro ⟨q, hq, hpath⟩
    refine ⟨q, ?_, hpath⟩
    rw [List.mem_append, mem_insert_seen]
    rcases hq with hq | hq
    · rcases List.mem_cons.1 hq with rfl | hq
      · exact .inr (.inl rfl)
      · exact .inl (.inr hq)
    · exact .inr (.inr hq)

theorem leads_nil (h : g.Pending lo [] seen) (hlo : lo ≤ c) : g.Leads [] seen c ↔ c ∈ seen := by
  constructor
  · rintro ⟨p, hp, hpath⟩
    exact h.mem_of_path hpath hlo (by simpa using hp)
  · intro hc
    exact ⟨c, .inr hc, .refl c⟩

/-! ### Whole searches -/

/-- A search that has not seen its target finds it just if a path leads there. -/
theorem search_iff (h : g.Pending target stack seen) (htarget : target ∉ seen) :
    g.search target stack seen = true ↔ g.Leads stack seen target := by
  fun_induction search g target stack seen with
  | case1 seen =>
    rw [leads_nil h (Nat.le_refl _)]
    simpa using htarget
  | case2 stack seen =>
    simp only [true_iff]
    exact ⟨target, .inl (List.mem_cons_self ..), .refl target⟩
  | case3 p stack seen _ hp ih =>
    have hp : p ∈ seen := hp
    rw [ih (h.drop hp) htarget, leads_drop hp]
  | case4 p stack seen hne hp ih =>
    have hnew : target ∉ seen.insert p := by
      rw [mem_insert_seen]
      exact fun hmem => hmem.elim (hne ∘ Eq.symm) htarget
    rw [ih h.expand hnew, leads_expand]

/-- An exploration collects just what paths lead to. -/
theorem mem_explore (h : g.Pending 0 stack seen) : c ∈ g.explore stack seen ↔ g.Leads stack seen c := by
  fun_induction explore g stack seen with
  | case1 seen => rw [leads_nil h (Nat.zero_le _)]
  | case2 p stack seen hp ih => rw [ih (h.drop hp), leads_drop hp]
  | case3 p stack seen hp ih => rw [ih h.expand, leads_expand]

theorem search_eq_reaches (g : Graph) (p q : Nat) : g.search q [p] ∅ = g.reaches p q := by
  rw [Bool.eq_iff_iff, search_iff (g.pending_empty q [p]) (by simp), reaches_iff]
  simp [Leads]

theorem explore_eq_closureAt (g : Graph) (ps : List Nat) :
    (g.explore ps.reverse ∅).toList = g.closureAt ps := by
  refine List.Pairwise.eq_of_mem_iff (Std.TreeSet.ordered_toList.imp Nat.compare_eq_lt.1)
    (g.closureAt_ascending ps) fun c => ?_
  rw [Std.TreeSet.mem_toList, mem_explore (g.pending_empty 0 _), mem_closureAt]
  simp [Leads]

/-! ### Nodes -/

/-- Two nodes that contain each other are one. -/
theorem contains_antisymm {n m : Node} (h : g.contains n m = .ok true)
    (h' : g.contains m n = .ok true) : n = m := by
  have hle := index_le_of_contains h
  have hge := index_le_of_contains h'
  exact Node.ext hle.1.symm (Nat.le_antisymm hge.2 hle.2)

/-- For nodes of the graph there is an answer, and a search above the target gives it. -/
theorem contains_eq_search {n m : Node} (hn : n ∈ g.nodes) (hm : m ∈ g.nodes) : g.contains n m
    = .ok (decide (m.index ≤ n.index) && g.search m.index [n.index] ∅) := by
  obtain ⟨p, hp, rfl⟩ := List.mem_map.1 hn
  obtain ⟨q, hq, rfl⟩ := List.mem_map.1 hm
  rw [contains_node (List.mem_range.1 hp) (List.mem_range.1 hq), search_eq_reaches]
  refine congrArg Except.ok ?_
  cases hreach : g.reaches p q with
  | false => simp [node, hreach]
  | true => simp [node, hreach, le_of_reaches hreach]

theorem contains_eq_true_iff {n m : Node} (hn : n ∈ g.nodes) (hm : m ∈ g.nodes) :
    g.contains n m = .ok true ↔ g.Path n.index m.index := by
  obtain ⟨p, hp, rfl⟩ := List.mem_map.1 hn
  obtain ⟨q, hq, rfl⟩ := List.mem_map.1 hm
  rw [contains_node (List.mem_range.1 hp) (List.mem_range.1 hq), Except.ok.injEq, reaches_iff]
  rfl

/-- A position is in the closure just if a root contains the node there. -/
theorem mem_closureAt_iff {roots : List Node} (h : ∀ r ∈ roots, r ∈ g.nodes) :
    p ∈ g.closureAt (roots.map Node.index) ↔ ∃ r ∈ roots, g.contains r (g.node p) = .ok true := by
  simp only [mem_closureAt, List.mem_map, exists_exists_and_eq_and]
  constructor
  · rintro ⟨r, hr, hpath⟩
    have hlt := Nat.lt_of_le_of_lt hpath.le (mem_nodes.1 (h r hr)).2
    exact ⟨r, hr, (contains_eq_true_iff (h r hr) (node_mem_nodes.2 hlt)).2 hpath⟩
  · rintro ⟨r, hr, hcontains⟩
    exact ⟨r, hr, (contains_eq_true_iff (h r hr) (mem_nodes_of_contains hcontains)).1 hcontains⟩

/-- Whether a root contains a node does not depend on where, or how often, the root is listed. -/
theorem closureAt_congr {ps qs : List Nat} (h : ∀ p, p ∈ qs ↔ p ∈ ps) :
    g.closureAt qs = g.closureAt ps := by
  refine List.Pairwise.eq_of_mem_iff (closureAt_ascending qs) (closureAt_ascending ps) fun c => ?_
  simp only [mem_closureAt, h]

/-- Reachability is exact. One node contains another just if a path leads down to it; a search that
gives up where the root stands before the target, and follows nothing that stands before the target,
tells the same. Containing is a partial order within the order of positions. And a closure lists, in
ascending order, the positions of all that some root contains, whichever way the roots are listed. -/
theorem reachability_exact (g : Graph) :
    (∀ n ∈ g.nodes, ∀ m ∈ g.nodes, ∃ b, g.contains n m = .ok b
      ∧ (b = true ↔ g.Path n.index m.index)
      ∧ b = (decide (m.index ≤ n.index) && g.search m.index [n.index] ∅))
    ∧ (∀ n ∈ g.nodes, g.contains n n = .ok true)
    ∧ (∀ n m k, g.contains n m = .ok true → g.contains m k = .ok true → g.contains n k = .ok true)
    ∧ (∀ n m, g.contains n m = .ok true → g.contains m n = .ok true → n = m)
    ∧ (∀ n m, g.contains n m = .ok true → m.index ≤ n.index)
    ∧ ∀ roots : List Node, (∀ r ∈ roots, r ∈ g.nodes) → ∃ cs, g.closure roots = .ok cs
      ∧ g.reachable roots = .ok (cs.map g.node)
      ∧ cs.Pairwise (· < ·)
      ∧ (∀ p, p ∈ cs ↔ ∃ r ∈ roots, g.contains r (g.node p) = .ok true)
      ∧ cs = (g.explore (roots.map Node.index).reverse ∅).toList
      ∧ ∀ roots' : List Node, (∀ r, r ∈ roots' ↔ r ∈ roots) → g.closure roots' = .ok cs := by
  refine ⟨fun n hn m hm => ?_, fun n hn => contains_self hn, fun n m k => contains_trans,
    fun n m => contains_antisymm, fun n m h => (index_le_of_contains h).2, fun roots hroots => ?_⟩
  · have hsearch := contains_eq_search hn hm
    have hpath := contains_eq_true_iff hn hm
    rw [hsearch, Except.ok.injEq] at hpath
    exact ⟨_, hsearch, hpath, rfl⟩
  · have hclosure := closure_eq hroots
    refine ⟨_, hclosure, by rw [reachable, hclosure]; rfl, closureAt_ascending _,
      fun p => mem_closureAt_iff hroots, (explore_eq_closureAt g _).symm, fun roots' hsame => ?_⟩
    rw [closure_eq fun r hr => hroots r ((hsame r).1 hr)]
    refine congrArg Except.ok (closureAt_congr fun p => ?_)
    simp only [List.mem_map, hsame]

/-- Five records; the first is shared, the fourth stands by itself. -/
def kite : Graph :=
  (((((Graph.empty 0).append "a" []).2.append "b" [.node ⟨0, 0⟩]).2.append "c"
    [.node ⟨0, 0⟩, .node ⟨0, 1⟩, .node ⟨0, 0⟩]).2.append "d" []).2.append "e"
      [.node ⟨0, 2⟩, .int 1] |>.2

theorem reachability_kite :
    (∀ r ∈ [kite.node 3, kite.node 2, kite.node 3], r ∈ kite.nodes)
    ∧ kite.closure [kite.node 3, kite.node 2, kite.node 3] = .ok [0, 1, 2, 3]
    ∧ kite.closure [kite.node 2, kite.node 3] = .ok [0, 1, 2, 3]
    ∧ (kite.contains (kite.node 4) (kite.node 1) = .ok true ∧ kite.Path 4 1)
    ∧ kite.contains (kite.node 4) (kite.node 3) = .ok false ∧ ¬ kite.Path 4 3 := by
  obtain ⟨hcontains, -, -, -, -, hclosure⟩ := reachability_exact kite
  have hroots : ∀ r ∈ [kite.node 3, kite.node 2, kite.node 3], r ∈ kite.nodes := by decide
  obtain ⟨cs, hcs, -, -, -, -, hsame⟩ := hclosure _ hroots
  obtain rfl : [0, 1, 2, 3] = cs := Except.ok.inj hcs
  obtain ⟨b, hb, hpath, -⟩ := hcontains (kite.node 4) (by decide) (kite.node 1) (by decide)
  obtain rfl : true = b := Except.ok.inj hb
  obtain ⟨b', hb', hpath', -⟩ := hcontains (kite.node 4) (by decide) (kite.node 3) (by decide)
  obtain rfl : false = b' := Except.ok.inj hb'
  refine ⟨hroots, hcs, hsame _ (by simp [or_comm]), ⟨hb, hpath.1 rfl⟩, hb', fun h => ?_⟩
  cases hpath'.2 h

end Graph

end TermGraph
