import TermGraph.Graph.Growth
import TermGraph.Graph.Reach

/-!
The sweep finds exactly what paths lead to. Paths go down, so a sweep that stops at `lo` has seen
every position that a path to `lo` or to the position right before it goes through; and the records
on a path are old ones, so a path is the same in every extension of the graph.
-/

namespace TermGraph

namespace Graph

variable {g g' : Graph}

/-! ### Paths -/

theorem Path.le {p q : Nat} (h : g.Path p q) : q ≤ p := by
  induction h with
  | refl p => exact Nat.le_refl p
  | step hc _ ih => exact Nat.le_trans ih (Nat.le_of_lt (lt_of_mem_childrenAt hc))

theorem Path.trans {p q r : Nat} (h : g.Path p q) (h' : g.Path q r) : g.Path p r := by
  induction h with
  | refl p => exact h'
  | step hc _ ih => exact .step hc (ih h')

theorem path_of_child {p q : Nat} (h : q ∈ g.childrenAt p) : g.Path p q := .step h (.refl q)

/-- The first step of a path, if it has one, goes to an argument. -/
theorem path_iff {p r : Nat} : g.Path p r ↔ p = r ∨ ∃ q ∈ g.childrenAt p, g.Path q r := by
  constructor
  · rintro (_ | ⟨hq, hpath⟩)
    · exact .inl rfl
    · exact .inr ⟨_, hq, hpath⟩
  · rintro (rfl | ⟨q, hq, hpath⟩)
    · exact .refl p
    · exact .step hq hpath

/-- A path that comes from somewhere else comes to its end by an argument. -/
theorem Path.exists_parent {p q : Nat} (h : g.Path p q) (hne : p ≠ q) :
    ∃ c, g.Path p c ∧ q ∈ g.childrenAt c := by
  induction h with
  | refl p => exact absurd rfl hne
  | @step p c q hc hpath ih =>
    by_cases hcq : c = q
    · exact ⟨p, .refl p, hcq ▸ hc⟩
    · obtain ⟨d, hd, hq⟩ := ih hcq
      exact ⟨d, .step hc hd, hq⟩

/-- A path from an old position is the same in every extension. -/
theorem Extends.path_iff (h : g.Extends g') {p q : Nat} (hp : p < g.size) :
    g'.Path p q ↔ g.Path p q := by
  constructor
  · intro hq
    induction hq with
    | refl p => exact .refl p
    | step hc _ ih =>
      rw [h.childrenAt_eq hp] at hc
      exact .step hc (ih (Nat.lt_trans (lt_of_mem_childrenAt hc) hp))
  · intro hq
    induction hq with
    | refl p => exact .refl p
    | step hc _ ih =>
      have hlt := Nat.lt_trans (lt_of_mem_childrenAt hc) hp
      rw [← h.childrenAt_eq hp] at hc
      exact .step hc (ih hlt)

/-! ### The sweep -/

theorem mem_foldl_insert {c : Nat} : ∀ (qs : List Nat) (marks : Std.TreeSet Nat),
    c ∈ qs.foldl .insert marks ↔ c ∈ marks ∨ c ∈ qs
  | [], marks => by simp
  | q :: qs, marks => by
    rw [List.foldl_cons, mem_foldl_insert qs, Std.TreeSet.mem_insert, List.mem_cons,
      Std.LawfulEqCmp.compare_eq_iff_eq, eq_comm, or_comm (a := c = q), or_assoc]

/-- A sweep down to `lo` marks, of the positions from right before `lo` on, those that were marked
and those that a path leads to from a mark below its start. -/
theorem mem_spread {lo c : Nat} (hc : lo ≤ c + 1) : ∀ (k : Nat) (marks : Std.TreeSet Nat),
    c ∈ g.spread lo k marks ↔ c ∈ marks ∨ ∃ p ∈ marks, p < lo + k ∧ g.Path p c
  | 0, marks => by
    rw [spread]
    constructor
    · exact .inl
    · rintro (h | ⟨p, hp, hlt, hpath⟩)
      · exact h
      · have hle := hpath.le
        have : p = c := by omega
        exact this ▸ hp
  | k + 1, marks => by
    rw [spread, mem_spread hc k]
    split
    · next hm =>
      rw [← Std.TreeSet.mem_iff_contains] at hm
      constructor
      · rintro (h | ⟨p, hp, hlt, hpath⟩)
        · rcases (mem_foldl_insert _ _).1 h with h | h
          · exact .inl h
          · exact .inr ⟨lo + k, hm, by omega, path_of_child h⟩
        · rcases (mem_foldl_insert _ _).1 hp with h | h
          · exact .inr ⟨p, h, by omega, hpath⟩
          · exact .inr ⟨lo + k, hm, by omega, .step h hpath⟩
      · rintro (h | ⟨p, hp, hlt, hpath⟩)
        · exact .inl ((mem_foldl_insert _ _).2 (.inl h))
        · by_cases hpk : p = lo + k
          · subst hpk
            cases hpath with
            | refl => exact .inl ((mem_foldl_insert _ _).2 (.inl hp))
            | step hq hpath =>
              have := lt_of_mem_childrenAt hq
              exact .inr ⟨_, (mem_foldl_insert _ _).2 (.inr hq), this, hpath⟩
          · exact .inr ⟨p, (mem_foldl_insert _ _).2 (.inl hp), by omega, hpath⟩
    · next hm =>
      rw [← Std.TreeSet.mem_iff_contains] at hm
      constructor
      · rintro (h | ⟨p, hp, hlt, hpath⟩)
        · exact .inl h
        · exact .inr ⟨p, hp, by omega, hpath⟩
      · rintro (h | ⟨p, hp, hlt, hpath⟩)
        · exact .inl h
        · have : p ≠ lo + k := fun he => hm (he ▸ hp)
          exact .inr ⟨p, hp, by omega, hpath⟩

theorem mem_singleton {c p : Nat} : c ∈ ({p} : Std.TreeSet Nat) ↔ c = p := by
  rw [Std.TreeSet.singleton_eq_insert, Std.TreeSet.mem_insert, Std.LawfulEqCmp.compare_eq_iff_eq]
  exact ⟨fun h => h.elim Eq.symm fun h => absurd h Std.TreeSet.not_mem_emptyc, fun h => .inl h.symm⟩

/-- The search above the target finds it just if a path leads there. -/
theorem reaches_iff {p q : Nat} : g.reaches p q = true ↔ g.Path p q := by
  rw [reaches, ← Std.TreeSet.mem_iff_contains, mem_spread (Nat.le_refl _)]
  constructor
  · rintro (h | ⟨r, hr, -, hpath⟩)
    · rw [mem_singleton] at h
      subst h
      exact .refl q
    · rw [mem_singleton] at hr
      subst hr
      exact hpath
  · intro h
    have hle := h.le
    by_cases hpq : p = q
    · exact .inl (mem_singleton.2 hpq.symm)
    · exact .inr ⟨p, mem_singleton.2 rfl, by omega, h⟩

theorem le_foldl_max {p : Nat} : ∀ (ps : List Nat) (top : Nat),
    p < top ∨ p ∈ ps → p < ps.foldl (fun top p => max top (p + 1)) top
  | [], top, h => by simpa using h
  | q :: qs, top, h => by
    rw [List.foldl_cons]
    refine le_foldl_max qs _ ?_
    rcases h with h | h
    · exact .inl (by omega)
    · rcases List.mem_cons.1 h with rfl | h
      · exact .inl (by omega)
      · exact .inr h

/-- The closure holds just the positions that paths lead to. -/
theorem mem_closureAt {ps : List Nat} {c : Nat} : c ∈ g.closureAt ps ↔ ∃ p ∈ ps, g.Path p c := by
  rw [closureAt, Std.TreeSet.mem_toList, mem_spread (Nat.zero_le _)]
  simp only [mem_foldl_insert, Std.TreeSet.not_mem_emptyc, false_or, Nat.zero_add]
  constructor
  · rintro (h | ⟨p, hp, -, hpath⟩)
    · exact ⟨c, h, .refl c⟩
    · exact ⟨p, hp, hpath⟩
  · rintro ⟨p, hp, hpath⟩
    exact .inr ⟨p, hp, le_foldl_max ps 0 (.inr hp), hpath⟩

/-- The closure is in ascending order, without repetitions. -/
theorem closureAt_ascending (ps : List Nat) : (g.closureAt ps).Pairwise (· < ·) :=
  Std.TreeSet.ordered_toList.imp Nat.compare_eq_lt.1

theorem closureAt_nodup (ps : List Nat) : (g.closureAt ps).Nodup :=
  (closureAt_ascending ps).imp Nat.ne_of_lt

/-! ### Nodes -/

theorem closure_singleton (n : Node) :
    g.closure [n] = (g.locate n).map fun p => g.closureAt [p.val] := by
  unfold closure
  rw [List.mapM_cons]
  cases g.locate n <;> rfl

theorem locate_node {p : Nat} (hp : p < g.size) : g.locate (g.node p) = .ok ⟨p, hp⟩ := by
  exact (if_pos rfl).trans (dif_pos hp)

theorem closure_node {p : Nat} (hp : p < g.size) : g.closure [g.node p] = .ok (g.closureAt [p]) := by
  rw [closure_singleton, locate_node hp]
  rfl

theorem contains_node {p q : Nat} (hp : p < g.size) (hq : q < g.size) :
    g.contains (g.node p) (g.node q) = .ok (g.reaches p q) := by
  rw [contains, locate_node hp, locate_node hq]
  rfl

/-- One node contains another just if both are of the graph and a path leads down. -/
theorem contains_iff {n c : Node} : g.contains n c = .ok true ↔
    ∃ p q, p < g.size ∧ n = g.node p ∧ c = g.node q ∧ g.Path p q := by
  constructor
  · intro h
    unfold contains at h
    cases hn : g.locate n with
    | error e => rw [hn] at h; cases h
    | ok p =>
      cases hc : g.locate c with
      | error e => rw [hn, hc] at h; cases h
      | ok q =>
        rw [hn, hc] at h
        exact ⟨p, q, p.isLt, eq_node_of_locate hn, eq_node_of_locate hc,
          reaches_iff.1 (Except.ok.inj h)⟩
  · rintro ⟨p, q, hp, rfl, rfl, hpath⟩
    rw [contains_node hp (Nat.lt_of_le_of_lt hpath.le hp), reaches_iff.2 hpath]

theorem contains_trans {n c d : Node} (h : g.contains n c = .ok true)
    (h' : g.contains c d = .ok true) : g.contains n d = .ok true := by
  obtain ⟨p, q, hp, rfl, rfl, hpq⟩ := contains_iff.1 h
  obtain ⟨q', r, -, hq, rfl, hqr⟩ := contains_iff.1 h'
  cases hq
  exact contains_iff.2 ⟨p, r, hp, rfl, rfl, hpq.trans hqr⟩

/-- What an old node contains is settled: later records change nothing. -/
theorem contains_of_extended (h : g.Extends g') {n c : Node} {p : Fin g.size}
    (hn : g.locate n = .ok p) (hc : g'.contains n c = .ok true) : g.contains n c = .ok true := by
  obtain ⟨p', q, -, hn', rfl, hpath⟩ := contains_iff.1 hc
  rw [eq_node_of_locate hn] at hn' ⊢
  have hp : p.val = p' := congrArg Node.index hn'
  subst hp
  exact contains_iff.2 ⟨p, q, p.isLt, rfl, h.node_eq q, (h.path_iff p.isLt).1 hpath⟩

end Graph

end TermGraph
