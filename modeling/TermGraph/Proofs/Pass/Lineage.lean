import TermGraph.Proofs.Graph.Notes

/-!
Where a node came from. A lineage takes the oldest replacement noted for a node, goes on with the
node that was replaced, and so on. Notes can be written by hand and passes can replace a node by an
older one, so replacements may lead in a circle and positions in the graph bound nothing: what
shrinks is the number of nodes not met yet.

The module says what a chain of replacements is that goes on as long as it may
(`Graph.ChainFrom`): the lineage of a node is that chain and no other, and it is there after at most
as many turns as the graph has records. The notes that it goes by are all that the records hold.
-/

namespace TermGraph

namespace Graph

variable {g : Graph} {n : Node} {seen : List Node} {c : Replacement} {chain : List Replacement}

/-! ### The end of the loop -/

theorem lineageFrom_error {e : Error} (h : g.provenance n = .error e) :
    g.lineageFrom seen n = .error e := by
  rw [lineageFrom]
  split <;> simp_all

/-- The loop of a lineage, given up after so many turns. -/
def lineageWithin (g : Graph) : Nat → List Node → Node → Option (Except Error (List Replacement))
  | 0, _, _ => none
  | turns + 1, seen, n =>
    match g.provenance n with
    | .error e => some (.error e)
    | .ok [] => some (.ok [])
    | .ok (r :: _) =>
      if r.replaced ∈ seen then some (.ok [r])
      else (g.lineageWithin turns (r.replaced :: seen) r.replaced).map fun rest => rest.map (r :: ·)

/-- A turn for each node that was not met yet is enough, and one to stop. -/
theorem lineageWithin_eq : ∀ (turns : Nat) (seen : List Node) (n : Node), g.unseen seen < turns →
    g.lineageWithin turns seen n = some (g.lineageFrom seen n) := by
  intro turns
  induction turns with
  | zero => exact fun seen n h => absurd h (Nat.not_lt_zero _)
  | succ turns ih =>
    intro seen n h
    rcases hn : g.provenance n with e | _ | ⟨r, rs⟩
    · rw [lineageFrom_error hn, lineageWithin, hn]
    · rw [lineageFrom_nil hn, lineageWithin, hn]
    · rw [lineageFrom_cons hn]
      by_cases hr : r.replaced ∈ seen
      · simp [lineageWithin, hn, hr]
      · have hlt := unseen_lt (mem_nodes_of_provenance hn (List.mem_cons_self ..)) hr
        have hrest := ih (r.replaced :: seen) r.replaced (by omega)
        simp [lineageWithin, hn, hr, hrest]

theorem unseen_singleton_lt (h : n ∈ g.nodes) : g.unseen [n] < g.size := by
  have hlt := unseen_lt h (List.not_mem_nil (a := n))
  simpa [unseen, nodes] using hlt

/-! ### Chains of replacements -/

/-- The oldest replacement noted for the node. -/
def FirstNoted (g : Graph) (n : Node) (c : Replacement) : Prop := ∃ rs, g.provenance n = .ok (c :: rs)

/-- The chain goes back from `n`, always by the oldest replacement noted. Before its last link it
meets no node twice, nor one of those met already, and it stops only where nothing is noted or where
its last link leads to a node that was met. -/
structure ChainFrom (g : Graph) (seen : List Node) (n : Node) (chain : List Replacement) : Prop where
  first : ∀ c ∈ chain.head?, g.FirstNoted n c
  next : chain.IsChain fun c d => g.FirstNoted c.replaced d
  distinct : (seen ++ chain.dropLast.map (·.replaced)).Nodup
  empty : chain = [] → g.provenance n = .ok []
  last : ∀ c ∈ chain.getLast?, g.provenance c.replaced = .ok [] ∨
    c.replaced ∈ seen ++ chain.dropLast.map (·.replaced)

theorem chainFrom_nil_iff : g.ChainFrom seen n [] ↔ seen.Nodup ∧ g.provenance n = .ok [] := by
  constructor
  · intro h
    exact ⟨by simpa using h.distinct, h.empty rfl⟩
  · rintro ⟨hseen, hn⟩
    exact ⟨by simp, .nil, by simpa using hseen, fun _ => hn, by simp⟩

theorem chainFrom_singleton_iff : g.ChainFrom seen n [c] ↔ seen.Nodup ∧ g.FirstNoted n c ∧
    (g.provenance c.replaced = .ok [] ∨ c.replaced ∈ seen) := by
  constructor
  · intro h
    exact ⟨by simpa using h.distinct, h.first c rfl, by simpa using h.last c rfl⟩
  · rintro ⟨hseen, hc, hlast⟩
    exact ⟨by simpa using hc, .singleton c, by simpa using hseen, by simp, by simpa using hlast⟩

/-- From its second link on, a chain goes back from the node that was replaced first, which is met by
then. -/
theorem chainFrom_cons_cons_iff {d : Replacement} : g.ChainFrom seen n (c :: d :: chain) ↔
    g.FirstNoted n c ∧ g.ChainFrom (c.replaced :: seen) c.replaced (d :: chain) := by
  have hmet : ∀ (m : Node) (ms : List Node),
      m ∈ seen ++ c.replaced :: ms ↔ m ∈ (c.replaced :: seen) ++ ms := by
    intro m ms
    simp [or_left_comm]
  constructor
  · intro h
    obtain ⟨hd, hnext⟩ := List.isChain_cons_cons.1 h.next
    refine ⟨h.first c rfl, by simpa using hd, hnext, ?_, by simp, ?_⟩
    · exact List.nodup_middle.1 h.distinct
    · intro e he
      exact (h.last e (by simpa using he)).imp_right (hmet _ _).1
  · rintro ⟨hc, h⟩
    refine ⟨by simpa using hc, .cons_cons (h.first d rfl) h.next, ?_, by simp, ?_⟩
    · exact List.nodup_middle.2 h.distinct
    · intro e he
      exact (h.last e (by simpa using he)).imp_right (hmet _ _).2

theorem ChainFrom.nodup (h : g.ChainFrom seen n chain) : seen.Nodup :=
  (List.nodup_append.1 h.distinct).1

/-! ### What the loop collects -/

theorem lineageFrom_eq_nil_iff : g.lineageFrom seen n = .ok [] ↔ g.provenance n = .ok [] := by
  constructor
  · intro h
    rcases hn : g.provenance n with e | _ | ⟨r, rs⟩
    · rw [lineageFrom_error hn] at h
      cases h
    · rfl
    · rw [lineageFrom_cons hn] at h
      split at h
      · cases h
      · obtain ⟨rest, -, hrest⟩ := ok_of_map_ok h
        cases hrest
  · exact lineageFrom_nil

theorem lineageFrom_eq_cons_iff : g.lineageFrom seen n = .ok (c :: chain) ↔ g.FirstNoted n c ∧
    if c.replaced ∈ seen then chain = []
    else g.lineageFrom (c.replaced :: seen) c.replaced = .ok chain := by
  constructor
  · intro h
    rcases hn : g.provenance n with e | _ | ⟨r, rs⟩
    · rw [lineageFrom_error hn] at h
      cases h
    · rw [lineageFrom_nil hn] at h
      cases h
    · rw [lineageFrom_cons hn] at h
      split at h
      · next hr =>
        cases h
        exact ⟨⟨rs, hn⟩, by simp [hr]⟩
      · next hr =>
        obtain ⟨rest, hrest, heq⟩ := ok_of_map_ok h
        cases heq
        exact ⟨⟨rs, hn⟩, by simp [hr, hrest]⟩
  · rintro ⟨⟨rs, hn⟩, h⟩
    rw [lineageFrom_cons hn]
    by_cases hc : c.replaced ∈ seen
    · simp_all
    · rw [if_neg hc] at h ⊢
      rw [h]
      rfl

/-- The loop collects the chain from its node, and there is no other. -/
theorem lineageFrom_eq_ok_iff (hseen : seen.Nodup) :
    g.lineageFrom seen n = .ok chain ↔ g.ChainFrom seen n chain := by
  -- on the links still to come, so that the nodes met grow as in the loop
  induction chain generalizing seen n with
  | nil => simp [lineageFrom_eq_nil_iff, chainFrom_nil_iff, hseen]
  | cons c chain ih =>
    rw [lineageFrom_eq_cons_iff]
    rcases chain with _ | ⟨d, chain⟩
    · by_cases hc : c.replaced ∈ seen
      · simp [chainFrom_singleton_iff, hseen, hc]
      · simp [chainFrom_singleton_iff, hseen, hc, lineageFrom_eq_nil_iff]
    · rw [chainFrom_cons_cons_iff]
      refine and_congr_right fun _ => ?_
      by_cases hc : c.replaced ∈ seen
      · simp only [hc, if_true, reduceCtorEq, false_iff]
        intro h
        exact (List.nodup_cons.1 h.nodup).1 hc
      · rw [if_neg hc]
        exact ih (List.nodup_cons.2 ⟨hc, hseen⟩)

/-- The lineage of a node is there after at most as many turns as the graph has records. It is the
chain of the oldest replacements that goes on as long as it may, and the only one. What is noted
about the node is read off the records that say so, each listed once, in their order. -/
theorem lineage_maximal (h : n ∈ g.nodes) :
    (∃ chain, (∀ turns, g.size ≤ turns → g.lineageWithin turns [n] n = some (.ok chain)) ∧
      g.lineage n = .ok chain ∧ g.ChainFrom [n] n chain ∧
      ∀ other, g.ChainFrom [n] n other → other = chain) ∧
    ∃ rs, g.provenance n = .ok rs ∧
      rs.Pairwise (fun r s => r.record.index < s.record.index) ∧
      ∀ r, r ∈ rs ↔ g.read r.record
        = .ok ⟨r.record, historyHead, [.str r.pass, .node n, .node r.replaced]⟩ := by
  refine ⟨?_, g.noted n, provenance_eq h, pairwise_noted g n, fun r => mem_noted_iff⟩
  have hrefusal := g.refusal?_lineageFrom [n] n
  rw [refusal?_locate_eq_none.2 h] at hrefusal
  obtain ⟨chain, hchain⟩ := refusal?_eq_none.1 hrefusal
  refine ⟨chain, fun turns hturns => ?_, hchain,
    (lineageFrom_eq_ok_iff (List.nodup_singleton n)).1 hchain, fun other hother => ?_⟩
  · rw [lineageWithin_eq turns [n] n (Nat.lt_of_lt_of_le (unseen_singleton_lt h) hturns), hchain]
  · rw [← lineageFrom_eq_ok_iff (List.nodup_singleton n), hchain] at hother
    exact (Except.ok.inj hother).symm

/-- Two records and two notes written by hand, each of which says that one of the records replaced
the other. -/
def circle : Graph :=
  let g := (((Graph.empty 0).append "a" []).2.append "b" []).2
  let g := (g.append historyHead [.str "down", .node (g.node 1), .node (g.node 0)]).2
  (g.append historyHead [.str "up", .node (g.node 0), .node (g.node 1)]).2

theorem lineage_maximal_circle : circle.node 1 ∈ circle.nodes ∧
    circle.lineage (circle.node 1)
      = .ok [⟨"down", circle.node 0, circle.node 2⟩, ⟨"up", circle.node 1, circle.node 3⟩] ∧
    circle.ChainFrom [circle.node 1] (circle.node 1)
      [⟨"down", circle.node 0, circle.node 2⟩, ⟨"up", circle.node 1, circle.node 3⟩] := by
  have hmem : circle.node 1 ∈ circle.nodes := by decide
  have hlineage : circle.lineage (circle.node 1)
      = .ok [⟨"down", circle.node 0, circle.node 2⟩, ⟨"up", circle.node 1, circle.node 3⟩] := by
    rw [lineage, lineageFrom_cons (show _ = Except.ok [_] from rfl), if_neg (by decide),
      lineageFrom_cons (show _ = Except.ok [_] from rfl), if_pos (by decide)]
    rfl
  obtain ⟨chain, -, hchain, hmaximal, -⟩ := (lineage_maximal hmem).1
  rw [hlineage] at hchain
  cases hchain
  exact ⟨hmem, hlineage, hmaximal⟩

end Graph

end TermGraph
