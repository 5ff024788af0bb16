import TermGraph.Proofs.Graph.Notes
import TermGraph.Proofs.Pass.Walked

/-!
What a pass writes is what is read back. A rule that appends no notes of its own leaves what is noted
about every node as it was, so a visit adds the note of its own node, if it adds any. Main
statement: after a successful run that keeps history, what is noted about a node is what was noted
before, and then one replacement for each node that the run has replaced by it, in order; without
history nothing is noted.
-/

namespace TermGraph

variable {σ C : Type}

/-- Called on a node that is no note itself, the rule appends no note. -/
def Rule.Quiet (rule : Rule σ C) : Prop :=
  ∀ (x : Expr) (args : List (Term C)) (s : σ) (g : Graph), x.head ≠ historyHead →
    ∀ e ∈ g.added (Routine.run (rule x args) s g).2.2, e.head ≠ historyHead

/-- Rebuilding a node that is no note appends no note. -/
theorem rebuild_quiet : Rule.Quiet fun x args => (rebuild : Fallback σ C) x args (x.changed args) := by
  intro x args s g hx e he
  rw [Pass.run_rebuild] at he
  split at he
  · split at he
    · next vs _ =>
      obtain ⟨⟨err | n, g₁⟩, happ⟩ : ∃ r, g.append x.head vs = r := ⟨_, rfl⟩
      · rw [happ, Graph.eq_of_append_error happ, Graph.added_self] at he
        cases he
      · rw [happ, (Graph.appended_of_append happ).2.added_eq, List.mem_singleton] at he
        rw [he]
        exact hx
    · rw [Graph.added_self] at he
      cases he
  · rw [Graph.added_self] at he
    cases he

namespace Pass

variable {p p' p₀ : Pass σ C} {g g' g₀ g₁ : Graph} {n m root : Node} {r : Except Error (Term C)}
  {t : Term C} {s : σ} {x : Expr} {args : List (Term C)} {ns done : List Node}

/-- Rules and fallback append no notes. -/
structure Quiet (p : Pass σ C) : Prop where
  rules : ∀ (head : String) (rule : Rule σ C), p.rules[head]? = some rule → rule.Quiet
  fallback : ∀ f : Fallback σ C, p.fallback = some f →
    Rule.Quiet fun x args => f x args (x.changed args)

theorem Quiet.ruleFor (h : p.Quiet) (x : Expr) : (p.ruleFor x).Quiet := by
  unfold Pass.ruleFor
  split
  · next rule hrule => exact h.rules x.head rule hrule
  · cases hf : p.fallback with
    | none => exact rebuild_quiet
    | some f => exact h.fallback f hf

/-! ### What a visit notes -/

/-- Records that are no notes note nothing. -/
theorem noted_eq_of_quiet (hg : g.Extends g')
    (hquiet : ∀ e ∈ g.added g', e.head ≠ historyHead) (m : Node) : g'.noted m = g.noted m := by
  have hnone : (g.added g').filterMap (Replacement.ofNote? m) = [] := by
    refine List.filterMap_eq_nil_iff.2 fun e he => Option.eq_none_iff_forall_ne_some.2 fun r hr => ?_
    refine hquiet e he ?_
    rw [Replacement.ofNote?_eq_some_iff.1 hr]
  rw [Graph.noted, hg.exprs_eq, List.filterMap_append, hnone, List.append_nil]
  rfl

/-- Called on a node that is no note, the rule of a quiet pass appends none. -/
theorem Ruled.quiet (h : p.Ruled g n r s g₁ x args) (hquiet : p.Quiet)
    (hclean : g.head n ≠ .ok historyHead) : ∀ e ∈ g.added g₁, e.head ≠ historyHead := by
  intro e he
  have hx : x.head ≠ historyHead := fun hx => hclean <| by
    obtain ⟨q, hq, rfl⟩ := ok_of_map_ok h.read
    rw [Graph.head, hq, ← hx]
    rfl
  refine hquiet.ruleFor x x args p.state g hx e ?_
  rw [h.called]
  exact he

theorem Ruled.noted_eq (h : p.Ruled g n r s g₁ x args) (hquiet : p.Quiet)
    (hclean : g.head n ≠ .ok historyHead) (m : Node) : g₁.noted m = g.noted m :=
  noted_eq_of_quiet h.extends_graph (h.quiet hquiet hclean) m

/-- The note that `n` was replaced by `m` adds to what is noted about `m`. -/
theorem noted_of_appended {k : Node} (h : g.Appended historyHead [.str p.name, .node m, .node n] g') :
    g'.noted k = g.noted k ++ if k = m then [⟨p.name, n, g.node g.size⟩] else [] := by
  rw [Graph.noted, h.grown.exprs_eq, h.added_eq, List.filterMap_append]
  refine congrArg (_ ++ ·) ?_
  by_cases hk : k = m
  · have hnote : Replacement.ofNote? k ⟨g.node g.size, historyHead, [.str p.name, .node m, .node n]⟩
        = some ⟨p.name, n, g.node g.size⟩ := Replacement.ofNote?_eq_some_iff.2 (by rw [hk])
    rw [if_pos hk, List.filterMap_cons_some hnote, List.filterMap_nil]
  · rw [if_neg hk]
    refine List.filterMap_cons_none (Option.eq_none_iff_forall_ne_some.2 fun r hr => hk ?_)
    have hargs := congrArg Expr.args (Replacement.ofNote?_eq_some_iff.1 hr)
    simp at hargs
    exact hargs.2.1.symm

/-! ### What a run notes -/

/-- Has the pass replaced `n` by `m`? -/
def replacedBy (p : Pass σ C) (m n : Node) : Bool :=
  decide ((p.result? n).bind Term.node? = some m ∧ n ≠ m)

theorem replacedBy_settle (t : Term C) (s : σ) :
    (p.settle n t s).replacedBy m n = decide (t.node? = some m ∧ n ≠ m) := by
  rw [replacedBy, result?, getElem?_settle]
  rfl

theorem replacedBy_settle_of_ne {c : Node} (hc : n ≠ c) (t : Term C) (s : σ) :
    (p.settle n t s).replacedBy m c = p.replacedBy m c := by
  rw [replacedBy, result?, getElem?_settle_of_ne hc.symm]
  rfl

/-- Settling a node notes its replacement, if there is one, and nothing else. -/
theorem Settles.noted_eq (h : p.Settles g n t s x args g₁ g') (hkeeps : p.keepsHistory = true)
    (hquiet : p.Quiet) (hclean : g.head n ≠ .ok historyHead) (m : Node) : ∃ new,
      g'.noted m = g.noted m ++ new ∧ (∀ r ∈ new, r.pass = p.name)
        ∧ new.map Replacement.replaced = [n].filter ((p.settle n t s).replacedBy m) := by
  have hrule := h.toRuled.noted_eq hquiet hclean m
  rw [List.filter_singleton, replacedBy_settle]
  cases h.noted with
  | none hnone =>
    rw [hkeeps, Bool.and_true] at hnone
    have hown : ¬ (t.node? = some m ∧ n ≠ m) := fun ⟨ht, hne⟩ => by
      rw [Term.replaces_eq_true ht hne.symm] at hnone
      cases hnone
    exact ⟨[], by rw [hrule, List.append_nil], nofun, by simp [hown]⟩
  | @note k _ ht hkn _ _ happended =>
    refine ⟨_, (noted_of_appended happended).trans (by rw [hrule]), fun r hr => ?_, ?_⟩
    · split at hr
      · rw [List.mem_singleton.1 hr]
      · cases hr
    · by_cases hmk : m = k
      · subst hmk
        simp [ht, hkn.symm]
      · simp [ht, hmk, Ne.symm hmk]

/-- Beyond what was noted about a node before, there is one note for each node replaced by it. -/
theorem Walked.noted_eq (h : Walked p₀ g₀ done p g) (hkeeps : p₀.keepsHistory = true)
    (hquiet : p₀.Quiet) (hclean : ∀ n ∈ done, n ∈ g₀.nodes ∧ g₀.head n ≠ .ok historyHead)
    (m : Node) : ∃ new, g.noted m = g₀.noted m ++ new ∧ (∀ r ∈ new, r.pass = p₀.name)
      ∧ new.map Replacement.replaced = done.filter (p.replacedBy m) := by
  induction h with
  | start => exact ⟨[], (List.append_nil _).symm, nofun, rfl⟩
  | @visit done p g g₁ g' n t s x args hw hs ih =>
    obtain ⟨old, hold, hname, hreplaced⟩ := ih fun c hc => hclean c (List.mem_append_left _ hc)
    obtain ⟨hn, hhead⟩ := hclean n (List.mem_append_right _ (List.mem_cons_self ..))
    rw [← hw.grown.head_eq hn] at hhead
    have hquiet' : p.Quiet := ⟨hw.rules_eq ▸ hquiet.rules, hw.fallback_eq ▸ hquiet.fallback⟩
    obtain ⟨new, hnew, hname', hreplaced'⟩ :=
      hs.noted_eq (hw.keepsHistory_eq.trans hkeeps) hquiet' hhead m
    refine ⟨old ++ new, ?_, fun r hr => ?_, ?_⟩
    · rw [hnew, hold, List.append_assoc]
    · rcases List.mem_append.1 hr with hr | hr
      · exact hname r hr
      · exact (hname' r hr).trans hw.name_eq
    · rw [List.map_append, hreplaced, hreplaced', List.filter_append]
      refine congrArg (· ++ _) (List.filter_congr fun c hc => ?_)
      refine (replacedBy_settle_of_ne ?_ t s).symm
      rintro rfl
      exact hs.new ((hw.mem_memo_iff n).2 (.inr hc))

/-- A pass that keeps no history has made `g` into `h` and noted nothing about `m`. -/
structure Unnoting (g : Graph) (m : Node) (p : Pass σ C) (h : Graph) : Prop where
  keepsHistory_eq : p.keepsHistory = false
  quiet : p.Quiet
  grown : g.Extends h
  noted_eq : h.noted m = g.noted m

/-- Without history nothing is noted, not even by a visit that fails. -/
theorem Unnoting.visit (h : Unnoting g₀ m p g) (hn : n ∈ g₀.nodes)
    (hclean : g₀.head n ≠ .ok historyHead) :
    Unnoting g₀ m (Routine.run (visit n) p g).2.1 (Routine.run (visit n) p g).2.2 := by
  have hnoted : (Routine.run (Pass.visit n) p g).2.2.noted m = g.noted m := by
    rw [← h.grown.head_eq hn] at hclean
    have hv := visited p g n
    generalize Routine.run (Pass.visit n) p g = out at hv
    cases hv with
    | known | unread | missing => rfl
    | fails hr | plain hr | replaced hr => exact hr.noted_eq h.quiet hclean m
    | noted _ _ _ hkeeps | unnoted _ _ _ hkeeps =>
      rw [h.keepsHistory_eq] at hkeeps
      cases hkeeps
  obtain ⟨memo, replaced, state, hp⟩ := visit_settings n p g
  refine ⟨?_, ?_, h.grown.trans (Routine.extends_run _ p g), hnoted.trans h.noted_eq⟩ <;> rw [hp]
  · exact h.keepsHistory_eq
  · exact ⟨h.quiet.rules, h.quiet.fallback⟩

theorem noted_run_eq (hkeeps : p.keepsHistory = false) (hquiet : p.Quiet)
    (hns : g.reachable [root] = .ok ns)
    (hclean : ∀ n ∈ ns, n ∈ g.nodes ∧ g.head n ≠ .ok historyHead) (m : Node) :
    (Routine.run (run root) p g).2.2.noted m = g.noted m := by
  rw [run_run_snd, Routine.run_walk, Graph.visits, hns]
  have hkept := Routine.run_forM_keeps_of_mem (P := Unnoting g m)
    (fun n hn _ _ h => h.visit (hclean n hn).1 (hclean n hn).2) ⟨hkeeps, hquiet, .refl g, rfl⟩
  exact hkept.noted_eq

/-- After a successful run of a fresh pass that keeps history and whose rules write no notes of their
own, the provenance of a node is what it was before, and then one replacement for each node that
the run replaced by it, in the order of the records, with the note as its record. A run that keeps no
history changes no provenance. -/
theorem provenance_of_run (hempty : p.memo = ∅) (hquiet : p.Quiet)
    (hns : g.reachable [root] = .ok ns) (hclean : ∀ n ∈ ns, g.head n ≠ .ok historyHead) :
    (p.keepsHistory = true → ∀ t p' g', Routine.run (run root) p g = (.ok t, p', g') →
      ∀ m ∈ g'.nodes, ∃ old new, (m ∈ g.nodes → g.provenance m = .ok old) ∧ (m ∉ g.nodes → old = [])
        ∧ g'.provenance m = .ok (old ++ new)
        ∧ new.map Replacement.replaced
          = ns.filter (fun n => decide ((p'.result? n).bind Term.node? = some m ∧ n ≠ m))
        ∧ (new.map fun r => r.replaced.index).Pairwise (· < ·)
        ∧ ∀ r ∈ new, r.pass = p.name ∧ g'.read r.record
          = .ok ⟨r.record, historyHead, [.str p.name, .node m, .node r.replaced]⟩)
      ∧ (p.keepsHistory = false → ∀ r p' g', Routine.run (run root) p g = (r, p', g') →
        ∀ m ∈ g'.nodes, (m ∈ g.nodes → g'.provenance m = g.provenance m)
          ∧ (m ∉ g.nodes → g'.provenance m = .ok [])) := by
  have hnodes : ∀ n ∈ ns, n ∈ g.nodes ∧ g.head n ≠ .ok historyHead := fun n hn =>
    ⟨Graph.mem_nodes_of_mem_reachable hns hn, hclean n hn⟩
  constructor
  · intro hkeeps t p' g' hrun m hm
    have hwalked := (walked_of_run hempty hns hrun).1
    obtain ⟨new, hnew, hname, hreplaced⟩ := hwalked.noted_eq hkeeps hquiet hnodes m
    refine ⟨g.noted m, new, Graph.provenance_eq, Graph.noted_eq_nil, ?_, hreplaced, ?_, fun r hr => ?_⟩
    · rw [Graph.provenance_eq hm, hnew]
    · have hindices : (new.map fun r => r.replaced.index)
          = (new.map Replacement.replaced).map Node.index := List.map_map.symm
      rw [hindices, hreplaced]
      exact List.Pairwise.map _ (fun _ _ h => h) ((Graph.topological_of_reachable hns).ascending.filter _)
    · have hread := Graph.read_of_mem_noted (hnew ▸ List.mem_append_right _ hr)
      rw [hname r hr] at hread
      exact ⟨hname r hr, hread⟩
  · intro hkeeps r p' g' hrun m hm
    have hnoted := noted_run_eq hkeeps hquiet hns hnodes m
    rw [hrun] at hnoted
    rw [Graph.provenance_eq hm, hnoted]
    refine ⟨fun h => (Graph.provenance_eq h).symm, fun h => ?_⟩
    rw [Graph.noted_eq_nil h]

/-- Three records: an `a`, a `b`, and both joined. -/
def joined : Graph :=
  (Graph.pair.append "join" [.node (Graph.pair.node 0), .node (Graph.pair.node 1)]).2

/-- A pass that gives the record at one position for every node of one head. -/
def giving (name head : String) (k : Nat) : Pass Unit Empty :=
  Pass.on { name, state := () } head fun e _ => pure (.node ⟨e.node.graph, k⟩)

theorem giving_quiet (name head : String) (k : Nat) : (giving name head k).Quiet := by
  refine ⟨fun other rule hr => ?_, nofun⟩
  rw [giving, Pass.on, Std.TreeMap.getElem?_insert] at hr
  split at hr
  · cases hr
    intro x args s g _ e he
    have hnone : e ∈ g.added g := he
    rw [Graph.added_self] at hnone
    cases hnone
  · cases hr

theorem toSecond_quiet : Graph.toSecond.Quiet := giving_quiet "second" "a" 1

/-- The `a` is replaced by the `b`, and what joins them is rebuilt; each has its note. -/
theorem provenance_joined : ∃ t p' g',
    Routine.run (run (joined.node 2)) Graph.toSecond joined = (.ok t, p', g')
      ∧ ∃ new, g'.provenance (joined.node 4) = .ok new
        ∧ new.map Replacement.replaced = [joined.node 2]
        ∧ ∀ r ∈ new, g'.read r.record
          = .ok ⟨r.record, historyHead, [.str "second", .node (joined.node 4), .node r.replaced]⟩ := by
  have hns : joined.reachable [joined.node 2] = .ok [joined.node 0, joined.node 1, joined.node 2] :=
    rfl
  have hclean : ∀ n ∈ [joined.node 0, joined.node 1, joined.node 2],
      joined.head n ≠ .ok historyHead := by
    intro n hn hnote
    have hheads := List.mem_map_of_mem (f := joined.head) hn
    rw [hnote] at hheads
    have hall : .ok historyHead ∈ ([.ok "a", .ok "b", .ok "join"] : List (Except Error String)) :=
      hheads
    simp [historyHead, Expr.noteMark] at hall
  have hmem : joined.node 4 ∉ joined.nodes := by decide
  obtain ⟨old, new, -, hold, hprovenance, hreplaced, -, hrecords⟩ :=
    (provenance_of_run rfl toSecond_quiet hns hclean).1 rfl _ _ _ rfl (joined.node 4) (by decide)
  rw [hold hmem, List.nil_append] at hprovenance
  exact ⟨_, _, _, rfl, new, hprovenance, hreplaced, fun r hr => (hrecords r hr).2⟩

end Pass

end TermGraph
