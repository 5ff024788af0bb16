import TermGraph.Pass.Basic
import TermGraph.Proofs.Routine

/-!
A pass, visit by visit. `Pass.Visited` lists all that one visit can come to; what a pass keeps from
visit to visit is read off it, and what it keeps from run to run follows by `Routine.run_forM_keeps`.
-/

namespace TermGraph

variable {σ C : Type}

/-- Is the term, as the result of a node, another node? -/
def Term.replaces (n : Node) (t : Term C) : Bool :=
  match t.node? with
  | some m => decide (m ≠ n)
  | none => false

theorem Term.replaces_eq_true {n m : Node} {t : Term C} (ht : t.node? = some m) (hmn : m ≠ n) :
    t.replaces n = true := by
  simp [replaces, ht, hmn]

theorem Term.replaces_eq_false {n : Node} {t : Term C} (ht : ∀ m, t.node? = some m → m = n) :
    t.replaces n = false := by
  unfold replaces
  split
  · next m hm => simp [ht m hm]
  · rfl

namespace Pass

/-! ### The steps of a visit -/

theorem run_within {α : Type} (a : Action σ α) (p : Pass σ C) (g : Graph) :
    Routine.run (within a) p g =
      match Routine.run a p.state g with
      | (r, s, g) => (r, { p with state := s }, g) := by
  simp only [Routine.run, within]
  rw [Script.run_bind]
  rfl

theorem run_dispatch (x : Expr) (p : Pass σ C) (g : Graph) :
    Routine.run (dispatch x) p g =
      match x.args.mapM (resultOf p.memo) with
      | .error e => (.error e, p, g)
      | .ok args =>
        match Routine.run (p.ruleFor x x args) p.state g with
        | (r, s, g) => (r, { p with state := s }, g) := by
  rw [dispatch, Routine.run_bind, Routine.run_get]
  dsimp only
  rw [Routine.run_bind, Routine.run_lift]
  cases x.args.mapM (resultOf p.memo) with
  | error e => rfl
  | ok args =>
    dsimp only
    rw [Routine.run_bind, Routine.run_get]
    exact run_within _ p g

theorem run_note (n m : Node) (p : Pass σ C) (g : Graph) :
    Routine.run (note n m) p g =
      if p.keepsHistory then
        match g.append historyHead [.str p.name, .node m, .node n] with
        | (.ok _, g) => (.ok (), { p with replaced := p.replaced + 1 }, g)
        | (.error e, g) => (.error e, { p with replaced := p.replaced + 1 }, g)
      else (.ok (), { p with replaced := p.replaced + 1 }, g) := by
  rw [note, Routine.run_bind, Routine.run_modify]
  dsimp only
  rw [Routine.run_bind, Routine.run_get]
  cases hh : p.keepsHistory with
  | false => rfl
  | true =>
    simp only [if_true]
    rw [Routine.run_bind, Routine.run_append]
    rcases g.append historyHead [.str p.name, .node m, .node n] with ⟨e | k, g'⟩ <;> rfl

theorem run_rebuild (x : Expr) (args : List (Term C)) (s : σ) (g : Graph) :
    Routine.run (rebuild x args (x.changed args) : Action σ (Term C)) s g =
      if x.changed args then
        match args.mapM Term.value? with
        | some vs =>
          match g.append x.head vs with
          | (r, g) => (r.map Term.node, s, g)
        | none => (.error (.unknownHead x.head), s, g)
      else (.ok (.node x.node), s, g) := by
  rw [rebuild]
  split
  · cases args.mapM Term.value? with
    | some vs =>
      dsimp only
      rw [Routine.run_map, Routine.run_append]
    | none => rfl
  · rfl

/-- The rule that applies to `n` is called with the results of its arguments and comes to `r`. -/
structure Ruled (p : Pass σ C) (g : Graph) (n : Node) (r : Except Error (Term C)) (s : σ)
    (g' : Graph) (x : Expr) (args : List (Term C)) : Prop where
  new : n ∉ p.memo
  read : g.read n = .ok x
  results : x.args.mapM (resultOf p.memo) = .ok args
  called : Routine.run (p.ruleFor x x args) p.state g = (r, s, g')

theorem Ruled.extends_graph {p : Pass σ C} {g g' : Graph} {n : Node} {r : Except Error (Term C)}
    {s : σ} {x : Expr} {args : List (Term C)} (h : p.Ruled g n r s g' x args) : g.Extends g' := by
  have := Routine.extends_run (p.ruleFor x x args) p.state g
  rw [h.called] at this
  exact this

/-! ### How far a visit gets -/

section

variable {p : Pass σ C} {g g' : Graph} {n : Node} {s : σ} {x : Expr} {args : List (Term C)}

theorem Ruled.run_dispatch_eq {r : Except Error (Term C)} (h : p.Ruled g n r s g' x args) :
    Routine.run (dispatch x) p g = (r, { p with state := s }, g') := by
  rw [run_dispatch, h.results]
  dsimp only
  rw [h.called]

/-- The pass once `n` has the result `t` and the rules' state is `s`. -/
def settle (p : Pass σ C) (n : Node) (t : Term C) (s : σ) : Pass σ C :=
  let replaced := p.replaced + (t.replaces n).toNat
  { p with state := s, memo := p.memo.insert n t, replaced }

theorem settle_of_replaces {t : Term C} (s : σ) (h : t.replaces n = true) : p.settle n t s
    = { p with state := s, memo := p.memo.insert n t, replaced := p.replaced + 1 } := by
  rw [settle, h]
  rfl

theorem settle_of_own {t : Term C} (s : σ) (h : t.replaces n = false) :
    p.settle n t s = { p with state := s, memo := p.memo.insert n t } := by
  rw [settle, h]
  rfl

/-- How far a visit of `n` gets: there is a result already, the node cannot be read, an argument has
no result, or the rule is called. -/
inductive Begins (p : Pass σ C) (g : Graph) (n : Node) : Prop
  | known : n ∈ p.memo → Begins p g n
  | unread {e : Error} : n ∉ p.memo → g.read n = .error e → Begins p g n
  | missing {x : Expr} {e : Error} : n ∉ p.memo → g.read n = .ok x →
    x.args.mapM (resultOf p.memo) = .error e → Begins p g n
  | ruled {r : Except Error (Term C)} {s : σ} {g' : Graph} {x : Expr} {args : List (Term C)} :
    p.Ruled g n r s g' x args → Begins p g n

theorem begins (p : Pass σ C) (g : Graph) (n : Node) : p.Begins g n := by
  by_cases hmem : n ∈ p.memo
  · exact .known hmem
  cases hread : g.read n with
  | error e => exact .unread hmem hread
  | ok x =>
    cases hargs : x.args.mapM (resultOf p.memo) with
    | error e => exact .missing hmem hread hargs
    | ok args => exact .ruled ⟨hmem, hread, hargs, rfl⟩

theorem run_visit_of_mem (h : n ∈ p.memo) : Routine.run (visit n) p g = (.ok (), p, g) := by
  rw [visit, Routine.run_bind, Routine.run_get]
  dsimp only
  rw [if_pos (Std.TreeMap.contains_iff_mem.2 h)]
  rfl

theorem run_visit_of_unread {e : Error} (hnew : n ∉ p.memo) (h : g.read n = .error e) :
    Routine.run (visit n) p g = (.error e, p, g) := by
  rw [visit, Routine.run_bind, Routine.run_get]
  dsimp only
  rw [if_neg fun hc => hnew (Std.TreeMap.contains_iff_mem.1 hc), Routine.run_bind, Routine.read,
    Routine.run_look, h]

theorem run_visit_of_missing {e : Error} (hnew : n ∉ p.memo) (hread : g.read n = .ok x)
    (h : x.args.mapM (resultOf p.memo) = .error e) :
    Routine.run (visit n) p g = (.error e, p, g) := by
  rw [visit, Routine.run_bind, Routine.run_get]
  dsimp only
  rw [if_neg fun hc => hnew (Std.TreeMap.contains_iff_mem.1 hc), Routine.run_bind, Routine.read,
    Routine.run_look, hread]
  dsimp only
  rw [Routine.run_bind, run_dispatch, h]

/-- What a visit makes of the term that the rule comes to. -/
theorem Ruled.run_visit {r : Except Error (Term C)} (h : p.Ruled g n r s g' x args) :
    Routine.run (visit n) p g =
      match r with
      | .error e => (.error e, { p with state := s }, g')
      | .ok t =>
        match t.node? with
        | none => (.ok (), p.settle n t s, g')
        | some m =>
          if m ≠ n ∧ p.keepsHistory = true then
            match g'.append historyHead [.str p.name, .node m, .node n] with
            | (.ok _, g'') => (.ok (), p.settle n t s, g'')
            | (.error e, g'') => (.error e, { p with state := s, replaced := p.replaced + 1 }, g'')
          else (.ok (), p.settle n t s, g') := by
  rw [visit, Routine.run_bind, Routine.run_get]
  dsimp only
  rw [if_neg fun hc => h.new (Std.TreeMap.contains_iff_mem.1 hc), Routine.run_bind, Routine.read,
    Routine.run_look, h.read]
  dsimp only
  rw [Routine.run_bind, h.run_dispatch_eq]
  cases r with
  | error e => rfl
  | ok t =>
    dsimp only
    cases ht : t.node? with
    | none =>
      rw [settle_of_own s (Term.replaces_eq_false fun m hm => by rw [ht] at hm; cases hm)]
      rfl
    | some m =>
      by_cases hmn : m = n
      · subst hmn
        rw [settle_of_own s (Term.replaces_eq_false fun k hk => by rw [ht] at hk; cases hk; rfl)]
        simp only [ne_eq, not_true_eq_false, if_false, false_and]
        rfl
      · rw [settle_of_replaces s (Term.replaces_eq_true ht hmn)]
        simp only [ne_eq, hmn, not_false_eq_true, if_true, true_and]
        rw [Routine.run_bind, run_note]
        dsimp only
        by_cases hkeeps : p.keepsHistory = true
        · rw [if_pos hkeeps, if_pos hkeeps]
          rcases g'.append historyHead [.str p.name, .node m, .node n] with ⟨e | k, g''⟩ <;> rfl
        · rw [if_neg hkeeps, if_neg hkeeps]
          rfl

end

/-! ### What a visit comes to -/

/-- What a visit of `n` can come to. -/
inductive Visited (p : Pass σ C) (g : Graph) (n : Node) :
    Except Error Unit × Pass σ C × Graph → Prop
  /-- There is a result already. -/
  | known : n ∈ p.memo → Visited p g n (.ok (), p, g)
  /-- The node cannot be read. -/
  | unread {e : Error} : n ∉ p.memo → g.read n = .error e → Visited p g n (.error e, p, g)
  /-- An argument has no result. -/
  | missing {x : Expr} {e : Error} : n ∉ p.memo → g.read n = .ok x →
    x.args.mapM (resultOf p.memo) = .error e → Visited p g n (.error e, p, g)
  /-- The rule fails. -/
  | fails {e : Error} {s : σ} {g' : Graph} {x : Expr} {args : List (Term C)} :
    Ruled p g n (.error e) s g' x args → Visited p g n (.error e, { p with state := s }, g')
  /-- The result is no node or the node itself. -/
  | plain {t : Term C} {s : σ} {g' : Graph} {x : Expr} {args : List (Term C)} :
    Ruled p g n (.ok t) s g' x args → (∀ m, t.node? = some m → m = n) →
      Visited p g n (.ok (), { p with state := s, memo := p.memo.insert n t }, g')
  /-- The result is another node, and no notes are kept. -/
  | replaced {t : Term C} {m : Node} {s : σ} {g' : Graph} {x : Expr} {args : List (Term C)} :
    Ruled p g n (.ok t) s g' x args → t.node? = some m → m ≠ n → p.keepsHistory = false →
      Visited p g n (.ok (),
        { p with state := s, memo := p.memo.insert n t, replaced := p.replaced + 1 }, g')
  /-- The result is another node, and that is noted. -/
  | noted {t : Term C} {m k : Node} {s : σ} {g' g'' : Graph} {x : Expr} {args : List (Term C)} :
    Ruled p g n (.ok t) s g' x args → t.node? = some m → m ≠ n → p.keepsHistory = true →
      g'.append historyHead [.str p.name, .node m, .node n] = (.ok k, g'') →
      Visited p g n (.ok (),
        { p with state := s, memo := p.memo.insert n t, replaced := p.replaced + 1 }, g'')
  /-- The result is another node, and noting that fails. -/
  | unnoted {e : Error} {t : Term C} {m : Node} {s : σ} {g' g'' : Graph} {x : Expr}
    {args : List (Term C)} :
    Ruled p g n (.ok t) s g' x args → t.node? = some m → m ≠ n → p.keepsHistory = true →
      g'.append historyHead [.str p.name, .node m, .node n] = (.error e, g'') →
      Visited p g n (.error e, { p with state := s, replaced := p.replaced + 1 }, g'')

theorem visited (p : Pass σ C) (g : Graph) (n : Node) :
    Visited p g n (Routine.run (visit n) p g) := by
  cases begins p g n with
  | known hmem =>
    rw [run_visit_of_mem hmem]
    exact .known hmem
  | unread hnew hread =>
    rw [run_visit_of_unread hnew hread]
    exact .unread hnew hread
  | missing hnew hread hargs =>
    rw [run_visit_of_missing hnew hread hargs]
    exact .missing hnew hread hargs
  | @ruled r s g' x args h =>
    rw [h.run_visit]
    cases r with
    | error e => exact .fails h
    | ok t =>
      dsimp only
      cases ht : t.node? with
      | none =>
        have hown : ∀ m, t.node? = some m → m = n := fun m hm => by
          rw [ht] at hm
          cases hm
        rw [settle_of_own s (Term.replaces_eq_false hown)]
        exact .plain h hown
      | some m =>
        dsimp only
        by_cases hmn : m = n
        · have hown : ∀ k, t.node? = some k → k = n := fun k hk => by
            rw [ht] at hk
            exact (Option.some.inj hk).symm.trans hmn
          rw [if_neg fun hnote => hnote.1 hmn, settle_of_own s (Term.replaces_eq_false hown)]
          exact .plain h hown
        rw [settle_of_replaces s (Term.replaces_eq_true ht hmn)]
        by_cases hkeeps : p.keepsHistory = true
        · rw [if_pos ⟨hmn, hkeeps⟩]
          obtain ⟨⟨e | k, g''⟩, hnote⟩ :
            ∃ r, g'.append historyHead [.str p.name, .node m, .node n] = r := ⟨_, rfl⟩
          · rw [hnote]
            exact .unnoted h ht hmn hkeeps hnote
          · rw [hnote]
            exact .noted h ht hmn hkeeps hnote
        · rw [if_neg fun hnote => hkeeps hnote.2]
          exact .replaced h ht hmn (Bool.eq_false_iff.2 hkeeps)

/-- A visit leaves name, settings and rules as they are. -/
theorem visit_settings (n : Node) (p : Pass σ C) (g : Graph) : ∃ memo replaced state,
    (Routine.run (visit n) p g).2.1 = { p with memo, replaced, state } := by
  have hv := visited p g n
  generalize Routine.run (visit n) p g = out at hv
  cases hv <;> exact ⟨_, _, _, rfl⟩

/-! ### Runs -/

/-- A run is a walk and a look at the root's result. -/
theorem run_run (root : Node) (p : Pass σ C) (g : Graph) :
    Routine.run (run root) p g =
      match Routine.run (walk .needed root visit) p g with
      | (.error e, p, g) => (.error e, p, g)
      | (.ok _, p, g) =>
        match p.result? root with
        | some t => (.ok t, p, g)
        | none => ((g.head root).bind fun head => .error (.unknownHead head), p, g) := by
  rw [run, Routine.run_bind]
  rcases Routine.run (walk .needed root visit) p g with ⟨e | u, p', g'⟩
  · rfl
  dsimp only
  rw [Routine.run_bind, Routine.run_get]
  dsimp only
  cases p'.result? root with
  | some t => rfl
  | none =>
    dsimp only
    rw [Routine.run_bind, Routine.run_look]
    cases g'.head root <;> rfl

/-- What a run leaves behind is what its walk does. -/
theorem run_run_snd (root : Node) (p : Pass σ C) (g : Graph) :
    (Routine.run (run root) p g).2 = (Routine.run (walk .needed root visit) p g).2 := by
  rw [run_run]
  rcases Routine.run (walk .needed root visit) p g with ⟨e | u, p', g'⟩
  · rfl
  · dsimp only
    cases p'.result? root <;> rfl

end Pass

end TermGraph
