import TermGraph.Proofs.Pass.Walked

/-!
The calls of rules that visits make. A visit calls a rule unless the node has a result, cannot be
read or has an argument without a result; so the calls of a row of visits can be listed, each with
what it came to and the graph before and after it. A pass whose rules list their own calls lists the
same ones (`run_forM_listed`).
-/

namespace TermGraph

namespace Pass

variable {σ C : Type}

/-- A call of the rule that applies to an expression. -/
structure Attempt (C : Type) where
  expr : Expr
  outcome : Except Error (Term C)
  before : Graph
  after : Graph
  /-- Did the node get a result by it? -/
  settled : Bool

/-- The call that a visit of `n` makes, if it makes one. -/
def attempt? (p : Pass σ C) (g : Graph) (n : Node) : Option (Attempt C) :=
  if p.memo.contains n then none
  else
    match g.read n with
    | .error _ => none
    | .ok x =>
      match x.args.mapM (resultOf p.memo) with
      | .error _ => none
      | .ok args =>
        match Routine.run (p.ruleFor x x args) p.state g with
        | (outcome, _, after) =>
          some ⟨x, outcome, g, after, (Routine.run (visit n) p g).2.1.memo.contains n⟩

/-- The calls that visits in a row make, up to the first failure. -/
def attempts : List Node → Pass σ C → Graph → List (Attempt C)
  | [], _, _ => []
  | n :: ns, p, g =>
    (p.attempt? g n).toList ++
      match Routine.run (visit n) p g with
      | (.ok _, p, g) => attempts ns p g
      | (.error _, _) => []

variable {p : Pass σ C} {g g' : Graph} {n : Node} {r : Except Error (Term C)} {s : σ} {x : Expr}
  {args : List (Term C)} {a : Attempt C}

theorem attempt?_of_mem (h : n ∈ p.memo) : p.attempt? g n = none :=
  if_pos (Std.TreeMap.contains_iff_mem.2 h)

theorem attempt?_of_unread {e : Error} (h : g.read n = .error e) : p.attempt? g n = none := by
  rw [attempt?, h]
  split <;> rfl

theorem attempt?_of_missing {e : Error} (hread : g.read n = .ok x)
    (h : x.args.mapM (resultOf p.memo) = .error e) : p.attempt? g n = none := by
  rw [attempt?, hread]
  dsimp only
  rw [h]
  split <;> rfl

theorem Ruled.attempt?_eq (h : p.Ruled g n r s g' x args) : p.attempt? g n
    = some ⟨x, r, g, g', (Routine.run (visit n) p g).2.1.memo.contains n⟩ := by
  rw [attempt?, if_neg fun hc => h.new (Std.TreeMap.contains_iff_mem.1 hc), h.read]
  dsimp only
  rw [h.results]
  dsimp only
  rw [h.called]

/-- The calls of a row of visits whose first settles its node. -/
theorem Settles.attempts_cons {t : Term C} {g₁ p' g''} {ns : List Node}
    (h : p.Settles g n t s x args g₁ g') (hvisit : Routine.run (visit n) p g = (.ok (), p', g'')) :
    attempts (n :: ns) p g
      = ⟨x, .ok t, g, g₁, p'.memo.contains n⟩ :: attempts ns p' g'' := by
  rw [attempts, h.toRuled.attempt?_eq, hvisit]
  rfl

/-! ### Rules that list their calls -/

/-- The rule, made to list the expressions that it is called with. -/
def listing (rule : Rule σ C) : Rule (σ × List Expr) C :=
  fun x args => Routine.noting (rule x args) x

theorem run_listing (rule : Rule σ C) (x : Expr) (args : List (Term C)) (s : σ) (calls : List Expr)
    (g : Graph) : Routine.run (listing rule x args) (s, calls) g =
      match Routine.run (rule x args) s g with
      | (r, s, g) => (r, (s, calls ++ [x]), g) :=
  Routine.run_noting (rule x args) x s calls g

/-- The pass, made to list its calls of rules after those given. -/
def listed (p : Pass σ C) (calls : List Expr) : Pass (σ × List Expr) C :=
  { p with
    state := (p.state, calls)
    rules := p.rules.map fun _ rule => listing rule
    fallback := some fun x args changed =>
      listing (fun x args => (p.fallback.getD rebuild) x args changed) x args }

theorem ruleFor_listed (p : Pass σ C) (calls : List Expr) (x : Expr) :
    (p.listed calls).ruleFor x x = listing (p.ruleFor x) x := by
  rw [ruleFor, ruleFor, listed, Std.TreeMap.getElem?_map]
  cases p.rules[x.head]? <;> rfl

theorem Ruled.listed (h : p.Ruled g n r s g' x args) (calls : List Expr) :
    (p.listed calls).Ruled g n r (s, calls ++ [x]) g' x args := by
  refine ⟨h.new, h.read, h.results, ?_⟩
  rw [ruleFor_listed]
  refine (run_listing ..).trans ?_
  rw [h.called]

/-- The calls listed by a visit are those that it makes, and it does what it did. -/
theorem run_visit_listed (n : Node) (p : Pass σ C) (g : Graph) (calls : List Expr) :
    Routine.run (visit n) (p.listed calls) g =
      match Routine.run (visit n) p g with
      | (r, p', g') => (r, p'.listed (calls ++ (p.attempt? g n).toList.map Attempt.expr), g') := by
  cases begins p g n with
  | known hmem =>
    have hmem' : n ∈ (p.listed calls).memo := hmem
    rw [run_visit_of_mem hmem, run_visit_of_mem hmem', attempt?_of_mem hmem]
    simp
  | unread hnew hread =>
    have hnew' : n ∉ (p.listed calls).memo := hnew
    rw [run_visit_of_unread hnew hread, run_visit_of_unread hnew' hread, attempt?_of_unread hread]
    simp
  | missing hnew hread hargs =>
    have hnew' : n ∉ (p.listed calls).memo := hnew
    rw [run_visit_of_missing hnew hread hargs, run_visit_of_missing hnew' hread hargs,
      attempt?_of_missing hread hargs]
    simp
  | @ruled r s g' x args h =>
    rw [h.run_visit, (h.listed calls).run_visit, h.attempt?_eq]
    cases r with
    | error e => rfl
    | ok t =>
      dsimp only
      cases t.node? with
      | none => rfl
      | some m =>
        dsimp only
        by_cases hnote : m ≠ n ∧ p.keepsHistory = true
        · have hnote' : m ≠ n ∧ (p.listed calls).keepsHistory = true := hnote
          rw [if_pos hnote, if_pos hnote']
          have hname : (p.listed calls).name = p.name := rfl
          rw [hname]
          rcases g'.append historyHead [.str p.name, .node m, .node n] with ⟨e | k, g''⟩ <;> rfl
        · have hnote' : ¬ (m ≠ n ∧ (p.listed calls).keepsHistory = true) := hnote
          rw [if_neg hnote, if_neg hnote']
          rfl

/-- The calls listed by visits in a row are the attempts. -/
theorem run_forM_listed (ns : List Node) (p : Pass σ C) (g : Graph) (calls : List Expr) :
    Routine.run (ns.forM visit) (p.listed calls) g =
      match Routine.run (ns.forM visit) p g with
      | (r, p', g') => (r, p'.listed (calls ++ (attempts ns p g).map Attempt.expr), g') := by
  induction ns generalizing p g calls with
  | nil => exact congrArg (fun calls => (_, p.listed calls, g)) (List.append_nil calls).symm
  | cons n ns ih =>
    rw [Routine.run_forM_cons, Routine.run_forM_cons, run_visit_listed, attempts]
    rcases Routine.run (visit n) p g with ⟨e | u, p', g'⟩
    · simp
    · dsimp only
      rw [ih, List.map_append, List.append_assoc]

end Pass

end TermGraph
