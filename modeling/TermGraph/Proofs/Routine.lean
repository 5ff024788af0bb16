import Mathlib.Data.List.Forall2
import TermGraph.Graph.Growth
import TermGraph.Walk

/-!
What running the steps of an action comes to, one equation for each.
-/

namespace TermGraph

namespace Script

variable {α β : Type}

/-- A script after another runs where that one ended. -/
theorem run_bind (f : α → Silent β) : ∀ (s : Silent α) (g : Graph),
    run (s.bind f) g = run (f (run s g).1) (run s g).2
  | .done _, _ => rfl
  | .look next, g => run_bind f (next g) g
  | .append head args next, g =>
    run_bind f (next (g.append head args).1) (g.append head args).2
  | .ask q _, _ => q.elim

end Script

namespace Routine

variable {σ α β : Type}

theorem run_bind (a : Action σ α) (f : α → Action σ β) (s : σ) (g : Graph) :
    run (a >>= f) s g =
      match run a s g with
      | (.ok x, s, g) => run (f x) s g
      | (.error e, s, g) => (.error e, s, g) := by
  have hbind : (a >>= f) s = (a s).bind fun r =>
      (ExceptT.bindCont f r.1 : StateT σ (Script Empty Empty.elim) _) r.2 := rfl
  simp only [run]
  rw [hbind, Script.run_bind]
  rcases Script.run (a s) g with ⟨⟨e | x, s⟩, g⟩ <;> rfl

theorem run_map (f : α → β) (a : Action σ α) (s : σ) (g : Graph) :
    run (f <$> a) s g =
      match run a s g with
      | (r, s, g) => (r.map f, s, g) := by
  rw [map_eq_pure_bind, run_bind]
  rcases run a s g with ⟨e | x, s', g'⟩ <;> rfl

theorem run_get (s : σ) (g : Graph) : run (get : Action σ σ) s g = (.ok s, s, g) := rfl

theorem run_modify (f : σ → σ) (s : σ) (g : Graph) :
    run (modify f : Action σ PUnit) s g = (.ok (), f s, g) := rfl

theorem run_lift (r : Except Error α) (s : σ) (g : Graph) :
    run (lift r : Action σ α) s g = (r, s, g) := rfl

theorem run_look (f : Graph → Except Error α) (s : σ) (g : Graph) :
    run (look f : Action σ α) s g = (f g, s, g) := rfl

theorem run_append (head : String) (args : List Value) (s : σ) (g : Graph) :
    run (append head args : Action σ Node) s g
      = ((g.append head args).1, s, (g.append head args).2) := rfl

theorem run_forM_cons (visit : α → Action σ Unit) (x : α) (xs : List α) (s : σ) (g : Graph) :
    run ((x :: xs).forM visit) s g =
      match run (visit x) s g with
      | (.ok _, s, g) => run (xs.forM visit) s g
      | (.error e, s, g) => (.error e, s, g) := by
  refine (run_bind (visit x) (fun _ => xs.forM visit) s g).trans ?_
  rcases run (visit x) s g with ⟨e | u, s', g'⟩ <;> rfl

/-- What every visit of a row keeps, the row keeps, also one that fails on the way. -/
theorem run_forM_keeps_of_mem {P : σ → Graph → Prop} {visit : α → Action σ Unit} :
    ∀ {xs : List α} {s : σ} {g : Graph},
      (∀ x ∈ xs, ∀ s g, P s g → P (run (visit x) s g).2.1 (run (visit x) s g).2.2) → P s g →
      P (run (xs.forM visit) s g).2.1 (run (xs.forM visit) s g).2.2
  | [], _, _, _, h => h
  | x :: xs, s, g, hvisit, h => by
    have hx := hvisit x (List.mem_cons_self ..) s g h
    rw [run_forM_cons]
    obtain ⟨⟨e | u, s', g'⟩, hr⟩ : ∃ r, run (visit x) s g = r := ⟨_, rfl⟩
    · rw [hr] at hx ⊢
      exact hx
    · rw [hr] at hx ⊢
      exact run_forM_keeps_of_mem (fun y hy => hvisit y (List.mem_cons_of_mem _ hy)) hx

/-- What every visit keeps, a row of visits keeps, also one that fails on the way. -/
theorem run_forM_keeps {P : σ → Graph → Prop} {visit : α → Action σ Unit}
    (hvisit : ∀ x s g, P s g → P (run (visit x) s g).2.1 (run (visit x) s g).2.2)
    (xs : List α) (s : σ) (g : Graph) (h : P s g) :
    P (run (xs.forM visit) s g).2.1 (run (xs.forM visit) s g).2.2 :=
  run_forM_keeps_of_mem (fun x _ => hvisit x) h

/-- A row of visits that fails has gone well up to some member, at which it fails. -/
theorem exists_of_run_forM_error {visit : α → Action σ Unit} {e : Error} :
    ∀ {xs : List α} {s s' : σ} {g g' : Graph}, run (xs.forM visit) s g = (.error e, s', g') →
      ∃ done x rest s₁ g₁, xs = done ++ x :: rest ∧ run (done.forM visit) s g = (.ok (), s₁, g₁)
        ∧ run (visit x) s₁ g₁ = (.error e, s', g')
  | [], _, _, _, _, h => by cases h
  | x :: xs, s, s', g, g', h => by
    rw [run_forM_cons] at h
    obtain ⟨⟨e' | u, s₁, g₁⟩, hx⟩ : ∃ r, run (visit x) s g = r := ⟨_, rfl⟩
    · rw [hx] at h
      cases h
      exact ⟨[], x, xs, s, g, rfl, rfl, hx⟩
    · rw [hx] at h
      obtain ⟨done, y, rest, s₂, g₂, rfl, hdone, hy⟩ := exists_of_run_forM_error h
      refine ⟨x :: done, y, rest, s₂, g₂, rfl, ?_, hy⟩
      rw [run_forM_cons, hx]
      exact hdone

theorem run_walk (extent : Extent) (root : Node) (visit : Node → Action σ Unit) (s : σ) (g : Graph) :
    run (walk extent root visit) s g =
      match g.visits extent root with
      | .ok order => run (order.forM visit) s g
      | .error e => (.error e, s, g) := by
  rw [walk, run_bind, run_look]
  cases g.visits extent root <;> rfl

/-! ### A list on the side -/

/-- An action that also adds something to a list at its end, however it ends. -/
def noting (a : Action σ α) (x : β) : Action (σ × List β) α := fun s =>
  (a s.1).bind fun r => .done (r.1, r.2, s.2 ++ [x])

theorem run_noting (a : Action σ α) (x : β) (s : σ) (xs : List β) (g : Graph) :
    run (noting a x) (s, xs) g =
      match run a s g with
      | (r, s, g) => (r, (s, xs ++ [x]), g) := by
  simp only [run, noting]
  rw [Script.run_bind]
  rfl

/-! ### Two runs -/

/-- Both fail with the same error, or both have results that `R` relates. -/
inductive Alike (R : α → β → Prop) : Except Error α → Except Error β → Prop
  | error {e : Error} : Alike R (.error e) (.error e)
  | ok {x : α} {y : β} : R x y → Alike R (.ok x) (.ok y)

/-- Member by member alike, rows are alike: the first error is the same. -/
theorem Alike.mapM {γ δ : Type} {Q : α → β → Prop} {R : γ → δ → Prop} {f : α → Except Error γ}
    {f' : β → Except Error δ} (hf : ∀ x y, Q x y → Alike R (f x) (f' y)) {xs : List α} {ys : List β}
    (h : List.Forall₂ Q xs ys) : Alike (List.Forall₂ R) (xs.mapM f) (ys.mapM f') := by
  induction h with
  | nil => exact .ok .nil
  | @cons x y xs ys hxy _ ih =>
    rw [List.mapM_cons, List.mapM_cons]
    have hhead := hf x y hxy
    revert hhead ih
    generalize f x = r, f' y = r', xs.mapM f = rs, ys.mapM f' = rs'
    intro ih hhead
    cases hhead with
    | error => exact .error
    | ok hhead =>
      cases ih with
      | error => exact .error
      | ok htail => exact .ok (.cons hhead htail)

/-- Two runs end with the same error, or both end well and leave behind what `R` relates. -/
inductive Agree {τ : Type} (R : α × σ × Graph → β × τ × Graph → Prop) :
    Except Error α × σ × Graph → Except Error β × τ × Graph → Prop
  | error {e : Error} {s : σ} {g : Graph} {s' : τ} {g' : Graph} :
    Agree R (.error e, s, g) (.error e, s', g')
  | ok {x : α} {s : σ} {g : Graph} {y : β} {s' : τ} {g' : Graph} :
    R (x, s, g) (y, s', g') → Agree R (.ok x, s, g) (.ok y, s', g')

theorem Agree.mono {τ : Type} {R R' : α × σ × Graph → β × τ × Graph → Prop}
    {a : Except Error α × σ × Graph} {b : Except Error β × τ × Graph} (h : Agree R a b)
    (hR : ∀ a b, R a b → R' a b) : Agree R' a b := by
  cases h with
  | error => exact .error
  | ok h => exact .ok (hR _ _ h)

theorem Agree.lift {τ : Type} {Q : α → β → Prop} {R : α × σ × Graph → β × τ × Graph → Prop}
    {r : Except Error α} {r' : Except Error β} {s : σ} {s' : τ} {g g' : Graph} (h : Alike Q r r')
    (hr : ∀ x y, Q x y → R (x, s, g) (y, s', g')) :
    Agree R (run (Routine.lift r) s g) (run (Routine.lift r') s' g') := by
  cases h with
  | error => exact .error
  | ok h => exact .ok (hr _ _ h)

/-- Runs that agree go on to agree. -/
theorem Agree.bind {τ γ δ : Type} {R : α × σ × Graph → β × τ × Graph → Prop}
    {R' : γ × σ × Graph → δ × τ × Graph → Prop} {a : Action σ α} {a' : Action τ β}
    {f : α → Action σ γ} {f' : β → Action τ δ} {s : σ} {s' : τ} {g g' : Graph}
    (h : Agree R (run a s g) (run a' s' g'))
    (hf : ∀ x s g y s' g', R (x, s, g) (y, s', g') → Agree R' (run (f x) s g) (run (f' y) s' g')) :
    Agree R' (run (a >>= f) s g) (run (a' >>= f') s' g') := by
  rw [run_bind, run_bind]
  obtain ⟨r, hr⟩ : ∃ r, run a s g = r := ⟨_, rfl⟩
  obtain ⟨r', hr'⟩ : ∃ r', run a' s' g' = r' := ⟨_, rfl⟩
  rw [hr, hr'] at h ⊢
  cases h with
  | error => exact .error
  | ok h => exact hf _ _ _ _ _ _ h

end Routine

end TermGraph
