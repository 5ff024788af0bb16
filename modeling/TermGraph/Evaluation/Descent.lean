/-!
Stacks whose top is replaced by finitely many smaller entries. Where "smaller" is well-founded, such
replacing ends: this is what lets a work stack be run by an ordinary total function.
-/

namespace TermGraph

/-- The second stack, with its top replaced by finitely many entries below it. -/
inductive Descends {α : Type} (below : α → α → Prop) : List α → List α → Prop
  | replace (ys : List α) (x : α) (xs : List α) :
    (∀ y ∈ ys, below y x) → Descends below (ys ++ xs) (x :: xs)

namespace Descends

variable {α : Type} {below : α → α → Prop}

theorem acc_append {xs : List α} (hxs : Acc (Descends below) xs) :
    ∀ {ys : List α}, (∀ y ∈ ys, ∀ zs, Acc (Descends below) zs → Acc (Descends below) (y :: zs)) →
      Acc (Descends below) (ys ++ xs)
  | [], _ => hxs
  | y :: _, h =>
    h y (List.mem_cons_self ..) _ (acc_append hxs fun z hz => h z (List.mem_cons_of_mem _ hz))

theorem acc_cons {x : α} (hx : Acc below x) :
    ∀ xs, Acc (Descends below) xs → Acc (Descends below) (x :: xs) := by
  induction hx with
  | intro x _ ih =>
    intro xs hxs
    refine ⟨_, fun zs hz => ?_⟩
    cases hz with
    | replace ys _ _ h => exact acc_append hxs fun y hy => ih y (h y hy)

/-- Replacing tops by smaller entries ends. -/
theorem wellFounded (h : WellFounded below) : WellFounded (Descends below) := by
  refine ⟨fun xs => ?_⟩
  induction xs with
  | nil => exact ⟨_, fun _ hz => nomatch hz⟩
  | cons x xs ih => exact acc_cons (h.apply x) xs ih

end Descends

end TermGraph
