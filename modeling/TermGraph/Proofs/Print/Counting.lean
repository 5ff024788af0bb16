import Mathlib.Data.List.Perm.Subperm

/-!
Counting in lists. Two ways to compare counts, by one more member that satisfies the test and by one
more occurrence in a list of lists; and numbering the members of a list by how many come before them.
-/

namespace TermGraph

variable {α β : Type} {t t' : α → Bool} {a : α}

/-- A weaker test is satisfied more often if some member tells the two apart. -/
theorem countP_lt_countP {xs : List α} (ha : a ∈ xs) (himp : ∀ x, t x = true → t' x = true)
    (ht : t a = false) (ht' : t' a = true) : xs.countP t < xs.countP t' := by
  have hsub : xs.filter t = (xs.filter t').filter t := by
    rw [List.filter_filter]
    refine List.filter_congr fun x _ => ?_
    cases hx : t x with
    | false => rfl
    | true => rw [himp x hx]; rfl
  rw [List.countP_eq_length_filter, List.countP_eq_length_filter, hsub]
  refine List.length_filter_lt_length_iff_exists.2 ⟨a, List.mem_filter.2 ⟨ha, ht'⟩, ?_⟩
  rw [ht]
  exact Bool.false_ne_true

/-- One more member satisfies the test. -/
theorem countP_succ : ∀ {xs : List α}, xs.Nodup → a ∈ xs → t a = false → t' a = true →
    (∀ x, x ≠ a → t' x = t x) → xs.countP t' = xs.countP t + 1
  | x :: xs, hnodup, hmem, ht, ht', heq => by
    rw [List.nodup_cons] at hnodup
    rw [List.countP_cons, List.countP_cons]
    by_cases hx : x = a
    · subst hx
      rw [ht, ht', List.countP_congr fun y hy => ?_]
      · rfl
      · rw [heq y fun he => hnodup.1 (he ▸ hy)]
    · have hmem := (List.mem_cons.1 hmem).resolve_left (Ne.symm hx)
      rw [heq x hx, countP_succ hnodup.2 hmem ht ht' heq]
      omega

/-- Counting, for each member of a list, the members before it in a strict total order gives all
numbers below the length of the list, each once. -/
theorem map_countP_perm_range {lt : α → α → Bool} {xs : List α} (hnodup : xs.Nodup)
    (irrefl : ∀ x, lt x x = false)
    (trans : ∀ x y z, lt x y = true → lt y z = true → lt x z = true)
    (total : ∀ x ∈ xs, ∀ y ∈ xs, x ≠ y → lt x y = true ∨ lt y x = true) :
    List.Perm (xs.map fun x => xs.countP (lt · x)) (List.range xs.length) := by
  have hmono : ∀ x ∈ xs, ∀ y, lt x y = true → xs.countP (lt · x) < xs.countP (lt · y) :=
    fun x hx y hxy => countP_lt_countP hx (fun z hz => trans z x y hz hxy) (irrefl x) hxy
  have hlt : ∀ x ∈ xs, xs.countP (lt · x) < xs.length := by
    intro x hx
    rw [← List.countP_true]
    exact countP_lt_countP hx (fun _ _ => rfl) (irrefl x) rfl
  have hmap : (xs.map fun x => xs.countP (lt · x)).Nodup := by
    refine List.pairwise_map.2 (List.Pairwise.imp_of_mem (fun {x y} hx hy hne => ?_) hnodup)
    rcases total x hx y hy hne with h | h
    · exact Nat.ne_of_lt (hmono x hx y h)
    · exact (Nat.ne_of_lt (hmono y hy x h)).symm
  refine (List.subperm_of_subset hmap fun k hk => ?_).perm_of_length_le ?_
  · obtain ⟨x, hx, rfl⟩ := List.mem_map.1 hk
    exact List.mem_range.2 (hlt x hx)
  · exact Nat.le_of_eq (by rw [List.length_range, List.length_map])

/-- There are as many indices of a member as the member occurs. -/
theorem length_filter_range [DecidableEq α] (a : α) : ∀ xs : List α,
    ((List.range xs.length).filter fun i => xs[i]? = some a).length = xs.count a
  | [] => rfl
  | x :: xs => by
    have hrest : ((List.range xs.length).map Nat.succ).filter (fun i => (x :: xs)[i]? = some a)
        = ((List.range xs.length).filter fun i => xs[i]? = some a).map Nat.succ := List.filter_map
    rw [List.length_cons, List.range_succ_eq_map, List.filter_cons, hrest, List.count_cons,
      ← length_filter_range a xs]
    by_cases hx : x = a
    · simp [hx]
    · simp [hx]

/-- A list of lists that has `b` where it has `c`, and once more for each member that satisfies the
test, has `b` so many times more often in all. -/
theorem count_flatMap_add [DecidableEq β] {f : α → List β} {b c : β} : ∀ {xs : List α},
    (∀ x ∈ xs, (f x).count b = (if t x then 1 else 0) + (f x).count c) →
      (xs.flatMap f).count b = xs.countP t + (xs.flatMap f).count c
  | [], _ => rfl
  | x :: xs, h => by
    have hx := h x (List.mem_cons_self ..)
    have hxs := count_flatMap_add fun y hy => h y (List.mem_cons_of_mem x hy)
    rw [List.flatMap_cons, List.count_append, List.count_append, hx, hxs, List.countP_cons]
    omega

end TermGraph
