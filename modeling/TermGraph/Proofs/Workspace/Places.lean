import TermGraph.Graph.Growth
import TermGraph.Workspace

/-!
Which graph stands where after work on a workspace. Adding a graph leaves all others in their
places, and so does work on one of them. So a workspace only grows.
-/

namespace TermGraph

namespace Workspace

variable {α : Type} {w : Workspace} {g : Graph} {i j : Nat} {f : Graph → α × Graph}

theorem graph?_lt (h : w.graph? i = some g) : i < w.size := (Array.getElem?_eq_some_iff.1 h).1

/-- The number of a graph is its place. -/
theorem id_eq (h : w.graph? i = some g) : g.id = i := w.numbered i g h

theorem renumber_id (g : Graph) : g.renumber g.id = g := rfl

theorem graph?_add (w : Workspace) (g : Graph) (j : Nat) :
    (w.add g).graph? j = if j = w.size then some (g.renumber w.size) else w.graph? j :=
  Array.getElem?_push

theorem size_add (w : Workspace) (g : Graph) : (w.add g).size = w.size + 1 := Array.size_push _

theorem graph?_add_of_lt (g : Graph) (h : j < w.size) : (w.add g).graph? j = w.graph? j := by
  rw [graph?_add, if_neg (Nat.ne_of_lt h)]

theorem graph?_put (w : Workspace) (i : Nat) (g : Graph) (j : Nat) :
    (w.put i g).graph? j =
      if i = j then if i < w.size then some (g.renumber i) else none else w.graph? j :=
  Array.getElem?_setIfInBounds

theorem size_put (w : Workspace) (i : Nat) (g : Graph) : (w.put i g).size = w.size :=
  Array.size_setIfInBounds

theorem work_of_none (f : Graph → α × Graph) (h : w.graph? i = none) : w.work i f = (none, w) := by
  rw [work, h]

theorem work_fst (f : Graph → α × Graph) (h : w.graph? i = some g) :
    (w.work i f).1 = some (f g).1 := by
  rw [work, h]

theorem size_work (w : Workspace) (i : Nat) (f : Graph → α × Graph) :
    (w.work i f).2.size = w.size := by
  rw [work]
  split
  · rfl
  · exact (size_put ..).trans (size_put ..)

/-- Work on a graph puts the outcome in its place and leaves all others. -/
theorem graph?_work (f : Graph → α × Graph) (h : w.graph? i = some g) (hid : (f g).2.id = g.id)
    (j : Nat) : (w.work i f).2.graph? j = if j = i then some (f g).2 else w.graph? j := by
  have hi := graph?_lt h
  have hrenumber : (f g).2.renumber i = (f g).2 := by rw [← id_eq h, ← hid, renumber_id]
  rw [work, h]
  simp only [graph?_put, size_put, if_pos hi, hrenumber]
  by_cases hij : i = j
  · rw [if_pos hij, if_pos hij.symm]
  · rw [if_neg hij, if_neg hij, if_neg (Ne.symm hij)]

theorem ext_graph? {w w' : Workspace} (h : ∀ i, w.graph? i = w'.graph? i) : w = w' := by
  obtain ⟨graphs, numbered⟩ := w
  obtain ⟨graphs', numbered'⟩ := w'
  have : graphs = graphs' := Array.ext_getElem? h
  subst this
  rfl

/-! ### Growth -/

/-- Every graph is still in its place and has perhaps grown. -/
def Grows (w w' : Workspace) : Prop :=
  ∀ i g, w.graph? i = some g → ∃ g', w'.graph? i = some g' ∧ g.Extends g'

theorem Grows.refl (w : Workspace) : w.Grows w := fun _ g h => ⟨g, h, .refl g⟩

theorem Grows.trans {w w' w'' : Workspace} (h : w.Grows w') (h' : w'.Grows w'') : w.Grows w'' :=
  fun i g hg => by
    obtain ⟨g', hg', he⟩ := h i g hg
    obtain ⟨g'', hg'', he'⟩ := h' i g' hg'
    exact ⟨g'', hg'', he.trans he'⟩

theorem grows_add (w : Workspace) (g : Graph) : w.Grows (w.add g) := fun _ g' hg' =>
  ⟨g', (graph?_add_of_lt g (graph?_lt hg')).trans hg', .refl g'⟩

/-- Work that only extends a graph is growth. -/
theorem grows_work (w : Workspace) (i : Nat) {f : Graph → α × Graph}
    (hf : ∀ g : Graph, g.Extends (f g).2) : w.Grows (w.work i f).2 := by
  cases hi : w.graph? i with
  | none =>
    rw [work_of_none f hi]
    exact .refl w
  | some g₀ =>
    intro j g hg
    rw [graph?_work f hi (hf g₀).id_eq]
    by_cases hij : j = i
    · subst hij
      cases hg.symm.trans hi
      exact ⟨_, if_pos rfl, hf g₀⟩
    · exact ⟨g, (if_neg hij).trans hg, .refl g⟩

end Workspace

end TermGraph
