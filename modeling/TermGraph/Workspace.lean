import TermGraph.Evaluation.Stack
import TermGraph.Graph.Copy

/-!
Workspaces: graphs numbered in the order in which they were made. The number of a graph is its place
in the workspace, so no number is used twice, and a node always names the graph that it is from.
-/

namespace TermGraph

/-- Graphs, each at the place that its number says. -/
structure Workspace where
  graphs : Array Graph
  numbered : ∀ (i : Nat) (g : Graph), graphs[i]? = some g → g.id = i

namespace Workspace

/-- The workspace without graphs. -/
def empty : Workspace := ⟨#[], fun i g h => by simp at h⟩

/-- How many graphs there are, which is also the number of the next. -/
def size (w : Workspace) : Nat := w.graphs.size

/-- The graph of a number. -/
def graph? (w : Workspace) (i : Nat) : Option Graph := w.graphs[i]?

/-- Adds a graph with the same records as the given one under the next number. -/
def add : Workspace → Graph → Workspace
  | ⟨graphs, numbered⟩, g =>
    { graphs := graphs.push (g.renumber graphs.size)
      numbered := fun i g' h => by
        rw [Array.getElem?_push] at h
        split at h
        · next hi => cases h; exact hi.symm
        · exact numbered i g' h }

/-- Adds an empty graph. -/
def create (w : Workspace) : Workspace := w.add (.empty w.size)

/-- Puts a graph in the place of the one numbered `i`. -/
def put : Workspace → Nat → Graph → Workspace
  | ⟨graphs, numbered⟩, i, g =>
    { graphs := graphs.setIfInBounds i (g.renumber i)
      numbered := fun j g' hg => by
        rw [Array.getElem?_setIfInBounds] at hg
        split at hg
        · next hij =>
          split at hg
          · cases hg; exact hij
          · cases hg
        · exact numbered j g' hg }

/-- Works on the graph numbered `i`, if there is one. An empty graph holds its place meanwhile, so
that the graph itself is not shared and can grow in place. -/
def work {α : Type} (w : Workspace) (i : Nat) (f : Graph → α × Graph) : Option α × Workspace :=
  match w.graph? i with
  | none => (none, w)
  | some g =>
    let w := w.put i (.empty i)
    match f g with
    | (a, g) => (some a, w.put i g)

end Workspace

end TermGraph
