import TermGraph.Proofs.Pass.Visit
import TermGraph.Proofs.Session.Evaluation
import TermGraph.Proofs.Walk
import TermGraph.Proofs.Workspace.Places

/-!
Nodes over a whole session. A session starts without graphs and goes on with anything that can be
done to a workspace; `K` holds the nodes that were handed out so far, and nobody makes up a node.
Main statement: at every moment, each node handed out so far is a node of its graph; what an
operation hands out are nodes of the graph worked on; a node of another graph is refused as such;
and no operation meets a dangling node. An honest visitor, handler or rule may end with the outcome
of any operation in it, so this holds inside walks, evaluations and passes as well.
-/

namespace TermGraph

/-- What can be done with one graph. -/
inductive Op : Type 1 where
  | append (head : String) (args : List Value)
  | copyForest (src : Graph) (roots : List Node)
  | copyTree (src : Graph) (root : Node)
  | query (q : Query)
  | walk {σ : Type} [Confined σ] (extent : Extent) (root : Node) (visit : Node → Action σ Unit)
    (s : σ)
  | evaluate {σ T : Type} [Confined σ] [Confined T] (root : Node) (handler : Handler σ T) (s : σ)
  | run {σ C : Type} [Confined σ] [Confined C] (p : Pass σ C) (root : Node)

namespace Op

/-- The nodes that the operation is given. -/
def given : Op → List Node
  | append _ args => nodesOf args
  | copyForest _ roots => roots
  | copyTree _ root => [root]
  | query q => q.given
  | walk _ root _ _ => [root]
  | evaluate root _ _ => [root]
  | run _ root => [root]

/-- The graph that the given nodes should be of. -/
def home (g : Graph) : Op → Graph
  | copyForest src _ => src
  | copyTree src _ => src
  | _ => g

/-- What the graph is afterwards. -/
def after (g : Graph) : Op → Graph
  | append head args => (g.append head args).2
  | copyForest src roots => (src.copyForest roots g).2
  | copyTree src root => (src.copyTree root g).2
  | query _ => g
  | walk extent root visit s => (Routine.run (TermGraph.walk extent root visit) s g).2.2
  | evaluate root handler s => (g.evaluate root handler s).graph
  | run p root => (Routine.run (Pass.run root) p g).2.2

/-- The error reported, if there is one. -/
def error (g : Graph) : Op → Option Error
  | append head args => refusal? (g.append head args).1
  | copyForest src roots => refusal? (src.copyForest roots g).1
  | copyTree src root => refusal? (src.copyTree root g).1
  | query q => q.error g
  | walk extent root visit s => refusal? (Routine.run (TermGraph.walk extent root visit) s g).1
  | evaluate root handler s => refusal? (g.evaluate root handler s).result
  | run p root => refusal? (Routine.run (Pass.run root) p g).1

/-- The nodes handed out. A visitor, a handler or a rule sees all nodes of the graph, and it may
have handed out any of them. -/
def handed (g : Graph) : Op → List Node
  | append head args => answered (fun n => [n]) (g.append head args).1
  | copyForest src roots => answered id (src.copyForest roots g).1
  | copyTree src root => answered (fun n => [n]) (src.copyTree root g).1
  | query q => q.handed g
  | op => (op.after g).nodes

/-- Sources are graphs of the workspace, programs are honest, and states hold only nodes of `K`. -/
def Honest (w : Workspace) (K : Set Node) : Op → Prop
  | append _ _ => True
  | copyForest src _ => w.graph? src.id = some src
  | copyTree src _ => w.graph? src.id = some src
  | query _ => True
  | walk _ _ visit s => Routine.HonestFrom K visit ∧ confined K s
  | evaluate _ handler s => Routine.HonestFrom K handler ∧ confined K s
  | run p _ => p.Honest K

/-- What the operation gives back and what it leaves behind for the next one is confined. -/
def Gives (g : Graph) (K : Set Node) : Op → Prop
  | append head args => confined K (g.append head args).1
  | copyForest src roots => confined K (src.copyForest roots g).1
  | copyTree src root => confined K (src.copyTree root g).1
  | query q => confined K (q.handed g)
  | walk extent root visit s =>
    confined K (Routine.run (TermGraph.walk extent root visit) s g).1
      ∧ confined K (Routine.run (TermGraph.walk extent root visit) s g).2.1
  | evaluate root handler s =>
    confined K (g.evaluate root handler s).result ∧ confined K (g.evaluate root handler s).state
  | run p root =>
    confined K (Routine.run (Pass.run root) p g).1
      ∧ confined K (Routine.run (Pass.run root) p g).2.1

end Op

/-- A workspace and the nodes handed out so far. -/
inductive Session : Workspace → Set Node → Prop
  | start : Session .empty ∅
  | create {w : Workspace} {K : Set Node} : Session w K → Session w.create K
  | clone {w : Workspace} {K : Set Node} {i : Nat} {g : Graph} :
    Session w K → w.graph? i = some g → Session (w.add g) K
  | act {w : Workspace} {K : Set Node} {i : Nat} {g : Graph} {op : Op} :
    Session w K → w.graph? i = some g → (∀ n ∈ op.given, n ∈ K) → op.Honest w K →
      Session (w.work i fun g => ((), op.after g)).2 (K ∪ { n | n ∈ op.handed g })

/-- How an operation on a graph comes out. -/
structure Op.Sound (op : Op) (K : Set Node) (g : Graph) : Prop where
  /-- The graph has only grown. -/
  grown : g.Extends (op.after g)
  /-- What is handed out are nodes of the graph. -/
  handed_mem : ∀ n ∈ op.handed g, n.graph = g.id ∧ n.index < (op.after g).size
  /-- All that is given back holds only nodes handed out. -/
  gives : op.Gives g (K ∪ { n | n ∈ op.handed g })
  /-- A node of another graph is refused as such. -/
  foreign : (∃ n ∈ op.given, n.graph ≠ (op.home g).id) →
    ∃ n ∈ op.given, n.graph ≠ (op.home g).id ∧ op.error g = some (.foreign n (op.home g).id)
  /-- No node is found to dangle. -/
  error_ne : ∀ n size, op.error g ≠ some (.dangling n size)

/-- The node is a node of the graph of the workspace that it names. -/
def Workspace.Has (w : Workspace) (n : Node) : Prop :=
  ∃ g, w.graph? n.graph = some g ∧ n.index < g.size

/-! ### Refusals -/

/-- Of known nodes the first that is refused is of another graph. -/
theorem Graph.Covers.exists_foreign {g : Graph} {K : Set Node} (hg : g.Covers K) {ns : List Node}
    (hns : ∀ n ∈ ns, n ∈ K) (hforeign : ∃ n ∈ ns, n.graph ≠ g.id) :
    ∃ n ∈ ns, n.graph ≠ g.id
      ∧ (ns.findSome? fun n => refusal? (g.locate n)) = some (.foreign n g.id) := by
  have hrefused : (ns.findSome? fun n => refusal? (g.locate n)) ≠ none := fun h => by
    obtain ⟨n, hn, hid⟩ := hforeign
    have hmem := Graph.refusal?_locate_eq_none.1 (List.findSome?_eq_none_iff.1 h n hn)
    exact hid (Graph.mem_nodes.1 hmem).1
  obtain ⟨e, he⟩ := Option.ne_none_iff_exists'.1 hrefused
  obtain ⟨n, hn, hen⟩ := List.exists_of_findSome?_eq_some he
  obtain ⟨hid, rfl⟩ := hg.eq_foreign (hns n hn) hen
  exact ⟨n, hn, hid, he⟩

theorem refusal?_ne_dangling {α : Type} [Confined α] {K : Set Node} {r : Except Error α}
    (h : confined K r) (n : Node) (size : Nat) : refusal? r ≠ some (.dangling n size) := by
  cases r with
  | ok a => nofun
  | error e =>
    rintro ⟨⟩
    exact h

namespace Op

variable {op : Op} {g : Graph} {K : Set Node} {w : Workspace} {e : Error}

/-- An operation that is given a node that its graph does not have is refused for the first. -/
theorem error_of_refused
    (h : (op.given.findSome? fun n => refusal? ((op.home g).locate n)) = some e) :
    op.error g = some e := by
  have hroot : ∀ {root : Node}, ([root].findSome? fun n => refusal? (g.locate n)) = some e →
      g.locate root = .error e := fun h =>
    refusal?_eq_some.1 (List.findSome?_singleton.symm.trans h)
  have hwalk : ∀ {σ : Type} (extent : Extent) {root : Node} (visit : Node → Action σ Unit) (s : σ),
      ([root].findSome? fun n => refusal? (g.locate n)) = some e →
        (Routine.run (TermGraph.walk extent root visit) s g) = (.error e, s, g) :=
    fun extent root visit s h => by
      have hvisits := (g.refusal?_visits extent root).trans (congrArg refusal? (hroot h))
      rw [Routine.run_walk, refusal?_eq_some.1 hvisits]
  cases op with
  | append head args =>
    exact (Graph.refusal?_append head args).trans ((Graph.findSome?_nodesOf args).symm.trans h)
  | copyForest src roots => exact congrArg (refusal? ·.1) (Graph.copyForest_of_refused h g)
  | copyTree src root =>
    have hcopy := (src.copyForest_singleton root g).symm.trans (Graph.copyForest_of_refused h g)
    exact (refusal?_map _ _).symm.trans (congrArg (refusal? ·.1) hcopy)
  | query q => exact (q.error_eq g).trans h
  | walk extent root visit s => exact congrArg (refusal? ·.1) (hwalk extent visit s h)
  | evaluate root handler s =>
    rw [error, Graph.evaluate, hroot h]
    rfl
  | run p root =>
    rw [error, Pass.run_run, hwalk .needed Pass.visit p h]
    rfl

/-! ### One operation -/

theorem extends_after (g : Graph) (op : Op) : g.Extends (op.after g) := by
  cases op with
  | append head args => exact g.extends_append head args
  | copyForest src roots => exact src.extends_copyForest roots g
  | copyTree src root => exact src.extends_copyTree root g
  | query q => exact .refl g
  | walk extent root visit s => exact Routine.extends_run _ s g
  | evaluate root handler s => exact g.extends_evaluate root handler s
  | run p root => exact Routine.extends_run _ p g

/-- The nodes handed out are nodes of the graph. -/
theorem mem_nodes_of_mem_handed {n : Node} (h : n ∈ op.handed g) : n ∈ (op.after g).nodes := by
  have hforest : ∀ {src : Graph} {roots ns}, (src.copyForest roots g).1 = .ok ns →
      ∀ n ∈ ns, n ∈ (src.copyForest roots g).2.nodes := fun {src roots ns} h => by
    rcases src.copyForest_cases roots g with ⟨e, -, hcopy⟩ | ⟨out, dst, cs, f, hroots, hcopy, hrel⟩
    · rw [hcopy] at h
      cases h
    · rw [hcopy] at h ⊢
      cases h
      exact hrel.mem_nodes hroots
  cases op with
  | append head args =>
    obtain ⟨m, hm, hn⟩ := Graph.mem_answered.1 h
    obtain ⟨rfl, happended⟩ := Graph.appended_of_append (Prod.ext hm rfl)
    rw [List.mem_singleton.1 hn, ← happended.grown.node_eq]
    exact Graph.node_mem_nodes.2 (happended.size_eq ▸ Nat.lt_succ_self _)
  | copyForest src roots =>
    obtain ⟨ns, hns, hn⟩ := Graph.mem_answered.1 h
    exact hforest hns n hn
  | copyTree src root =>
    obtain ⟨m, hm, hn⟩ := Graph.mem_answered.1 h
    have hns : (src.copyForest [root] g).1 = .ok [m] := by
      rw [Graph.copyForest_singleton, hm]
      rfl
    have hnode := hforest hns n hn
    rw [Graph.copyForest_singleton] at hnode
    exact hnode
  | query q => exact Query.mem_nodes_of_mem_handed h
  | _ => exact h

/-- An answer that holds only the nodes it hands out is confined, and so is the refusal of a known
node. -/
theorem confined_answer {α : Type} [Confined α] {home : Graph} {ns : List Node}
    (hg : home.Covers K) (hns : ∀ n ∈ ns, n ∈ K) {r : Except Error α} {nodes : α → List Node}
    (hr : refusal? r = ns.findSome? fun n => refusal? (home.locate n))
    (hnodes : ∀ a K', (∀ n ∈ nodes a, n ∈ K') → confined K' a) :
    confined (K ∪ { n | n ∈ answered nodes r }) r := by
  cases r with
  | ok a => exact hnodes a _ fun n hn => .inr hn
  | error e => exact Confined.mono Set.subset_union_left (hg.confined_first hns hr.symm)

/-- All that an operation gives back is confined to the nodes handed out by then. -/
theorem gives (hg : g.Covers K) (hhome : (op.home g).Covers K) (hgiven : ∀ n ∈ op.given, n ∈ K)
    (hhonest : op.Honest w K) : op.Gives g (K ∪ { n | n ∈ op.handed g }) := by
  have hsingle : ∀ (n : Node) (K' : Set Node), (∀ m ∈ [n], m ∈ K') → confined K' n :=
    fun n _ h => h n (List.mem_singleton_self n)
  cases op with
  | append head args =>
    refine confined_answer hhome hgiven ?_ hsingle
    exact (Graph.refusal?_append head args).trans (Graph.findSome?_nodesOf args).symm
  | copyForest src roots =>
    exact confined_answer hhome hgiven (src.refusal?_copyForest roots g) fun _ _ h => h
  | copyTree src root =>
    have hrefusal := src.refusal?_copyForest [root] g
    rw [Graph.copyForest_singleton, refusal?_map] at hrefusal
    exact confined_answer hhome hgiven hrefusal hsingle
  | query q => exact fun n hn => .inr hn
  | walk extent root visit s =>
    have hroot := hgiven root (List.mem_singleton_self root)
    exact (honest_walk extent hroot hhonest.1).run hg hhonest.2
  | evaluate root handler s =>
    have hroot := hgiven root (List.mem_singleton_self root)
    exact Graph.confined_evaluate hg hroot hhonest.1 hhonest.2
  | run p root =>
    have hroot := hgiven root (List.mem_singleton_self root)
    exact (Pass.honest_run hroot).run hg hhonest

theorem error_ne (hhome : (op.home g).Covers K) (hgiven : ∀ n ∈ op.given, n ∈ K)
    {K' : Set Node} (hgives : op.Gives g K') (n : Node) (size : Nat) :
    op.error g ≠ some (.dangling n size) := by
  cases op with
  | append head args => exact refusal?_ne_dangling hgives n size
  | copyForest src roots => exact refusal?_ne_dangling hgives n size
  | copyTree src root => exact refusal?_ne_dangling hgives n size
  | query q => exact fun h => hhome.confined_error hgiven h
  | walk extent root visit s => exact refusal?_ne_dangling hgives.1 n size
  | evaluate root handler s => exact refusal?_ne_dangling hgives.1 n size
  | run p root => exact refusal?_ne_dangling hgives.1 n size

/-- An operation comes out well if it is given known nodes and works on a graph in which none of
them dangles. -/
theorem sound (hg : g.Covers K) (hhome : (op.home g).Covers K) (hgiven : ∀ n ∈ op.given, n ∈ K)
    (hhonest : op.Honest w K) : op.Sound K g where
  grown := extends_after g op
  handed_mem n hn := by
    have hmem := Graph.mem_nodes.1 (mem_nodes_of_mem_handed hn)
    exact ⟨hmem.1.trans (extends_after g op).id_eq, hmem.2⟩
  gives := gives hg hhome hgiven hhonest
  foreign hforeign := by
    obtain ⟨n, hn, hid, he⟩ := hhome.exists_foreign hgiven hforeign
    exact ⟨n, hn, hid, error_of_refused he⟩
  error_ne := error_ne hhome hgiven (gives hg hhome hgiven hhonest)

end Op

/-! ### Sessions -/

namespace Workspace

variable {w w' : Workspace} {n : Node}

theorem Grows.has (h : w.Grows w') (hn : w.Has n) : w'.Has n := by
  obtain ⟨g, hg, hlt⟩ := hn
  obtain ⟨g', hg', hextends⟩ := h _ g hg
  exact ⟨g', hg', Nat.lt_of_lt_of_le hlt hextends.size_le⟩

/-- No node of the workspace dangles in any graph of it. -/
theorem covers_of_has {K : Set Node} (hK : ∀ n ∈ K, w.Has n) {i : Nat} {g : Graph}
    (hg : w.graph? i = some g) : g.Covers K := by
  intro n hn hid
  obtain ⟨g', hg', hlt⟩ := hK n hn
  rw [hid, id_eq hg, hg] at hg'
  cases hg'
  exact hlt

end Workspace

theorem Session.has {w : Workspace} {K : Set Node} (h : Session w K) : ∀ n ∈ K, w.Has n := by
  induction h with
  | start => exact fun n hn => hn.elim
  | create _ ih => exact fun n hn => (Workspace.grows_add _ _).has (ih n hn)
  | clone _ _ ih => exact fun n hn => (Workspace.grows_add _ _).has (ih n hn)
  | @act w K i g op _ hg _ _ ih =>
    rintro n (hn | hn)
    · exact (w.grows_work i fun g => op.extends_after g).has (ih n hn)
    · obtain ⟨hid, hlt⟩ := Graph.mem_nodes.1 (Op.mem_nodes_of_mem_handed hn)
      have hi : n.graph = i := hid.trans ((op.extends_after g).id_eq.trans (Workspace.id_eq hg))
      refine ⟨op.after g, ?_, hlt⟩
      rw [Workspace.graph?_work _ hg (op.extends_after g).id_eq]
      exact if_pos hi

/-- At every moment of a session, each node handed out so far is a node of its graph, each record
mentions only earlier nodes of its graph, and every operation on a graph comes out well. -/
theorem session_handles {w : Workspace} {K : Set Node} (h : Session w K) :
    (∀ n ∈ K, w.Has n)
      ∧ (∀ i g, w.graph? i = some g → ∀ p e n, g.expr? p = some e → Datum.node n ∈ e.args →
          n.graph = i ∧ n.index < p)
      ∧ ∀ i g (op : Op), w.graph? i = some g → (∀ n ∈ op.given, n ∈ K) → op.Honest w K →
          op.Sound K g := by
  refine ⟨h.has, fun i g hg p e n he hn => ?_, fun i g op hg hgiven hhonest => ?_⟩
  · obtain ⟨q, hq, rfl⟩ := Graph.exists_childrenAt_of_mem_expr? he hn
    exact ⟨Workspace.id_eq hg, Graph.lt_of_mem_childrenAt hq⟩
  · have hcovers := Workspace.covers_of_has h.has hg
    refine Op.sound hcovers ?_ hgiven hhonest
    cases op with
    | copyForest src roots => exact Workspace.covers_of_has h.has hhonest
    | copyTree src root => exact Workspace.covers_of_has h.has hhonest
    | _ => exact hcovers

/-- A pass without rules. -/
def keepAll : Pass Unit Unit := { name := "keep", state := () }

theorem keepAll_honest (K : Set Node) : keepAll.Honest K where
  rules _ _ h := by cases h
  fallback := nofun
  memo _ _ h := by cases h
  state := trivial

theorem session_handles_keepAll : ∃ w K, Session w K ∧ w.Has ⟨0, 0⟩ ∧ ∃ g, w.graph? 1 = some g
    ∧ (Op.run keepAll ⟨0, 0⟩).Sound K g
    ∧ (Op.run keepAll ⟨0, 0⟩).error g = some (.foreign ⟨0, 0⟩ 1) := by
  have hcreated : Session Workspace.empty.create ∅ := .create .start
  have happended :=
    (@Session.act _ _ 0 (.empty 0) (.append "leaf" []) hcreated rfl nofun trivial).create
  obtain ⟨hhas, -, hsound⟩ := session_handles happended
  have hleaf : (⟨0, 0⟩ : Node) ∈ ∅ ∪ { n | n ∈ (Op.append "leaf" []).handed (.empty 0) } :=
    .inr (List.mem_singleton_self _)
  have hgiven : ∀ n ∈ (Op.run keepAll ⟨0, 0⟩).given,
      n ∈ ∅ ∪ { n | n ∈ (Op.append "leaf" []).handed (.empty 0) } :=
    List.forall_mem_singleton.2 hleaf
  have hrun := hsound 1 (.empty 1) (.run keepAll ⟨0, 0⟩) rfl hgiven (keepAll_honest _)
  obtain ⟨n, hn, -, herror⟩ := hrun.foreign ⟨⟨0, 0⟩, List.mem_singleton_self _, by decide⟩
  rw [List.mem_singleton.1 hn] at herror
  exact ⟨_, _, happended, hhas _ hleaf, _, rfl, hrun, herror⟩

end TermGraph
