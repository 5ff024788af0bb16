import Mathlib.Data.List.Dedup
import TermGraph.Proofs.Graph.Atoms
import TermGraph.Proofs.Graph.Copy
import TermGraph.Proofs.Workspace.Places

/-!
A workspace as plain lists. What a graph holds is a list of heads and arguments; interning texts and
holding nodes by position is not to be seen from outside. `Plain.act` says what creating, cloning
and appending do to such lists, without atoms, slots and positions. Main statement: a workspace and
the plain lists give the same results for ever, and what is read is what the lists hold.
-/

namespace TermGraph

/-- A record as it was given. -/
structure Entry where
  head : String
  args : List Value
deriving DecidableEq

namespace Entry

/-- The entry with its nodes moved to the graph numbered `i`. -/
def retag (i : Nat) (e : Entry) : Entry :=
  ⟨e.head, e.args.map (Datum.mapNode fun n => ⟨i, n.index⟩)⟩

/-- The texts in an entry: its head and its text arguments. -/
def texts (e : Entry) : List String := e.head :: e.args.filterMap Datum.str?

theorem mem_texts {s head : String} {args : List Value} :
    s ∈ (Entry.mk head args).texts ↔ s = head ∨ Datum.str s ∈ args := by
  rw [texts, List.mem_cons, Datum.str_mem_iff, List.mem_filterMap, List.mem_map]

theorem texts_retag (i : Nat) (e : Entry) : (e.retag i).texts = e.texts := by
  rw [texts, texts, retag, List.filterMap_map]
  congr 2
  funext d
  cases d <;> rfl

end Entry

/-- What is done to a workspace: a new graph, a clone of one, or one more record. -/
inductive Deed where
  | create
  | clone (i : Nat)
  | append (i : Nat) (head : String) (args : List Value)

/-- Does one deed. Only an append, to a graph that is there, has a result. -/
def Workspace.act (w : Workspace) : Deed → Option (Except Error Node) × Workspace
  | .create => (none, w.create)
  | .clone i =>
    match w.graph? i with
    | some g => (none, w.add g)
    | none => (none, w)
  | .append i head args => w.work i fun g => g.append head args

/-- Does the deeds in order. -/
def Workspace.acts : List Deed → Workspace → List (Option (Except Error Node)) × Workspace
  | [], w => ([], w)
  | d :: ds, w =>
    match w.act d with
    | (r, w) =>
      match Workspace.acts ds w with
      | (rs, w) => (r :: rs, w)

/-- For each graph the list of its entries. -/
abbrev Plain := List (List Entry)

namespace Plain

/-- Is the node one of the `size` nodes of the graph numbered `i`? -/
def belongs (i size : Nat) (n : Node) : Bool := n.graph == i && decide (n.index < size)

/-- What is wrong with a node that does not belong there. -/
def refusal (i size : Nat) (n : Node) : Error :=
  if n.graph = i then .dangling n size else .foreign n i

/-- Adds an entry if all its nodes belong to the graph. -/
def append (i : Nat) (es : List Entry) (e : Entry) : Except Error Node × List Entry :=
  match (nodesOf e.args).find? fun n => !belongs i es.length n with
  | some n => (.error (refusal i es.length n), es)
  | none => (.ok ⟨i, es.length⟩, es ++ [e])

/-- Does one deed. -/
def act (p : Plain) : Deed → Option (Except Error Node) × Plain
  | .create => (none, p ++ [[]])
  | .clone i =>
    match p[i]? with
    | some es => (none, p ++ [es.map (Entry.retag p.length)])
    | none => (none, p)
  | .append i head args =>
    match p[i]? with
    | some es =>
      match append i es ⟨head, args⟩ with
      | (r, es) => (some r, p.set i es)
    | none => (none, p)

/-- Does the deeds in order. -/
def acts : List Deed → Plain → List (Option (Except Error Node)) × Plain
  | [], p => ([], p)
  | d :: ds, p =>
    match act p d with
    | (r, p) =>
      match acts ds p with
      | (rs, p) => (r :: rs, p)

end Plain

namespace Graph

variable {g g' : Graph} {es : List Entry} {i : Nat}

/-- The graph holds the entries, and the atoms are their texts. -/
structure Holds (g : Graph) (es : List Entry) : Prop where
  size_eq : g.size = es.length
  expr?_eq : ∀ (k : Nat) e, es[k]? = some e → g.expr? k = some ⟨g.node k, e.head, e.args⟩
  mem_atoms : ∀ s, s ∈ g.atoms.toList ↔ s ∈ es.flatMap Entry.texts

theorem holds_empty (i : Nat) : (empty i).Holds [] :=
  ⟨rfl, nofun, fun _ => Iff.rfl⟩

theorem Holds.read_eq (h : g.Holds es) {k : Nat} {e : Entry} (he : es[k]? = some e) :
    g.read (g.node k) = .ok ⟨g.node k, e.head, e.args⟩ := by
  have hk : k < g.size := h.size_eq ▸ (List.getElem?_eq_some_iff.1 he).1
  have hexpr := h.expr?_eq k e he
  rw [expr?_eq_some ⟨k, hk⟩] at hexpr
  rw [read, locate_node hk]
  exact congrArg Except.ok (Option.some.inj hexpr)

/-- There are as many atoms as different texts. -/
theorem Holds.atoms_size_eq (h : g.Holds es) :
    g.atoms.size = (es.flatMap Entry.texts).dedup.length := by
  refine Eq.trans ?_ (List.Perm.length_eq ((List.perm_ext_iff_of_nodup g.consistent.nodup_toList
    (List.nodup_dedup _)).2 fun s => (h.mem_atoms s).trans List.mem_dedup.symm))
  rfl

/-! ### Appending -/

theorem refusal?_locate (n : Node) : refusal? (g.locate n)
    = if Plain.belongs g.id g.size n then none else some (Plain.refusal g.id g.size n) := by
  unfold locate Plain.belongs Plain.refusal
  by_cases hid : n.graph = g.id
  · by_cases hlt : n.index < g.size <;> simp [hid, hlt, refusal?]
  · simp [hid, refusal?]

/-- The first node that does not belong is the one reported. -/
theorem findSome?_locate : ∀ ns : List Node, (ns.findSome? fun n => refusal? (g.locate n))
    = (ns.find? fun n => !Plain.belongs g.id g.size n).map (Plain.refusal g.id g.size)
  | [] => rfl
  | n :: ns => by
    rw [List.findSome?_cons, List.find?_cons, refusal?_locate, findSome?_locate ns]
    cases Plain.belongs g.id g.size n <;> rfl

/-- One more entry is held once its record is appended. -/
theorem Holds.concat (h : g.Holds es) {head : String} {args : List Value} {n : Node}
    (happend : g.append head args = (.ok n, g')) : g'.Holds (es ++ [⟨head, args⟩]) := by
  obtain ⟨-, happended⟩ := appended_of_append happend
  refine ⟨?_, fun k e he => ?_, fun s => ?_⟩
  · rw [happended.size_eq, h.size_eq, List.length_append, List.length_singleton]
  · rw [happended.grown.node_eq]
    rcases Nat.lt_trichotomy k es.length with hk | rfl | hk
    · rw [List.getElem?_append_left hk] at he
      rw [happended.grown.expr?_eq (h.size_eq ▸ hk), h.expr?_eq k e he]
    · rw [List.getElem?_concat_length] at he
      cases he
      rw [← h.size_eq]
      exact happended.expr?_eq
    · rw [List.getElem?_eq_none (by rw [List.length_append, List.length_singleton]; omega)] at he
      cases he
  · rw [mem_atoms_of_append happend, h.mem_atoms, List.flatMap_append, List.mem_append,
      List.flatMap_singleton, Entry.mem_texts]

/-- A graph and its plain list agree on what is appended. -/
theorem Holds.append (h : g.Holds es) (head : String) (args : List Value) :
    (g.append head args).1 = (Plain.append g.id es ⟨head, args⟩).1
      ∧ (g.append head args).2.Holds (Plain.append g.id es ⟨head, args⟩).2 := by
  have hrefusal := refusal?_append (g := g) head args
  rw [← findSome?_nodesOf, findSome?_locate] at hrefusal
  rcases happend : g.append head args with ⟨r, g'⟩
  rw [happend] at hrefusal
  rw [Plain.append, ← h.size_eq]
  cases hfind : (nodesOf args).find? fun n => !Plain.belongs g.id g.size n with
  | some n =>
    rw [hfind] at hrefusal
    have hr := refusal?_eq_some.1 hrefusal
    subst hr
    rw [eq_of_append_error happend]
    exact ⟨rfl, h⟩
  | none =>
    rw [hfind] at hrefusal
    obtain ⟨n, hr⟩ := refusal?_eq_none.1 hrefusal
    subst hr
    exact ⟨congrArg Except.ok (appended_of_append happend).1, h.concat happend⟩

/-! ### Cloning -/

/-- A clone holds the same entries, moved to its number. -/
theorem Holds.renumber (h : g.Holds es) (i : Nat) :
    (g.renumber i).Holds (es.map (Entry.retag i)) := by
  refine ⟨?_, fun k e he => ?_, fun s => ?_⟩
  · rw [List.length_map]
    exact h.size_eq
  · rw [List.getElem?_map] at he
    obtain ⟨e', he', rfl⟩ := Option.map_eq_some_iff.1 he
    rw [expr?_renumber, h.expr?_eq k e' he']
    rfl
  · rw [List.flatMap_map]
    simp only [Entry.texts_retag]
    exact h.mem_atoms s

end Graph

namespace Workspace

variable {w : Workspace} {p : Plain}

/-- Each graph of the workspace holds the entries in its place. -/
structure Shows (w : Workspace) (p : Plain) : Prop where
  size_eq : w.size = p.length
  holds : ∀ (i : Nat) es, p[i]? = some es → ∃ g, w.graph? i = some g ∧ g.Holds es

theorem shows_empty : empty.Shows [] := ⟨rfl, nofun⟩

/-- There is a graph just where there is a list. -/
theorem Shows.graph?_eq_none (h : w.Shows p) {i : Nat} (hi : p[i]? = none) : w.graph? i = none := by
  rw [List.getElem?_eq_none_iff, ← h.size_eq] at hi
  exact Array.getElem?_eq_none hi

theorem Shows.add (h : w.Shows p) {g : Graph} {es : List Entry}
    (hg : (g.renumber w.size).Holds es) : (w.add g).Shows (p ++ [es]) := by
  refine ⟨?_, fun i es' hes => ?_⟩
  · rw [size_add, h.size_eq, List.length_append, List.length_singleton]
  · rw [graph?_add]
    by_cases hi : i = w.size
    · rw [hi, h.size_eq, List.getElem?_concat_length] at hes
      cases hes
      exact ⟨_, if_pos hi, hg⟩
    · have hlt : i < p.length := by
        have := (List.getElem?_eq_some_iff.1 hes).1
        rw [List.length_append, List.length_singleton, ← h.size_eq] at this
        rw [← h.size_eq]
        omega
      rw [List.getElem?_append_left hlt] at hes
      rw [if_neg hi]
      exact h.holds i es' hes

/-- A deed has the same result on the workspace and on the plain lists, and they still agree. -/
theorem Shows.act (h : w.Shows p) (d : Deed) :
    (w.act d).1 = (Plain.act p d).1 ∧ (w.act d).2.Shows (Plain.act p d).2 := by
  cases d with
  | create => exact ⟨rfl, h.add (Graph.holds_empty w.size)⟩
  | clone i =>
    rw [Workspace.act, Plain.act]
    cases hi : p[i]? with
    | none =>
      rw [h.graph?_eq_none hi]
      exact ⟨rfl, h⟩
    | some es =>
      obtain ⟨g, hg, hholds⟩ := h.holds i es hi
      rw [hg]
      exact ⟨rfl, h.add (h.size_eq ▸ hholds.renumber w.size)⟩
  | append i head args =>
    rw [Workspace.act, Plain.act]
    cases hi : p[i]? with
    | none =>
      rw [work_of_none _ (h.graph?_eq_none hi)]
      exact ⟨rfl, h⟩
    | some es =>
      obtain ⟨g, hg, hholds⟩ := h.holds i es hi
      obtain ⟨hresult, hafter⟩ := hholds.append head args
      rw [id_eq hg] at hresult hafter
      refine ⟨by rw [work_fst _ hg, hresult], ?_, fun j es' hes => ?_⟩
      · rw [size_work, h.size_eq, List.length_set]
      · rw [graph?_work _ hg (g.extends_append head args).id_eq]
        rw [List.getElem?_set] at hes
        by_cases hij : j = i
        · rw [if_pos hij.symm, if_pos (List.getElem?_eq_some_iff.1 hi).1] at hes
          cases hes
          exact ⟨_, if_pos hij, hafter⟩
        · rw [if_neg (Ne.symm hij)] at hes
          rw [if_neg hij]
          exact h.holds j es' hes

theorem Shows.acts : ∀ (ds : List Deed) {w : Workspace} {p : Plain}, w.Shows p →
    (acts ds w).1 = (Plain.acts ds p).1 ∧ (acts ds w).2.Shows (Plain.acts ds p).2
  | [], _, _, h => ⟨rfl, h⟩
  | d :: ds, w, p, h => by
    obtain ⟨hr, hshows⟩ := h.act d
    obtain ⟨hrs, hfinal⟩ := hshows.acts ds
    refine ⟨?_, hfinal⟩
    simp only [Workspace.acts, Plain.acts, hr, hrs]

/-! ### Later deeds -/

theorem grows_act (w : Workspace) (d : Deed) : w.Grows (w.act d).2 := by
  cases d with
  | create => exact w.grows_add _
  | clone i =>
    rw [Workspace.act]
    cases w.graph? i with
    | none => exact .refl w
    | some g => exact w.grows_add g
  | append i head args => exact w.grows_work i fun g => g.extends_append head args

theorem grows_acts : ∀ (ds : List Deed) (w : Workspace), w.Grows (acts ds w).2
  | [], w => .refl w
  | d :: ds, w => (w.grows_act d).trans (grows_acts ds (w.act d).2)

/-- What an append to a graph that is there comes to. -/
structure Appends (w : Workspace) (i : Nat) (head : String) (args : List Value) (g : Graph)
    (r : Option (Except Error Node)) (w' : Workspace) : Prop where
  /-- It succeeds just if all nodes are of the graph, and then the new node is the next. -/
  succeeds : r = some (.ok ⟨i, g.size⟩) ↔ ∀ n, Datum.node n ∈ args → n.graph = i ∧ n.index < g.size
  /-- Otherwise it is refused, and nothing changes. -/
  fails : (¬ ∀ n, Datum.node n ∈ args → n.graph = i ∧ n.index < g.size) →
    (∃ e, r = some (.error e)) ∧ w' = w
  /-- No other graph changes. -/
  others : ∀ j, j ≠ i → w'.graph? j = w.graph? j
  /-- The new node reads as it was given, whatever is done later. -/
  reads : ∀ n, r = some (.ok n) → ∀ ds, ∃ g', (acts ds w').2.graph? i = some g'
    ∧ g'.read n = .ok ⟨n, head, args⟩

theorem appends_act {i : Nat} {g : Graph} (h : w.graph? i = some g) (head : String)
    (args : List Value) : Appends w i head args g (w.act (.append i head args)).1
      (w.act (.append i head args)).2 := by
  have hresult : (w.act (.append i head args)).1 = some (g.append head args).1 := work_fst _ h
  have hgraph : ∀ j, (w.act (.append i head args)).2.graph? j
      = if j = i then some (g.append head args).2 else w.graph? j :=
    graph?_work _ h (g.extends_append head args).id_eq
  have hnodes : (∀ n, Datum.node n ∈ args → n.graph = i ∧ n.index < g.size) ↔
      refusal? (g.append head args).1 = none := by
    rw [Graph.refusal?_append, Graph.findSome?_refusalArg?_eq_none]
    simp only [Graph.mem_nodes, id_eq h]
  rw [hresult]
  generalize (w.act (.append i head args)).2 = w' at hgraph
  rcases happend : g.append head args with ⟨e | n, g'⟩ <;> rw [happend] at hgraph hnodes
  · have hunchanged : w' = w := ext_graph? fun j => by
      rw [hgraph, Graph.eq_of_append_error happend]
      split
      · next hj => rw [hj, h]
      · rfl
    have hrefused : ¬ ∀ n, Datum.node n ∈ args → n.graph = i ∧ n.index < g.size := fun hall =>
      nomatch hnodes.1 hall
    exact ⟨iff_of_false nofun hrefused, fun _ => ⟨⟨e, rfl⟩, hunchanged⟩,
      fun j hj => (hgraph j).trans (if_neg hj), nofun⟩
  · obtain ⟨rfl, happended⟩ := Graph.appended_of_append happend
    have hnode : g.node g.size = ⟨i, g.size⟩ := congrArg (Node.mk · g.size) (id_eq h)
    refine ⟨iff_of_true (by rw [hnode]) (hnodes.2 rfl), fun hno => absurd (hnodes.2 rfl) hno,
      fun j hj => (hgraph j).trans (if_neg hj), ?_⟩
    rintro n ⟨⟩ ds
    obtain ⟨g'', hg'', hextends⟩ := grows_acts ds w' i g' ((hgraph i).trans (if_pos rfl))
    have hlt : g.size < g'.size := happended.size_eq ▸ Nat.lt_succ_self _
    refine ⟨g'', hg'', ?_⟩
    have hgrown := happended.grown.trans hextends
    rw [← hgrown.node_eq, Graph.read, Graph.locate_node (Nat.lt_of_lt_of_le hlt hextends.size_le)]
    have hexpr := (hextends.expr?_eq hlt).trans happended.expr?_eq
    rw [Graph.expr?_eq_some ⟨_, Nat.lt_of_lt_of_le hlt hextends.size_le⟩] at hexpr
    rw [hgrown.node_eq]
    exact congrArg Except.ok (Option.some.inj hexpr)

/-- What is read from a workspace is what the plain lists hold. -/
structure Reads (w : Workspace) (p : Plain) : Prop where
  size_eq : w.size = p.length
  graph : ∀ (i : Nat) es, p[i]? = some es → ∃ g, w.graph? i = some g ∧ g.size = es.length
    ∧ (∀ (k : Nat) e, es[k]? = some e → g.read ⟨i, k⟩ = .ok ⟨⟨i, k⟩, e.head, e.args⟩)
    ∧ g.atoms.size = (es.flatMap Entry.texts).dedup.length

theorem Shows.reads (h : w.Shows p) : w.Reads p := by
  refine ⟨h.size_eq, fun i es hes => ?_⟩
  obtain ⟨g, hg, hholds⟩ := h.holds i es hes
  refine ⟨g, hg, hholds.size_eq, fun k e he => ?_, hholds.atoms_size_eq⟩
  have hread := hholds.read_eq he
  rwa [Graph.node, id_eq hg] at hread

/-- Whatever is created, cloned and appended, the workspace and the plain lists give the same
results, and the same can be read from both. -/
theorem acts_refine_plain (ds : List Deed) :
    (acts ds empty).1 = (Plain.acts ds []).1
      ∧ (acts ds empty).2.Reads (Plain.acts ds []).2
      ∧ ∀ i g head args, (acts ds empty).2.graph? i = some g →
          Appends (acts ds empty).2 i head args g
            ((acts ds empty).2.act (.append i head args)).1
            ((acts ds empty).2.act (.append i head args)).2 := by
  obtain ⟨hresults, hshows⟩ := shows_empty.acts ds
  exact ⟨hresults, hshows.reads, fun i g head args hg => appends_act hg head args⟩

end Workspace

end TermGraph
