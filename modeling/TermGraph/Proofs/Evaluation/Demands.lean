import Mathlib.Logic.Relation
import TermGraph.Proofs.Evaluation.Ends

/-!
Which values a handler may ask for. A node is suspended just if everything that it asks for is
strictly below it, in the graph as the handler has left it; looking among the direct arguments
first, and not searching below the node that is asked for, changes nothing about that. Otherwise the
first node asked for that is not strictly below ends the run.
-/

namespace TermGraph

namespace Graph

variable {g : Graph} {n c : Node} {cs direct : List Node} {p q : Nat}

/-! ### One node that is asked for -/

/-- `c` is a node of the graph other than `n`, and one step or more lead down to it from `n`, each
to an argument. -/
structure StrictlyBelow (g : Graph) (n c : Node) : Prop where
  graph_eq : c.graph = g.id
  ne : c ≠ n
  steps : Relation.TransGen (fun p q => q ∈ g.childrenAt p) n.index c.index

theorem reflTransGen_iff_path :
    Relation.ReflTransGen (fun p q => q ∈ g.childrenAt p) p q ↔ g.Path p q := by
  constructor
  · intro h
    induction h with
    | refl => exact .refl p
    | tail _ hc ih => exact ih.trans (path_of_child hc)
  · intro h
    induction h with
    | refl p => exact .refl
    | step hc _ ih => exact .head hc ih

/-- What stands strictly below stands before. -/
theorem StrictlyBelow.index_lt (h : g.StrictlyBelow n c) : c.index < n.index := by
  obtain ⟨d, hd, hpath⟩ := Relation.TransGen.head'_iff.1 h.steps
  have hlt := lt_of_mem_childrenAt hd
  have hle := (reflTransGen_iff_path.1 hpath).le
  omega

/-- Strictly below are the nodes contained, up to the node itself. -/
theorem strictlyBelow_iff (hn : n ∈ g.nodes) :
    g.StrictlyBelow n c ↔ c ≠ n ∧ g.contains n c = .ok true := by
  constructor
  · rintro ⟨hgraph, hne, hsteps⟩
    obtain ⟨d, hd, hpath⟩ := Relation.TransGen.head'_iff.1 hsteps
    obtain ⟨hid, hlt⟩ := mem_nodes.1 hn
    exact ⟨hne, contains_iff.2 ⟨n.index, c.index, hlt, Node.ext hid rfl, Node.ext hgraph rfl,
      .step hd (reflTransGen_iff_path.1 hpath)⟩⟩
  · rintro ⟨hne, hcontains⟩
    obtain ⟨p, q, -, rfl, rfl, hpath⟩ := contains_iff.1 hcontains
    rcases path_iff.1 hpath with rfl | ⟨d, hd, hpath⟩
    · exact absurd rfl hne
    · exact ⟨rfl, hne, Relation.TransGen.head'_iff.2 ⟨d, hd, reflTransGen_iff_path.2 hpath⟩⟩

/-- Why the value of `c` is not given to `n`: `c` is of another graph, or a node of this one that is
not strictly below `n`, or no node at all. -/
inductive Refuses (g : Graph) (n c : Node) : Error → Prop
  | foreign : c.graph ≠ g.id → Refuses g n c (.foreign c g.id)
  | notBelow : c ∈ g.nodes → Refuses g n c (.notBelow n c)
  | dangling : c.graph = g.id → g.size ≤ c.index → Refuses g n c (.dangling c g.size)

/-- Whatever cannot be located is refused as such. -/
theorem refuses_of_locate {e : Error} (h : g.locate c = .error e) : g.Refuses n c e := by
  unfold locate at h
  split at h
  · next hgraph =>
    split at h
    · cases h
    · next hlt =>
      cases h
      exact .dangling hgraph (Nat.le_of_not_lt hlt)
  · next hgraph =>
    cases h
    exact .foreign hgraph

/-- Whether a node contains another is decided by where the other stands. -/
theorem contains_eq_map (hn : n ∈ g.nodes) :
    g.contains n c = (g.locate c).map fun q => g.reaches n.index q.val := by
  obtain ⟨p, hp⟩ := exists_locate hn
  rw [contains, hp, eq_node_of_locate hp]
  cases g.locate c <;> rfl

/-- What is not strictly below is refused. -/
theorem exists_allows_error (hn : n ∈ g.nodes) (hd : g.children n = .ok direct)
    (h : ¬ g.StrictlyBelow n c) : ∃ e, g.Refuses n c e ∧ g.allows n direct c = .error e := by
  rw [strictlyBelow_iff hn, ← allows_eq_ok_iff hd] at h
  cases hallows : g.allows n direct c with
  | ok u => exact absurd hallows h
  | error e =>
    refine ⟨e, ?_, rfl⟩
    unfold allows at hallows
    rw [contains_eq_map hn] at hallows
    split at hallows
    · cases hallows
    split at hallows
    · next he =>
      cases hallows
      exact .notBelow (he ▸ hn)
    cases hc : g.locate c with
    | error e' =>
      rw [hc] at hallows
      cases hallows
      exact refuses_of_locate hc
    | ok q =>
      have hnodes := mem_nodes_of_locate hc
      rw [hc] at hallows
      dsimp only [Except.map] at hallows
      split at hallows
      · cases hallows
      · cases hallows
        exact .notBelow hnodes
      · next hok => cases hok

/-! ### All that is asked for -/

/-- A check of every member fails at the first member that fails. -/
theorem forM_eq_error_of_append {α : Type} {f : α → Except Error Unit} {x : α} {e : Error} :
    ∀ {done : List α} (rest : List α), (∀ y ∈ done, f y = .ok ()) → f x = .error e →
      (done ++ x :: rest).forM f = .error e
  | [], rest, _, hx => by
    have hcons : (x :: rest).forM f = (f x >>= fun _ => rest.forM f) := rfl
    rw [List.nil_append, hcons, hx]
    rfl
  | y :: done, rest, hdone, hx => by
    have hcons : (y :: done ++ x :: rest).forM f
        = (f y >>= fun _ => (done ++ x :: rest).forM f) := rfl
    rw [hcons, hdone y (List.mem_cons_self ..),
      forM_eq_error_of_append rest (fun z hz => hdone z (List.mem_cons_of_mem _ hz)) hx]
    rfl

theorem exists_children (hn : n ∈ g.nodes) : ∃ direct, g.children n = .ok direct := by
  obtain ⟨p, hp⟩ := exists_locate hn
  exact ⟨_, by rw [children, hp]; rfl⟩

/-- A request is granted just if all that is asked for is strictly below. -/
theorem allowsAll_eq_ok_iff (hn : n ∈ g.nodes) :
    g.allowsAll n cs = .ok () ↔ ∀ c ∈ cs, g.StrictlyBelow n c := by
  obtain ⟨direct, hd⟩ := exists_children hn
  rw [allowsAll, hd]
  refine forM_eq_ok_iff.trans (forall₂_congr fun c _ => ?_)
  rw [allows_eq_ok_iff hd, strictlyBelow_iff hn]

/-- `c` is the first of the nodes asked for that is not strictly below `n`. -/
def FirstOffender (g : Graph) (n : Node) (cs : List Node) (c : Node) : Prop :=
  ∃ done rest, cs = done ++ c :: rest ∧ (∀ d ∈ done, g.StrictlyBelow n d) ∧ ¬ g.StrictlyBelow n c

theorem exists_firstOffender : ∀ {cs : List Node}, (¬ ∀ c ∈ cs, g.StrictlyBelow n c) →
    ∃ c, g.FirstOffender n cs c
  | [], h => absurd (List.forall_mem_nil _) h
  | d :: cs, h => by
    by_cases hd : g.StrictlyBelow n d
    · have hcs : ¬ ∀ c ∈ cs, g.StrictlyBelow n c := fun hall =>
        h (List.forall_mem_cons.2 ⟨hd, hall⟩)
      obtain ⟨c, done, rest, rfl, hdone, hc⟩ := exists_firstOffender hcs
      exact ⟨c, d :: done, rest, rfl, List.forall_mem_cons.2 ⟨hd, hdone⟩, hc⟩
    · exact ⟨d, [], cs, rfl, List.forall_mem_nil _, hd⟩

/-- A request fails at its first offender. -/
theorem FirstOffender.exists_error (h : g.FirstOffender n cs c) (hn : n ∈ g.nodes) :
    ∃ e, g.Refuses n c e ∧ g.allowsAll n cs = .error e := by
  obtain ⟨done, rest, rfl, hdone, hc⟩ := h
  obtain ⟨direct, hd⟩ := exists_children hn
  obtain ⟨e, hrefuses, he⟩ := exists_allows_error hn hd hc
  refine ⟨e, hrefuses, ?_⟩
  rw [allowsAll, hd]
  refine forM_eq_error_of_append rest (fun d hdd => ?_) he
  rw [allows_eq_ok_iff hd, ← strictlyBelow_iff hn]
  exact hdone d hdd

end Graph

/-! ### Requests in a run -/

variable {σ T : Type}

namespace Frame

/-- The call that a turn makes for an entry: how it is noted, where the handler then stands still,
and the graph as it is then. None is made for a node that has its value. -/
inductive Calls (handler : Handler σ T) : Frame σ T → Progress σ T →
    (Except Error (Reply T) → Call T) → Halt σ T × Graph → Prop
  | start {n : Node} {p : Progress σ T} : n ∉ p.memo →
    Calls handler (.start n) p (.start n) ((handler n p.state).advance p.graph)
  | wait {n : Node} {w : Suspended σ T} {p : Progress σ T} {a : w.request.Answer T} :
    p.memo.answer w.request = .ok a →
      Calls handler (.wait n w) p (.resume n (w.request.values a))
        ((w.resume (a, p.state)).advance p.graph)

variable {handler : Handler σ T} {f : Frame σ T} {p : Progress σ T}
  {note : Except Error (Reply T) → Call T} {out : Halt σ T × Graph}

/-- A turn that makes a call acts on where the handler then stands still. -/
theorem Calls.turn_eq (h : Calls handler f p note out) :
    f.turn handler p = settle f.node note p.memo p.calls out.1 out.2 := by
  cases h with
  | start hn => exact if_neg hn
  | wait ha =>
    rw [turn, ha]
    rfl

/-- A turn whose call asks for values suspends the node or fails, as the check of the request says.
-/
theorem Calls.turn_eq_of_asks {r : Request} {s : σ} {next : Resumption σ T r} {g : Graph}
    (h : Calls handler f p note (.asks (r, s) next, g)) :
    f.turn handler p =
      ((g.allowsAll f.node r.nodes).map fun _ => pending p.memo f.node ⟨r, next⟩,
        ⟨g, s, p.memo, p.calls.push (note (.ok (.wants r)))⟩) := by
  rw [h.turn_eq, settle]
  cases g.allowsAll f.node r.nodes <;> rfl

theorem Calls.extends_graph (h : Calls handler f p note out) : p.graph.Extends out.2 := by
  cases h with
  | start _ => exact Script.extends_advance _ _
  | wait _ => exact Script.extends_advance _ _

end Frame

namespace Graph

variable {g : Graph} {root : Node} {handler : Handler σ T} {s : σ} {f : Frame σ T}
  {rest : List (Frame σ T)} {p p' : Progress σ T} {stack : List (Frame σ T)}

theorem Stage.exists_locate (h : g.Stage root handler s stack p) : ∃ q, g.locate root = .ok q := by
  induction h with
  | start hq => exact ⟨_, hq⟩
  | turn _ _ ih => exact ih

/-- Every entry is about a node of the graph. -/
theorem Stage.node_mem_nodes (h : g.Stage root handler s (f :: rest) p) : f.node ∈ p.graph.nodes :=
  h.orderly.grown.mem_nodes (mem_nodes_of_contains (h.orderly.within f (List.mem_cons_self ..)))

/-- A turn that fails ends the whole evaluation. -/
theorem Stage.evaluate_eq_of_error (h : g.Stage root handler s (f :: rest) p) {e : Error}
    (hturn : f.turn handler p = (.error e, p')) :
    g.evaluate root handler s = ⟨.error e, p'.graph, p'.state, p'.calls⟩ := by
  obtain ⟨q, hq⟩ := h.exists_locate
  rw [evaluate, hq]
  dsimp only
  rw [← h.runStack_eq, Frame.runStack_cons, hturn]

/-- At every stage of every evaluation, when the handler of a node asks for values, for one or for
many, at its start or later, the node is suspended just if all that is asked for is strictly below
the node in the graph as it is then, whether there are values yet or not. Otherwise the whole
evaluation fails with the first node asked for that is not strictly below. So it does if the handler
asks for the node itself, for a node that contains it or that it does not contain, or for one that
was appended after it. -/
theorem requests_granted (g : Graph) (root : Node) (handler : Handler σ T) (s : σ)
    (f : Frame σ T) (rest : List (Frame σ T)) (p : Progress σ T)
    (note : Except Error (Reply T) → Call T) (r : Request) (s' : σ) (next : Resumption σ T r)
    (g' : Graph) (hstage : g.Stage root handler s (f :: rest) p)
    (hcall : f.Calls handler p note (.asks (r, s') next, g')) :
    let asked : Progress σ T := ⟨g', s', p.memo, p.calls.push (note (.ok (.wants r)))⟩
    (f.turn handler p = (.ok (Frame.pending p.memo f.node ⟨r, next⟩), asked) ↔
        ∀ c ∈ r.nodes, g'.StrictlyBelow f.node c)
      ∧ ((¬ ∀ c ∈ r.nodes, g'.StrictlyBelow f.node c) →
        ∃ c e, g'.FirstOffender f.node r.nodes c ∧ g'.Refuses f.node c e
          ∧ f.turn handler p = (.error e, asked)
          ∧ g.evaluate root handler s = ⟨.error e, g', s', asked.calls⟩)
      ∧ ∀ c ∈ r.nodes, c = f.node ∨ g'.contains c f.node = .ok true
          ∨ g'.contains f.node c = .ok false ∨ f.node.index < c.index ∨ c.graph ≠ g'.id →
        ∃ e, f.turn handler p = (.error e, asked)
          ∧ g.evaluate root handler s = ⟨.error e, g', s', asked.calls⟩ := by
  intro asked
  have hnode : f.node ∈ g'.nodes := hcall.extends_graph.mem_nodes hstage.node_mem_nodes
  have hturn := hcall.turn_eq_of_asks
  have hfails : (¬ ∀ c ∈ r.nodes, g'.StrictlyBelow f.node c) →
      ∃ c e, g'.FirstOffender f.node r.nodes c ∧ g'.Refuses f.node c e
        ∧ f.turn handler p = (.error e, asked)
        ∧ g.evaluate root handler s = ⟨.error e, g', s', asked.calls⟩ := by
    intro hnot
    obtain ⟨c, hc⟩ := exists_firstOffender hnot
    obtain ⟨e, hrefuses, he⟩ := hc.exists_error hnode
    rw [he] at hturn
    exact ⟨c, e, hc, hrefuses, hturn, hstage.evaluate_eq_of_error hturn⟩
  refine ⟨⟨fun hok => ?_, fun hall => ?_⟩, hfails, fun c hc hoff => ?_⟩
  · refine Classical.byContradiction fun hnot => ?_
    obtain ⟨c, e, -, -, herror, -⟩ := hfails hnot
    rw [hok] at herror
    cases herror
  · rw [hturn, (allowsAll_eq_ok_iff hnode).2 hall]
    rfl
  · have hbelow : ¬ g'.StrictlyBelow f.node c := fun hbelow => by
      have hlt := hbelow.index_lt
      have hcontains := ((strictlyBelow_iff hnode).1 hbelow).2
      rcases hoff with rfl | habove | hno | hafter | hforeign
      · exact hbelow.ne rfl
      · have hle := (index_le_of_contains habove).2
        omega
      · rw [hno] at hcontains
        cases hcontains
      · omega
      · exact hforeign hbelow.graph_eq
    obtain ⟨d, e, -, -, hout⟩ := hfails fun hall => hbelow (hall c hc)
    exact ⟨e, hout⟩

/-- A handler that asks for the first node of the chain and then, among others, for a record that it
has appended itself. -/
def curious (n : Node) : Inquiry Unit Nat Nat := do
  if n = chain.node 0 then return 1
  let v ← Inquiry.demand (chain.node 0)
  let m ← Routine.append "new" []
  let vs ← Inquiry.demandAll [chain.node 1, m, n]
  return v + vs.length

theorem requests_granted_chain : chain.StrictlyBelow (chain.node 2) (chain.node 0)
    ∧ ∃ (g' : Graph) (c : Node),
      g'.FirstOffender (chain.node 2) [chain.node 1, chain.node 3, chain.node 2] c
      ∧ (chain.evaluate (chain.node 2) curious ()).result
        = .error (.notBelow (chain.node 2) (chain.node 3)) := by
  have hstart : chain.Stage (chain.node 2) curious () _ _ :=
    Stage.start (show chain.locate (chain.node 2) = _ from rfl)
  obtain ⟨hgranted, -, -⟩ := requests_granted chain (chain.node 2) curious () _ _ _ _
    (.one (chain.node 0)) () _ chain hstart (Frame.Calls.start (by decide))
  have hbelow := hgranted.1 rfl
  -- the handler waits, the first node gets its value, and the handler goes on
  have hlast := (hstart.turn rfl).turn rfl
  obtain ⟨-, hfails, -⟩ := requests_granted chain (chain.node 2) curious () _ _ _ _ (.all _) () _ _
    hlast (Frame.Calls.wait (show Memo.answer _ (.one (chain.node 0)) = .ok (1 : Nat) from rfl))
  obtain ⟨c, e, hfirst, -, hturn, hout⟩ := hfails fun hall =>
    absurd (hall (chain.node 3) (by decide)).index_lt (by decide)
  obtain rfl : Error.notBelow (chain.node 2) (chain.node 3) = e :=
    Except.error.inj (congrArg Prod.fst hturn)
  exact ⟨hbelow _ (List.mem_singleton_self _), _, c, hfirst, by rw [hout]⟩

end Graph

end TermGraph
