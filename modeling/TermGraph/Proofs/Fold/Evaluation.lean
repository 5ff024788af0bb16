import TermGraph.Proofs.Evaluation.Recursive
import TermGraph.Proofs.Fold.Table

/-!
Folding by an evaluation. The handler asks for the values of all children, in one request or in
several, and makes the value of its node from them. By recursion over the graph, evaluating a node
adds the values of the node and of all below it to the memo, and nothing else: what is known is
skipped, but then all below it is known too.
-/

namespace TermGraph

/-- How to ask for the values of nodes: requests that together ask for all of them, in order. -/
structure Asking where
  requests : List Node → List Request
  flatMap_nodes : ∀ ns, (requests ns).flatMap Request.nodes = ns

namespace Asking

/-- All at once. -/
def together : Asking := ⟨fun ns => [.all ns], fun _ => List.flatMap_singleton ..⟩

/-- One after the other. -/
def oneByOne : Asking :=
  ⟨fun ns => ns.map .one, fun ns => by simp [List.flatMap_map, Request.nodes]⟩

end Asking

namespace Inquiry

variable {σ T : Type}

/-- Puts a request and gives the values in the answer. -/
def put : Request → Inquiry σ T (List T)
  | .one n => do return [← demand n]
  | .all ns => demandAll ns

/-- Puts requests one after the other and makes a value of all that was answered. -/
def gather : List Request → (List T → T) → Inquiry σ T T
  | [], make => return make []
  | r :: rs, make => do
    let values ← put r
    gather rs fun others => make (values ++ others)

theorem gather_cons (r : Request) (rs : List Request) (make : List T → T) (s : σ) :
    gather (r :: rs) make s
      = .ask (r, s) fun a => gather rs (fun others => make (r.values a.1 ++ others)) a.2 := by
  cases r <;> rfl

end Inquiry

variable {σ T : Type}

/-- Asks for the values of all children and makes the value of the node from them. -/
def foldHandler (alg : Algebra T) (ask : Asking) : Handler σ T := fun n => do
  let e ← Routine.read n
  Inquiry.gather (ask.requests e.children) fun values => alg e.head (fill e.args values)

theorem foldHandler_eq (alg : Algebra T) (ask : Asking) (n : Node) (s : σ) :
    foldHandler alg ask n s = .look fun g =>
      match g.read n with
      | .error e => .done (.error e, s)
      | .ok e => Inquiry.gather (ask.requests e.children)
          (fun values => alg e.head (fill e.args values)) s := by
  refine congrArg Script.look (funext fun g => ?_)
  dsimp only [Script.bind]
  cases g.read n <;> rfl

namespace Graph

variable {g : Graph} {S : Set (Fin g.size)} {p q : Fin g.size} {qs rs : List (Fin g.size)}

/-! ### Below some nodes -/

/-- The positions of the nodes given and of all that they depend on. -/
def under (g : Graph) (qs : List (Fin g.size)) : Set (Fin g.size) :=
  { c | ∃ q ∈ qs, g.Path q.val c.val }

/-- With each position the set has those below it. -/
def LowerClosed (g : Graph) (S : Set (Fin g.size)) : Prop :=
  ∀ p ∈ S, ∀ c : Fin g.size, g.Path p.val c.val → c ∈ S

theorem LowerClosed.union {P : Set (Fin g.size)} (h : g.LowerClosed S) (h' : g.LowerClosed P) :
    g.LowerClosed (S ∪ P) := by
  rintro p (hp | hp) c hc
  · exact .inl (h p hp c hc)
  · exact .inr (h' p hp c hc)

theorem lowerClosed_under (qs : List (Fin g.size)) : g.LowerClosed (g.under qs) := by
  rintro p ⟨q, hq, hpath⟩ c hc
  exact ⟨q, hq, hpath.trans hc⟩

theorem under_nil (g : Graph) : g.under [] = ∅ := by
  ext c
  simp [under]

theorem under_append : g.under (qs ++ rs) = g.under qs ∪ g.under rs := by
  ext c
  simp [under, or_and_right, exists_or]

theorem under_cons : g.under (q :: qs) = g.under [q] ∪ g.under qs := by
  rw [← under_append, List.singleton_append]

/-- Below a node are the node itself and what is below its arguments. -/
theorem under_singleton : g.under [p] = insert p (g.under (g.argNodes p)) := by
  ext c
  simp only [under, List.mem_singleton, exists_eq_left, Set.mem_ofPred_eq, Set.mem_insert_iff]
  constructor
  · intro h
    rcases path_iff.1 h with hpc | ⟨q, hq, hpath⟩
    · exact .inl (Fin.ext hpc.symm)
    · have hlt := Nat.lt_trans (lt_of_mem_childrenAt hq) p.isLt
      exact .inr ⟨⟨q, hlt⟩, mem_argNodes.2 hq, hpath⟩
  · rintro (rfl | ⟨q, hq, hpath⟩)
    · exact .refl _
    · exact .step (mem_argNodes.1 hq) hpath

theorem allowsAll_of_subset {n : Node} {direct cs : List Node} (h : g.children n = .ok direct)
    (hcs : ∀ c ∈ cs, c ∈ direct) : g.allowsAll n cs = .ok () := by
  rw [allowsAll, h]
  exact forM_eq_ok_iff.2 fun c hc => if_pos (hcs c hc)

end Graph

variable {g : Graph} {f : Fin g.size → T} {S P Q : Set (Fin g.size)} {s : σ}

/-- A request for known nodes is answered. -/
theorem Memo.Tabulates.answer {memo : Memo T} {D : Set Node} (h : memo.Tabulates D g f S)
    {r : Request} {qs : List (Fin g.size)} (hr : r.nodes = qs.map fun q => g.node q.val)
    (hqs : ∀ q ∈ qs, q ∈ S) : ∃ a, memo.answer r = .ok a ∧ r.values a = qs.map f := by
  cases r with
  | one n =>
    obtain ⟨q, rfl, rfl⟩ := List.map_eq_singleton_iff.1 hr.symm
    exact ⟨f q, h.value (hqs q (List.mem_singleton_self q)), rfl⟩
  | all ns =>
    have hvalues := h.values hqs
    rw [← hr] at hvalues
    exact ⟨qs.map f, hvalues, rfl⟩

namespace Evaluation

/-- To a memo that has with each node those below it, the evaluation adds the values of `f` at the
positions `P`. -/
def Adds (ev : Evaluation σ T) (g : Graph) (s : σ) (f : Fin g.size → T) (P : Set (Fin g.size)) :
    Prop :=
  ∀ (S : Set (Fin g.size)) (memo : Memo T) (calls : Array (Call T)), g.LowerClosed S →
    memo.Tabulates .univ g f S → ∃ memo' calls',
      ev ⟨g, s, memo, calls⟩ = (.ok (), ⟨g, s, memo', calls'⟩) ∧ memo'.Tabulates .univ g f (S ∪ P)

theorem Adds.andThen {first second : Evaluation σ T} (h : first.Adds g s f P)
    (h' : second.Adds g s f Q) (hP : g.LowerClosed P) :
    (first.andThen second).Adds g s f (P ∪ Q) := by
  intro S memo calls hS ht
  obtain ⟨memo', calls', hfirst, ht'⟩ := h S memo calls hS ht
  rw [andThen_ok hfirst, ← Set.union_assoc]
  exact h' _ memo' calls' (hS.union hP) ht'

theorem adds_each {limit : Nat} {below : (c : Node) → c.index < limit → Evaluation σ T}
    (hb : ∀ (q : Fin g.size) (hq : q.val < limit),
      (below (g.node q.val) hq).Adds g s f (g.under [q])) :
    ∀ {qs : List (Fin g.size)} {cs : List Node} (h : ∀ c ∈ cs, c.index < limit),
      cs = qs.map (fun q => g.node q.val) → (each below cs h).Adds g s f (g.under qs)
  | [], _, _, rfl => by
    intro S memo calls _ ht
    refine ⟨memo, calls, rfl, ?_⟩
    rwa [Graph.under_nil, Set.union_empty]
  | q :: qs, _, h, rfl => by
    rw [Graph.under_cons]
    exact (hb q _).andThen (adds_each hb _ rfl) (Graph.lowerClosed_under [q])

section Handler

variable {p : Fin g.size} (below : (c : Node) → c.index < (g.node p.val).index → Evaluation σ T)
  (hb : ∀ (q : Fin g.size) (hq : q.val < p.val),
    (below (g.node q.val) hq).Adds g s f (g.under [q]))
include hb

/-- A request for arguments is answered with their values, and the handler goes on. -/
theorem adds_ask {r : Request} {next : Resumption σ T r} {qs : List (Fin g.size)}
    (note : Except Error (Reply T) → Call T) (hr : r.nodes = qs.map fun q => g.node q.val)
    (hqs : ∀ q ∈ qs, q ∈ g.argNodes p)
    (hnext : ∀ a, r.values a = qs.map f → (finish (g.node p.val) below
      (.resume (g.node p.val) (r.values a)) (next (a, s))).Adds g s f P) :
    (finish (g.node p.val) below note (.ask (r, s) next)).Adds g s f (g.under qs ∪ P) := by
  intro S memo calls hS ht
  have hallowed : g.allowsAll (g.node p.val) r.nodes = .ok () := by
    refine Graph.allowsAll_of_subset (g.children_node p) fun c hc => ?_
    rw [hr] at hc
    obtain ⟨q, hq, rfl⟩ := List.mem_map.1 hc
    rw [Graph.exprAt_children]
    exact List.mem_map_of_mem (hqs q hq)
  obtain ⟨memo', calls', heach, ht'⟩ := adds_each hb (Graph.index_lt_of_allowsAll hallowed) hr
    S memo (calls.push (note (.ok (.wants r)))) hS ht
  obtain ⟨a, hanswer, hvalues⟩ := ht'.answer hr fun q hq => .inr ⟨q, hq, .refl _⟩
  obtain ⟨memo'', calls'', hrest, ht''⟩ := hnext a hvalues _ memo' calls'
    (hS.union (Graph.lowerClosed_under qs)) ht'
  rw [Set.union_assoc] at ht''
  refine ⟨memo'', calls'', ?_, ht''⟩
  refine (finish_ask_ok (p := ⟨g, s, memo, calls⟩) hallowed).trans ((andThen_ok heach).trans ?_)
  dsimp only
  rw [hanswer]
  exact hrest

/-- Once the requests are answered, the node gets what is made of the answers. -/
theorem adds_gather : ∀ (rs : List Request) (make : List T → T)
    (note : Except Error (Reply T) → Call T) {qs : List (Fin g.size)},
    rs.flatMap Request.nodes = qs.map (fun q => g.node q.val) → (∀ q ∈ qs, q ∈ g.argNodes p) →
    make (qs.map f) = f p → (finish (g.node p.val) below note
      (Inquiry.gather rs make s)).Adds g s f (insert p (g.under qs))
  | [], make, note, _, hrs, _, hmake => by
    cases List.map_eq_nil_iff.1 hrs.symm
    intro S memo calls _ ht
    refine ⟨memo.insert (g.node p.val) (f p), calls.push (note (.ok (.value (f p)))), ?_, ?_⟩
    · rw [← hmake]
      rfl
    · rw [Graph.under_nil, Set.union_insert, Set.union_empty]
      exact ht.insert p
  | r :: rs, make, note, _, hrs, hqs, hmake => by
    rw [List.flatMap_cons] at hrs
    obtain ⟨now, later, rfl, hnow, hlater⟩ := List.map_eq_append_iff.1 hrs.symm
    rw [Inquiry.gather_cons, Graph.under_append, ← Set.union_insert]
    refine adds_ask below hb note hnow.symm (fun q hq => hqs q (List.mem_append_left _ hq))
      fun a ha => ?_
    refine adds_gather rs _ _ hlater.symm (fun q hq => hqs q (List.mem_append_right _ hq)) ?_
    rw [ha, ← List.map_append, hmake]

end Handler

/-- Evaluating a node adds the values of the node and of all below it. -/
theorem adds_node (alg : Algebra T) (ask : Asking) (p : Fin g.size) :
    (node (foldHandler alg ask) (g.node p.val)).Adds g s (g.foldBy alg) (g.under [p]) := by
  intro S memo calls hS ht
  by_cases hp : p ∈ S
  · have hsub : g.under [p] ⊆ S := by
      rintro c ⟨q, hq, hpath⟩
      rw [List.mem_singleton.1 hq] at hpath
      exact hS p hp c hpath
    rw [Set.union_eq_self_of_subset_right hsub]
    have hmem := Std.TreeMap.contains_iff_mem.2 ((ht.mem_iff trivial).2 hp)
    exact ⟨memo, calls, node_of_known hmem, ht⟩
  · have hmem := mt Std.TreeMap.contains_iff_mem.1 (mt (ht.mem_iff trivial).1 hp)
    have hbelow := fun (q : Fin g.size) (_ : q.val < p.val) => adds_node alg ask q
    have hrequests := (ask.flatMap_nodes _).trans (Graph.exprAt_children p)
    obtain ⟨memo', calls', hfinish, ht'⟩ := adds_gather (fun c _ => node (foldHandler alg ask) c)
      hbelow _ (fun values => alg (g.exprAt p).head (fill (g.exprAt p).args values))
      (.start (g.node p.val)) hrequests (fun q hq => hq) (g.foldBy_eq alg p).symm S memo calls hS ht
    rw [← Graph.under_singleton] at ht'
    refine ⟨memo', calls', ?_, ht'⟩
    rw [node_of_unknown hmem, foldHandler_eq, finish]
    dsimp only
    rw [Graph.read_node]
    exact hfinish
termination_by p.val

end Evaluation

/-- The evaluation gives the root and everything that it depends on their values, and no other node;
the graph and the state are left alone. -/
theorem evaluate_foldHandler (alg : Algebra T) (ask : Asking) (g : Graph) (root : Fin g.size)
    (s : σ) : ∃ memo calls,
      g.evaluate (g.node root.val) (foldHandler alg ask) s = ⟨.ok memo, g, s, calls⟩
        ∧ memo.Tabulates .univ g (g.foldBy alg) { q | g.Path root.val q.val } := by
  obtain ⟨memo, calls, hnode, ht⟩ := Evaluation.adds_node (s := s) alg ask root ∅ ∅ #[]
    (fun _ h => h.elim) (.empty ..)
  have hunder : g.under [root] = { q | g.Path root.val q.val } := by simp [Graph.under]
  rw [Set.empty_union, hunder] at ht
  refine ⟨memo, calls, ?_, ht⟩
  rw [Graph.evaluate, Graph.locate_node root.isLt]
  dsimp only
  rw [Evaluation.runStack_start, hnode]

end TermGraph
