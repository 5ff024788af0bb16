import TermGraph.Proofs.Evaluation.Once
import TermGraph.Proofs.Evaluation.Recursive
import TermGraph.Proofs.Evaluation.Request
import TermGraph.Proofs.Evaluation.Steady
import TermGraph.Proofs.Fold.Table

/-!
Values do not depend on where an evaluation starts. If handlers are steady, each value in the memo
of an evaluation is what the handler of its node gives when it is answered from this memo: the memo
is `Justified`. An evaluation that starts at one of these nodes then meets the same answers, so it
succeeds and its memo is a part of the other, although what it finds known, and when, is different.
-/

namespace TermGraph

variable {σ T : Type} {g : Graph} {handler : Handler σ T} {n root : Node} {memo memo' : Memo T}

/-! ### Justified memos -/

/-- Answered from the memo, the inquiry made for `n` may ask what it asks and gives the value. -/
inductive Inquiry.Gives (g : Graph) (n : Node) (memo : Memo T) : Inquiry σ T T → T → Prop
  | done {m : Inquiry σ T T} {v : T} :
    (∀ s, (m s).advance g = (.done (.ok v, s), g)) → Gives g n memo m v
  | asks {m : Inquiry σ T T} {r : Request} {next : Resumption σ T r} {a : r.Answer T} {v : T} :
    (∀ s, (m s).advance g = (.asks (r, s) next, g)) → g.allowsAll n r.nodes = .ok () →
    memo.answer r = .ok a → Gives g n memo (fun s => next (a, s)) v → Gives g n memo m v

theorem Inquiry.Gives.mono {m : Inquiry σ T T} {v : T} (h : m.Gives g n memo v)
    (hmemo : memo.Within memo') : m.Gives g n memo' v := by
  induction h with
  | done hdone => exact .done hdone
  | asks hasks hallowed hanswer _ ih => exact .asks hasks hallowed (hmemo.answer hanswer) ih

/-- Every value is what the handler gives when it is answered from the memo. -/
def Memo.Justified (memo : Memo T) (g : Graph) (handler : Handler σ T) : Prop :=
  ∀ (n : Node) (v : T), memo[n]? = some v → (handler n).Gives g n memo v

theorem Memo.justified_empty (g : Graph) (handler : Handler σ T) :
    Memo.Justified ∅ g handler := by
  intro n v h
  rw [Std.TreeMap.getElem?_emptyc] at h
  cases h

theorem Memo.Justified.insert {v : T} (h : memo.Justified g handler) (hnew : n ∉ memo)
    (hv : (handler n).Gives g n memo v) :
    Memo.Justified (Std.TreeMap.insert memo n v) g handler := by
  intro m w hw
  rw [Memo.getElem?_insert] at hw
  split at hw
  · next he =>
    cases hw
    subst he
    exact hv.mono (Memo.within_insert hnew v)
  · exact (h m w hw).mono (Memo.within_insert hnew v)

namespace Evaluation

variable {below : (c : Node) → c.index < n.index → Evaluation σ T} {p p' q : Progress σ T}
  {limit : Nat}

/-! ### The handler up to its next question -/

/-- What is left of a handler is carried through from where it stands still. -/
theorem finish_advance (note : Except Error (Reply T) → Call T) :
    ∀ (sc : Script (Request × σ) (fun q => q.1.Answer T × σ) (Except Error T × σ))
      (p : Progress σ T), finish n below note sc p =
      match sc.advance p.graph with
      | (.done r, g) => finish n below note (.done r) { p with graph := g }
      | (.asks q next, g) => finish n below note (.ask q next) { p with graph := g }
  | .done _, _ => rfl
  | .look next, p => finish_advance note (next p.graph) p
  | .append head args next, p =>
    finish_advance note (next (p.graph.append head args).1)
      { p with graph := (p.graph.append head args).2 }
  | .ask _ _, _ => rfl

theorem finish_of_done {note : Except Error (Reply T) → Call T}
    {sc : Script (Request × σ) (fun q => q.1.Answer T × σ) (Except Error T × σ)}
    {r : Except Error T} {s : σ} (h : sc.advance p.graph = (.done (r, s), p.graph)) :
    finish n below note sc p = finish n below note (.done (r, s)) p := by
  rw [finish_advance, h]

theorem finish_of_asks {note : Except Error (Reply T) → Call T}
    {sc : Script (Request × σ) (fun q => q.1.Answer T × σ) (Except Error T × σ)} {r : Request}
    {next : Resumption σ T r} {s : σ} (h : sc.advance p.graph = (.asks (r, s) next, p.graph)) :
    finish n below note sc p = finish n below note (.ask (r, s) next) p := by
  rw [finish_advance, h]

theorem exists_of_andThen_ok {first second : Evaluation σ T}
    (h : first.andThen second p = (.ok (), p')) :
    ∃ q, first p = (.ok (), q) ∧ second q = (.ok (), p') := by
  rw [andThen] at h
  obtain ⟨⟨r, q⟩, hq⟩ : ∃ r, first p = r := ⟨_, rfl⟩
  rw [hq] at h
  cases r with
  | error e => cases h
  | ok u => exact ⟨q, hq, h⟩

/-! ### The memo of an evaluation is justified -/

/-- From the memo an evaluation came to `p`: the graph is as before, values were added for nodes of
the graph before position `limit`, and the memo is justified. -/
structure Leads (g : Graph) (handler : Handler σ T) (limit : Nat) (memo : Memo T)
    (p : Progress σ T) : Prop where
  graph_eq : p.graph = g
  within : memo.Within p.memo
  justified : p.memo.Justified g handler
  new : ∀ m ∈ p.memo, m ∈ memo ∨ m ∈ g.nodes ∧ m.index < limit

theorem Leads.refl (hg : p.graph = g) (hp : p.memo.Justified g handler) :
    Leads g handler limit p.memo p := ⟨hg, .refl _, hp, fun _ => .inl⟩

theorem Leads.trans (h : Leads g handler limit memo p) (h' : Leads g handler limit p.memo p') :
    Leads g handler limit memo p' :=
  ⟨h'.graph_eq, h.within.trans h'.within, h'.justified, fun m hm =>
    (h'.new m hm).elim (h.new m) .inr⟩

theorem Leads.mono {limit' : Nat} (h : Leads g handler limit memo p) (hle : limit ≤ limit') :
    Leads g handler limit' memo p :=
  ⟨h.graph_eq, h.within, h.justified, fun m hm =>
    (h.new m hm).imp_right fun ⟨hm, hlt⟩ => ⟨hm, Nat.lt_of_lt_of_le hlt hle⟩⟩

/-- Where it succeeds from a justified memo, the evaluation leads to another. -/
def Justifies (ev : Evaluation σ T) (g : Graph) (handler : Handler σ T) (limit : Nat) : Prop :=
  ∀ p p', p.graph = g → p.memo.Justified g handler → ev p = (.ok (), p') →
    Leads g handler limit p.memo p'

theorem justifies_each {below : (c : Node) → c.index < limit → Evaluation σ T}
    (hb : ∀ c hc, c ∈ g.nodes → (below c hc).Justifies g handler limit) :
    ∀ (cs : List Node) (h : ∀ c ∈ cs, c.index < limit), (∀ c ∈ cs, c ∈ g.nodes) →
      (each below cs h).Justifies g handler limit
  | [], _, _ => by
    intro p p' hg hp hev
    cases hev
    exact .refl hg hp
  | c :: cs, _, hnodes => by
    intro p p' hg hp hev
    obtain ⟨q, hfirst, hrest⟩ := exists_of_andThen_ok hev
    have hq := hb c _ (hnodes c (List.mem_cons_self ..)) p q hg hp hfirst
    exact hq.trans (justifies_each hb cs _ (fun d hd => hnodes d (List.mem_cons_of_mem _ hd))
      q p' hq.graph_eq hq.justified hrest)

/-- A steady handler that is carried through has given the value of its node. -/
theorem gives_of_finish (hb : ∀ c hc, c ∈ g.nodes → (below c hc).Justifies g handler n.index)
    {m : Inquiry σ T T} (hm : m.Steady g) (s : σ) (note : Except Error (Reply T) → Call T)
    (hg : p.graph = g) (hp : p.memo.Justified g handler)
    (hfinish : finish n below note (m s) p = (.ok (), p')) :
    ∃ v q, Leads g handler n.index p.memo q ∧ m.Gives g n q.memo v
      ∧ p'.graph = g ∧ p'.memo = q.memo.insert n v := by
  induction hm generalizing p s note with
  | done r hdone =>
    subst hg
    rw [finish_of_done (hdone s)] at hfinish
    cases r with
    | error e => cases hfinish
    | ok v =>
      cases hfinish
      exact ⟨v, p, .refl rfl hp, .done hdone, rfl, rfl⟩
  | asks r next hasks _ ih =>
    subst hg
    rw [finish_of_asks (hasks s)] at hfinish
    cases hallowed : p.graph.allowsAll n r.nodes with
    | error e =>
      rw [finish_ask_error hallowed] at hfinish
      cases hfinish
    | ok u =>
      rw [finish_ask_ok hallowed] at hfinish
      obtain ⟨q, heach, hrest⟩ := exists_of_andThen_ok hfinish
      have hnodes : ∀ c ∈ r.nodes, c ∈ p.graph.nodes := fun c hc =>
        Graph.mem_nodes_of_contains (Graph.contains_of_allowsAll hallowed c hc)
      have hq := justifies_each hb r.nodes _ hnodes
        ⟨p.graph, s, p.memo, p.calls.push (note (.ok (.wants r)))⟩ q rfl hp heach
      cases hanswer : q.memo.answer r with
      | error e =>
        rw [hanswer] at hrest
        cases hrest
      | ok a =>
        rw [hanswer] at hrest
        obtain ⟨v, q', hq', hv, hp'⟩ := ih a q.state _ hq.graph_eq hq.justified hrest
        exact ⟨v, q', hq.trans hq', .asks hasks hallowed (hq'.within.answer hanswer) hv, hp'⟩

/-- Evaluating a node gives it a justified value, after justified values for nodes before it. -/
theorem justifies_node (hsteady : ∀ n ∈ g.nodes, (handler n).Steady g) (n : Node)
    (hn : n ∈ g.nodes) : (node handler n).Justifies g handler (n.index + 1) := by
  intro p p' hg hp hev
  by_cases hknown : p.memo.contains n = true
  · rw [node_of_known hknown] at hev
    cases hev
    exact .refl hg hp
  · rw [node_of_unknown hknown] at hev
    obtain ⟨v, q, hq, hv, hgraph, hmemo⟩ := gives_of_finish
      (fun c hlt hc p p' hg hp hev =>
        (justifies_node hsteady c hc p p' hg hp hev).mono (Nat.succ_le_of_lt hlt))
      (hsteady n hn) p.state _ hg hp hev
    -- only nodes before `n` have got values on the way
    have hnew : n ∉ q.memo := fun hmem => by
      rcases hq.new n hmem with hold | ⟨-, hlt⟩
      · exact hknown (Std.TreeMap.contains_iff_mem.2 hold)
      · exact Nat.lt_irrefl _ hlt
    refine ⟨hgraph, ?_, ?_, fun m hm => ?_⟩
    · rw [hmemo]
      exact hq.within.trans (Memo.within_insert hnew v)
    · rw [hmemo]
      exact hq.justified.insert hnew hv
    · rw [hmemo, Std.TreeMap.mem_insert, Std.LawfulEqCmp.compare_eq_iff_eq] at hm
      rcases hm with rfl | hm
      · exact .inr ⟨hn, Nat.lt_succ_self _⟩
      · exact (hq.new m hm).imp_right fun ⟨hm, hlt⟩ => ⟨hm, Nat.lt_succ_of_lt hlt⟩
termination_by n.index

/-! ### Evaluation inside a justified memo -/

/-- From a memo within `memo` the evaluation succeeds, keeps what is known, and ends with a memo
within `memo` that has the nodes. -/
def Stays (ev : Evaluation σ T) (g : Graph) (memo : Memo T) (ns : List Node) : Prop :=
  ∀ p, p.graph = g → p.memo.Within memo → ∃ p', ev p = (.ok (), p') ∧ p'.graph = g
    ∧ p'.memo.Within memo ∧ Kept p.memo p'.memo ∧ ∀ n ∈ ns, n ∈ p'.memo

theorem stays_each {below : (c : Node) → c.index < limit → Evaluation σ T}
    (hb : ∀ c hc, c ∈ memo → (below c hc).Stays g memo [c]) :
    ∀ (cs : List Node) (h : ∀ c ∈ cs, c.index < limit), (∀ c ∈ cs, c ∈ memo) →
      (each below cs h).Stays g memo cs
  | [], _, _ => by
    intro p hg hp
    exact ⟨p, rfl, hg, hp, Kept.refl _, List.forall_mem_nil _⟩
  | c :: cs, _, hmem => by
    intro p hg hp
    obtain ⟨q, hfirst, hq, hwithin, hkept, hc⟩ := hb c _ (hmem c (List.mem_cons_self ..)) p hg hp
    obtain ⟨p', hrest, hp', hwithin', hkept', hcs⟩ :=
      stays_each hb cs _ (fun d hd => hmem d (List.mem_cons_of_mem _ hd)) q hq hwithin
    refine ⟨p', (andThen_ok hfirst).trans hrest, hp', hwithin', hkept.trans hkept', fun d hd => ?_⟩
    rcases List.mem_cons.1 hd with rfl | hd
    · have hknown := Std.TreeMap.contains_iff_mem.2 (hc d (List.mem_singleton_self d))
      exact Std.TreeMap.contains_iff_mem.1 (hkept' d hknown)
    · exact hcs d hd

/-- What gives a value of the memo is carried through to that value. -/
theorem stays_finish (hb : ∀ c hc, c ∈ memo → (below c hc).Stays g memo [c])
    {m : Inquiry σ T T} {v : T} (hm : m.Gives g n memo v) (hv : memo[n]? = some v) (s : σ)
    (note : Except Error (Reply T) → Call T) : (finish n below note (m s)).Stays g memo [n] := by
  induction hm generalizing s note with
  | @done m v hdone =>
    intro p hg hp
    subst hg
    rw [finish_of_done (hdone s)]
    refine ⟨_, rfl, rfl, fun c w hw => ?_, kept_insert p.memo n v, fun c hc => ?_⟩
    · rw [Memo.getElem?_insert] at hw
      split at hw
      · next he => exact he ▸ hv.trans hw
      · exact hp c w hw
    · rw [List.mem_singleton.1 hc]
      exact Std.TreeMap.mem_insert_self
  | @asks m r next a v hasks hallowed hanswer _ ih =>
    intro p hg hp
    subst hg
    rw [finish_of_asks (hasks s), finish_ask_ok hallowed]
    obtain ⟨q, heach, hq, hwithin, hkept, hnodes⟩ := stays_each hb r.nodes
      (Graph.index_lt_of_allowsAll hallowed) (Memo.mem_of_answer hanswer)
      ⟨p.graph, s, p.memo, p.calls.push (note (.ok (.wants r)))⟩ rfl hp
    -- the nodes asked for have values now, and these are the values in the memo
    obtain ⟨a', hanswer'⟩ := Memo.exists_answer r hnodes
    obtain rfl : a' = a := Except.ok.inj ((hwithin.answer hanswer').symm.trans hanswer)
    obtain ⟨p', hrest, hp', hwithin', hkept', hn⟩ := ih hv q.state _ q hq hwithin
    refine ⟨p', ?_, hp', hwithin', hkept.trans hkept', hn⟩
    rw [andThen_ok heach, hanswer']
    exact hrest

theorem stays_node (hmemo : memo.Justified g handler) (n : Node) (hn : n ∈ memo) :
    (node handler n).Stays g memo [n] := by
  intro p hg hp
  by_cases hknown : p.memo.contains n = true
  · refine ⟨p, node_of_known hknown, hg, hp, Kept.refl _, fun c hc => ?_⟩
    rw [List.mem_singleton.1 hc]
    exact Std.TreeMap.contains_iff_mem.1 hknown
  · obtain ⟨v, hv⟩ := Memo.mem_iff.1 hn
    rw [node_of_unknown hknown]
    exact stays_finish (fun c _ hc => stays_node hmemo c hc) (hmemo n v hv) hv _ _ p hg hp
termination_by n.index

end Evaluation

/-! ### Evaluations from several nodes -/

namespace Graph

theorem evaluate_result_eq_ok_iff {s : σ} : (g.evaluate root handler s).result = .ok memo ↔
    root ∈ g.nodes ∧ ∃ p, Evaluation.node handler root { graph := g, state := s } = (.ok (), p)
      ∧ p.memo = memo := by
  rw [evaluate, ← refusal?_locate_eq_none]
  cases g.locate root with
  | error e => simp [refusal?]
  | ok q =>
    rw [Evaluation.runStack_start]
    rcases Evaluation.node handler root { graph := g, state := s } with ⟨e | u, p⟩ <;>
      simp [refusal?]

/-- The memo of an evaluation with steady handlers is justified, and has nodes of the graph only. -/
theorem justified_of_evaluate (hsteady : ∀ n ∈ g.nodes, (handler n).Steady g) {s : σ}
    (h : (g.evaluate root handler s).result = .ok memo) :
    memo.Justified g handler ∧ ∀ n ∈ memo, n ∈ g.nodes := by
  obtain ⟨hroot, p, hnode, rfl⟩ := evaluate_result_eq_ok_iff.1 h
  have hleads := Evaluation.justifies_node hsteady root hroot _ p rfl
    (Memo.justified_empty g handler) hnode
  refine ⟨hleads.justified, fun n hn => ?_⟩
  rcases hleads.new n hn with hold | ⟨hn, -⟩
  · exact absurd hold Std.TreeMap.not_mem_emptyc
  · exact hn

/-- An evaluation that starts at a node of a justified memo succeeds with a part of the memo. -/
theorem evaluate_within (hmemo : memo.Justified g handler) (hn : n ∈ memo) (hnode : n ∈ g.nodes)
    (s : σ) : ∃ memo', (g.evaluate n handler s).result = .ok memo' ∧ n ∈ memo'
      ∧ memo'.Within memo := by
  obtain ⟨p, hp, -, hwithin, -, hknown⟩ := Evaluation.stays_node hmemo n hn
    { graph := g, state := s } rfl fun c v hc => by
      rw [Std.TreeMap.getElem?_emptyc] at hc
      cases hc
  exact ⟨p.memo, evaluate_result_eq_ok_iff.2 ⟨hnode, p, hp, rfl⟩,
    hknown n (List.mem_singleton_self n), hwithin⟩

/-- With steady handlers values do not depend on where an evaluation starts, nor on the state. If it
succeeds, so does an evaluation from each node that it gave a value, and the memo of that one is the
part of its memo for the nodes there; so any two evaluations that succeed agree on the nodes to
which both gave values. -/
theorem evaluate_restricts (hsteady : ∀ n ∈ g.nodes, (handler n).Steady g) :
    (∀ (root : Node) (s : σ) (memo : Memo T), (g.evaluate root handler s).result = .ok memo →
      ∀ n ∈ memo, ∀ s', ∃ memo', (g.evaluate n handler s').result = .ok memo' ∧ n ∈ memo'
        ∧ ∀ c ∈ memo', memo'[c]? = memo[c]?)
    ∧ ∀ (root root' : Node) (s s' : σ) (memo memo' : Memo T),
      (g.evaluate root handler s).result = .ok memo →
      (g.evaluate root' handler s').result = .ok memo' →
      ∀ c, c ∈ memo → c ∈ memo' → memo[c]? = memo'[c]? := by
  refine ⟨fun root s memo h n hn s' => ?_, fun root root' s s' memo memo' h h' c hc hc' => ?_⟩
  · obtain ⟨hjustified, hnodes⟩ := justified_of_evaluate hsteady h
    obtain ⟨memo', heval, hn', hwithin⟩ := evaluate_within hjustified hn (hnodes n hn) s'
    exact ⟨memo', heval, hn', fun c hc => (hwithin.getElem?_eq hc).symm⟩
  · -- both memos have as a part the memo of one evaluation from `c`
    obtain ⟨hjustified, hnodes⟩ := justified_of_evaluate hsteady h
    obtain ⟨hjustified', -⟩ := justified_of_evaluate hsteady h'
    obtain ⟨part, heval, hpart, hwithin⟩ := evaluate_within hjustified hc (hnodes c hc) s
    obtain ⟨part', heval', -, hwithin'⟩ := evaluate_within hjustified' hc' (hnodes c hc) s
    obtain rfl : part = part' := Except.ok.inj (heval.symm.trans heval')
    rw [hwithin.getElem?_eq hpart, hwithin'.getElem?_eq hpart]

/-- Two leaves, a record that mentions both, and one that mentions the second and that record. -/
def choices : Graph :=
  let leaves := (((Graph.empty 0).append "no" []).2.append "yes" []).2
  let both := (leaves.append "pick" [.node ⟨0, 0⟩, .node ⟨0, 1⟩]).2
  (both.append "pick" [.node ⟨0, 1⟩, .node ⟨0, 2⟩]).2

/-- Gives a record with two arguments the value of the second if that of the first is true. -/
def pick : Handler Unit Bool := fun n => do
  let e ← Routine.read n
  match e.children with
  | [c, d] =>
    if ← Inquiry.demand c then Inquiry.demand d else return false
  | _ => return e.head == "yes"

theorem steady_pick (g : Graph) (n : Node) : (pick n).Steady g := by
  refine .bind (.look _) fun e => ?_
  split
  · refine .bind (.demand _) fun v => ?_
    split
    · exact .demand _
    · exact .pure _
  · exact .pure _

/-- An evaluation of the last record asks for the `yes` and then for the record before, which asks
for the `no` alone; an evaluation of that record gives it the same value and leaves out the `yes`. -/
theorem choices_restrict : ∃ memo memo',
    (choices.evaluate (choices.node 3) pick ()).result = .ok memo
    ∧ (choices.evaluate (choices.node 2) pick ()).result = .ok memo'
    ∧ memo'[choices.node 2]? = memo[choices.node 2]?
    ∧ choices.node 1 ∈ memo ∧ choices.node 1 ∉ memo' := by
  have hlarge : ∃ p,
      Frame.runStack pick [.start (choices.node 3)] { graph := choices, state := () } = (.ok (), p)
      ∧ choices.node 2 ∈ p.memo ∧ choices.node 1 ∈ p.memo :=
    ⟨_, (Frame.runStack_of_turn rfl).trans <| (Frame.runStack_of_turn rfl).trans <|
      (Frame.runStack_of_turn rfl).trans <| (Frame.runStack_of_turn rfl).trans <|
      (Frame.runStack_of_turn rfl).trans <| (Frame.runStack_of_turn rfl).trans <|
      (Frame.runStack_of_turn rfl).trans <| Frame.runStack_nil _, by decide, by decide⟩
  have hsmall : ∃ p,
      Frame.runStack pick [.start (choices.node 2)] { graph := choices, state := () } = (.ok (), p)
      ∧ choices.node 1 ∉ p.memo :=
    ⟨_, (Frame.runStack_of_turn rfl).trans <| (Frame.runStack_of_turn rfl).trans <|
      (Frame.runStack_of_turn rfl).trans <| Frame.runStack_nil _, by decide⟩
  obtain ⟨p, hrun, htwo, hone⟩ := hlarge
  obtain ⟨p', hrun', hnone⟩ := hsmall
  rw [Evaluation.runStack_start] at hrun hrun'
  have heval := evaluate_result_eq_ok_iff.2 ⟨node_mem_nodes.2 (by decide), p, hrun, rfl⟩
  have heval' := evaluate_result_eq_ok_iff.2 ⟨node_mem_nodes.2 (by decide), p', hrun', rfl⟩
  obtain ⟨memo', hpart, hmem, hsame⟩ := (evaluate_restricts fun n _ => steady_pick choices n).1
    _ _ _ heval (choices.node 2) htwo ()
  obtain rfl : memo' = p'.memo := Except.ok.inj (hpart.symm.trans heval')
  exact ⟨p.memo, p'.memo, heval, hpart, hsame _ hmem, hone, hnone⟩

end Graph

end TermGraph
