import TermGraph.Proofs.Evaluation.Turn

/-!
Evaluation by plain recursion, and why the work stack comes to the same.

To evaluate a node whose value is not known, its handler is called. As long as the handler asks for
values, the nodes asked for are checked, then evaluated one after the other from left to right, and
the handler goes on with their values in the order in which it asked. The recursion goes down to
nodes of smaller position; from question to question it follows the handler's own tree.

`evaluate_eq_recursively` says that the work stack gives the same calls with the same values, the
same graph and state, and the same values or the same error, for every handler. A handler can write
what it is shown into its state, so each call is also shown the same graph and the same state.
-/

namespace TermGraph

/-- What an evaluation makes of the progress so far. -/
abbrev Evaluation (σ T : Type) := Progress σ T → Except Error Unit × Progress σ T

namespace Evaluation

variable {σ T : Type}

/-- One evaluation after the other; an error ends both. -/
def andThen (first second : Evaluation σ T) : Evaluation σ T := fun p =>
  match first p with
  | (.ok (), p) => second p
  | (.error e, p) => (.error e, p)

/-- Evaluates nodes that stand before position `limit` from left to right. -/
def each {limit : Nat} (below : (c : Node) → c.index < limit → Evaluation σ T) :
    (cs : List Node) → (∀ c ∈ cs, c.index < limit) → Evaluation σ T
  | [], _ => fun p => (.ok (), p)
  | c :: cs, h =>
    (below c (h c (List.mem_cons_self ..))).andThen
      (each below cs fun d hd => h d (List.mem_cons_of_mem _ hd))

/-- Carries a call of the handler of `n` through to the value of `n`. The nodes that it asks for are
evaluated by `below`; `note` makes the entry for the call. -/
def finish (n : Node) (below : (c : Node) → c.index < n.index → Evaluation σ T) :
    (Except Error (Reply T) → Call T) →
      Script (Request × σ) (fun q => q.1.Answer T × σ) (Except Error T × σ) → Evaluation σ T
  | note, .done (.ok v, s), ⟨g, _, memo, calls⟩ =>
    (.ok (), ⟨g, s, memo.insert n v, calls.push (note (.ok (.value v)))⟩)
  | note, .done (.error e, s), ⟨g, _, memo, calls⟩ =>
    (.error e, ⟨g, s, memo, calls.push (note (.error e))⟩)
  | note, .look next, p => finish n below note (next p.graph) p
  | note, .append head args next, ⟨g, s, memo, calls⟩ =>
    match g.append head args with
    | (r, g) => finish n below note (next r) ⟨g, s, memo, calls⟩
  | note, .ask (r, s) next, ⟨g, _, memo, calls⟩ =>
    let p : Progress σ T := ⟨g, s, memo, calls.push (note (.ok (.wants r)))⟩
    match h : g.allowsAll n r.nodes with
    | .error e => (.error e, p)
    | .ok () =>
      match each below r.nodes (Graph.index_lt_of_allowsAll h) p with
      | (.error e, p) => (.error e, p)
      | (.ok (), p) =>
        match p.memo.answer r with
        | .error e => (.error e, p)
        | .ok a => finish n below (.resume n (r.values a)) (next (a, p.state)) p

/-- Gives a node its value, unless it has one. -/
def node (handler : Handler σ T) (n : Node) : Evaluation σ T := fun p =>
  if p.memo.contains n then (.ok (), p)
  else finish n (fun c _ => node handler c) (.start n) (handler n p.state) p
termination_by n.index

end Evaluation

/-- Evaluates the root, and whatever has to be evaluated for it, by recursion. -/
def Graph.evaluateRecursively {σ T : Type} (g : Graph) (root : Node) (handler : Handler σ T)
    (s : σ) : Outcome σ T :=
  match g.locate root with
  | .error e => ⟨.error e, g, s, #[]⟩
  | .ok _ =>
    match Evaluation.node handler root { graph := g, state := s } with
    | (.ok (), p) => ⟨.ok p.memo, p.graph, p.state, p.calls⟩
    | (.error e, p) => ⟨.error e, p.graph, p.state, p.calls⟩

namespace Evaluation

variable {σ T : Type} {handler : Handler σ T}

/-! ### Values are kept -/

/-- The nodes with a value in the first memo have one in the second. -/
def Kept (memo memo' : Memo T) : Prop := ∀ c, memo.contains c = true → memo'.contains c = true

theorem Kept.refl (memo : Memo T) : Kept memo memo := fun _ h => h

theorem Kept.trans {a b c : Memo T} (h : Kept a b) (h' : Kept b c) : Kept a c :=
  fun n hn => h' n (h n hn)

theorem kept_insert (memo : Memo T) (n : Node) (v : T) : Kept memo (memo.insert n v) := by
  intro c hc
  rw [Std.TreeMap.contains_insert, hc, Bool.or_true]

/-- An evaluation that never takes a value away. -/
def Keeps (ev : Evaluation σ T) : Prop := ∀ p, Kept p.memo (ev p).2.memo

theorem Keeps.andThen {first second : Evaluation σ T} (h : Keeps first) (h' : Keeps second) :
    Keeps (first.andThen second) := by
  intro p
  have hp := h p
  unfold Evaluation.andThen
  split
  · next q hq => rw [hq] at hp; exact hp.trans (h' q)
  · next e q hq => rw [hq] at hp; exact hp

theorem keeps_each {limit : Nat} {below : (c : Node) → c.index < limit → Evaluation σ T}
    (hb : ∀ c hc, Keeps (below c hc)) :
    ∀ (cs : List Node) (h : ∀ c ∈ cs, c.index < limit), Keeps (each below cs h)
  | [], _ => fun p => Kept.refl p.memo
  | c :: cs, _ => (hb c _).andThen (keeps_each hb cs _)

theorem keeps_finish {n : Node} {below : (c : Node) → c.index < n.index → Evaluation σ T}
    (hb : ∀ c hc, Keeps (below c hc)) :
    ∀ (note : Except Error (Reply T) → Call T) (sc), Keeps (finish n below note sc)
  | _, .done (.ok v, _) => fun p => kept_insert p.memo n v
  | _, .done (.error _, _) => fun p => Kept.refl p.memo
  | note, .look next => fun p => keeps_finish hb note (next p.graph) p
  | note, .append head args next => fun p =>
    keeps_finish hb note (next (p.graph.append head args).1)
      ⟨(p.graph.append head args).2, p.state, p.memo, p.calls⟩
  | note, .ask (r, s) next => by
    intro p
    rw [finish]
    dsimp only
    split
    · exact Kept.refl p.memo
    · next ha =>
      have he := keeps_each hb r.nodes (Graph.index_lt_of_allowsAll ha)
        ⟨p.graph, s, p.memo, p.calls.push (note (.ok (.wants r)))⟩
      split
      · next e q hq => rw [hq] at he; exact he
      · next q hq =>
        rw [hq] at he
        split
        · exact he
        · next a _ => exact he.trans (keeps_finish hb _ (next (a, q.state)) q)

theorem node_of_known {n : Node} {p : Progress σ T} (h : p.memo.contains n = true) :
    node handler n p = (.ok (), p) := by
  rw [node]
  exact if_pos h

theorem node_of_unknown {n : Node} {p : Progress σ T} (h : ¬ p.memo.contains n = true) :
    node handler n p
      = finish n (fun c _ => node handler c) (.start n) (handler n p.state) p := by
  rw [node]
  exact if_neg h

theorem keeps_node (handler : Handler σ T) (n : Node) : Keeps (node handler n) := by
  intro p
  by_cases h : p.memo.contains n = true
  · rw [node_of_known h]; exact Kept.refl p.memo
  · rw [node_of_unknown h]
    exact keeps_finish (fun c _ => keeps_node handler c) _ _ p
termination_by n.index

/-! ### The stack follows the recursion -/

theorem andThen_assoc (a b c : Evaluation σ T) :
    (a.andThen b).andThen c = a.andThen (b.andThen c) := by
  funext p
  simp only [andThen]
  rcases a p with ⟨e | u, q⟩ <;> rfl

theorem andThen_ok {a b : Evaluation σ T} {p q : Progress σ T} (h : a p = (.ok (), q)) :
    a.andThen b p = b q := by
  rw [andThen, h]

theorem finish_ask_error {n : Node} {below : (c : Node) → c.index < n.index → Evaluation σ T}
    {note : Except Error (Reply T) → Call T} {r : Request} {s : σ} {next : Resumption σ T r}
    {p : Progress σ T} {e : Error} (h : p.graph.allowsAll n r.nodes = .error e) :
    finish n below note (.ask (r, s) next) p
      = (.error e, ⟨p.graph, s, p.memo, p.calls.push (note (.ok (.wants r)))⟩) := by
  rw [finish]
  dsimp only
  split
  · next e' h' => rw [h] at h'; cases h'; rfl
  · next h' => rw [h] at h'; cases h'

theorem finish_ask_ok {n : Node} {below : (c : Node) → c.index < n.index → Evaluation σ T}
    {note : Except Error (Reply T) → Call T} {r : Request} {s : σ} {next : Resumption σ T r}
    {p : Progress σ T} (h : p.graph.allowsAll n r.nodes = .ok ()) :
    finish n below note (.ask (r, s) next) p
      = (each below r.nodes (Graph.index_lt_of_allowsAll h)).andThen (fun p =>
          match p.memo.answer r with
          | .error e => (.error e, p)
          | .ok a => finish n below (.resume n (r.values a)) (next (a, p.state)) p)
        ⟨p.graph, s, p.memo, p.calls.push (note (.ok (.wants r)))⟩ := by
  rw [finish, andThen]
  dsimp only
  split
  · next e' h' => rw [h] at h'; cases h'
  · split <;> rename_i hq <;> rw [hq]

/-- For nodes before position `limit`, an entry on the stack comes to what the recursion makes of
the node. -/
def Follows (handler : Handler σ T) (limit : Nat) : Prop :=
  ∀ c : Node, c.index < limit → ∀ rest : List (Frame σ T),
    Frame.runStack handler (.start c :: rest)
      = (node handler c).andThen (Frame.runStack handler rest)

/-- The nodes without a value come off the stack as the recursion evaluates all of them. -/
theorem runStack_pending {limit : Nat} (memo : Memo T) (hf : Follows handler limit) :
    ∀ (cs : List Node) (h : ∀ c ∈ cs, c.index < limit) (rest : List (Frame σ T))
      (p : Progress σ T), Kept memo p.memo →
      Frame.runStack handler ((cs.filter fun c => !memo.contains c).map .start ++ rest) p
        = (each (fun c _ => node handler c) cs h).andThen (Frame.runStack handler rest) p
  | [], _, _, _, _ => rfl
  | c :: cs, h, rest, p, hk => by
    have ih := runStack_pending memo hf cs (fun d hd => h d (List.mem_cons_of_mem _ hd)) rest
    rw [each, andThen_assoc]
    by_cases hc : memo.contains c = true
    · -- the value was there when it was asked for, so it is there still
      rw [List.filter_cons_of_neg (by simp [hc]), ih p hk]
      exact (andThen_ok (node_of_known (hk c hc))).symm
    · rw [List.filter_cons_of_pos (by simp [hc]), List.map_cons, List.cons_append,
        hf c (h c (List.mem_cons_self ..))]
      have hkept := keeps_node handler c p
      rw [andThen, andThen]
      split
      · next q hq =>
        rw [hq] at hkept
        exact ih q (hk.trans hkept)
      · rfl

/-- Once a handler stands still, what is put in place of its entry comes to what the recursion makes
of the rest of the handler. -/
theorem runStack_settle {n : Node} (hf : Follows handler n.index) (rest : List (Frame σ T)) :
    ∀ (note : Except Error (Reply T) → Call T) (sc) (p : Progress σ T),
      (match Frame.settle n note p.memo p.calls (sc.advance p.graph).1 (sc.advance p.graph).2 with
        | (.error e, p) => (.error e, p)
        | (.ok fs, p) => Frame.runStack handler (fs ++ rest) p)
      = (finish n (fun c _ => node handler c) note sc).andThen (Frame.runStack handler rest) p
  | _, .done (.ok _, _), _ => rfl
  | _, .done (.error _, _), _ => rfl
  | note, .look next, p => runStack_settle hf rest note (next p.graph) p
  | note, .append head args next, p =>
    runStack_settle hf rest note (next (p.graph.append head args).1)
      ⟨(p.graph.append head args).2, p.state, p.memo, p.calls⟩
  | note, .ask (r, s) next, p => by
    rw [andThen]
    simp only [Script.advance, Frame.settle]
    cases ha : p.graph.allowsAll n r.nodes with
    | error e => rw [finish_ask_error ha]
    | ok u =>
      have hpending := runStack_pending p.memo hf r.nodes (Graph.index_lt_of_allowsAll ha)
        (.wait n ⟨r, next⟩ :: rest) ⟨p.graph, s, p.memo, p.calls.push (note (.ok (.wants r)))⟩
        (Kept.refl _)
      rw [finish_ask_ok ha]
      dsimp only
      rw [Frame.pending, List.append_assoc]
      refine hpending.trans ?_
      simp only [andThen]
      rcases each (fun c _ => node handler c) r.nodes (Graph.index_lt_of_allowsAll ha)
        ⟨p.graph, s, p.memo, p.calls.push (note (.ok (.wants r)))⟩ with ⟨e | u, q⟩
      · rfl
      · dsimp only
        rw [Frame.runStack_cons, Frame.turn]
        cases hq : q.memo.answer r with
        | error e => rfl
        | ok a => exact runStack_settle hf rest _ (next (a, q.state)) q

theorem follows (handler : Handler σ T) (limit : Nat) : Follows handler limit := by
  induction limit with
  | zero => exact fun c hc => absurd hc (Nat.not_lt_zero _)
  | succ limit ih =>
    intro n hn rest
    funext p
    have hf : Follows handler n.index := fun c hc => ih c (by omega)
    rw [Frame.runStack_cons, Frame.turn, andThen]
    by_cases hm : p.memo.contains n = true
    · rw [node_of_known hm, if_pos hm]; rfl
    · rw [node_of_unknown hm, if_neg hm]
      exact runStack_settle hf rest (.start n) (handler n p.state) p

/-- A stack of one node comes to what the recursion makes of the node. -/
theorem runStack_start (handler : Handler σ T) (n : Node) (p : Progress σ T) :
    Frame.runStack handler [.start n] p = node handler n p := by
  rw [follows handler (n.index + 1) n (Nat.lt_succ_self _) [], andThen]
  rcases node handler n p with ⟨e | u, q⟩
  · rfl
  · dsimp only
    rw [Frame.runStack_nil]

end Evaluation

/-- The work stack and the recursion agree on everything that an evaluation gives: the result, the
graph, the state, and the calls made, in order and with the values handed to them. -/
theorem Graph.evaluate_eq_recursively {σ T : Type} (g : Graph) (root : Node) (handler : Handler σ T)
    (s : σ) : g.evaluate root handler s = g.evaluateRecursively root handler s := by
  rw [evaluate, evaluateRecursively]
  cases g.locate root with
  | error e => rfl
  | ok _ =>
    have hf := Evaluation.follows handler (root.index + 1) root (Nat.lt_succ_self _) []
    dsimp only
    rw [hf, Evaluation.andThen]
    rcases Evaluation.node handler root { graph := g, state := s } with ⟨e | u, p⟩
    · rfl
    · dsimp only; rw [Frame.runStack_nil]

end TermGraph
