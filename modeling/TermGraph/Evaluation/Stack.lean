import TermGraph.Evaluation.Suspension

/-!
Evaluation by a work stack. An entry of the stack is a node to start on or a handler that waits. A
handler that asks for values is put back on the stack below the nodes whose values are missing, so
that it is resumed once they are there. Each node's value is computed once, however many nodes ask
for it, and the depth of the graph is the depth of the stack, not of the recursion.

Every turn replaces the top of the stack by finitely many smaller entries, so an evaluation ends
whatever the handler does.
-/

namespace TermGraph

/-- Values by node. -/
abbrev Memo (T : Type) := Std.TreeMap Node T

namespace Memo

/-- The value of a node. -/
def value {T : Type} (memo : Memo T) (n : Node) : Except Error T :=
  match memo[n]? with
  | some v => .ok v
  | none => .error (.noResult n)

/-- The values that a request asks for. -/
def answer {T : Type} (memo : Memo T) : (r : Request) → Except Error (r.Answer T)
  | .one n => memo.value n
  | .all ns => ns.mapM memo.value

end Memo

/-- How far an evaluation has come. -/
structure Progress (σ T : Type) where
  graph : Graph
  state : σ
  memo : Memo T := ∅
  calls : Array (Call T) := #[]

namespace Frame

variable {σ T : Type}

/-- The entries for a request: the nodes without a value, then the handler that waits for them. -/
def pending (memo : Memo T) (n : Node) (w : Suspended σ T) : List (Frame σ T) :=
  (w.request.nodes.filter fun c => !memo.contains c).map start ++ [wait n w]

/-- Acts on where the handler of `n` stands still after a call. -/
def settle (n : Node) (note : Except Error (Reply T) → Call T) (memo : Memo T)
    (calls : Array (Call T)) : Halt σ T → Graph → Except Error (List (Frame σ T)) × Progress σ T
  | .done (.ok v, s), g => (.ok [], ⟨g, s, memo.insert n v, calls.push (note (.ok (.value v)))⟩)
  | .done (.error e, s), g => (.error e, ⟨g, s, memo, calls.push (note (.error e))⟩)
  | .asks (r, s) next, g =>
    match g.allowsAll n r.nodes with
    | .ok () => (.ok (pending memo n ⟨r, next⟩), ⟨g, s, memo, calls.push (note (.ok (.wants r)))⟩)
    | .error e => (.error e, ⟨g, s, memo, calls.push (note (.ok (.wants r)))⟩)

/-- One turn: acts on the top of the stack and gives the entries to put in its place. -/
def turn (handler : Handler σ T) : Frame σ T → Progress σ T →
    Except Error (List (Frame σ T)) × Progress σ T
  | start n, ⟨g, s, memo, calls⟩ =>
    if memo.contains n then (.ok [], ⟨g, s, memo, calls⟩)
    else
      match (handler n s).advance g with
      | (halt, g) => settle n (.start n) memo calls halt g
  | wait n w, ⟨g, s, memo, calls⟩ =>
    match memo.answer w.request with
    | .error e => (.error e, ⟨g, s, memo, calls⟩)
    | .ok a =>
      match (w.resume (a, s)).advance g with
      | (halt, g) => settle n (.resume n (w.request.values a)) memo calls halt g

theorem below_of_settle {n : Node} {note : Except Error (Reply T) → Call T} {memo : Memo T}
    {calls : Array (Call T)} {halt : Halt σ T} {g : Graph} {fs : List (Frame σ T)}
    {p : Progress σ T} {f : Frame σ T} (h : settle n note memo calls halt g = (.ok fs, p))
    (hn : f.node = n)
    (hf : ∀ r s next, halt = .asks (r, s) next → (wait n ⟨r, next⟩).Below f) :
    ∀ f' ∈ fs, f'.Below f := by
  unfold settle at h
  split at h
  · cases h; nofun
  · cases h
  · next r s next =>
    split at h
    · next ha =>
      cases h
      intro f' hf'
      rcases List.mem_append.1 hf' with hs | hw
      · obtain ⟨c, hc, rfl⟩ := List.mem_map.1 hs
        refine below_of_index_lt ?_
        rw [hn]
        exact Graph.index_lt_of_allowsAll ha c (List.mem_filter.1 hc).1
      · rw [List.mem_singleton.1 hw]; exact hf r s next rfl
    · cases h

/-- The entries that a turn puts in place of the top are below it. -/
theorem below_of_turn {handler : Handler σ T} {f : Frame σ T} {p p' : Progress σ T}
    {fs : List (Frame σ T)} (h : f.turn handler p = (.ok fs, p')) : ∀ f' ∈ fs, f'.Below f := by
  unfold turn at h
  split at h
  · next n g s memo calls =>
    split at h
    · cases h; nofun
    · exact below_of_settle h rfl fun r s next _ => wait_below_start n ⟨r, next⟩
  · next n w g s memo calls =>
    split at h
    · cases h
    · next a _ =>
      refine below_of_settle h rfl fun r s' next hr => wait_below_wait n ⟨(a, s), s', ?_⟩
      exact Script.comes_of_advance _ g _ _ _ (Prod.ext hr rfl)

/-- Takes turns until the stack is empty or a turn fails. -/
def runStack (handler : Handler σ T) : List (Frame σ T) → Progress σ T →
    Except Error Unit × Progress σ T
  | [], p => (.ok (), p)
  | f :: rest, p =>
    match _h : f.turn handler p with
    | (.error e, p) => (.error e, p)
    | (.ok fs, p) => runStack handler (fs ++ rest) p
termination_by stack => (Descends.wellFounded wellFounded_below).wrap stack
decreasing_by exact .replace fs f rest (below_of_turn _h)

end Frame

/-- How an evaluation came out: the values or the error, and the graph, the state and the calls up
to then. -/
structure Outcome (σ T : Type) where
  result : Except Error (Memo T)
  graph : Graph
  state : σ
  calls : Array (Call T)

namespace Graph

variable {σ T : Type}

/-- Evaluates the root, and whatever has to be evaluated for it. -/
def evaluate (g : Graph) (root : Node) (handler : Handler σ T) (s : σ) : Outcome σ T :=
  match g.locate root with
  | .error e => ⟨.error e, g, s, #[]⟩
  | .ok _ =>
    match Frame.runStack handler [.start root] { graph := g, state := s } with
    | (.ok (), p) => ⟨.ok p.memo, p.graph, p.state, p.calls⟩
    | (.error e, p) => ⟨.error e, p.graph, p.state, p.calls⟩

end Graph

end TermGraph
