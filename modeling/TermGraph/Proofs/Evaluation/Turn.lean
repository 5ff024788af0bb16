import Mathlib.Logic.Relation
import TermGraph.Evaluation.Stack
import TermGraph.Graph.Growth

/-!
The work stack, turn by turn. Turns cannot go on forever (`Frame.wellFounded_turns`), so a run ends,
at an empty stack or with the error of some turn. `Frame.Turned` lists all that one turn can come to,
and `Graph.Stage` holds of the stacks and the progress that an evaluation passes through, up to the
last, which gives its outcome (`Graph.exists_last_stage`).
-/

namespace TermGraph

namespace Frame

variable {σ T : Type} {handler : Handler σ T}

theorem runStack_nil (p : Progress σ T) : runStack handler [] p = (.ok (), p) := by
  rw [runStack]

/-- One turn, then the rest of the run. -/
theorem runStack_cons (f : Frame σ T) (rest : List (Frame σ T)) (p : Progress σ T) :
    runStack handler (f :: rest) p =
      match f.turn handler p with
      | (.error e, p) => (.error e, p)
      | (.ok fs, p) => runStack handler (fs ++ rest) p := by
  rw [runStack]
  split <;> rename_i h <;> simp only [h]

theorem runStack_of_turn {f : Frame σ T} {fs rest : List (Frame σ T)} {p p' : Progress σ T}
    (h : f.turn handler p = (.ok fs, p')) :
    runStack handler (f :: rest) p = runStack handler (fs ++ rest) p' := by
  rw [runStack_cons, h]

/-- One turn that does not fail, taken on the top of a stack. -/
inductive Turns (handler : Handler σ T) :
    List (Frame σ T) × Progress σ T → List (Frame σ T) × Progress σ T → Prop
  | top {f : Frame σ T} {fs : List (Frame σ T)} {p p' : Progress σ T} (rest : List (Frame σ T)) :
    f.turn handler p = (.ok fs, p') → Turns handler (f :: rest, p) (fs ++ rest, p')

/-- Where a run ends: at an empty stack, or with the error of a turn. -/
inductive Ends (handler : Handler σ T) :
    List (Frame σ T) × Progress σ T → Except Error Unit × Progress σ T → Prop
  | empty {p : Progress σ T} : Ends handler ([], p) (.ok (), p)
  | fails {f : Frame σ T} {p p' : Progress σ T} {e : Error} (rest : List (Frame σ T)) :
    f.turn handler p = (.error e, p') → Ends handler (f :: rest, p) (.error e, p')

/-- Whatever the stack, the progress and the handler, only finitely many turns can follow one
another. -/
theorem wellFounded_turns (handler : Handler σ T) :
    WellFounded fun after before => Turns handler before after := by
  refine Subrelation.wf (fun {a b} h => ?_)
    (InvImage.wf Prod.fst (Descends.wellFounded wellFounded_below))
  cases h with
  | top rest hturn => exact .replace _ _ rest (below_of_turn hturn)

/-- A run takes turns, and ends where no more can be taken. -/
theorem runStack_ends (handler : Handler σ T) (stack : List (Frame σ T)) (p : Progress σ T) :
    ∃ last, Relation.ReflTransGen (Turns handler) (stack, p) last
      ∧ Ends handler last (runStack handler stack p) := by
  induction stack, p using runStack.induct handler with
  | case1 p =>
    rw [runStack_nil]
    exact ⟨_, .refl, .empty⟩
  | case2 f rest p e p' hturn =>
    rw [runStack_cons, hturn]
    exact ⟨_, .refl, .fails rest hturn⟩
  | case3 f rest p fs p' hturn ih =>
    obtain ⟨last, hlast, hend⟩ := ih
    rw [runStack_of_turn hturn]
    exact ⟨last, .head (.top rest hturn) hlast, hend⟩

/-- How the call made for an entry is noted, if one is made: a node without a value is started, a
waiting handler goes on with the values that it asked for. -/
inductive Notes (memo : Memo T) : Frame σ T → (Except Error (Reply T) → Call T) → Prop
  | start {n : Node} : n ∉ memo → Notes memo (.start n) (.start n)
  | wait {n : Node} {w : Suspended σ T} {a : w.request.Answer T} :
    memo.answer w.request = .ok a → Notes memo (.wait n w) (.resume n (w.request.values a))

/-- What a turn on an entry can come to. -/
inductive Turned (f : Frame σ T) (p : Progress σ T) :
    Except Error (List (Frame σ T)) × Progress σ T → Prop
  /-- The node has its value already. -/
  | known {n : Node} : f = .start n → n ∈ p.memo → Turned f p (.ok [], p)
  /-- A value that the handler waits for is missing. -/
  | missing {n : Node} {w : Suspended σ T} {e : Error} :
    f = .wait n w → p.memo.answer w.request = .error e → Turned f p (.error e, p)
  /-- The call gives the value. -/
  | value {note : Except Error (Reply T) → Call T} {g : Graph} {s : σ} (v : T) :
    f.Notes p.memo note → p.graph.Extends g →
      Turned f p (.ok [], ⟨g, s, p.memo.insert f.node v, p.calls.push (note (.ok (.value v)))⟩)
  /-- The call fails. -/
  | fails {note : Except Error (Reply T) → Call T} {g : Graph} {s : σ} (e : Error) :
    f.Notes p.memo note → p.graph.Extends g →
      Turned f p (.error e, ⟨g, s, p.memo, p.calls.push (note (.error e))⟩)
  /-- The call asks for what it may ask for. -/
  | asks {note : Except Error (Reply T) → Call T} {g : Graph} {s : σ} (w : Suspended σ T) :
    f.Notes p.memo note → p.graph.Extends g → g.allowsAll f.node w.request.nodes = .ok () →
      Turned f p (.ok (pending p.memo f.node w),
        ⟨g, s, p.memo, p.calls.push (note (.ok (.wants w.request)))⟩)
  /-- The call asks for something else. -/
  | refused {note : Except Error (Reply T) → Call T} {g : Graph} {s : σ} (r : Request) (e : Error) :
    f.Notes p.memo note → p.graph.Extends g → g.allowsAll f.node r.nodes = .error e →
      Turned f p (.error e, ⟨g, s, p.memo, p.calls.push (note (.ok (.wants r)))⟩)

theorem turned_settle {f : Frame σ T} {p : Progress σ T} {note : Except Error (Reply T) → Call T}
    (hn : f.Notes p.memo note) {g : Graph} (hg : p.graph.Extends g) (halt : Halt σ T) :
    f.Turned p (settle f.node note p.memo p.calls halt g) := by
  unfold settle
  split
  · exact .value _ hn hg
  · exact .fails _ hn hg
  · next r s next =>
    split
    · next ha => exact .asks ⟨r, next⟩ hn hg ha
    · next e ha => exact .refused r e hn hg ha

theorem turned (handler : Handler σ T) (f : Frame σ T) (p : Progress σ T) :
    f.Turned p (f.turn handler p) := by
  cases f with
  | start n =>
    rw [turn]
    split
    · next hm => exact .known rfl hm
    · next hm => exact turned_settle (f := .start n) (.start hm) (Script.extends_advance _ _) _
  | wait n w =>
    rw [turn]
    split
    · next e he => exact .missing rfl he
    · next a ha => exact turned_settle (f := .wait n w) (.wait ha) (Script.extends_advance _ _) _

theorem Turned.extends_graph {f : Frame σ T} {p : Progress σ T}
    {r : Except Error (List (Frame σ T)) × Progress σ T} (h : f.Turned p r) :
    p.graph.Extends r.2.graph := by
  cases h with
  | known => exact .refl p.graph
  | missing => exact .refl p.graph
  | value _ _ hg => exact hg
  | fails _ _ hg => exact hg
  | asks _ _ hg => exact hg
  | refused _ _ _ hg => exact hg

/-- The graph only grows under an evaluation, whatever the handler does. -/
theorem extends_runStack (handler : Handler σ T) (stack : List (Frame σ T)) (p : Progress σ T) :
    p.graph.Extends (runStack handler stack p).2.graph := by
  induction stack, p using runStack.induct handler with
  | case1 p =>
    rw [runStack_nil]
    exact .refl p.graph
  | case2 f rest p e p' hturn =>
    have hgrown := (turned handler f p).extends_graph
    rw [hturn] at hgrown
    rw [runStack_cons, hturn]
    exact hgrown
  | case3 f rest p fs p' hturn ih =>
    have hgrown := (turned handler f p).extends_graph
    rw [hturn] at hgrown
    rw [runStack_cons, hturn]
    exact hgrown.trans ih

end Frame

theorem Graph.extends_evaluate {σ T : Type} (g : Graph) (root : Node) (handler : Handler σ T)
    (s : σ) : g.Extends (g.evaluate root handler s).graph := by
  rw [evaluate]
  split
  · exact .refl g
  · have hgrown := Frame.extends_runStack handler [.start root] { graph := g, state := s }
    split <;> next hrun => rw [hrun] at hgrown; exact hgrown

/-- The stacks and the progress that an evaluation of the root passes through. -/
inductive Graph.Stage {σ T : Type} (g : Graph) (root : Node) (handler : Handler σ T) (s : σ) :
    List (Frame σ T) → Progress σ T → Prop
  | start {p : Fin g.size} : g.locate root = .ok p →
    g.Stage root handler s [.start root] { graph := g, state := s }
  | turn {f : Frame σ T} {rest fs : List (Frame σ T)} {p p' : Progress σ T} :
    g.Stage root handler s (f :: rest) p → f.turn handler p = (.ok fs, p') →
      g.Stage root handler s (fs ++ rest) p'

namespace Graph.Stage

variable {σ T : Type} {g : Graph} {root : Node} {handler : Handler σ T} {s : σ}

/-- From every stage on, the run ends as the whole run does. -/
theorem runStack_eq {stack : List (Frame σ T)} {p : Progress σ T}
    (h : g.Stage root handler s stack p) :
    Frame.runStack handler stack p
      = Frame.runStack handler [.start root] { graph := g, state := s } := by
  induction h with
  | start _ => rfl
  | turn _ ht ih => rw [← ih, Frame.runStack_cons, ht]

/-- Turns lead from stage to stage. -/
theorem turns {a b : List (Frame σ T) × Progress σ T}
    (hturns : Relation.ReflTransGen (Frame.Turns handler) a b) (h : g.Stage root handler s a.1 a.2) :
    g.Stage root handler s b.1 b.2 := by
  induction hturns with
  | refl => exact h
  | tail _ hturn ih =>
    cases hturn with
    | top rest hturn => exact ih.turn hturn

end Graph.Stage

namespace Graph

variable {σ T : Type} {g : Graph} {root : Node} {handler : Handler σ T} {s : σ}

theorem evaluate_of_refused {e : Error} (h : g.locate root = .error e) :
    g.evaluate root handler s = ⟨.error e, g, s, #[]⟩ := by
  rw [evaluate, h]

/-- Turns lead from the root to a last stage, and an evaluation comes out as that one ends. -/
theorem exists_last_stage {q : Fin g.size} (h : g.locate root = .ok q) (handler : Handler σ T)
    (s : σ) : ∃ last r p,
      Relation.ReflTransGen (Frame.Turns handler) ([.start root], { graph := g, state := s }) last
      ∧ g.Stage root handler s last.1 last.2 ∧ Frame.Ends handler last (r, p)
      ∧ g.evaluate root handler s = ⟨r.map fun _ => p.memo, p.graph, p.state, p.calls⟩ := by
  obtain ⟨last, hturns, hend⟩ :=
    Frame.runStack_ends handler [.start root] { graph := g, state := s }
  rcases hrun : Frame.runStack handler [.start root] { graph := g, state := s } with ⟨r, p⟩
  rw [hrun] at hend
  refine ⟨last, r, p, hturns, Stage.turns hturns (.start h), hend, ?_⟩
  rw [evaluate, h]
  dsimp only
  rw [hrun]
  cases r <;> rfl

end Graph

end TermGraph
