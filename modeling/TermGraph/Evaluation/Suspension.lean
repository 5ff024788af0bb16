import TermGraph.Evaluation.Descent
import TermGraph.Evaluation.Request

/-!
The order in which suspended work gets smaller. A script is a well-founded tree, so from question to
question it can go on only finitely often; a node asked for stands before the node that asks; and
the calls still to be made for a node are more than what is left once its handler waits.
-/

namespace TermGraph

namespace Script

variable {Q : Type} {A : Q → Type} {α : Type}

/-- The first question that a script may come to. -/
inductive Comes : Script Q A α → (q : Q) → (A q → Script Q A α) → Prop
  | ask (q : Q) (next : A q → Script Q A α) : Comes (.ask q next) q next
  | look {next : Graph → Script Q A α} {q : Q} {k : A q → Script Q A α} (g : Graph) :
    Comes (next g) q k → Comes (.look next) q k
  | append {head : String} {args : List Value} {next : Except Error Node → Script Q A α} {q : Q}
    {k : A q → Script Q A α} (r : Except Error Node) :
    Comes (next r) q k → Comes (.append head args next) q k

/-- A run stops at a question that the script may come to. -/
theorem comes_of_advance : ∀ (s : Script Q A α) (g g' : Graph) (q : Q) (k : A q → Script Q A α),
    s.advance g = (.asks q k, g') → Comes s q k
  | .done _, _, _, _, _, h => by simp [advance] at h
  | .look next, g, g', q, k, h => .look g (comes_of_advance (next g) g g' q k h)
  | .append head args next, g, g', q, k, h => by
    simp only [advance] at h
    exact .append _ (comes_of_advance (next (g.append head args).1) _ g' q k h)
  | .ask p next, _, _, q, k, h => by
    simp only [advance, Prod.mk.injEq, Pause.asks.injEq] at h
    obtain ⟨⟨rfl, hk⟩, -⟩ := h
    cases hk
    exact .ask _ _

end Script

/-- A handler that waits for values: what it asked for, and how it goes on. -/
structure Suspended (σ T : Type) where
  request : Request
  resume : Resumption σ T request

namespace Suspended

variable {σ T : Type}

/-- The first waits where the second comes to right after its answer. -/
def Later (v w : Suspended σ T) : Prop :=
  ∃ a s, Script.Comes (w.resume a) (v.request, s) v.resume

theorem acc_of_comes : ∀ (c : Script (Request × σ) (fun q => q.1.Answer T × σ) (Except Error T × σ))
    (r : Request) (s : σ) (k : Resumption σ T r), Script.Comes c (r, s) k → Acc Later ⟨r, k⟩
  | .done _, _, _, _, h => nomatch h
  | .look next, r, s, k, h => by
    cases h with
    | look g h => exact acc_of_comes (next g) r s k h
  | .append head args next, r, s, k, h => by
    cases h with
    | append x h => exact acc_of_comes (next x) r s k h
  | .ask _ next, _, _, _, .ask _ _ =>
    ⟨_, fun w ⟨a, s, ha⟩ => acc_of_comes (next a) w.request s w.resume ha⟩

/-- Going on from question to question ends. -/
theorem wellFounded_later : WellFounded (@Later σ T) :=
  ⟨fun ⟨_, k⟩ => ⟨_, fun w ⟨a, s, ha⟩ => acc_of_comes (k a) w.request s w.resume ha⟩⟩

end Suspended

/-- One entry of the work stack. -/
inductive Frame (σ T : Type) where
  /-- The node is to be evaluated. -/
  | start (n : Node)
  /-- The node's handler waits for values. -/
  | wait (n : Node) (rest : Suspended σ T)

namespace Frame

variable {σ T : Type}

/-- The node that the entry is about. -/
def node : Frame σ T → Node
  | start n => n
  | wait n _ => n

/-- What is left of the handler; nothing is known before its start. -/
def rest : Frame σ T → Option (Suspended σ T)
  | start _ => none
  | wait _ w => some w

/-- Less is left to do: on a waiting handler than before its start, and less from wait to wait. -/
inductive Less : Option (Suspended σ T) → Option (Suspended σ T) → Prop
  | started (w : Suspended σ T) : Less (some w) none
  | resumed {v w : Suspended σ T} : v.Later w → Less (some v) (some w)

theorem wellFounded_less : WellFounded (@Less σ T) := by
  have hsome : ∀ w : Suspended σ T, Acc Less (some w) := fun w => by
    induction Suspended.wellFounded_later.apply w with
    | intro w _ ih =>
      refine ⟨_, fun v hv => ?_⟩
      cases hv with
      | resumed h => exact ih _ h
  refine ⟨fun w => ?_⟩
  cases w with
  | some w => exact hsome w
  | none =>
    refine ⟨_, fun v hv => ?_⟩
    cases hv with
    | started w => exact hsome w

/-- The first entry is about an earlier node, or about the same with less left to do. -/
def Below (f f' : Frame σ T) : Prop :=
  Prod.Lex (· < ·) Less (f.node.index, f.rest) (f'.node.index, f'.rest)

theorem wellFounded_below : WellFounded (@Below σ T) :=
  InvImage.wf (fun f : Frame σ T => (f.node.index, f.rest))
    ⟨fun (i, w) => Prod.lexAccessible (Nat.lt_wfRel.wf.apply i) wellFounded_less.apply w⟩

theorem below_of_index_lt {f f' : Frame σ T} (h : f.node.index < f'.node.index) : f.Below f' :=
  .left _ _ h

theorem wait_below_start (n : Node) (w : Suspended σ T) : (wait n w).Below (start n) :=
  .right _ (.started w)

theorem wait_below_wait (n : Node) {v w : Suspended σ T} (h : v.Later w) :
    (wait n v).Below (wait n w) :=
  .right _ (.resumed h)

end Frame

end TermGraph
