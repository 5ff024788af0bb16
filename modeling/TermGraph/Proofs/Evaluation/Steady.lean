import TermGraph.Evaluation.Request

/-!
Handlers that leave the graph and the state alone. They may look at the graph, ask for values, go on
as the answers have it, and fail; they append nothing, and neither what they do nor when they do it
has to do with the state. What is composed of looking, asking and failing is steady.
-/

namespace TermGraph

namespace Script

variable {Q : Type} {A : Q → Type} {α β : Type}

/-- A script that is gone on from stands still where it did, or where it is gone on from its end. -/
theorem advance_bind (f : α → Script Q A β) : ∀ (s : Script Q A α) (g : Graph),
    (s.bind f).advance g =
      match s.advance g with
      | (.done a, g) => (f a).advance g
      | (.asks q next, g) => (.asks q fun a => (next a).bind f, g)
  | .done _, _ => rfl
  | .look next, g => advance_bind f (next g) g
  | .append head args next, g =>
    advance_bind f (next (g.append head args).1) (g.append head args).2
  | .ask _ _, _ => rfl

end Script

namespace Inquiry

variable {σ T α β : Type} {g : Graph} {m m' : Inquiry σ T α}

/-- On the graph `g` the inquiry is done or asks, for every state alike, and leaves `g` and the
state as they are; and so it is after every answer. -/
inductive Steady (g : Graph) : Inquiry σ T α → Prop
  | done {m : Inquiry σ T α} (r : Except Error α) :
    (∀ s, (m s).advance g = (.done (r, s), g)) → Steady g m
  | asks {m : Inquiry σ T α} (r : Request) (next : r.Answer T × σ →
      Script (Request × σ) (fun q => q.1.Answer T × σ) (Except Error α × σ)) :
    (∀ s, (m s).advance g = (.asks (r, s) next, g)) → (∀ a, Steady g fun s => next (a, s)) →
    Steady g m

namespace Steady

theorem congr (hm : Steady g m') (h : ∀ s, (m s).advance g = (m' s).advance g) : Steady g m := by
  cases hm with
  | done r hdone => exact .done r fun s => (h s).trans (hdone s)
  | asks r next hasks hnext => exact .asks r next (fun s => (h s).trans (hasks s)) hnext

theorem lift (r : Except Error α) : Steady g (Routine.lift r : Inquiry σ T α) :=
  .done r fun _ => rfl

theorem pure (a : α) : Steady g (Pure.pure a : Inquiry σ T α) := .done (.ok a) fun _ => rfl

theorem throw (e : Error) : Steady g (MonadExcept.throw e : Inquiry σ T α) :=
  .done (.error e) fun _ => rfl

theorem look (f : Graph → Except Error α) : Steady g (Routine.look f : Inquiry σ T α) :=
  .done (f g) fun _ => rfl

theorem demand (n : Node) : Steady g (Inquiry.demand n : Inquiry σ T T) :=
  .asks (.one n) (fun a => .done (.ok a.1, a.2)) (fun _ => rfl) fun v => .done (.ok v) fun _ => rfl

theorem demandAll (ns : List Node) : Steady g (Inquiry.demandAll ns : Inquiry σ T (List T)) :=
  .asks (.all ns) (fun a => .done (.ok a.1, a.2)) (fun _ => rfl) fun vs =>
    .done (.ok vs) fun _ => rfl

theorem bind {f : α → Inquiry σ T β} (hm : Steady g m) (hf : ∀ a, Steady g (f a)) :
    Steady g (m >>= f) := by
  have hbind : ∀ (m : Inquiry σ T α) s, (m >>= f) s = (m s).bind fun r =>
      (ExceptT.bindCont f r.1 : StateT σ (Script (Request × σ) _) _) r.2 := fun _ _ => rfl
  induction hm with
  | @done m r h =>
    have hadvance : ∀ s, ((m >>= f) s).advance g
        = ((ExceptT.bindCont f r : StateT σ (Script (Request × σ) _) _) s).advance g := fun s => by
      rw [hbind, Script.advance_bind, h]
    cases r with
    | error e => exact .done (.error e) hadvance
    | ok a => exact (hf a).congr hadvance
  | @asks m r next h _ ih =>
    refine .asks r (fun a => (next a).bind fun r =>
      (ExceptT.bindCont f r.1 : StateT σ (Script (Request × σ) _) _) r.2) (fun s => ?_) ih
    rw [hbind, Script.advance_bind, h]

end Steady

end Inquiry

end TermGraph
