import TermGraph.Graph.Reach
import TermGraph.Script

/-!
Asking for the values of other nodes while one is evaluated. A handler gives the value of a node; it
may ask for the value of one node below it, or of several at once, and goes on once they are known.
-/

namespace TermGraph

/-- The nodes whose values are asked for. -/
inductive Request where
  | one (n : Node)
  | all (ns : List Node)
deriving DecidableEq

namespace Request

/-- The nodes asked for, in order and with repetitions. -/
def nodes : Request → List Node
  | one n => [n]
  | all ns => ns

/-- One value for one node, a list of values for a list of nodes. -/
def Answer (T : Type) : Request → Type
  | one _ => T
  | all _ => List T

/-- The answer as a list of values. -/
def values {T : Type} : (r : Request) → r.Answer T → List T
  | one _, v => [v]
  | all _, vs => vs

end Request

/-- A computation, with a state `σ`, that may ask for values of type `T`. The state travels with
the question, for the handlers of the nodes asked for change it too. -/
abbrev Inquiry (σ T α : Type) := Routine (Request × σ) (fun q => q.1.Answer T × σ) σ α

/-- What gives the value of a node. -/
abbrev Handler (σ T : Type) := Node → Inquiry σ T T

namespace Inquiry

variable {σ T : Type}

/-- Asks for the value of one node. -/
def demand (n : Node) : Inquiry σ T T :=
  fun s => .ask (.one n, s) fun (v, s) => .done (.ok v, s)

/-- Asks for the values of several nodes. -/
def demandAll (ns : List Node) : Inquiry σ T (List T) :=
  fun s => .ask (.all ns, s) fun (vs, s) => .done (.ok vs, s)

end Inquiry

/-- Where a handler stands still: it has the value, has failed, or waits for values. -/
abbrev Halt (σ T : Type) :=
  Script.Pause (Request × σ) (fun q => q.1.Answer T × σ) (Except Error T × σ)

/-- What is left of a handler that waits for the answer to `r`. -/
abbrev Resumption (σ T : Type) (r : Request) :=
  r.Answer T × σ → Script (Request × σ) (fun q => q.1.Answer T × σ) (Except Error T × σ)

/-- What a handler gives back when it stands still. -/
inductive Reply (T : Type) where
  | value (v : T)
  | wants (r : Request)

/-- The text of a reply. -/
def Reply.text {T : Type} (f : T → String) : Reply T → String
  | value v => "Done(" ++ f v ++ ")"
  | wants (.one n) => "Demand(" ++ n.longText ++ ")"
  | wants (.all ns) => "DemandAll([" ++ ", ".intercalate (ns.map Node.longText) ++ "])"

/-- One call of a handler, or of what was left of one, and how it came out. -/
inductive Call (T : Type) where
  | start (n : Node) (outcome : Except Error (Reply T))
  | resume (n : Node) (values : List T) (outcome : Except Error (Reply T))

namespace Graph

/-- Does `c` lie strictly below `n`, whose direct arguments are given? A direct argument is
recognised without a search. -/
def allows (g : Graph) (n : Node) (direct : List Node) (c : Node) : Except Error Unit :=
  if c ∈ direct then .ok ()
  else if c = n then .error (.notBelow n c)
  else
    match g.contains n c with
    | .ok true => .ok ()
    | .ok false => .error (.notBelow n c)
    | .error e => .error e

/-- May the values of these nodes be asked for on behalf of `n`? They must lie strictly below; the
first that does not is reported. -/
def allowsAll (g : Graph) (n : Node) (cs : List Node) : Except Error Unit := do
  let direct ← g.children n
  cs.forM (g.allows n direct)

theorem index_lt_of_mem_children {g : Graph} {n c : Node} {direct : List Node}
    (h : g.children n = .ok direct) (hc : c ∈ direct) : c.index < n.index := by
  obtain ⟨p, hp, rfl⟩ := ok_of_map_ok h
  obtain ⟨q, hq, rfl⟩ := List.mem_map.1 hc
  rw [eq_node_of_locate hp]
  exact lt_of_mem_childrenAt hq

theorem index_lt_of_allows {g : Graph} {n c : Node} {direct : List Node}
    (hd : g.children n = .ok direct) (h : g.allows n direct c = .ok ()) : c.index < n.index := by
  unfold allows at h
  split at h
  · next hc => exact index_lt_of_mem_children hd hc
  · split at h
    · cases h
    · next hne =>
      split at h
      · next hr =>
        exact Nat.lt_of_le_of_ne (index_le_of_contains hr).2 fun he =>
          hne (Node.ext (index_le_of_contains hr).1 he)
      · cases h
      · cases h

/-- A check of every member that comes out well has come out well for each. -/
theorem forM_eq_ok_iff {α : Type} {f : α → Except Error Unit} :
    ∀ {xs : List α}, xs.forM f = .ok () ↔ ∀ x ∈ xs, f x = .ok ()
  | [] => by simp [pure, Except.pure]
  | x :: xs => by
    have h : (x :: xs).forM f = (f x >>= fun _ => xs.forM f) := rfl
    rw [h, List.forall_mem_cons, ← forM_eq_ok_iff]
    cases f x <;> simp [bind, Except.bind]

theorem index_lt_of_allowsAll {g : Graph} {n : Node} {cs : List Node}
    (h : g.allowsAll n cs = .ok ()) : ∀ c ∈ cs, c.index < n.index := by
  unfold allowsAll at h
  cases hd : g.children n with
  | error e => rw [hd] at h; cases h
  | ok direct =>
    rw [hd] at h
    exact fun c hc => index_lt_of_allows hd (forM_eq_ok_iff.1 h c hc)

end Graph

end TermGraph
