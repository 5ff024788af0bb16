import TermGraph.Graph.Basic

/-!
Computations on a graph, as data.

A script may look at the graph, append records, and put questions to whoever runs it; it cannot do
anything else to the graph. So whatever a rule, a visitor or a handler is, the graph only grows
under it, and no law about them needs to assume so. A script is a well-founded tree, and a run
always ends.

`Routine` adds a state and failure: both effects on the graph and changes of the state made before
a failure stay.
-/

namespace TermGraph

/-- A computation on a graph with result `α`, which may put questions `Q` and take answers `A`. -/
inductive Script (Q : Type) (A : Q → Type) (α : Type) : Type where
  | done (a : α)
  | look (next : Graph → Script Q A α)
  | append (head : String) (args : List Value) (next : Except Error Node → Script Q A α)
  | ask (q : Q) (next : A q → Script Q A α)

namespace Script

variable {Q : Type} {A : Q → Type} {α β : Type}

/-- Goes on with `f` where the first script is done. -/
def bind : Script Q A α → (α → Script Q A β) → Script Q A β
  | done a, f => f a
  | look next, f => look fun g => (next g).bind f
  | append head args next, f => append head args fun r => (next r).bind f
  | ask q next, f => ask q fun a => (next a).bind f

instance : Monad (Script Q A) where
  pure := done
  bind := bind

theorem bind_done : ∀ s : Script Q A α, s.bind done = s
  | done _ => rfl
  | look next => congrArg look (funext fun g => bind_done (next g))
  | append head args next => congrArg (append head args) (funext fun r => bind_done (next r))
  | ask q next => congrArg (ask q) (funext fun a => bind_done (next a))

theorem bind_assoc {γ : Type} (f : α → Script Q A β) (k : β → Script Q A γ) :
    ∀ s : Script Q A α, (s.bind f).bind k = s.bind fun a => (f a).bind k
  | done _ => rfl
  | look next => congrArg look (funext fun g => bind_assoc f k (next g))
  | append head args next =>
    congrArg (append head args) (funext fun r => bind_assoc f k (next r))
  | ask q next => congrArg (ask q) (funext fun a => bind_assoc f k (next a))

instance : LawfulMonad (Script Q A) :=
  LawfulMonad.mk' _ bind_done (fun _ _ => rfl) (fun s f k => bind_assoc f k s)

/-- Where a script stands still: it is done, or waits for an answer. -/
inductive Pause (Q : Type) (A : Q → Type) (α : Type) : Type where
  | done (a : α)
  | asks (q : Q) (next : A q → Script Q A α)

/-- Runs a script up to its end or its next question. -/
def advance : Script Q A α → Graph → Pause Q A α × Graph
  | done a, g => (.done a, g)
  | look next, g => (next g).advance g
  | append head args next, g =>
    match g.append head args with
    | (r, g) => (next r).advance g
  | ask q next, g => (.asks q next, g)

/-- A script without questions. -/
abbrev Silent (α : Type) := Script Empty Empty.elim α

/-- Runs a script that has no questions. -/
def run : Silent α → Graph → α × Graph
  | done a, g => (a, g)
  | look next, g => run (next g) g
  | append head args next, g =>
    match g.append head args with
    | (r, g) => run (next r) g
  | ask q _, _ => q.elim

end Script

/-- A script with a state `σ` that may fail. -/
abbrev Routine (Q : Type) (A : Q → Type) (σ α : Type) := ExceptT Error (StateT σ (Script Q A)) α

/-- A routine without questions. -/
abbrev Action (σ α : Type) := Routine Empty Empty.elim σ α

namespace Routine

variable {Q : Type} {A : Q → Type} {σ α : Type}

/-- A result or an error known beforehand. -/
def lift (r : Except Error α) : Routine Q A σ α := fun s => .done (r, s)

/-- Computes something from the graph. -/
def look (f : Graph → Except Error α) : Routine Q A σ α :=
  fun s => .look fun g => .done (f g, s)

/-- Reads a node. -/
def read (n : Node) : Routine Q A σ Expr := look fun g => g.read n

/-- Appends a record. -/
def append (head : String) (args : List Value) : Routine Q A σ Node :=
  fun s => .append head args fun r => .done (r, s)

/-- Runs an action on a state and a graph; both are given back also when it fails. -/
def run (a : Action σ α) (s : σ) (g : Graph) : Except Error α × σ × Graph :=
  match Script.run (a s) g with
  | ((r, s), g) => (r, s, g)

end Routine

end TermGraph
