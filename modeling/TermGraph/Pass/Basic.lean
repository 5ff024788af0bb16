import TermGraph.Evaluation.Stack
import TermGraph.Pass.Term
import TermGraph.Walk

/-!
Passes over a graph. A pass has rules for the heads it knows and gives every node that a root
depends on a result, from the bottom up, so that a rule finds the results of the arguments. Results
are remembered, also from one run to the next. A node replaced by another node may leave a note in
the graph: who replaced it, by what, and which node it was.
-/

namespace TermGraph

/-- A pass and what it has done so far. The rules share a state `σ`. -/
structure Pass (σ C : Type) where
  name : String
  /-- Are replacements noted in the graph? -/
  keepsHistory : Bool := true
  rules : Std.TreeMap String (Rule σ C) := ∅
  fallback : Option (Fallback σ C) := none
  /-- The results so far, by node. -/
  memo : Memo (Term C) := ∅
  /-- How many nodes were replaced by other nodes. -/
  replaced : Nat := 0
  state : σ

/-- The head of the note that a replacement leaves. -/
def historyHead : String := Expr.noteMark ++ "rewrite"

namespace Pass

variable {σ C α : Type}

/-- Sets the rule for a head, in place of any earlier one. -/
def on (p : Pass σ C) (head : String) (rule : Rule σ C) : Pass σ C :=
  { p with rules := p.rules.insert head rule }

/-- The result of a node, if it has one yet. -/
def result? (p : Pass σ C) (n : Node) : Option (Term C) := p.memo[n]?

/-- The result of an argument: a node has one by now, everything else is its own. -/
def resultOf (memo : Memo (Term C)) : Value → Except Error (Term C)
  | .node n => memo.value n
  | v => .ok (.value v)

/-- Runs an action of the rules on their state. -/
def within (a : Action σ α) : Action (Pass σ C) α := fun p =>
  (a p.state).bind fun (r, s) => .done (r, { p with state := s })

/-- The rule that applies to an expression: that of its head, else the fallback. -/
def ruleFor (p : Pass σ C) (e : Expr) : Rule σ C :=
  match p.rules[e.head]? with
  | some rule => rule
  | none => fun e args => (p.fallback.getD rebuild) e args (e.changed args)

/-- Applies the rule for an expression to the results of its arguments. -/
def dispatch (e : Expr) : Action (Pass σ C) (Term C) := do
  let args ← Routine.lift (e.args.mapM (resultOf (← get).memo))
  let rule := (← get).ruleFor e
  within (rule e args)

/-- Notes that `n` was replaced by `m`. -/
def note (n m : Node) : Action (Pass σ C) Unit := do
  modify fun p => { p with replaced := p.replaced + 1 }
  let p ← get
  if p.keepsHistory then
    let _ ← Routine.append historyHead [.str p.name, .node m, .node n]

/-- Gives one node its result, unless it has one. -/
def visit (n : Node) : Action (Pass σ C) Unit := do
  if (← get).memo.contains n then return
  let e ← Routine.read n
  let t ← dispatch e
  if let some m := t.node? then
    if m ≠ n then note n m
  modify fun p => { p with memo := p.memo.insert n t }

/-- Gives everything that the root depends on its result, the root's last. -/
def run (root : Node) : Action (Pass σ C) (Term C) := do
  walk .needed root visit
  match (← get).result? root with
  | some t => return t
  | none => throw (.unknownHead (← Routine.look fun g => g.head root))

/-- The heads that have a rule, in alphabetical order of their code points. -/
def heads (p : Pass σ C) : List String := p.rules.keys

/-- One line about the pass. -/
def summary (p : Pass σ C) : String :=
  "RewritePass \x7b name: " ++ Text.quote p.name
    ++ ", config: PassConfig \x7b record_history: " ++ toString p.keepsHistory
    ++ " \x7d, handlers: [" ++ ", ".intercalate (p.heads.map Text.quote)
    ++ "], fallback: " ++ toString p.fallback.isSome
    ++ ", memoized: " ++ toString p.memo.size ++ " \x7d"

end Pass

end TermGraph
