import Std.Data.TreeMap
import Std.Data.TreeSet
import TermGraph.Text.Quoted

/-!
Nodes, the arguments a record can hold, and the expression read back for a node.

A node is named by the number of its graph and its position there. An argument is an integer, a
truth value, a text or a node; how texts and nodes are held is left open: callers hold them as they
are, a stored record holds a token and a position, and an evaluator a value in place of a node.
-/

namespace TermGraph

/-- A node: the number of its graph and the position of its record. -/
@[ext] structure Node where
  graph : Nat
  index : Nat
deriving DecidableEq, Inhabited

namespace Node

/-- Nodes are ordered by graph, then by position. -/
instance : Ord Node where
  compare a b := (compare a.graph b.graph).then (compare a.index b.index)

instance : Std.TransOrd Node :=
  inferInstanceAs (Std.TransCmp (compareLex (compareOn graph) (compareOn index)))

instance : Std.LawfulEqOrd Node where
  compare_self := Std.ReflCmp.compare_self
  eq_of_compare h :=
    have h := Ordering.then_eq_eq.1 h
    Node.ext (Std.LawfulEqOrd.eq_of_compare h.1) (Std.LawfulEqOrd.eq_of_compare h.2)

/-- The short text of a node names its position only. -/
def text (n : Node) : String := "#" ++ toString n.index

/-- The long text of a node names its graph too. -/
def longText (n : Node) : String :=
  "Node(" ++ toString n.graph ++ ":" ++ toString n.index ++ ")"

end Node

/-- An argument, with texts held as `σ` and nodes as `ν`. -/
inductive Datum (σ ν : Type) where
  | int (i : Int64)
  | bool (b : Bool)
  | str (s : σ)
  | node (n : ν)
deriving DecidableEq

namespace Datum

variable {σ τ ν μ : Type}

/-- Changes how texts and nodes are held. -/
def map (f : σ → τ) (g : ν → μ) : Datum σ ν → Datum τ μ
  | int i => int i
  | bool b => bool b
  | str s => str (f s)
  | node n => node (g n)

/-- The node held, if it is one. -/
def node? : Datum σ ν → Option ν
  | node n => some n
  | _ => none

/-- The integer held, if it is one. -/
def int? : Datum σ ν → Option Int64
  | int i => some i
  | _ => none

/-- The text held, if it is one. -/
def str? : Datum σ ν → Option σ
  | str s => some s
  | _ => none

/-- Does the argument hold a node? -/
def isNode (d : Datum σ ν) : Bool := d.node?.isSome

theorem node?_map (f : σ → τ) (g : ν → μ) (d : Datum σ ν) :
    (d.map f g).node? = d.node?.map g := by cases d <;> rfl

end Datum

/-- The nodes among the arguments, in order and with repetitions. -/
def nodesOf {σ ν : Type} (args : List (Datum σ ν)) : List ν := args.filterMap Datum.node?

/-- What callers append and read: texts as themselves, nodes as handles. -/
abbrev Value := Datum String Node

/-- The text of an argument; in a text that it holds, the plain characters stand as they are. -/
def Datum.textWith (plain : Char → Bool) : Value → String
  | .int i => toString i.toInt
  | .bool b => if b then "true" else "false"
  | .str s => Text.quoteWith plain s
  | .node n => n.text

/-- The text of an argument, the characters that are not hidden being plain. -/
def Datum.text (v : Value) : String := v.textWith Text.isPlain

/-- A head and its arguments' texts between brackets, each argument after one blank. -/
def applied (head : String) (args : List String) : String :=
  args.foldl (fun acc arg => acc ++ " " ++ arg) ("(" ++ head) ++ ")"

/-- A record read back: its node, its head and its arguments. -/
structure Expr where
  node : Node
  head : String
  args : List Value
deriving DecidableEq

namespace Expr

/-- Heads that start like this belong to notes about the graph, not to its terms. -/
def noteMark : String := ".md."

/-- The nodes among the arguments. -/
def children (e : Expr) : List Node := nodesOf e.args

/-- An expression is simple if it has no node argument. -/
def isSimple (e : Expr) : Bool := e.children.isEmpty

/-- Does the head mark the expression as a note? -/
def isNote (e : Expr) : Bool := e.head.startsWith noteMark

/-- The expression on one line, its node arguments by position. -/
def textWith (plain : Char → Bool) (e : Expr) : String :=
  applied e.head (e.args.map (Datum.textWith plain))

/-- The expression on one line, the characters that are not hidden being plain. -/
def text (e : Expr) : String := e.textWith Text.isPlain

end Expr

end TermGraph
