import TermGraph.Atoms
import TermGraph.Error

/-!
Term graphs: records in the order in which they were appended, each with a head and arguments that
may name earlier records of the same graph. Texts are held as tokens of one table of atoms and
nodes as positions. Two facts are part of the type: the table of atoms is consistent, and every
record fits, that is, its tokens are in the table and its nodes stand before it.

Nothing is ever changed or removed, so a node read once reads the same for ever.

Positions and graph numbers are natural numbers without a bound. What a program with thirty-two bits
for each does at their end is left out: that an append to a graph of 2³² - 1 records stops it, and
that the numbers of graphs start over after 2³² graphs. So are the lines that copies, walks,
evaluations, passes, printing and new families write to a log.
-/

namespace TermGraph

/-- A stored argument: texts as tokens, nodes as positions. -/
abbrev Slot := Datum Nat Nat

/-- A stored record. -/
structure Record where
  head : Nat
  args : List Slot

namespace Record

/-- The positions among the arguments, in order and with repetitions. -/
def children (r : Record) : List Nat := nodesOf r.args

/-- The record's tokens are below `tokens`, its nodes before position `limit`. -/
structure Fits (r : Record) (tokens limit : Nat) : Prop where
  head_lt : r.head < tokens
  token_lt : ∀ k, Datum.str k ∈ r.args → k < tokens
  node_lt : ∀ p, Datum.node p ∈ r.args → p < limit

theorem Fits.mono {r : Record} {m n p : Nat} (h : r.Fits m p) (hmn : m ≤ n) : r.Fits n p :=
  ⟨Nat.lt_of_lt_of_le h.head_lt hmn, fun k hk => Nat.lt_of_lt_of_le (h.token_lt k hk) hmn,
    h.node_lt⟩

theorem mem_children {r : Record} {p : Nat} : p ∈ r.children ↔ Datum.node p ∈ r.args := by
  simp only [children, nodesOf, List.mem_filterMap]
  constructor
  · rintro ⟨d, hd, hp⟩
    cases d <;> simp only [Datum.node?] at hp <;> cases hp
    exact hd
  · exact fun h => ⟨_, h, rfl⟩

theorem Fits.child_lt {r : Record} {m n p : Nat} (h : r.Fits m n) (hp : p ∈ r.children) : p < n :=
  h.node_lt p (mem_children.1 hp)

end Record

/-- A term graph, numbered `id`. -/
structure Graph where
  id : Nat
  atoms : Atoms
  records : Array Record
  consistent : atoms.Consistent
  fits : ∀ (p : Nat) (r : Record), records[p]? = some r → r.Fits atoms.size p

/-- A mapped result is there only if there was one to map. -/
theorem ok_of_map_ok {ε α β : Type} {f : α → β} {x : Except ε α} {b : β}
    (h : x.map f = .ok b) : ∃ a, x = .ok a ∧ f a = b := by
  cases x with
  | error e => cases h
  | ok a => exact ⟨a, rfl, Except.ok.inj h⟩

namespace Graph

/-- The graph without records. -/
def empty (id : Nat) : Graph :=
  ⟨id, .empty, #[], Atoms.consistent_empty, fun p r h => by simp at h⟩

/-- How many records there are. -/
def size (g : Graph) : Nat := g.records.size

/-- The node at a position. -/
def node (g : Graph) (p : Nat) : Node := ⟨g.id, p⟩

/-- All nodes, in the order of their records. -/
def nodes (g : Graph) : List Node := (List.range g.size).map g.node

/-- The same records under another number. The nodes among the arguments move along, because a
record holds them by position. -/
def renumber (g : Graph) (id : Nat) : Graph := { g with id }

/-! ### Reading -/

/-- The position of a node of this graph. -/
def locate (g : Graph) (n : Node) : Except Error (Fin g.size) :=
  if n.graph = g.id then
    if h : n.index < g.size then .ok ⟨n.index, h⟩ else .error (.dangling n g.size)
  else .error (.foreign n g.id)

theorem eq_node_of_locate {g : Graph} {n : Node} {p : Fin g.size} (h : g.locate n = .ok p) :
    n = g.node p := by
  unfold locate at h
  split at h
  · next hg =>
    split at h
    · cases h; cases n; simp only [node] at hg ⊢; rw [hg]
    · cases h
  · cases h

/-- The record at a position. -/
def record (g : Graph) (p : Fin g.size) : Record :=
  have : p.val < g.records.size := p.isLt
  g.records[p.val]

/-- What a slot of this graph stands for. -/
def value (g : Graph) (s : Slot) : Value := s.map g.atoms.text g.node

/-- The head of a record. -/
def headAt (g : Graph) (p : Fin g.size) : String := g.atoms.text (g.record p).head

/-- The record at a position as an expression. -/
def exprAt (g : Graph) (p : Fin g.size) : Expr :=
  ⟨g.node p, g.headAt p, (g.record p).args.map g.value⟩

/-- The record at a position as an expression, if there is one. -/
def expr? (g : Graph) (p : Nat) : Option Expr :=
  if h : p < g.size then some (g.exprAt ⟨p, h⟩) else none

/-- The positions that the record at `p` mentions; none if there is no such record. -/
def childrenAt (g : Graph) (p : Nat) : List Nat :=
  match g.records[p]? with
  | some r => r.children
  | none => []

/-- The expression of a node. -/
def read (g : Graph) (n : Node) : Except Error Expr := (g.locate n).map g.exprAt

/-- The head of a node. -/
def head (g : Graph) (n : Node) : Except Error String := (g.locate n).map g.headAt

/-- The node arguments of a node, in order and with repetitions. -/
def children (g : Graph) (n : Node) : Except Error (List Node) :=
  (g.locate n).map fun p => (g.childrenAt p.val).map g.node

/-- A node is simple if it has no node argument. -/
def isSimple (g : Graph) (n : Node) : Except Error Bool :=
  (g.locate n).map fun p => (g.childrenAt p.val).isEmpty

/-- Arguments stand before the record that holds them. -/
theorem lt_of_mem_childrenAt {g : Graph} {p q : Nat} (h : q ∈ g.childrenAt p) : q < p := by
  unfold childrenAt at h
  split at h
  · next r hr => exact (g.fits p r hr).child_lt h
  · cases h

/-- The nodes that an expression mentions are nodes of the graph that it was read from. -/
theorem mem_nodes_of_expr? {g : Graph} {p : Nat} {e : Expr} {n : Node} (h : g.expr? p = some e)
    (hn : Datum.node n ∈ e.args) : n ∈ g.nodes := by
  unfold expr? at h
  split at h
  · next hp =>
    cases h
    obtain ⟨s, hs, he⟩ := List.mem_map.1 hn
    cases s <;> simp only [value, Datum.map] at he <;> cases he
    next q =>
    have hq := (g.fits p _ (Array.getElem?_eq_getElem hp)).node_lt q hs
    exact List.mem_map.2 ⟨q, List.mem_range.2 (Nat.lt_trans hq hp), rfl⟩
  · cases h

/-! ### Appending -/

/-- An argument with its node as a position of this graph. -/
def locateArg (g : Graph) : Value → Except Error (Datum String (Fin g.size))
  | .int i => .ok (.int i)
  | .bool b => .ok (.bool b)
  | .str s => .ok (.str s)
  | .node n => (g.locate n).map .node

/-- Adds a record whose nodes are known to be of this graph. The texts among the arguments become
atoms first, the head last. -/
def push : (g : Graph) → String → List (Datum String (Fin g.size)) → Graph
  | ⟨id, atoms, records, ok, fits⟩, head, args =>
    match h : atoms.internArgs args with
    | (slots, atoms') =>
      match h' : atoms'.intern head with
      | (k, atoms'') =>
        { id
          atoms := atoms''
          records := records.push ⟨k, slots.map (Datum.map (fun t => t) Fin.val)⟩
          consistent := by
            have := (ok.internArgs args).consistent.intern head
            simp only [h, h'] at this; exact this
          fits := by
            have hi := ok.internArgs args
            rw [h] at hi
            have hs := hi.consistent.intern_lt head
            have hle := Atoms.size_le_intern atoms' head
            rw [h'] at hs hle
            intro p r hr
            rw [Array.getElem?_push] at hr
            split at hr
            · next hp =>
              cases hr
              subst hp
              refine ⟨hs, fun t ht => ?_, fun q hq => ?_⟩
              · obtain ⟨d, hd, he⟩ := List.mem_map.1 ht
                cases d <;> simp only [Datum.map] at he <;> cases he
                exact Nat.lt_of_lt_of_le (hi.token_lt hd) hle
              · obtain ⟨d, hd, he⟩ := List.mem_map.1 hq
                cases d <;> simp only [Datum.map] at he <;> cases he
                exact Fin.isLt _
            · exact (fits p r hr).mono (Nat.le_trans hi.size_le hle) }

/-- Appends a record and gives its node. A node argument of another graph is refused, the first one
being reported, and then the graph is as before. -/
def append (g : Graph) (head : String) (args : List Value) : Except Error Node × Graph :=
  match args.mapM g.locateArg with
  | .error e => (.error e, g)
  | .ok args => (.ok (g.node g.size), g.push head args)

/-! ### Text -/

/-- All records as expressions, in order. -/
def exprs (g : Graph) : List Expr := (List.finRange g.size).map g.exprAt

/-- Every record on a line of its own, after its position. -/
def dumpWith (plain : Char → Bool) (g : Graph) : String :=
  g.exprs.foldl (fun acc e => acc ++ e.node.text ++ " " ++ e.textWith plain ++ "\n") ""

/-- The records line by line, the characters that are not hidden being plain. -/
def dump (g : Graph) : String := g.dumpWith Text.isPlain

end Graph

end TermGraph
