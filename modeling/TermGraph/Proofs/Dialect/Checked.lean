import TermGraph.Proofs.Dialect.Fits
import TermGraph.Proofs.Dialect.Registry
import TermGraph.Proofs.Graph.Stable
import TermGraph.Proofs.Routine

/-!
Writing and matching through a dialect. Both make one check, that the head is known and the
arguments fit its schema; writing then appends the record. So the records that can be written are
those that match, whoever appended them, and the reasons for a refusal are the same.
-/

namespace TermGraph

namespace Dialect

variable {σ : Type} {d : Dialect} {g g' : Graph} {name : String} {args : List Value} {s : Schema}
  {n : Node} {x : Expr}

/-! ### The check -/

theorem check_of_schema? (h : d.schema? name = some s) : d.check name args = s.check args := by
  rw [check, resolve_of_schema? h]
  rfl

theorem check_eq_ok_iff :
    d.check name args = .ok () ↔ ∃ s, d.schema? name = some s ∧ s.Fits args := by
  cases hs : d.schema? name with
  | none =>
    rw [check, resolve_of_schema?_none hs]
    constructor
    · rintro ⟨⟩
    · rintro ⟨s, ⟨⟩, -⟩
  | some s => simp [check_of_schema? hs, Schema.check_eq_ok_iff]

/-! ### Writing -/

/-- A node is written if the check lets it pass, and then it is appended. -/
theorem run_write (d : Dialect) (name : String) (args : List Value) (st : σ) (g : Graph) :
    Routine.run (d.write name args) st g =
      match d.check name args with
      | .error e => (.error e, st, g)
      | .ok _ => ((g.append name args).1, st, (g.append name args).2) := by
  rw [write, Routine.run_bind, Routine.run_lift]
  cases d.check name args <;> rfl

/-- A write is refused by the check, else for the first argument that is no node of the graph. -/
theorem refusal?_write (d : Dialect) (name : String) (args : List Value) (st : σ) (g : Graph) :
    refusal? (Routine.run (d.write name args) st g).1
      = (refusal? (d.check name args)).or (args.findSome? g.refusalArg?) := by
  rw [run_write, ← g.refusal?_append name]
  cases d.check name args <;> rfl

theorem write_eq_ok_iff (st : σ) : (∃ n, (Routine.run (d.write name args) st g).1 = .ok n) ↔
    ∃ s, d.schema? name = some s ∧ s.Fits args ∧ ∀ n, Datum.node n ∈ args → n ∈ g.nodes := by
  rw [← refusal?_eq_none, refusal?_write, Option.or_eq_none_iff, refusal?_eq_none_of_unit,
    check_eq_ok_iff, Graph.findSome?_refusalArg?_eq_none]
  constructor
  · rintro ⟨⟨s, hs, hfits⟩, hnodes⟩
    exact ⟨s, hs, hfits, hnodes⟩
  · rintro ⟨s, hs, hfits, hnodes⟩
    exact ⟨⟨s, hs, hfits⟩, hnodes⟩

/-- A write that is refused changes nothing. -/
theorem eq_of_write_error {st st' : σ} {e : Error}
    (h : Routine.run (d.write name args) st g = (.error e, st', g')) : st' = st ∧ g' = g := by
  rw [run_write] at h
  split at h
  · cases h
    exact ⟨rfl, rfl⟩
  · obtain ⟨happend, rfl, rfl⟩ : _ ∧ _ ∧ _ := by simpa [Prod.ext_iff] using h
    exact ⟨rfl, Graph.eq_of_append_error (Prod.ext happend rfl)⟩

/-- A write that succeeds was let pass by the check and has appended one record. -/
theorem appended_of_write {st st' : σ}
    (h : Routine.run (d.write name args) st g = (.ok n, st', g')) :
    d.check name args = .ok () ∧ st' = st ∧ n = g.node g.size ∧ g.Appended name args g' := by
  rw [run_write] at h
  split at h
  · cases h
  · next hcheck =>
    obtain ⟨happend, rfl, rfl⟩ : _ ∧ _ ∧ _ := by simpa [Prod.ext_iff] using h
    exact ⟨hcheck, rfl, Graph.appended_of_append (Prod.ext happend rfl)⟩

/-! ### Matching -/

theorem matchNode_of_read (h : g.read n = .ok x) : d.matchNode g n =
    (d.resolve x.head).bind fun s => (s.split x.args).map fun data => ⟨s, n, data⟩ := by
  rw [matchNode, h]
  rfl

/-- A match is refused by the check alone. -/
theorem refusal?_matchNode (h : g.read n = .ok x) :
    refusal? (d.matchNode g n) = refusal? (d.check x.head x.args) := by
  rw [matchNode_of_read h]
  cases hs : d.schema? x.head with
  | none =>
    rw [check, resolve_of_schema?_none hs]
    rfl
  | some s =>
    rw [check_of_schema? hs, resolve_of_schema? hs, ← s.refusal?_split]
    exact refusal?_map _ _

/-- A record whose arguments are divided among the fields matches with this division. -/
theorem matchNode_of_divides {one many : List Value} (hread : g.read n = .ok x)
    (hs : d.schema? x.head = some s) (h : s.Divides x.args one many) :
    d.matchNode g n = .ok ⟨s, n, s.dataOf one many⟩ := by
  rw [matchNode_of_read hread, resolve_of_schema? hs]
  exact congrArg (Except.map _) h.split_eq

/-! ### Written and matched alike -/

/-- Writing and matching through a dialect agree on what a node may be. A write succeeds just if the
name is known, the arguments fit its schema and their nodes are of the graph; else it changes
nothing. What was written matches: the fields hold the arguments, each under its name, and so they
do whatever is appended and whatever families are added later. And a node, whoever appended it,
matches just if its like could be written, with the same error if not. -/
theorem writes_what_matches (d : Dialect) (g : Graph) (st : σ) :
    (∀ (name : String) (args : List Value),
      ((∃ n, (Routine.run (d.write name args) st g).1 = .ok n) ↔
        ∃ s, d.schema? name = some s ∧ s.Fits args ∧ ∀ n, Datum.node n ∈ args → n ∈ g.nodes)
      ∧ (∀ e st' g', Routine.run (d.write name args) st g = (.error e, st', g') →
        st' = st ∧ g' = g)
      ∧ ∀ n st' g', Routine.run (d.write name args) st g = (.ok n, st', g') →
        st' = st ∧ n = g.node g.size ∧ g.Appended name args g'
          ∧ ∃ m : Matched, d.schema? name = some m.schema ∧ m.node = n ∧ m.Shows args
            ∧ ∀ g'' d', g'.Later g'' → d.Later d' → d'.matchNode g'' n = .ok m)
    ∧ ∀ (n : Node) (x : Expr), g.read n = .ok x →
      ((∃ m, d.matchNode g n = .ok m) ↔
        ∃ k, (Routine.run (d.write x.head x.args) st g).1 = .ok k)
      ∧ ∀ e, d.matchNode g n = .error e ↔
        (Routine.run (d.write x.head x.args) st g).1 = .error e := by
  refine ⟨fun name args => ⟨write_eq_ok_iff st, fun e st' g' => eq_of_write_error,
    fun n st' g' hwrite => ?_⟩, fun n x hread => ?_⟩
  · obtain ⟨hcheck, rfl, rfl, happended⟩ := appended_of_write hwrite
    obtain ⟨s, hs, one, many, hdivides⟩ := check_eq_ok_iff.1 hcheck
    refine ⟨rfl, rfl, happended, ⟨s, g.node g.size, s.dataOf one many⟩, hs, rfl,
      Matched.shows_of_divides hdivides _, fun g'' d' hg hd => ?_⟩
    exact matchNode_of_divides (happended.read_of_later hg) (hd.schema?_eq hs) hdivides
  · -- the nodes that the record mentions are of the graph, so only the check can refuse it
    have hnodes : x.args.findSome? g.refusalArg? = none :=
      Graph.findSome?_refusalArg?_eq_none.2 fun _ => Graph.mem_nodes_of_arg hread
    have hsame : refusal? (d.matchNode g n)
        = refusal? (Routine.run (d.write x.head x.args) st g).1 := by
      rw [refusal?_matchNode hread, refusal?_write, hnodes, Option.or_none]
    refine ⟨?_, fun e => ?_⟩
    · rw [← refusal?_eq_none, hsame, refusal?_eq_none]
    · rw [← refusal?_eq_some, hsame, refusal?_eq_some]

/-- A schema with one fixed field and a field at the end. -/
def grouped : Schema := ⟨"Grouped", [⟨"head", .str⟩], some ⟨"vargs", .any⟩, by decide⟩

/-- A dialect of one schema. -/
def shapes : Dialect := Dialect.empty.adding "Shapes" [grouped]

/-- A group is written, and it matches also after the schema was offered once more and something was
appended; a record of another head can neither be matched nor written. -/
theorem grouped_matches : ∃ n g' m,
    Routine.run (shapes.write "Grouped" [.str "h", .node (Graph.pair.node 0), .int 2]) () Graph.pair
      = (.ok n, (), g')
    ∧ (shapes.adding "Again" [grouped]).matchNode (g'.append "a" []).2 n = .ok m
    ∧ m.Shows [.str "h", .node (Graph.pair.node 0), .int 2]
    ∧ m.get? "vargs" = some (.many [.node (Graph.pair.node 0), .int 2])
    ∧ shapes.matchNode Graph.pair (Graph.pair.node 0) = .error (.unknownHead "a")
    ∧ (Routine.run (shapes.write "a" []) () Graph.pair).1 = .error (.unknownHead "a") := by
  obtain ⟨hwrites, hmatches⟩ := writes_what_matches shapes Graph.pair ()
  obtain ⟨-, -, -, m, -, -, hshows, hstays⟩ := (hwrites "Grouped"
    [.str "h", .node (Graph.pair.node 0), .int 2]).2.2 _ _ _ rfl
  have hmatch := hstays _ _ (.append "a" [] .start) (.adding "Again" [grouped] .start)
  refine ⟨_, _, m, rfl, hmatch, hshows, ?_, rfl,
    ((hmatches (Graph.pair.node 0) ⟨Graph.pair.node 0, "a", []⟩ rfl).2 _).1 rfl⟩
  cases hmatch
  rfl

end Dialect

end TermGraph
