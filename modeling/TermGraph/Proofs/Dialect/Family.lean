import TermGraph.Proofs.Dialect.Checked
import TermGraph.Proofs.Dialect.Typed

/-!
Families and dialects. A family reads its nodes as typed nodes, a dialect that knows the schemas of
the family matches them; neither asks the other. Main statement: what was written as a typed node is
read as that node, and on any node of one of its heads the family and the dialect agree, field by
field or in the reason why not.
-/

namespace TermGraph

/-- The match shows what the fields of the typed node hold, each under the field's name. -/
structure Typed.HeldBy {s : Schema} (t : Typed s) (m : Matched) : Prop where
  fixed : ∀ i : Fin s.fixed.length, m.get? s.fixed[i].name
    = some (.one (s.fixed[i].kind.toValue (Field.Members.get s.fixed t.fixed i)))
  rest : ∀ f, s.rest = some f → m.get? f.name = some (.many (Field.encodeRest s.rest t.rest))

/-- The match of the arguments of a typed node. -/
def Typed.matched {s : Schema} (t : Typed s) (n : Node) : Matched :=
  ⟨s, n, s.dataOf (Field.encodeMembers s.fixed t.fixed) (Field.encodeRest s.rest t.rest)⟩

theorem Typed.heldBy_matched {s : Schema} (t : Typed s) (n : Node) : t.HeldBy (t.matched n) := by
  refine ⟨fun i => ?_, fun f hf => ?_⟩
  · have hfield : s.fields[i.val]? = some s.fixed[i] := by
      rw [Schema.fields, List.getElem?_append_left i.isLt]
      exact List.getElem?_eq_getElem i.isLt
    rw [(t.matched n).get?_name hfield]
    refine (t.divides_toArgs.getElem?_fixed i.isLt).trans ?_
    rw [Field.encodeMembers_get]
    rfl
  · have hfield : s.fields[s.fixed.length]? = some f := by
      rw [Schema.fields, List.getElem?_append_right (Nat.le_refl _), Nat.sub_self, hf]
      rfl
    rw [(t.matched n).get?_name hfield]
    exact t.divides_toArgs.getElem?_rest (by rw [hf]; rfl)

namespace Dialect

variable {d d' d₀ : Dialect} {f : Family} {s : Schema}

/-- The dialect has the schemas of the family. -/
def Knows (d : Dialect) (f : Family) : Prop := ∀ s ∈ f.schemas, s ∈ d.schemas

/-- A family that was added is known from then on. -/
theorem knows_of_addFamily (h : d₀.addFamily f = .ok d) (hlater : d.Later d') : d'.Knows f :=
  fun s hs => hlater.mem_schemas <| by
    rw [schemas_of_add h]
    exact List.mem_append_right _ hs

/-- The family finds its own schema, as no other of the dialect has the name. -/
theorem Knows.schema?_eq (h : d.Knows f) (hs : s ∈ f.schemas) : f.schema? s.name = some s := by
  obtain ⟨s', hs'⟩ : ∃ s', f.schema? s.name = some s' :=
    Option.isSome_iff_exists.1 (List.find?_isSome.2 ⟨s, hs, by simp⟩)
  have hname : s'.name = s.name := by simpa using List.find?_some hs'
  have hknown := schema?_of_mem (h s' (List.mem_of_find?_eq_some hs'))
  rw [hname, schema?_of_mem (h s hs)] at hknown
  rw [hs', Option.some.inj hknown]

end Dialect

namespace Family

variable {σ : Type} {d : Dialect} {f : Family} {g : Graph} {s : Schema} {n : Node} {x : Expr}

/-! ### Reading a node -/

theorem read_of_known (hf : d.Knows f) (hread : g.read n = .ok x) (hs : s ∈ f.schemas)
    (hhead : x.head = s.name) : f.read g n = (Typed.ofArgs s x.args).map (⟨s, ·⟩) := by
  rw [read, hread]
  dsimp only [Bind.bind, Except.bind]
  rw [ofExpr, hhead, hf.schema?_eq hs]

theorem read_of_unknown (hread : g.read n = .ok x) (h : ∀ s ∈ f.schemas, s.name ≠ x.head) :
    f.read g n = .error (.unknownHead x.head) := by
  have hnone : f.schema? x.head = none := List.find?_eq_none.2 fun s hs => by simpa using h s hs
  rw [read, hread]
  dsimp only [Bind.bind, Except.bind]
  rw [ofExpr, hnone]

theorem read_typed_of_head (hread : g.read n = .ok x) (hhead : x.head = s.name) :
    Typed.read s g n = Typed.ofArgs s x.args := by
  rw [Typed.read, hread]
  dsimp only [Bind.bind, Except.bind]
  rw [Typed.ofExpr?, if_pos hhead]
  cases Typed.ofArgs s x.args <;> rfl

/-! ### The family and the dialect -/

/-- On a node of one of its heads, the family reads what the dialect matches. -/
theorem read_and_match (hf : d.Knows f) (hread : g.read n = .ok x) (hs : s ∈ f.schemas)
    (hhead : x.head = s.name) :
    (∃ m, f.read g n = .error (.mismatch s.name m) ∧ d.matchNode g n = .error (.mismatch s.name m))
    ∨ ∃ t : Typed s, f.read g n = .ok ⟨s, t⟩ ∧ d.matchNode g n = .ok (t.matched n) := by
  have hschema : d.schema? x.head = some s := by
    rw [hhead]
    exact Dialect.schema?_of_mem (hf s hs)
  rw [read_of_known hf hread hs hhead]
  cases ht : Typed.ofArgs s x.args with
  | error e =>
    have hcheck : s.check x.args = .error e := by
      rw [← refusal?_eq_some, ← Typed.refusal?_ofArgs, ht]
      rfl
    obtain ⟨m, rfl⟩ := Schema.exists_mismatch_of_check_error hcheck
    refine .inl ⟨m, rfl, ?_⟩
    rw [← refusal?_eq_some, Dialect.refusal?_matchNode hread, Dialect.check_of_schema? hschema,
      hcheck]
    rfl
  | ok t =>
    refine .inr ⟨t, rfl, Dialect.matchNode_of_divides hread hschema ?_⟩
    rw [← Typed.toArgs_of_ofArgs ht]
    exact t.divides_toArgs

/-- A typed node of the family can be written if its nodes are of the graph. -/
theorem exists_writeTyped (hf : d.Knows f) (hs : s ∈ f.schemas) (t : Typed s)
    (hnodes : ∀ n, Datum.node n ∈ t.toArgs → n ∈ g.nodes) (st : σ) :
    ∃ g', Routine.run (d.writeTyped t) st g = (.ok (g.node g.size), st, g')
      ∧ g.Appended s.name t.toArgs g' := by
  obtain ⟨n, hn⟩ := (Dialect.write_eq_ok_iff st).2
    ⟨s, Dialect.schema?_of_mem (hf s hs), ⟨_, _, t.divides_toArgs⟩, hnodes⟩
  obtain ⟨⟨r, st', g'⟩, hrun⟩ : ∃ r, Routine.run (d.write s.name t.toArgs) st g = r := ⟨_, rfl⟩
  obtain rfl : r = .ok n := by rw [← hn, hrun]
  obtain ⟨-, rfl, rfl, happended⟩ := Dialect.appended_of_write hrun
  exact ⟨g', hrun, happended⟩

/-- A family and a dialect that knows it agree. A typed node whose nodes are of the graph is written
as one record, which is read back as the node, by its schema and by the family, whatever is appended
later. A node of one of the family's heads, whoever appended it, is refused by both with the same
mismatch, or it is read as a typed node whose fields hold what the match shows under their names.
The family refuses any other node for its head. -/
theorem reads_what_matches (hf : d.Knows f) (g : Graph) (st : σ) :
    (∀ s ∈ f.schemas, ∀ t : Typed s, (∀ n, Datum.node n ∈ t.toArgs → n ∈ g.nodes) →
      ∃ g', Routine.run (d.writeTyped t) st g = (.ok (g.node g.size), st, g')
        ∧ g.Appended s.name t.toArgs g'
        ∧ ∀ g'', g'.Later g'' → Typed.read s g'' (g.node g.size) = .ok t
          ∧ f.read g'' (g.node g.size) = .ok ⟨s, t⟩)
    ∧ (∀ (n : Node) (x : Expr), g.read n = .ok x → ∀ s ∈ f.schemas, x.head = s.name →
      (∃ m, f.read g n = .error (.mismatch s.name m)
        ∧ d.matchNode g n = .error (.mismatch s.name m))
      ∨ ∃ (t : Typed s) (m : Matched), f.read g n = .ok ⟨s, t⟩ ∧ d.matchNode g n = .ok m
        ∧ m.schema = s ∧ m.node = n ∧ t.HeldBy m)
    ∧ ∀ (n : Node) (x : Expr), g.read n = .ok x → (∀ s ∈ f.schemas, s.name ≠ x.head) →
      f.read g n = .error (.unknownHead x.head) := by
  refine ⟨fun s hs t hnodes => ?_, fun n x hread s hs hhead => ?_, fun n x => read_of_unknown⟩
  · obtain ⟨g', hrun, happended⟩ := exists_writeTyped hf hs t hnodes st
    refine ⟨g', hrun, happended, fun g'' hlater => ?_⟩
    have hread := happended.read_of_later hlater
    rw [read_typed_of_head hread rfl, read_of_known hf hread hs rfl, t.ofArgs_toArgs]
    exact ⟨rfl, rfl⟩
  · obtain herror | ⟨t, hread', hmatch⟩ := read_and_match hf hread hs hhead
    · exact .inl herror
    · exact .inr ⟨t, _, hread', hmatch, rfl, rfl, t.heldBy_matched n⟩

/-- A family of one schema. -/
def groups : Family := ⟨"Groups", [Dialect.grouped]⟩

/-- A group of the first record of the pair and a number. -/
def groupOfTwo : Typed Dialect.grouped := ⟨("h", ()), [.node (Graph.pair.node 0), .int 2]⟩

/-- A group that was written is read back after another append; a record that was appended without a
check is refused by family and dialect alike. -/
theorem groups_read : ∃ d g', Dialect.empty.addFamily groups = .ok d ∧ d.Knows groups
    ∧ Routine.run (d.writeTyped groupOfTwo) () Graph.pair = (.ok (Graph.pair.node 2), (), g')
    ∧ groups.read (g'.append "a" []).2 (Graph.pair.node 2) = .ok ⟨Dialect.grouped, groupOfTwo⟩
    ∧ ∃ m, groups.read (Graph.pair.append "Grouped" [.int 1]).2 (Graph.pair.node 2)
        = .error (.mismatch "Grouped" m)
      ∧ d.matchNode (Graph.pair.append "Grouped" [.int 1]).2 (Graph.pair.node 2)
        = .error (.mismatch "Grouped" m) := by
  obtain ⟨d, hadd⟩ : ∃ d, Dialect.empty.addFamily groups = .ok d := ⟨_, rfl⟩
  have hknows : d.Knows groups := Dialect.knows_of_addFamily hadd .start
  have hmem : Dialect.grouped ∈ groups.schemas := List.mem_singleton.2 rfl
  have hargs : groupOfTwo.toArgs = [.str "h", .node (Graph.pair.node 0), .int 2] := rfl
  have hnodes : ∀ n, Datum.node n ∈ groupOfTwo.toArgs → n ∈ Graph.pair.nodes := fun n hn => by
    rw [hargs] at hn
    obtain rfl : n = Graph.pair.node 0 := by simpa using hn
    exact Graph.node_mem_nodes.2 (by decide)
  obtain ⟨g', hrun, -, hlater⟩ :=
    (reads_what_matches hknows Graph.pair ()).1 Dialect.grouped hmem groupOfTwo hnodes
  refine ⟨d, g', hadd, hknows, hrun, (hlater _ (.append "a" [] .start)).2, ?_⟩
  obtain herror | ⟨t, m, hread, -⟩ :=
    (reads_what_matches hknows (Graph.pair.append "Grouped" [.int 1]).2 ()).2.1
      (Graph.pair.node 2) _ rfl Dialect.grouped hmem rfl
  · exact herror
  · cases hread

end Family

end TermGraph
