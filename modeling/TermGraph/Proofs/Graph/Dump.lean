import TermGraph.Proofs.Graph.Copy
import TermGraph.Proofs.Graph.Notes
import TermGraph.Proofs.Text.Word

/-!
Reading a dump. Each record is on a line that begins with its position and ends after the bracket
that closes it. A head without blanks and closing brackets is a word, and each argument is a lexeme,
so a line tells the record and where the next line begins, whatever the texts in it hold. Main
statement: two graphs dump the same just if they have the same records at the same positions,
whichever characters are plain.
-/

namespace TermGraph

/-! ### The characters of a dump -/

/-- What a record says in whichever graph it is: its head and its arguments, nodes by position. -/
structure Content where
  head : String
  args : List (Datum String Nat)

/-- What the expression says, apart from the graph that it is from. -/
def Expr.content (e : Expr) : Content := ⟨e.head, e.args.map (Datum.mapNode Node.index)⟩

/-- The characters of the line of a record that stands at a position. -/
def Content.line (plain : Char → Bool) (p : Nat) (c : Content) : List Char :=
  ('#' :: p.repr.toList ++ [' ', '(']) ++ (c.head.toList
    ++ (c.args.flatMap (fun d => ' ' :: Text.lexemeWith plain '#' d) ++ [')', '\n']))

/-- The characters of the lines of records that stand one after the other, from a position on. -/
def Content.lines (plain : Char → Bool) (p : Nat) : List Content → List Char
  | [] => []
  | c :: cs => c.line plain p ++ lines plain (p + 1) cs

theorem Datum.toList_textWith (plain : Char → Bool) (v : Value) :
    (v.textWith plain).toList = Text.lexemeWith plain '#' (v.mapNode Node.index) := by
  cases v with
  | node n => exact String.toList_append
  | _ => rfl

theorem toList_foldl_args (ts : List String) (acc : String) :
    (ts.foldl (fun acc t => acc ++ " " ++ t) acc).toList
      = acc.toList ++ ts.flatMap fun t => ' ' :: t.toList := by
  induction ts generalizing acc with
  | nil => exact (List.append_nil _).symm
  | cons t ts ih =>
    rw [List.foldl_cons, ih, List.flatMap_cons]
    simp

theorem toList_applied (head : String) (ts : List String) :
    (applied head ts).toList
      = '(' :: head.toList ++ (ts.flatMap (fun t => ' ' :: t.toList) ++ [')']) := by
  rw [applied, String.toList_append, toList_foldl_args]
  simp

/-- Records that stand one after the other are dumped on one line each. -/
theorem Content.toList_foldl (plain : Char → Bool) : ∀ {es : List Expr} {p : Nat} (acc : String),
    es.map (fun e => e.node.index) = List.range' p es.length →
      (es.foldl (fun acc e => acc ++ e.node.text ++ " " ++ e.textWith plain ++ "\n") acc).toList
        = acc.toList ++ lines plain p (es.map Expr.content)
  | [], _, acc, _ => (List.append_nil acc.toList).symm
  | e :: es, p, acc, h => by
    rw [List.map_cons, List.length_cons, List.range'_succ] at h
    obtain ⟨hindex, hrest⟩ := List.cons.inj h
    have hargs : ((e.args.map (Datum.textWith plain)).flatMap fun t => ' ' :: t.toList)
        = (e.args.map (Datum.mapNode Node.index)).flatMap
          fun d => ' ' :: Text.lexemeWith plain '#' d := by
      rw [List.flatMap_map, List.flatMap_map]
      simp only [Datum.toList_textWith]
    have hline : (e.node.text ++ " " ++ e.textWith plain ++ "\n").toList
        = e.content.line plain p := by
      simp [Node.text, hindex, Expr.textWith, toList_applied, hargs, line, Expr.content]
    rw [List.foldl_cons, toList_foldl plain _ hrest, List.map_cons, lines, ← hline]
    simp

theorem Content.line_append (plain : Char → Bool) (p : Nat) (c : Content) (r : List Char) :
    c.line plain p ++ r = ('#' :: p.repr.toList ++ [' ', '(']) ++ (c.head.toList
      ++ (c.args.flatMap (fun d => ' ' :: Text.lexemeWith plain '#' d) ++ ')' :: '\n' :: r)) := by
  simp [line]

/-- A line tells the record, and what follows it. -/
theorem Content.line_append_inj {plain : Char → Bool} {p : Nat} {c c' : Content} {r r' : List Char}
    (hword : Text.IsWord c.head.toList) (hword' : Text.IsWord c'.head.toList)
    (h : c.line plain p ++ r = c'.line plain p ++ r') : c = c' ∧ r = r' := by
  rw [line_append, line_append] at h
  obtain ⟨hhead, hargs⟩ := hword.append_inj hword' (Text.breaks_args _ _ _)
    (Text.breaks_args _ _ _) (List.append_cancel_left h)
  obtain ⟨hargs, hend⟩ := Text.args_append_inj (R := Eq)
    (fun _ _ _ _ _ _ hs hs' => Text.lexemeWith_append_inj plain rfl hs hs') hargs
  obtain ⟨head, args⟩ := c
  obtain ⟨head', args'⟩ := c'
  rw [List.forall₂_eq_eq_eq] at hargs
  exact ⟨congrArg₂ mk (String.toList_inj.1 hhead) hargs, (List.cons.inj hend).2⟩

/-- Lines tell the records. -/
theorem Content.lines_inj {plain : Char → Bool} : ∀ {cs cs' : List Content} {p : Nat},
    (∀ c ∈ cs, Text.IsWord c.head.toList) → (∀ c ∈ cs', Text.IsWord c.head.toList) →
      lines plain p cs = lines plain p cs' → cs = cs'
  | [], [], _, _, _, _ => rfl
  | [], c :: cs, p, _, _, h => absurd h.symm (by simp [lines, line])
  | c :: cs, [], p, _, _, h => absurd h (by simp [lines, line])
  | c :: cs, c' :: cs', p, hwords, hwords', h => by
    obtain ⟨hline, hrest⟩ := line_append_inj (hwords c (List.mem_cons_self ..))
      (hwords' c' (List.mem_cons_self ..)) h
    rw [hline, lines_inj (fun d hd => hwords d (List.mem_cons_of_mem _ hd))
      (fun d hd => hwords' d (List.mem_cons_of_mem _ hd)) hrest]

namespace Graph

variable {g g' : Graph} {plain : Char → Bool}

/-! ### What a dump tells -/

/-- What the records say, in order. -/
def contents (g : Graph) : List Content := g.exprs.map Expr.content

theorem toList_dumpWith (plain : Char → Bool) (g : Graph) :
    (g.dumpWith plain).toList = Content.lines plain 0 g.contents := by
  refine Content.toList_foldl plain "" ?_
  rw [length_exprs, exprs, List.map_map, ← List.range_eq_range', ← List.map_coe_finRange_eq_range]
  rfl

/-- The two graphs have the same records at the same positions: the same heads, the same literals,
and nodes at the same positions. -/
structure SameRecords (g g' : Graph) : Prop where
  size_eq : g.size = g'.size
  content_eq : ∀ p e e', g.expr? p = some e → g'.expr? p = some e' →
    e.head = e'.head ∧ e.args.map (Datum.mapNode Node.index) = e'.args.map (Datum.mapNode Node.index)

theorem getElem?_contents (g : Graph) (p : Nat) : g.contents[p]? = (g.expr? p).map Expr.content := by
  rw [contents, List.getElem?_map, getElem?_exprs]

theorem sameRecords_iff : g.SameRecords g' ↔ g.contents = g'.contents := by
  constructor
  · intro h
    refine List.ext_getElem? fun p => ?_
    rw [getElem?_contents, getElem?_contents]
    by_cases hp : p < g.size
    · have he := expr?_eq_some (g := g) ⟨p, hp⟩
      have he' := expr?_eq_some (g := g') ⟨p, h.size_eq ▸ hp⟩
      obtain ⟨hhead, hargs⟩ := h.content_eq p _ _ he he'
      rw [he, he']
      exact congrArg some (congrArg₂ Content.mk hhead hargs)
    · have hp' : ¬ p < g'.size := h.size_eq ▸ hp
      rw [expr?, expr?, dif_neg hp, dif_neg hp']
  · intro h
    refine ⟨?_, fun p e e' he he' => ?_⟩
    · have hlength := congrArg List.length h
      rwa [contents, contents, List.length_map, List.length_map, length_exprs, length_exprs]
        at hlength
    · have hp : g.contents[p]? = g'.contents[p]? := by rw [h]
      rw [getElem?_contents, getElem?_contents, he, he'] at hp
      exact Content.mk.inj (Option.some.inj hp)

theorem isWord_of_mem_contents (hwords : ∀ p, Text.IsWord (g.headAt p).toList) :
    ∀ c ∈ g.contents, Text.IsWord c.head.toList := by
  intro c hc
  obtain ⟨e, he, rfl⟩ := List.mem_map.1 hc
  obtain ⟨p, -, rfl⟩ := List.mem_map.1 he
  exact hwords p

theorem dumpWith_eq_iff (hwords : ∀ p, Text.IsWord (g.headAt p).toList)
    (hwords' : ∀ p, Text.IsWord (g'.headAt p).toList) :
    g.dumpWith plain = g'.dumpWith plain ↔ g.SameRecords g' := by
  rw [sameRecords_iff, ← String.toList_inj, toList_dumpWith, toList_dumpWith]
  constructor
  · exact Content.lines_inj (isWord_of_mem_contents hwords) (isWord_of_mem_contents hwords')
  · exact congrArg _

/-- If no head has a blank or a closing bracket in it, two graphs dump the same just if they have the
same records at the same positions, whichever characters of a text are plain. -/
theorem dump_eq_iff (hwords : ∀ p, Text.IsWord (g.headAt p).toList)
    (hwords' : ∀ p, Text.IsWord (g'.headAt p).toList) :
    (g.dump = g'.dump ↔ g.SameRecords g') ∧
      ∀ plain, g.dumpWith plain = g'.dumpWith plain ↔ g.SameRecords g' := by
  refine ⟨?_, fun plain => dumpWith_eq_iff hwords hwords'⟩
  exact dumpWith_eq_iff hwords hwords'

/-- A record that says one thing about the node before it. -/
def saying (id : Nat) (args : List Value) : Graph :=
  let g := ((Graph.empty id).append "num" [.int (-1)]).2
  (g.append "say" (.node (g.node 0) :: args)).2

/-- One text that looks like two, in two graphs, and two texts. -/
theorem dump_eq_saying :
    (saying 0 [.str "a\" \"b)\n"]).SameRecords (saying 1 [.str "a\" \"b)\n"])
      ∧ (saying 0 [.str "a\" \"b)\n"]).dump ≠ (saying 1 [.str "a", .str "b)\n"]).dump := by
  have hwords : ∀ p, Text.IsWord ((saying 0 [.str "a\" \"b)\n"]).headAt p).toList := by decide
  have hone : ∀ p, Text.IsWord ((saying 1 [.str "a\" \"b)\n"]).headAt p).toList := by decide
  have htwo : ∀ p, Text.IsWord ((saying 1 [.str "a", .str "b)\n"]).headAt p).toList := by decide
  refine ⟨(dump_eq_iff hwords hone).1.1 rfl, fun h => ?_⟩
  have hargs := ((dump_eq_iff hwords htwo).1.1 h).content_eq 1 _ _ rfl rfl
  exact absurd (congrArg List.length hargs.2) (by decide)

end Graph

end TermGraph
