import TermGraph.Proofs.Graph.Mirror
import TermGraph.Proofs.Pass.Visit

/-!
Rules that only build. A template says which records to append, each from constant literals, literals
of the original, results of its arguments and records appended before, and which of these is the
result. It is chosen by the head of the original and by its arguments with the nodes left out. Such a
rule is blind to where records stand: over a graph and over what is left of it without some of its
records it does the same, and so does the default rule.
-/

namespace TermGraph

/-- An argument that is no node. -/
abbrev Literal := Datum String Empty

/-- What a template can refer to: a literal, an argument of the original that is one, the result of
an argument, and one of the records built before. -/
inductive Part where
  | const (v : Literal)
  | original (k : Nat)
  | rewritten (k : Nat)
  | built (k : Nat)

/-- Records to append in turn, the result, which is the original node unless it is said, and the
error if something referred to is not there. -/
structure Template where
  records : List (String × List Part)
  result : Option Part
  missing : Part → Error

variable {σ C : Type}

/-- What is referred to, if it is there. -/
def Part.term? (x : Expr) (args new : List (Term C)) : Part → Option (Term C)
  | .const v => some (.value (v.mapNode Empty.elim))
  | .original k => (x.args[k]?.filter fun v => !v.isNode).map .value
  | .rewritten k => args[k]?
  | .built k => new[k]?

namespace Template

/-- What is referred to, as a result. -/
def term (t : Template) (x : Expr) (args new : List (Term C)) (part : Part) :
    Except Error (Term C) :=
  match part.term? x args new with
  | some u => .ok u
  | none => .error (t.missing part)

/-- What is referred to, as an argument. -/
def value (t : Template) (x : Expr) (args new : List (Term C)) (part : Part) : Except Error Value :=
  match (part.term? x args new).bind Term.value? with
  | some v => .ok v
  | none => .error (t.missing part)

/-- Appends records after those that are new already, and gives all of them. -/
def build (t : Template) (x : Expr) (args : List (Term C)) :
    List (String × List Part) → List (Term C) → Action σ (List (Term C))
  | [], new => return new
  | (head, parts) :: records, new => do
    let vs ← Routine.lift (parts.mapM (t.value x args new))
    let n ← Routine.append head vs
    t.build x args records (new ++ [.node n])

/-- Does what the template says. -/
def run (t : Template) (x : Expr) (args : List (Term C)) : Action σ (Term C) := do
  let new ← t.build x args t.records []
  match t.result with
  | none => return .node x.node
  | some part => Routine.lift (t.term x args new part)

/-- The rule that follows the template for the head and the literals of the original. -/
def rule (shape : String → List (Datum String Unit) → Template) : Rule σ C := fun x args =>
  (shape x.head (x.args.map (Datum.mapNode fun _ => ()))).run x args

end Template

/-! ### Corresponding terms -/

variable {kept : List Nat} {i j : Nat} {t u : Term C} {v w : Value} {x y : Expr}
  {args args' new new' : List (Term C)} {s : σ} {g g' : Graph}

/-- The same literal as terms, or corresponding nodes. -/
inductive MirroredTerm (kept : List Nat) (i j : Nat) : Term C → Term C → Prop
  | value {v w : Value} : Mirrored kept i j v w → MirroredTerm kept i j (.value v) (.value w)

/-- Two expressions with corresponding nodes and arguments. -/
structure MirroredExpr (kept : List Nat) (i j : Nat) (x y : Expr) : Prop where
  node : Mirrored kept i j (.node x.node) (.node y.node)
  head : x.head = y.head
  args : List.Forall₂ (Mirrored kept i j) x.args y.args

theorem MirroredTerm.longer (h : MirroredTerm kept i j t u) (more : List Nat) :
    MirroredTerm (kept ++ more) i j t u := by
  cases h with
  | value h => exact .value (h.longer more)

theorem MirroredTerm.mem_nodes (h : MirroredTerm kept i j t u) (hg : Graph.Mirrors kept i j g g')
    {m : Node} (hm : t.node? = some m) : m ∈ g.nodes := by
  cases h with
  | value hvw =>
    cases hvw with
    | node hk =>
      cases hm
      exact (hg.mem_nodes (.node hk)).1
    | _ => cases hm

theorem MirroredExpr.longer (h : MirroredExpr kept i j x y) (more : List Nat) :
    MirroredExpr (kept ++ more) i j x y :=
  ⟨h.node.longer more, h.head, h.args.imp fun _ _ hv => hv.longer more⟩

theorem mirrored_literal (v : Literal) :
    Mirrored kept i j (v.mapNode Empty.elim) (v.mapNode Empty.elim) := by
  cases v with
  | int k => exact .int k
  | bool b => exact .bool b
  | str s => exact .str s
  | node n => exact n.elim

/-- With the nodes left out, corresponding arguments are the same. -/
theorem Mirrored.blank_eq (h : Mirrored kept i j v w) :
    w.mapNode (fun _ => ()) = v.mapNode fun _ => () := by cases h <;> rfl

/-- Unchanged in the one graph, unchanged in the other. -/
theorem changed_eq_of_mirrored (hkept : kept.Nodup)
    (hx : List.Forall₂ (Mirrored kept i j) x.args y.args)
    (hargs : List.Forall₂ (MirroredTerm kept i j) args args') :
    y.changed args' = x.changed args := by
  have hnodes : args.map Term.node? = x.args.map Datum.node?
      ↔ args'.map Term.node? = y.args.map Datum.node? := by
    generalize x.args = vs, y.args = ws at hx
    induction hargs generalizing vs ws with
    | nil => cases hx <;> simp
    | cons ht _ ih =>
      cases hx with
      | nil => simp
      | cons hv hvs =>
        cases ht with
        | value hw =>
          simp only [List.map_cons, List.cons.injEq, Term.node?]
          rw [hw.node?_eq_iff hkept hv, ih _ _ hvs]
  rw [Expr.changed, Expr.changed, Bool.eq_iff_iff, bne_iff_ne, bne_iff_ne, ne_eq, ne_eq, hnodes]

/-! ### Rules that are blind -/

/-- What two runs that end well come to in step: the same state, graphs that correspond with more
being kept, and results that correspond. -/
def StepsOn {α β : Type} (kept : List Nat) (i j : Nat) (R : List Nat → α → β → Prop)
    (a : α × σ × Graph) (b : β × σ × Graph) : Prop :=
  b.2.1 = a.2.1 ∧ ∃ more, Graph.Mirrors (kept ++ more) i j a.2.2 b.2.2 ∧ R (kept ++ more) a.1 b.1

/-- Two runs fail with the same error, or end well in step. -/
def InStep {α β : Type} (kept : List Nat) (i j : Nat) (R : List Nat → α → β → Prop)
    (a : Except Error α × σ × Graph) (b : Except Error β × σ × Graph) : Prop :=
  Routine.Agree (StepsOn kept i j R) a b

namespace InStep

variable {α β γ δ : Type} {R : List Nat → α → β → Prop} {R' : List Nat → γ → δ → Prop}

theorem pure {r : α} {r' : β} (hg : Graph.Mirrors kept i j g g') (hr : R kept r r') :
    InStep kept i j R (Routine.run (Pure.pure r : Action σ α) s g)
      (Routine.run (Pure.pure r' : Action σ β) s g') := by
  refine Routine.Agree.ok ⟨rfl, [], ?_⟩
  rw [List.append_nil]
  exact ⟨hg, hr⟩

theorem lift {r : Except Error α} {r' : Except Error β} (hg : Graph.Mirrors kept i j g g')
    (hr : Routine.Alike (R kept) r r') :
    InStep kept i j R (Routine.run (Routine.lift r : Action σ α) s g)
      (Routine.run (Routine.lift r' : Action σ β) s g') := by
  refine Routine.Agree.lift hr fun x y hxy => ⟨rfl, [], ?_⟩
  rw [List.append_nil]
  exact ⟨hg, hxy⟩

theorem append {vs ws : List Value} (hg : Graph.Mirrors kept i j g g') (head : String)
    (hvs : List.Forall₂ (Mirrored kept i j) vs ws) :
    InStep kept i j (fun kept n m => Mirrored kept i j (.node n) (.node m))
      (Routine.run (Routine.append head vs : Action σ Node) s g)
      (Routine.run (Routine.append head ws : Action σ Node) s g') := by
  obtain ⟨g₁, g₁', happend, happend', hg₁, hnode⟩ := hg.append head hvs
  rw [Routine.run_append, Routine.run_append, happend, happend']
  exact Routine.Agree.ok ⟨rfl, [g.size], hg₁, hnode⟩

theorem bind {a : Action σ α} {a' : Action σ β} {f : α → Action σ γ} {f' : β → Action σ δ}
    (h : InStep kept i j R (Routine.run a s g) (Routine.run a' s g'))
    (hf : ∀ more r r' s g g', Graph.Mirrors (kept ++ more) i j g g' → R (kept ++ more) r r' →
      InStep (kept ++ more) i j R' (Routine.run (f r) s g) (Routine.run (f' r') s g')) :
    InStep kept i j R' (Routine.run (a >>= f) s g) (Routine.run (a' >>= f') s g') := by
  refine Routine.Agree.bind h fun r s₁ g₁ r' s₁' g₁' ⟨hs, more, hg, hr⟩ => ?_
  cases hs
  refine (hf more r r' s₁ g₁ g₁' hg hr).mono fun b b' ⟨hs, more', hg, hb⟩ => ⟨hs, more ++ more', ?_⟩
  rw [← List.append_assoc]
  exact ⟨hg, hb⟩

end InStep

/-- The rule does the same over a graph and over what is left of it without some of its records. -/
def Rule.Blind (rule : Rule σ C) : Prop :=
  ∀ ⦃kept : List Nat⦄ ⦃i j : Nat⦄ ⦃g g' : Graph⦄ ⦃x y : Expr⦄ ⦃args args' : List (Term C)⦄ (s : σ),
    Graph.Mirrors kept i j g g' → MirroredExpr kept i j x y →
    List.Forall₂ (MirroredTerm kept i j) args args' →
    InStep kept i j (fun kept => MirroredTerm kept i j) (Routine.run (rule x args) s g)
      (Routine.run (rule y args') s g')

theorem exists_values (h : List.Forall₂ (MirroredTerm kept i j) args args') :
    ∃ vs ws, args.mapM Term.value? = some vs ∧ args'.mapM Term.value? = some ws
      ∧ List.Forall₂ (Mirrored kept i j) vs ws := by
  induction h with
  | nil => exact ⟨[], [], rfl, rfl, .nil⟩
  | cons ht _ ih =>
    obtain ⟨vs, ws, hvs, hws, hvws⟩ := ih
    cases ht with
    | @value v w hvw =>
      refine ⟨v :: vs, w :: ws, ?_, ?_, .cons hvw hvws⟩
      · rw [List.mapM_cons, hvs]
        rfl
      · rw [List.mapM_cons, hws]
        rfl

/-- The default rule does not look where records stand. -/
theorem blind_rebuild : Rule.Blind (fun x args => rebuild x args (x.changed args) : Rule σ C) := by
  intro kept i j g g' x y args args' s hg hx hargs
  obtain ⟨vs, ws, hvs, hws, hvws⟩ := exists_values hargs
  dsimp only [rebuild]
  rw [changed_eq_of_mirrored hg.nodup hx.args hargs, hvs, hws, ← hx.head]
  split
  · dsimp only
    rw [map_eq_pure_bind, map_eq_pure_bind]
    exact .bind (.append hg _ hvws) fun _ _ _ _ _ _ hg hnode => .pure hg (.value hnode)
  · exact .pure hg (.value hx.node)

/-! ### Templates are blind -/

theorem Part.rel_term? (hx : MirroredExpr kept i j x y)
    (hargs : List.Forall₂ (MirroredTerm kept i j) args args')
    (hnew : List.Forall₂ (MirroredTerm kept i j) new new') (part : Part) :
    Option.Rel (MirroredTerm kept i j) (part.term? x args new) (part.term? y args' new') := by
  cases part with
  | const v => exact .some (.value (mirrored_literal v))
  | rewritten k => exact rel_getElem?_of_forall₂ hargs k
  | built k => exact rel_getElem?_of_forall₂ hnew k
  | original k =>
    have hk := rel_getElem?_of_forall₂ hx.args k
    rw [term?, term?]
    generalize x.args[k]? = v, y.args[k]? = w at hk
    cases hk with
    | none => exact .none
    | some hvw =>
      simp only [Option.filter_some, hvw.isNode_eq]
      split
      · exact .some (.value hvw)
      · exact .none

namespace Template

variable (t : Template) (hx : MirroredExpr kept i j x y)
  (hargs : List.Forall₂ (MirroredTerm kept i j) args args')
include hx hargs

theorem alike_term (hnew : List.Forall₂ (MirroredTerm kept i j) new new') (part : Part) :
    Routine.Alike (MirroredTerm kept i j) (t.term x args new part) (t.term y args' new' part) := by
  have hrel := part.rel_term? hx hargs hnew
  rw [term, term]
  generalize part.term? x args new = u, part.term? y args' new' = u' at hrel
  cases hrel with
  | none => exact .error
  | some h => exact .ok h

theorem alike_value (hnew : List.Forall₂ (MirroredTerm kept i j) new new') (part : Part) :
    Routine.Alike (Mirrored kept i j) (t.value x args new part) (t.value y args' new' part) := by
  have hrel := part.rel_term? hx hargs hnew
  rw [value, value]
  generalize part.term? x args new = u, part.term? y args' new' = u' at hrel
  cases hrel with
  | none => exact .error
  | some h =>
    cases h with
    | value h => exact .ok h

end Template

theorem Template.agree_build (t : Template) (records : List (String × List Part))
    (hg : Graph.Mirrors kept i j g g') (hx : MirroredExpr kept i j x y)
    (hargs : List.Forall₂ (MirroredTerm kept i j) args args')
    (hnew : List.Forall₂ (MirroredTerm kept i j) new new') :
    InStep kept i j (fun kept => List.Forall₂ (MirroredTerm kept i j))
      (Routine.run (t.build x args records new) s g)
      (Routine.run (t.build y args' records new') s g') := by
  induction records generalizing kept g g' new new' s with
  | nil => exact .pure hg hnew
  | cons record records ih =>
    obtain ⟨head, parts⟩ := record
    have hvalues : Routine.Alike (List.Forall₂ (Mirrored kept i j))
        (parts.mapM (t.value x args new)) (parts.mapM (t.value y args' new')) :=
      .mapM (Q := Eq) (fun part _ h => h ▸ t.alike_value hx hargs hnew part)
        (List.forall₂_same.2 fun _ _ => rfl)
    refine .bind (R := fun kept => List.Forall₂ (Mirrored kept i j)) (.lift hg hvalues)
      fun more vs ws s g g' hg hvs => ?_
    refine .bind (.append hg head hvs) fun more' n m s g g' hg hnode => ?_
    refine ih hg ((hx.longer _).longer _) ?_ ?_
    · exact hargs.imp fun _ _ h => (h.longer _).longer _
    · exact List.rel_append (hnew.imp fun _ _ h => (h.longer _).longer _) (.cons (.value hnode) .nil)

theorem Template.agree_run (t : Template) (hg : Graph.Mirrors kept i j g g')
    (hx : MirroredExpr kept i j x y) (hargs : List.Forall₂ (MirroredTerm kept i j) args args') :
    InStep kept i j (fun kept => MirroredTerm kept i j) (Routine.run (t.run x args) s g)
      (Routine.run (t.run y args') s g') := by
  refine .bind (t.agree_build t.records hg hx hargs .nil) fun more new new' s g g' hg hnew => ?_
  cases t.result with
  | none => exact .pure hg (.value (hx.node.longer more))
  | some part =>
    exact .lift hg (t.alike_term (hx.longer more) (hargs.imp fun _ _ h => h.longer more) hnew part)

/-- A rule that follows templates does not look where records stand. -/
theorem Template.blind_rule (shape : String → List (Datum String Unit) → Template) :
    Rule.Blind (rule shape : Rule σ C) := by
  intro kept i j g g' x y args args' s hg hx hargs
  have hblank : y.args.map (Datum.mapNode fun _ => ()) = x.args.map (Datum.mapNode fun _ => ()) := by
    have heq : List.Forall₂ (fun v w => w.mapNode (fun _ => ()) = v.mapNode fun _ => ())
        x.args y.args := hx.args.imp fun _ _ h => h.blank_eq
    exact map_eq_of_forall₂ heq
  rw [rule, rule, hblank, ← hx.head]
  exact (shape x.head _).agree_run hg hx hargs

end TermGraph
