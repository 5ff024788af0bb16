import TermGraph.Pass.Basic
import TermGraph.Proofs.Graph.Append
import TermGraph.Proofs.Graph.Reach
import TermGraph.Proofs.Routine

/-!
Meanings of nodes and terms, and rules that keep them. A meaning is compositional: that of a node is
made from its head and from the meanings of its arguments. So a node means the same in every
extension of its graph, and appending a head with arguments that mean the same gives a node that
means the same. The latter is why `rebuild` is a sound rule.
-/

namespace TermGraph

/-- What literals mean, what a pass's own values mean, and what a head makes of its arguments. -/
structure Meaning (C M : Type) where
  int : Int64 → M
  bool : Bool → M
  str : String → M
  custom : C → M
  node : String → List M → M

namespace Meaning

variable {C M : Type} (I : Meaning C M) {g g' : Graph}

/-- The meaning of an argument that holds a meaning in place of a node. -/
def ofDatum : Datum String M → M
  | .int i => I.int i
  | .bool b => I.bool b
  | .str s => I.str s
  | .node m => m

/-- The meaning of the node at a position. -/
def ofPosition (g : Graph) (p : Fin g.size) : M :=
  g.fold (fun e args => I.node e.head (args.map I.ofDatum)) p

/-- The meaning of a node of the graph; other nodes have none. -/
def ofNode? (g : Graph) (n : Node) : Option M := (g.locate n).toOption.map (I.ofPosition g)

/-- The meaning of an argument. -/
def ofValue? (g : Graph) : Value → Option M
  | .int i => some (I.int i)
  | .bool b => some (I.bool b)
  | .str s => some (I.str s)
  | .node n => I.ofNode? g n

/-- The meaning of a term. -/
def ofTerm? (g : Graph) : Term C → Option M
  | .value v => I.ofValue? g v
  | .custom c => some (I.custom c)

theorem ofNode?_node {p : Nat} (hp : p < g.size) :
    I.ofNode? g (g.node p) = some (I.ofPosition g ⟨p, hp⟩) := by
  rw [ofNode?, Graph.locate_node hp]
  rfl

/-- The arguments of a node mean something, and the node what its head makes of that. -/
theorem ofPosition_eq (p : Fin g.size) : ∃ ms,
    (g.exprAt p).args.map (I.ofValue? g) = ms.map some
      ∧ I.ofPosition g p = I.node (g.exprAt p).head ms := by
  refine ⟨((g.argsAt p).map (Datum.mapNode (I.ofPosition g))).map I.ofDatum, ?_, ?_⟩
  · rw [g.exprAt_args, List.map_map, List.map_map, List.map_map]
    refine List.map_congr_left fun d _ => ?_
    cases d with
    | node q => exact I.ofNode?_node q.isLt
    | _ => rfl
  · exact Graph.fold_eq _ p

/-- Nodes with the same head and arguments that mean the same mean the same. -/
theorem ofPosition_congr {p : Fin g.size} {q : Fin g'.size}
    (hhead : (g.exprAt p).head = (g'.exprAt q).head)
    (hargs : (g.exprAt p).args.map (I.ofValue? g) = (g'.exprAt q).args.map (I.ofValue? g')) :
    I.ofPosition g p = I.ofPosition g' q := by
  obtain ⟨ms, hms, hp⟩ := I.ofPosition_eq p
  obtain ⟨ms', hms', hq⟩ := I.ofPosition_eq q
  have hsome : ms.map some = ms'.map some := hms.symm.trans (hargs.trans hms')
  have : ms = ms' := (List.map_inj_right fun _ _ => Option.some.inj).1 hsome
  rw [hp, hq, hhead, this]

/-! ### Growth -/

section Growth

variable {I} {m : M} (h : g.Extends g')
include h

theorem ofNode?_of_extends {n : Node} (hn : I.ofNode? g n = some m) :
    I.ofNode? g' n = some m := by
  unfold ofNode? at hn ⊢
  cases hp : g.locate n with
  | error e => rw [hp] at hn; cases hn
  | ok p =>
    rw [hp] at hn
    rw [h.locate_eq hp]
    exact (congrArg some (h.fold_eq _ p)).trans hn

theorem ofValue?_of_extends {v : Value} (hv : I.ofValue? g v = some m) :
    I.ofValue? g' v = some m := by
  cases v with
  | node n => exact ofNode?_of_extends h hv
  | _ => exact hv

theorem ofTerm?_of_extends {t : Term C} (ht : I.ofTerm? g t = some m) :
    I.ofTerm? g' t = some m := by
  cases t with
  | value v => exact ofValue?_of_extends h ht
  | custom c => exact ht

theorem map_ofValue?_of_extends {vs : List Value} {ms : List M}
    (hvs : vs.map (I.ofValue? g) = ms.map some) : vs.map (I.ofValue? g') = ms.map some := by
  refine (List.map_congr_left fun v hv => ?_).trans hvs
  have hmem : I.ofValue? g v ∈ ms.map some := hvs ▸ List.mem_map_of_mem hv
  obtain ⟨m, -, hm⟩ := List.mem_map.1 hmem
  rw [← hm]
  exact ofValue?_of_extends h hm.symm

end Growth

end Meaning

/-! ### Rules that keep the meaning -/

section Sound

variable {σ C M : Type}

/-- On a node of the head, and given results that mean the same as its arguments, the rule comes to
a term that means the same as the node, if it comes to any. -/
def Rule.Sound (I : Meaning C M) (head : String) (rule : Rule σ C) : Prop :=
  ∀ (g : Graph) (p : Fin g.size) (args : List (Term C)) (s : σ) (t : Term C) (s' : σ) (g' : Graph),
    (g.exprAt p).head = head →
    args.map (I.ofTerm? g) = (g.exprAt p).args.map (I.ofValue? g) →
    Routine.run (rule (g.exprAt p) args) s g = (.ok t, s', g') →
    I.ofTerm? g' t = some (I.ofPosition g p)

/-- The same for a fallback, which is told the truth about changes of arguments. -/
def Fallback.Sound (I : Meaning C M) (head : String) (f : Fallback σ C) : Prop :=
  Rule.Sound I head fun e args => f e args (e.changed args)

theorem args_of_mapM_value? {args : List (Term C)} : ∀ {vs : List Value},
    args.mapM Term.value? = some vs → args = vs.map .value := by
  induction args with
  | nil => intro vs h; cases h; rfl
  | cons t args ih =>
    intro vs h
    rw [List.mapM_cons] at h
    cases t with
    | custom c => cases h
    | value v =>
      cases hargs : args.mapM Term.value? with
      | none => rw [hargs] at h; cases h
      | some ws =>
        rw [hargs] at h
        cases h
        rw [ih hargs]
        rfl

/-- Rebuilding keeps every meaning. -/
theorem rebuild_sound (I : Meaning C M) (head : String) :
    Fallback.Sound I head (rebuild : Fallback σ C) := by
  intro g p args s t s' g' _ hargs hrun
  dsimp only [rebuild] at hrun
  split at hrun
  · split at hrun
    · next vs hvs =>
      rw [args_of_mapM_value? hvs, List.map_map] at hargs
      rw [Routine.run_map, Routine.run_append] at hrun
      obtain ⟨⟨e | n, g₁⟩, happ⟩ : ∃ r, g.append (g.exprAt p).head vs = r := ⟨_, rfl⟩
      · rw [happ] at hrun
        cases hrun
      rw [happ] at hrun
      cases hrun
      have hext := Graph.extends_of_append happ
      obtain ⟨q, rfl, hhead, hq⟩ := Graph.exprAt_of_append happ
      obtain ⟨ms, hms, -⟩ := I.ofPosition_eq p
      have hnew : I.ofPosition g₁ q = I.ofPosition g p := by
        refine I.ofPosition_congr hhead ?_
        rw [hq, hms]
        exact Meaning.map_ofValue?_of_extends hext (hargs.trans hms)
      exact (I.ofNode?_node q.isLt).trans (congrArg some hnew)
    · cases hrun
  · cases hrun
    exact I.ofNode?_node p.isLt

end Sound

end TermGraph
