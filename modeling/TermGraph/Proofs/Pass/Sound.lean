import TermGraph.Proofs.Pass.Meaning
import TermGraph.Proofs.Pass.Visit

/-!
Sound rules make a sound pass. The invariant is that every result remembered means the same as its
node. A visit keeps it: the results of the arguments mean the same as the arguments, so the rule
that applies comes to a term that means the same as the node, and the notes left in the graph change
no meaning. From visits it carries over to runs, also to runs that fail, and to all that may happen
to the graph in between.
-/

namespace TermGraph

variable {σ C M : Type} {I : Meaning C M}

/-- Every result means the same as the node whose result it is. -/
def Memo.Faithful (memo : Memo (Term C)) (I : Meaning C M) (g : Graph) : Prop :=
  ∀ (n : Node) (t : Term C), memo[n]? = some t → ∃ m, I.ofNode? g n = some m ∧ I.ofTerm? g t = some m

namespace Memo.Faithful

variable {memo : Memo (Term C)} {g g' : Graph}

theorem of_extends (hf : memo.Faithful I g) (h : g.Extends g') : memo.Faithful I g' := by
  intro n t ht
  obtain ⟨m, hn, hm⟩ := hf n t ht
  exact ⟨m, Meaning.ofNode?_of_extends h hn, Meaning.ofTerm?_of_extends h hm⟩

theorem insert {n : Node} {t : Term C} {m : M} (hf : memo.Faithful I g)
    (hn : I.ofNode? g n = some m) (ht : I.ofTerm? g t = some m) :
    Memo.Faithful (Std.TreeMap.insert memo n t) I g := by
  intro k u hu
  rw [Std.TreeMap.getElem?_insert] at hu
  split at hu
  · next hk =>
    cases Std.LawfulEqCmp.compare_eq_iff_eq.1 hk
    cases hu
    exact ⟨m, hn, ht⟩
  · exact hf k u hu

/-- The results of arguments mean the same as the arguments. -/
theorem results {xs : List Value} {args : List (Term C)} (hf : memo.Faithful I g)
    (h : xs.mapM (Pass.resultOf memo) = .ok args) :
    args.map (I.ofTerm? g) = xs.map (I.ofValue? g) := by
  refine map_eq_of_mapM_ok (fun v _ t ht => ?_) h
  cases v with
  | node n =>
    dsimp only [Pass.resultOf, Memo.value] at ht
    split at ht
    · next u hu =>
      cases ht
      obtain ⟨m, hn, hm⟩ := hf n _ hu
      exact hm.trans hn.symm
    · cases ht
  | _ => cases ht; rfl

end Memo.Faithful

namespace Pass

/-- Whatever rule applies is sound. -/
structure Sound (p : Pass σ C) (I : Meaning C M) : Prop where
  rules : ∀ (head : String) (rule : Rule σ C), p.rules[head]? = some rule → Rule.Sound I head rule
  fallback : ∀ (head : String) (f : Fallback σ C), p.rules[head]? = none → p.fallback = some f →
    Fallback.Sound I head f

/-- What visits keep. -/
structure Keeps (I : Meaning C M) (p : Pass σ C) (g : Graph) : Prop where
  sound : p.Sound I
  faithful : p.memo.Faithful I g

variable {p p' : Pass σ C} {g g' : Graph}

theorem Sound.ruleFor (h : p.Sound I) (x : Expr) : Rule.Sound I x.head (p.ruleFor x) := by
  unfold Pass.ruleFor
  split
  · next rule hrule => exact h.rules x.head rule hrule
  · next hrule =>
    cases hf : p.fallback with
    | none => exact rebuild_sound I x.head
    | some f => exact h.fallback x.head f hrule hf

namespace Ruled

variable {n : Node} {r : Except Error (Term C)} {t : Term C} {s : σ} {x : Expr}
  {args : List (Term C)}

/-- The rule's term means the same as the node. -/
theorem means (h : p.Ruled g n (.ok t) s g' x args) (hk : p.Keeps I g) :
    ∃ m, I.ofNode? g n = some m ∧ I.ofTerm? g' t = some m := by
  obtain ⟨q, hq, rfl⟩ := ok_of_map_ok h.read
  refine ⟨I.ofPosition g q, ?_, ?_⟩
  · rw [Graph.eq_node_of_locate hq]
    exact I.ofNode?_node q.isLt
  · exact hk.sound.ruleFor _ g q args p.state t s g' rfl (hk.faithful.results h.results) h.called

/-- With the rule's term as the node's result the results still mean the same as their nodes, also
after more has been appended. -/
theorem faithful {g'' : Graph} (h : p.Ruled g n (.ok t) s g' x args) (hk : p.Keeps I g)
    (hg : g'.Extends g'') : Memo.Faithful (Std.TreeMap.insert p.memo n t) I g'' := by
  obtain ⟨m, hn, ht⟩ := h.means hk
  have hext := h.extends_graph.trans hg
  exact (hk.faithful.of_extends hext).insert (Meaning.ofNode?_of_extends hext hn)
    (Meaning.ofTerm?_of_extends hg ht)

end Ruled

theorem Keeps.visit (n : Node) (p : Pass σ C) (g : Graph) (hk : p.Keeps I g) :
    (Routine.run (visit n) p g).2.1.Keeps I (Routine.run (visit n) p g).2.2 := by
  obtain ⟨r, hr⟩ : ∃ r, Routine.run (Pass.visit n) p g = r := ⟨_, rfl⟩
  have hv := visited p g n
  rw [hr] at hv ⊢
  have hsound : ∀ (memo : Memo (Term C)) (k : Nat) (s : σ),
      Sound { p with memo := memo, replaced := k, state := s } I :=
    fun _ _ _ => ⟨hk.sound.rules, hk.sound.fallback⟩
  cases hv with
  | known => exact hk
  | unread => exact hk
  | missing => exact hk
  | fails h => exact ⟨hsound .., hk.faithful.of_extends h.extends_graph⟩
  | plain h => exact ⟨hsound .., h.faithful hk (.refl _)⟩
  | replaced h => exact ⟨hsound .., h.faithful hk (.refl _)⟩
  | noted h _ _ _ hnote => exact ⟨hsound .., h.faithful hk (Graph.extends_of_append hnote)⟩
  | unnoted h _ _ _ hnote =>
    have hext := h.extends_graph.trans (Graph.extends_of_append hnote)
    exact ⟨hsound .., hk.faithful.of_extends hext⟩

theorem Keeps.walk (extent : Extent) (root : Node) (hk : p.Keeps I g) :
    (Routine.run (TermGraph.walk extent root Pass.visit) p g).2.1.Keeps I
      (Routine.run (TermGraph.walk extent root Pass.visit) p g).2.2 := by
  rw [Routine.run_walk]
  cases g.visits extent root with
  | error e => exact hk
  | ok order => exact Routine.run_forM_keeps Keeps.visit order p g hk

theorem Keeps.run (root : Node) (hk : p.Keeps I g) :
    (Routine.run (Pass.run root) p g).2.1.Keeps I (Routine.run (Pass.run root) p g).2.2 := by
  rw [run_run_snd]
  exact hk.walk .needed root

/-- A run that succeeds has found the root in the graph and gives the root's result. -/
theorem result_of_run {root : Node} {t : Term C} (h : Routine.run (run root) p g = (.ok t, p', g')) :
    (∃ q, g.locate root = .ok q) ∧ p'.memo[root]? = some t := by
  rw [run_run, Routine.run_walk, Graph.visits, Graph.reachable, Graph.closure_singleton] at h
  cases hq : g.locate root with
  | error e =>
    rw [hq] at h
    cases h
  | ok q =>
    refine ⟨⟨q, rfl⟩, ?_⟩
    rw [hq] at h
    dsimp only [Except.map] at h
    split at h
    · cases h
    · split at h
      · next ht =>
        cases h
        exact ht
      · next g₁ _ _ _ =>
        cases hhead : g₁.head root <;> rw [hhead] at h <;> cases h

/-- What a pass and a graph can have become: rules were set, the graph has grown, nodes were visited,
and there were runs, whether or not they succeeded. -/
inductive After (I : Meaning C M) (p₀ : Pass σ C) (g₀ : Graph) : Pass σ C → Graph → Prop
  | start : After I p₀ g₀ p₀ g₀
  | on {p : Pass σ C} {g : Graph} {head : String} {rule : Rule σ C} :
    After I p₀ g₀ p g → Rule.Sound I head rule → After I p₀ g₀ (p.on head rule) g
  | grown {p : Pass σ C} {g g' : Graph} : After I p₀ g₀ p g → g.Extends g' → After I p₀ g₀ p g'
  | visited {p : Pass σ C} {g : Graph} (n : Node) : After I p₀ g₀ p g →
    After I p₀ g₀ (Routine.run (visit n) p g).2.1 (Routine.run (visit n) p g).2.2
  | ran {p : Pass σ C} {g : Graph} (root : Node) : After I p₀ g₀ p g →
    After I p₀ g₀ (Routine.run (run root) p g).2.1 (Routine.run (run root) p g).2.2

theorem After.keeps {p₀ : Pass σ C} {g₀ : Graph} (hempty : p₀.memo = ∅) (hsound : p₀.Sound I)
    (h : After I p₀ g₀ p g) : p.Keeps I g := by
  induction h with
  | start =>
    refine ⟨hsound, fun n t ht => ?_⟩
    rw [hempty] at ht
    cases ht
  | @on p g head rule _ hrule ih =>
    refine ⟨⟨fun head' rule' hr => ?_, fun head' f hr => ?_⟩, ih.faithful⟩
    · rw [Pass.on, Std.TreeMap.getElem?_insert] at hr
      split at hr
      · next he =>
        cases Std.LawfulEqCmp.compare_eq_iff_eq.1 he
        cases hr
        exact hrule
      · exact ih.sound.rules head' rule' hr
    · rw [Pass.on, Std.TreeMap.getElem?_insert] at hr
      split at hr
      · cases hr
      · exact ih.sound.fallback head' f hr
  | grown _ hg ih => exact ⟨ih.sound, ih.faithful.of_extends hg⟩
  | visited n _ ih => exact ih.visit n _ _
  | ran root _ ih => exact ih.run root

/-- Local soundness is global: if a pass starts without results and all its rules are sound, then
every result it ever has means the same as the node whose result it is, and a run that succeeds gives
a term that means the same as the root. -/
theorem run_sound (I : Meaning C M) {p₀ : Pass σ C} {g₀ : Graph} (hempty : p₀.memo = ∅)
    (hsound : p₀.Sound I) (h : After I p₀ g₀ p g) :
    p.memo.Faithful I g ∧ ∀ (root : Node) (t : Term C) (p' : Pass σ C) (g' : Graph),
      Routine.run (run root) p g = (.ok t, p', g') →
        (∃ m, I.ofNode? g root = some m ∧ I.ofTerm? g' t = some m) ∧ p'.memo.Faithful I g' := by
  have hk := h.keeps hempty hsound
  refine ⟨hk.faithful, fun root t p' g' hrun => ?_⟩
  obtain ⟨⟨q, hq⟩, ht⟩ := result_of_run hrun
  have hk' := hk.run root
  have hext := Routine.extends_run (run root) p g
  rw [hrun] at hk' hext
  obtain ⟨m, hn, hm⟩ := hk'.faithful root t ht
  refine ⟨⟨m, ?_, hm⟩, hk'.faithful⟩
  have hroot := I.ofNode?_node q.isLt
  rw [← Graph.eq_node_of_locate hq] at hroot
  rw [Meaning.ofNode?_of_extends hext hroot] at hn
  rw [hroot, hn]

/-- Numbers are themselves, `id` means its argument, and every other head means a sum. -/
def sums : Meaning Empty Int where
  int i := i.toInt
  bool _ := 0
  str _ := 0
  custom c := c.elim
  node head ms := if head = "id" then ms.headD 0 else ms.foldr (· + ·) 0

/-- A pass that replaces an `id` by its argument. -/
def dropId : Pass Unit Empty :=
  Pass.on { name := "drop", state := () } "id" fun _ args =>
    match args with
    | [t] => pure t
    | _ => throw (.unknownHead "id")

theorem dropId_sound : dropId.Sound sums := by
  refine ⟨fun head rule hr => ?_, fun _ _ _ hf => by cases hf⟩
  rw [dropId, Pass.on, Std.TreeMap.getElem?_insert] at hr
  split at hr
  · next he =>
    cases Std.LawfulEqCmp.compare_eq_iff_eq.1 he
    cases hr
    intro g p args s t s' g' hhead hargs hrun
    obtain ⟨ms, hms, hp⟩ := sums.ofPosition_eq p
    rw [hms] at hargs
    match args, hrun with
    | [u], hrun =>
      cases hrun
      rcases ms with _ | ⟨m, _ | ⟨m', ms⟩⟩
      · cases hargs
      · rw [hp, hhead]
        exact List.head_eq_of_cons_eq hargs
      · have := congrArg List.length hargs
        simp at this
  · cases hr

/-- `(num 5)`, an `id` of it, and that one added to itself. -/
def twice : Graph :=
  let g := ((Graph.empty 0).append "num" [.int 5]).2
  let g := (g.append "id" [.node (g.node 0)]).2
  (g.append "add" [.node (g.node 1), .node (g.node 1)]).2

theorem run_dropId_twice : ∃ t p' g', Routine.run (run (twice.node 2)) dropId twice = (.ok t, p', g')
    ∧ (∃ m, sums.ofNode? twice (twice.node 2) = some m ∧ sums.ofTerm? g' t = some m)
    ∧ p'.memo.Faithful sums g' :=
  ⟨.node (twice.node 4), _, _, rfl,
    (run_sound sums rfl dropId_sound .start).2 (twice.node 2) _ _ _ rfl⟩

end Pass

end TermGraph
