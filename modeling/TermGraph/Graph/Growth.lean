import TermGraph.Script

/-!
Growth: one graph extends another if it has the same number and all the same records, perhaps
followed by more. Appending extends a graph, and so does whatever a script does to it. Main
statements: what a position stands for is the same in every extension, and a script's graph at its
end, or at its next question, extends the graph that it started from.
-/

namespace TermGraph

namespace Graph

/-- The second graph has the records of the first, and perhaps more. -/
structure Extends (g g' : Graph) : Prop where
  id_eq : g'.id = g.id
  text?_eq : ∀ k, k < g.atoms.size → g'.atoms.text? k = g.atoms.text? k
  record_eq : ∀ (p : Nat) (r : Record), g.records[p]? = some r → g'.records[p]? = some r

namespace Extends

variable {g g' g'' : Graph}

theorem refl (g : Graph) : g.Extends g := ⟨rfl, fun _ _ => rfl, fun _ _ h => h⟩

theorem size_le (h : g.Extends g') : g.size ≤ g'.size := by
  refine Nat.le_of_not_lt fun hlt => ?_
  have := h.record_eq g'.size _ (Array.getElem?_eq_getElem hlt)
  simp [size] at this

theorem atoms_size_le (h : g.Extends g') : g.atoms.size ≤ g'.atoms.size := by
  refine Nat.le_of_not_lt fun hlt => ?_
  have hk := h.text?_eq g'.atoms.size hlt
  simp only [Atoms.text?, Atoms.size] at hk hlt
  rw [Array.getElem?_eq_getElem hlt] at hk
  simp at hk

theorem trans (h : g.Extends g') (h' : g'.Extends g'') : g.Extends g'' :=
  ⟨h'.id_eq.trans h.id_eq,
    fun k hk => (h'.text?_eq k (Nat.lt_of_lt_of_le hk h.atoms_size_le)).trans (h.text?_eq k hk),
    fun p r hr => h'.record_eq p r (h.record_eq p r hr)⟩

theorem childrenAt_eq (h : g.Extends g') {p : Nat} (hp : p < g.size) :
    g'.childrenAt p = g.childrenAt p := by
  have hr := Array.getElem?_eq_getElem hp
  simp only [childrenAt, hr, h.record_eq p _ hr]

theorem text_eq (h : g.Extends g') {k : Nat} (hk : k < g.atoms.size) :
    g'.atoms.text k = g.atoms.text k := by
  simp only [Atoms.text, h.text?_eq k hk]

theorem node_eq (h : g.Extends g') (p : Nat) : g'.node p = g.node p := by
  simp only [node, h.id_eq]

/-- A record reads the same in every extension. -/
theorem expr?_eq (h : g.Extends g') {p : Nat} (hp : p < g.size) : g'.expr? p = g.expr? p := by
  have hp' : p < g'.size := Nat.lt_of_lt_of_le hp h.size_le
  have hr := Array.getElem?_eq_getElem hp
  have hrec : g'.record ⟨p, hp'⟩ = g.record ⟨p, hp⟩ := by
    have := h.record_eq p _ hr
    rw [Array.getElem?_eq_getElem hp'] at this
    exact Option.some.inj this
  have hfit := g.fits p _ hr
  simp only [expr?, hp, hp', dif_pos, exprAt, headAt, hrec, h.node_eq]
  have hhead : g'.atoms.text (g.record ⟨p, hp⟩).head = g.atoms.text (g.record ⟨p, hp⟩).head :=
    h.text_eq hfit.head_lt
  have hargs : (g.record ⟨p, hp⟩).args.map g'.value = (g.record ⟨p, hp⟩).args.map g.value :=
    List.map_congr_left fun s hs => by
      cases s with
      | str k => simp only [value, Datum.map, h.text_eq (hfit.token_lt k hs)]
      | node q => simp only [value, Datum.map, h.node_eq]
      | _ => rfl
  rw [hhead, hargs]

/-- A node of the graph is at the same position in every extension. -/
theorem locate_eq (h : g.Extends g') {n : Node} {p : Fin g.size} (hn : g.locate n = .ok p) :
    g'.locate n = .ok ⟨p, Nat.lt_of_lt_of_le p.isLt h.size_le⟩ := by
  have hp : p.val < g'.size := Nat.lt_of_lt_of_le p.isLt h.size_le
  rw [eq_node_of_locate hn]
  simp [locate, node, h.id_eq, hp]

end Extends

theorem extends_push (g : Graph) (head : String) (args : List (Datum String (Fin g.size))) :
    g.Extends (g.push head args) := by
  obtain ⟨id, atoms, records, ok, fits⟩ := g
  have hi := ok.internArgs args
  refine ⟨rfl, fun k hk => ?_, fun p r hr => ?_⟩
  · exact (Atoms.text?_intern_of_lt head (Nat.lt_of_lt_of_le hk hi.size_le)).trans
      (hi.text?_eq k hk)
  · have hp : p < records.size := (Array.getElem?_eq_some_iff.1 hr).1
    show (records.push _)[p]? = some r
    rw [Array.getElem?_push, if_neg (Nat.ne_of_lt hp)]
    exact hr

theorem size_push (g : Graph) (head : String) (args : List (Datum String (Fin g.size))) :
    (g.push head args).size = g.size + 1 := by
  obtain ⟨id, atoms, records, ok, fits⟩ := g
  exact Array.size_push _

/-- The new record reads as it was given. -/
theorem expr?_push (g : Graph) (head : String) (args : List (Datum String (Fin g.size))) :
    (g.push head args).expr? g.size
      = some ⟨g.node g.size, head, args.map (Datum.map (fun s => s) fun p => g.node p.val)⟩ := by
  have hs : g.size < (g.push head args).size := by rw [size_push]; exact Nat.lt_succ_self _
  simp only [expr?, hs, dif_pos, Option.some.injEq]
  obtain ⟨id, atoms, records, ok, fits⟩ := g
  have hi := ok.internArgs args
  have hr : (push ⟨id, atoms, records, ok, fits⟩ head args).record ⟨_, hs⟩
      = ⟨((atoms.internArgs args).2.intern head).1,
        (atoms.internArgs args).1.map (Datum.map (fun t => t) Fin.val)⟩ :=
    Array.getElem_push_eq
  have ht : (push ⟨id, atoms, records, ok, fits⟩ head args).atoms
      = ((atoms.internArgs args).2.intern head).2 := rfl
  refine Expr.mk.injEq .. |>.mpr ⟨rfl, ?_, ?_⟩
  · simp only [headAt, hr, ht, Atoms.text, hi.consistent.text?_intern, Option.getD_some]
  · simp only [hr, List.map_map]
    have h := congrArg (List.map (Datum.map (Option.getD · "") fun p => Node.mk id p.val)) hi.read
    simp only [List.map_map] at h
    refine Eq.trans (List.map_congr_left fun d hd => ?_) (h.trans (List.map_congr_left fun d _ => ?_))
    · cases d with
      | str k =>
        have := Atoms.text?_intern_of_lt head (hi.token_lt hd)
        simp only [Function.comp, value, Datum.map, ht, Atoms.text, this]
      | _ => rfl
    · cases d <;> rfl

theorem extends_append (g : Graph) (head : String) (args : List Value) :
    g.Extends (g.append head args).2 := by
  unfold append
  split
  · exact .refl g
  · exact extends_push g head _

end Graph

namespace Script

variable {Q : Type} {A : Q → Type} {α : Type}

theorem extends_advance : ∀ (s : Script Q A α) (g : Graph), g.Extends (s.advance g).2
  | .done _, g => .refl g
  | .look next, g => extends_advance (next g) g
  | .append head args next, g =>
    (g.extends_append head args).trans
      (extends_advance (next (g.append head args).1) (g.append head args).2)
  | .ask _ _, g => .refl g

theorem extends_run : ∀ (s : Silent α) (g : Graph), g.Extends (s.run g).2
  | .done _, g => .refl g
  | .look next, g => extends_run (next g) g
  | .append head args next, g =>
    (g.extends_append head args).trans
      (extends_run (next (g.append head args).1) (g.append head args).2)
  | .ask q _, _ => q.elim

end Script

/-- Whatever an action does and however it ends, the graph only grows. -/
theorem Routine.extends_run {σ α : Type} (a : Action σ α) (s : σ) (g : Graph) :
    g.Extends (a.run s g).2.2 :=
  Script.extends_run (a s) g

end TermGraph
