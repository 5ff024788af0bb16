import TermGraph.Proofs.Evaluation.Turn
import TermGraph.Proofs.Session.Passes

/-!
Evaluation with an honest handler. The nodes on the work stack, those that waiting handlers hold and
those in the values so far are known at every turn, for a turn adds only what the handler asks for
or gives back. So no check of a request meets a dangling node.
-/

namespace TermGraph

variable {σ T : Type} [Confined σ] [Confined T] {K : Set Node}

namespace Graph

variable {g : Graph}

theorem Covers.confined_contains (hg : g.Covers K) {root target : Node} (hroot : root ∈ K)
    (htarget : target ∈ K) {e : Error} (h : g.contains root target = .error e) : confined K e :=
  hg.confined_error (q := .contains root target)
    (List.forall_mem_cons.2 ⟨hroot, List.forall_mem_singleton.2 htarget⟩) (congrArg refusal? h)

theorem Covers.confined_allows (hg : g.Covers K) {n c : Node} (hn : n ∈ K) (hc : c ∈ K)
    (direct : List Node) : confined K (g.allows n direct c) := by
  unfold allows
  split
  · trivial
  · split
    · exact ⟨hn, hc⟩
    · split
      · trivial
      · exact ⟨hn, hc⟩
      · next e he => exact hg.confined_contains hn hc he

theorem Covers.confined_allowsAll (hg : g.Covers K) {n : Node} {cs : List Node} (hn : n ∈ K)
    (hcs : ∀ c ∈ cs, c ∈ K) : confined K (g.allowsAll n cs) := by
  unfold allowsAll
  cases hd : g.children n with
  | error e =>
    exact hg.confined_error (q := .children n) (List.forall_mem_singleton.2 hn)
      (congrArg refusal? hd)
  | ok direct => exact confined_forM fun c hc => hg.confined_allows hn (hcs c hc) direct

end Graph

/-! ### Turns -/

namespace Frame

instance : Confined (Frame σ T) where
  confined K
    | .start n => n ∈ K
    | .wait n w => n ∈ K ∧ confined K w.request ∧
        ∀ (a : w.request.Answer T × σ) (K' : Set Node), K ⊆ K' → confined K' a →
          (w.resume a).Honest K'
  mono {_ _ f} h hf := by
    cases f with
    | start n => exact h hf
    | wait n w => exact ⟨h hf.1, Confined.mono h hf.2.1, fun a _ hK => hf.2.2 a _ (h.trans hK)⟩

instance : Confined (Progress σ T) :=
  ⟨fun K p => confined K p.state ∧ confined K p.memo,
    fun h hp => ⟨Confined.mono h hp.1, Confined.mono h hp.2⟩⟩

variable {handler : Handler σ T}

theorem confined_pending {memo : Memo T} {n : Node} {w : Suspended σ T}
    (hw : confined K (wait n w)) : confined K (pending memo n w) := by
  intro f hf
  rcases List.mem_append.1 hf with hf | hf
  · obtain ⟨c, hc, rfl⟩ := List.mem_map.1 hf
    exact hw.2.1 c (List.mem_filter.1 hc).1
  · rw [List.mem_singleton.1 hf]
    exact hw

theorem confined_settle {g : Graph} (hg : g.Covers K) {n : Node} (hn : n ∈ K)
    (note : Except Error (Reply T) → Call T) {memo : Memo T} (hmemo : confined K memo)
    (calls : Array (Call T)) {halt : Halt σ T} (hhalt : confined K halt) :
    confined K (settle n note memo calls halt g) := by
  unfold settle
  split
  · exact ⟨List.forall_mem_nil _, hhalt.2, confined_insert hmemo hn hhalt.1⟩
  · exact ⟨hhalt.1, hhalt.2, hmemo⟩
  · next r s next =>
    obtain ⟨⟨hr, hs⟩, hnext⟩ := hhalt
    have hall := hg.confined_allowsAll hn hr
    split
    · exact ⟨confined_pending ⟨hn, hr, hnext⟩, hs, hmemo⟩
    · next e he =>
      rw [he] at hall
      exact ⟨hall, hs, hmemo⟩

omit [Confined σ] [Confined T] in
theorem graph_settle (n : Node) (note : Except Error (Reply T) → Call T) (memo : Memo T)
    (calls : Array (Call T)) (halt : Halt σ T) (g : Graph) :
    (settle n note memo calls halt g).2.graph = g := by
  unfold settle
  split
  · rfl
  · rfl
  · split <;> rfl

theorem confined_answer {memo : Memo T} (hmemo : confined K memo) :
    ∀ {r : Request}, confined K r → confined K (memo.answer r)
  | .one n, hr => confined_value hmemo (hr n (List.mem_singleton_self n))
  | .all _, hr => confined_mapM fun n hn => confined_value hmemo (hr n hn)

/-- A turn on an entry whose nodes are known leaves entries and progress whose nodes are known. -/
theorem confined_turn (hhandler : Routine.HonestFrom K handler) {f : Frame σ T} {p : Progress σ T}
    (hg : p.graph.Covers K) (hf : confined (p.graph.known K) f)
    (hp : confined (p.graph.known K) p) :
    confined ((f.turn handler p).2.graph.known K) (f.turn handler p) := by
  obtain ⟨g, s, memo, calls⟩ := p
  obtain ⟨hs, hmemo⟩ := hp
  -- a call runs on a graph that grows, and where the handler stands afterwards is known there
  have hcall : ∀ (c : Script (Request × σ) (fun q => q.1.Answer T × σ) (Except Error T × σ))
      (n : Node) (note : Except Error (Reply T) → Call T), c.Honest (g.known K) → n ∈ g.known K →
      ∀ halt g', c.advance g = (halt, g') →
        confined ((settle n note memo calls halt g').2.graph.known K)
          (settle n note memo calls halt g') := fun c n note hc hn halt g' hadvance => by
    have hgrown := c.extends_advance g
    have hhalt := hc.advance hg
    rw [hadvance] at hgrown hhalt
    rw [graph_settle]
    have hsub := hgrown.known_subset (K := K)
    exact confined_settle (hg.extends hgrown).known (hsub hn) note (Confined.mono hsub hmemo) calls
      hhalt
  cases f with
  | start n =>
    rw [turn]
    split
    · exact ⟨List.forall_mem_nil _, hs, hmemo⟩
    · exact hcall _ n _ (hhandler n _ (g.subset_known K) hf s _ subset_rfl hs) hf _ _ rfl
  | wait n w =>
    have hanswer := confined_answer hmemo hf.2.1
    rw [turn]
    split
    · next e he =>
      rw [he] at hanswer
      exact ⟨hanswer, hs, hmemo⟩
    · next a ha =>
      rw [ha] at hanswer
      exact hcall _ n _ (hf.2.2 (a, s) _ subset_rfl ⟨hanswer, hs⟩) hf.1 _ _ rfl

theorem confined_runStack (hhandler : Routine.HonestFrom K handler) (stack : List (Frame σ T))
    (p : Progress σ T) (hg : p.graph.Covers K) (hstack : confined (p.graph.known K) stack)
    (hp : confined (p.graph.known K) p) :
    confined ((runStack handler stack p).2.graph.known K) (runStack handler stack p) := by
  induction stack, p using runStack.induct handler with
  | case1 p =>
    rw [runStack_nil]
    exact ⟨trivial, hp⟩
  | case2 f rest p e p' hturn =>
    have hnext := confined_turn hhandler hg (hstack f (List.mem_cons_self ..)) hp
    rw [hturn] at hnext
    rw [runStack_cons, hturn]
    exact hnext
  | case3 f rest p fs p' hturn ih =>
    have hgrown := (turned handler f p).extends_graph
    obtain ⟨hfs, hp'⟩ := confined_turn hhandler hg (hstack f (List.mem_cons_self ..)) hp
    rw [hturn] at hgrown hfs hp'
    rw [runStack_cons, hturn]
    refine ih (hg.extends hgrown) (fun f' hf' => ?_) hp'
    rcases List.mem_append.1 hf' with hf' | hf'
    · exact hfs f' hf'
    · exact Confined.mono hgrown.known_subset (hstack f' (List.mem_cons_of_mem _ hf'))

end Frame

namespace Graph

/-- An evaluation of a known root with an honest handler ends with values, state and errors that are
confined to the nodes known then. -/
theorem confined_evaluate {g : Graph} {root : Node} {handler : Handler σ T} {s : σ}
    (hg : g.Covers K) (hroot : root ∈ K) (hhandler : Routine.HonestFrom K handler)
    (hs : confined K s) :
    confined ((g.evaluate root handler s).graph.known K) (g.evaluate root handler s).result
      ∧ confined ((g.evaluate root handler s).graph.known K) (g.evaluate root handler s).state := by
  rw [evaluate]
  have hs := Confined.mono (g.subset_known K) hs
  split
  · next e he =>
    exact ⟨hg.known.confined_refusal (.inl hroot) (congrArg refusal? he), hs⟩
  · obtain ⟨hresult, hstate, hmemo⟩ := Frame.confined_runStack hhandler [.start root]
      { graph := g, state := s } hg (List.forall_mem_singleton.2 (.inl hroot))
      ⟨hs, fun n v hv => by cases hv⟩
    split
    · next p hp =>
      rw [hp] at hstate hmemo
      exact ⟨hmemo, hstate⟩
    · next e p hp =>
      rw [hp] at hresult hstate
      exact ⟨hresult, hstate⟩

end Graph

end TermGraph
