import TermGraph.Proofs.Evaluation.Request
import TermGraph.Proofs.Evaluation.Turn

/-!
Every handler is called once at most.

A node gets its value only when its handler is through, so until then the memo does not tell that
the handler was called. What does is the shape of the stack, `Frame.Orderly`: every waiting node
stands later than all nodes above it on the stack, the nodes whose handlers were called are those
with a value and those waiting, and whatever a waiting handler asked for has a value or an entry
above it. A turn keeps the stack orderly (`Frame.Turned.orderly`), so every stage of an evaluation
is, and `Graph.evaluate_calls_once` reads off the end what that means for the calls.
-/

namespace TermGraph

variable {σ T : Type}

namespace Call

/-- The node that the call is made for. -/
def node : Call T → Node
  | start n _ => n
  | resume n _ _ => n

/-- How the call came out. -/
def outcome : Call T → Except Error (Reply T)
  | start _ r => r
  | resume _ _ r => r

/-- The node whose handler the call is to; none if it is to what was left of one. -/
def started? : Call T → Option Node
  | start n _ => some n
  | resume _ _ _ => none

/-- The nodes whose handlers were called, in the order of the calls. -/
def started (calls : Array (Call T)) : List Node := calls.toList.filterMap started?

/-- The value of `c` was asked for on behalf of `n`. -/
def Asked (calls : Array (Call T)) (n c : Node) : Prop :=
  ∃ call ∈ calls, call.node = n ∧ ∃ r, call.outcome = .ok (.wants r) ∧ c ∈ r.nodes

/-- The least set with the root in it and, with every node, all that is asked for on its behalf. -/
inductive Needed (calls : Array (Call T)) (root : Node) : Node → Prop
  | root : Needed calls root root
  | asked {n c : Node} : Needed calls root n → Asked calls n c → Needed calls root c

theorem asked_push {calls : Array (Call T)} {call : Call T} {n c : Node} :
    Asked (calls.push call) n c ↔ Asked calls n c ∨
      call.node = n ∧ ∃ r, call.outcome = .ok (.wants r) ∧ c ∈ r.nodes := by
  simp only [Asked, Array.mem_push]
  constructor
  · rintro ⟨d, hd | rfl, h⟩
    · exact .inl ⟨d, hd, h⟩
    · exact .inr h
  · rintro (⟨d, hd, h⟩ | h)
    · exact ⟨d, .inl hd, h⟩
    · exact ⟨call, .inr rfl, h⟩

theorem Needed.mono {calls calls' : Array (Call T)} {root n : Node} (h : Needed calls root n)
    (hsub : ∀ n c, Asked calls n c → Asked calls' n c) : Needed calls' root n := by
  induction h with
  | root => exact .root
  | asked _ ha ih => exact .asked ih (hsub _ _ ha)

theorem Needed.push {calls : Array (Call T)} {root n : Node} (h : Needed calls root n)
    (call : Call T) : Needed (calls.push call) root n :=
  h.mono fun _ _ ha => asked_push.2 (.inl ha)

end Call

open Call

namespace Frame

/-- The node of a waiting entry. -/
def waiting? : Frame σ T → Option Node
  | start _ => none
  | wait n _ => some n

/-- The nodes that wait on the stack, from the top down. -/
def waiting (stack : List (Frame σ T)) : List Node := stack.filterMap waiting?

/-- Whatever a waiting handler asked for has a value or is one of the nodes above. -/
def Covered (memo : Memo T) : List Node → List (Frame σ T) → Prop
  | _, [] => True
  | above, start n :: stack => Covered memo (n :: above) stack
  | above, wait n w :: stack =>
    (∀ c ∈ w.request.nodes, c ∈ memo ∨ c ∈ above) ∧ Covered memo (n :: above) stack

/-- What holds of the stack and the progress at every stage of an evaluation of `root` in `g`. -/
structure Orderly (g : Graph) (root : Node) (stack : List (Frame σ T)) (p : Progress σ T) :
    Prop where
  grown : g.Extends p.graph
  within : ∀ f ∈ stack, g.contains root f.node = .ok true
  descends : stack.Pairwise fun f f' => ∀ n, f'.waiting? = some n → f.node.index < n.index
  started_nodup : (started p.calls).Nodup
  started_iff : ∀ n, n ∈ started p.calls ↔ n ∈ p.memo ∨ n ∈ waiting stack
  waiting_new : ∀ n ∈ waiting stack, n ∉ p.memo
  started_within : ∀ n ∈ started p.calls, g.contains root n = .ok true
  covered : Covered p.memo [] stack
  needed : ∀ f ∈ stack, Needed p.calls root f.node
  started_needed : ∀ n ∈ started p.calls, Needed p.calls root n
  root_known : root ∈ p.memo ∨ root ∈ stack.map node
  asked_known : ∀ n c, Asked p.calls n c → c ∈ p.memo ∨ c ∈ stack.map node

/-! ### The parts of a turn -/

/-- What the call made for an entry adds to the calls. -/
theorem Notes.call {memo : Memo T} {f : Frame σ T} {note : Except Error (Reply T) → Call T}
    (h : f.Notes memo note) (x : Except Error (Reply T)) :
    (note x).node = f.node ∧ (note x).outcome = x := by
  cases h <;> exact ⟨rfl, rfl⟩

theorem waiting_append (above below : List (Frame σ T)) :
    waiting (above ++ below) = waiting above ++ waiting below := List.filterMap_append

theorem mem_waiting {n : Node} {stack : List (Frame σ T)} :
    n ∈ waiting stack ↔ ∃ w, wait n w ∈ stack := by
  rw [waiting, List.mem_filterMap]
  constructor
  · rintro ⟨f, hf, hn⟩
    cases f with
    | start m => cases hn
    | wait m w => cases hn; exact ⟨w, hf⟩
  · rintro ⟨w, hw⟩
    exact ⟨wait n w, hw, rfl⟩

theorem mem_waiting_cons {n : Node} {f : Frame σ T} {stack : List (Frame σ T)} :
    n ∈ waiting (f :: stack) ↔ f.waiting? = some n ∨ n ∈ waiting stack := by
  cases f <;> simp [waiting, waiting?, eq_comm]

theorem eq_node_of_waiting? {f : Frame σ T} {n : Node} (h : f.waiting? = some n) : n = f.node := by
  cases f with
  | start m => cases h
  | wait m w => exact (Option.some.inj h).symm

theorem waiting_starts (cs : List Node) : waiting (cs.map (start : Node → Frame σ T)) = [] := by
  induction cs with
  | nil => rfl
  | cons c cs ih => rw [List.map_cons, waiting, List.filterMap_cons_none rfl]; exact ih

theorem waiting_pending (memo : Memo T) (n : Node) (w : Suspended σ T) :
    waiting (pending memo n w) = [n] := by
  rw [pending, waiting_append, waiting_starts]
  rfl

theorem mem_pending {memo : Memo T} {n : Node} {w : Suspended σ T} {f : Frame σ T} :
    f ∈ pending memo n w ↔
      (∃ c ∈ w.request.nodes, c ∉ memo ∧ f = start c) ∨ f = wait n w := by
  rw [pending, List.mem_append, List.mem_singleton, List.mem_map]
  constructor
  · rintro (⟨c, hc, rfl⟩ | rfl)
    · rw [List.mem_filter] at hc
      exact .inl ⟨c, hc.1, by simpa [← Std.TreeMap.contains_iff_mem] using hc.2, rfl⟩
    · exact .inr rfl
  · rintro (⟨c, hc, hm, rfl⟩ | rfl)
    · exact .inl ⟨c, List.mem_filter.2 ⟨hc, by simpa [← Std.TreeMap.contains_iff_mem] using hm⟩, rfl⟩
    · exact .inr rfl

/-- What is asked for has its value, or gets an entry. -/
theorem known_or_pending {memo : Memo T} {n c : Node} {w : Suspended σ T}
    (hc : c ∈ w.request.nodes) : c ∈ memo ∨ c ∈ (pending memo n w).map node := by
  by_cases hm : c ∈ memo
  · exact .inl hm
  · exact .inr (List.mem_map.2 ⟨start c, mem_pending.2 (.inl ⟨c, hc, hm, rfl⟩), rfl⟩)

theorem Covered.mono {memo memo' : Memo T} : ∀ {stack : List (Frame σ T)} {above above' : List Node},
    Covered memo above stack → (∀ c, c ∈ memo ∨ c ∈ above → c ∈ memo' ∨ c ∈ above') →
      Covered memo' above' stack
  | [], _, _, _, _ => trivial
  | f :: stack, above, above', h, hsub => by
    have hcons : ∀ c, c ∈ memo ∨ c ∈ f.node :: above → c ∈ memo' ∨ c ∈ f.node :: above' := by
      intro c hc
      rcases hc with hc | hc
      · exact (hsub c (.inl hc)).imp_right (List.mem_cons_of_mem _)
      · rcases List.mem_cons.1 hc with rfl | hc
        · exact .inr (List.mem_cons_self ..)
        · exact (hsub c (.inr hc)).imp_right (List.mem_cons_of_mem _)
    cases f with
    | start n =>
      have h' : Covered memo (n :: above) stack := h
      exact h'.mono hcons
    | wait n w => exact ⟨fun c hc => hsub c (h.1 c hc), h.2.mono hcons⟩

theorem covered_starts {memo : Memo T} {stack : List (Frame σ T)} :
    ∀ (cs above : List Node), Covered memo (cs ++ above) stack →
      Covered memo above (cs.map start ++ stack)
  | [], _, h => h
  | c :: cs, above, h => by
    refine covered_starts cs (c :: above) (Covered.mono h fun d hd => ?_)
    rcases hd with hd | hd
    · exact .inl hd
    · right
      simp only [List.cons_append, List.mem_cons, List.mem_append] at hd ⊢
      rcases hd with rfl | hd | hd
      · exact .inr (.inl rfl)
      · exact .inl hd
      · exact .inr (.inr hd)

/-! ### A turn keeps the stack orderly -/

namespace Orderly

variable {g : Graph} {root : Node} {f : Frame σ T} {rest : List (Frame σ T)} {p : Progress σ T}

/-- The nodes below the top wait for later nodes than that of the top. -/
theorem index_lt (h : Orderly g root (f :: rest) p) {n : Node} (hn : n ∈ waiting rest) :
    f.node.index < n.index := by
  obtain ⟨w, hw⟩ := mem_waiting.1 hn
  exact (List.pairwise_cons.1 h.descends).1 _ hw n rfl

theorem ne_top (h : Orderly g root (f :: rest) p) {n : Node} (hn : n ∈ waiting rest) :
    n ≠ f.node := by
  rintro rfl
  exact Nat.lt_irrefl _ (h.index_lt hn)

theorem covered_rest (h : Orderly g root (f :: rest) p) : Covered p.memo [f.node] rest := by
  cases f with
  | start n => exact h.covered
  | wait n w => exact h.covered.2

/-- A node whose handler is called for the first time was not started before. -/
theorem not_started (h : Orderly g root (.start n :: rest) p) (hn : n ∉ p.memo) :
    n ∉ started p.calls := by
  rw [h.started_iff]
  rintro (hm | hw)
  · exact hn hm
  · exact h.ne_top hw rfl

/-- After the call for the top, its node is one of the started ones. -/
theorem started_push (h : Orderly g root (f :: rest) p) {note : Except Error (Reply T) → Call T}
    (hn : f.Notes p.memo note) (x : Except Error (Reply T)) :
    (started (p.calls.push (note x))).Nodup ∧
      ∀ n, n ∈ started (p.calls.push (note x)) ↔ n = f.node ∨ n ∈ started p.calls := by
  cases hn with
  | @start n hm =>
    have hnew := h.not_started hm
    rw [started, Array.toList_push, List.filterMap_append]
    refine ⟨List.nodup_append.2 ⟨h.started_nodup, List.pairwise_singleton _ n, ?_⟩, fun m => ?_⟩
    · rintro a ha b hb rfl
      exact hnew (List.mem_singleton.1 hb ▸ ha)
    · rw [List.mem_append, or_comm]
      exact or_congr List.mem_singleton Iff.rfl
  | @wait n w a ha =>
    have hold : n ∈ started p.calls :=
      (h.started_iff n).2 (.inr (mem_waiting.2 ⟨w, List.mem_cons_self ..⟩))
    rw [started, Array.toList_push, List.filterMap_append, List.filterMap_cons_none rfl,
      List.filterMap_nil, List.append_nil]
    refine ⟨h.started_nodup, fun m => ⟨.inr, ?_⟩⟩
    rintro (rfl | hm)
    · exact hold
    · exact hm

theorem started_within_push (h : Orderly g root (f :: rest) p) {calls : Array (Call T)}
    (hs : ∀ n, n ∈ started calls ↔ n = f.node ∨ n ∈ started p.calls) :
    ∀ n ∈ started calls, g.contains root n = .ok true := by
  intro n hn
  rcases (hs n).1 hn with rfl | hn
  · exact h.within f (List.mem_cons_self ..)
  · exact h.started_within n hn

/-- The top goes, for its node has a value now. -/
theorem pop (h : Orderly g root (f :: rest) p) {p' : Progress σ T} (hg : p.graph.Extends p'.graph)
    (hmemo : ∀ c, c ∈ p'.memo ↔ c = f.node ∨ c ∈ p.memo)
    (hstarted : (started p'.calls).Nodup ∧
      ∀ n, n ∈ started p'.calls ↔ n = f.node ∨ n ∈ started p.calls)
    (hasked : ∀ n c, Asked p'.calls n c ↔ Asked p.calls n c) : Orderly g root rest p' := by
  have hneed : ∀ {n}, Needed p.calls root n → Needed p'.calls root n :=
    fun hn => hn.mono fun n c => (hasked n c).2
  have hknown : ∀ c, c ∈ p.memo ∨ c ∈ (f :: rest).map node → c ∈ p'.memo ∨ c ∈ rest.map node := by
    intro c hc
    rw [hmemo]
    rcases hc with hc | hc
    · exact .inl (.inr hc)
    · exact (List.mem_cons.1 hc).imp_left .inl
  constructor
  case grown => exact h.grown.trans hg
  case within => exact fun f' hf => h.within f' (List.mem_cons_of_mem _ hf)
  case descends => exact (List.pairwise_cons.1 h.descends).2
  case started_nodup => exact hstarted.1
  case started_iff =>
    intro n
    rw [hstarted.2, h.started_iff, hmemo, mem_waiting_cons]
    constructor
    · rintro (hn | hn | hn | hn)
      · exact .inl (.inl hn)
      · exact .inl (.inr hn)
      · exact .inl (.inl (eq_node_of_waiting? hn))
      · exact .inr hn
    · rintro ((hn | hn) | hn)
      · exact .inl hn
      · exact .inr (.inl hn)
      · exact .inr (.inr (.inr hn))
  case waiting_new =>
    intro n hn hm
    rcases (hmemo n).1 hm with hm | hm
    · exact h.ne_top hn hm
    · exact h.waiting_new n (mem_waiting_cons.2 (.inr hn)) hm
  case started_within => exact h.started_within_push hstarted.2
  case covered =>
    refine h.covered_rest.mono fun c hc => .inl ((hmemo c).2 ?_)
    rcases hc with hc | hc
    · exact .inr hc
    · exact .inl (List.mem_singleton.1 hc)
  case needed => exact fun f' hf => hneed (h.needed f' (List.mem_cons_of_mem _ hf))
  case started_needed =>
    intro n hn
    rcases (hstarted.2 n).1 hn with rfl | hn
    · exact hneed (h.needed f (List.mem_cons_self ..))
    · exact hneed (h.started_needed n hn)
  case root_known => exact hknown root h.root_known
  case asked_known => exact fun n c hc => hknown c (h.asked_known n c ((hasked n c).1 hc))

/-- The top waits, below the nodes that it asks for. -/
theorem suspend (h : Orderly g root (f :: rest) p) {note : Except Error (Reply T) → Call T}
    {g' : Graph} {s : σ} {w : Suspended σ T} (hn : f.Notes p.memo note) (hg : p.graph.Extends g')
    (ha : g'.allowsAll f.node w.request.nodes = .ok ()) :
    Orderly g root (pending p.memo f.node w ++ rest)
      ⟨g', s, p.memo, p.calls.push (note (.ok (.wants w.request)))⟩ := by
  have hcall := hn.call (.ok (.wants w.request))
  have hstarted := h.started_push hn (.ok (.wants w.request))
  have hfnew : f.node ∉ p.memo := by
    cases hn with
    | start hm => exact hm
    | wait _ => exact h.waiting_new _ (mem_waiting.2 ⟨_, List.mem_cons_self ..⟩)
  have hknown : ∀ c, c ∈ p.memo ∨ c ∈ (f :: rest).map node →
      c ∈ p.memo ∨ c ∈ (pending p.memo f.node w ++ rest).map node := by
    intro c hc
    rw [List.map_append, List.mem_append]
    rcases hc with hc | hc
    · exact .inl hc
    · rcases List.mem_cons.1 hc with rfl | hc
      · exact .inr (.inl (List.mem_map.2 ⟨wait f.node w, mem_pending.2 (.inr rfl), rfl⟩))
      · exact .inr (.inr hc)
  have hwaiting : waiting (pending p.memo f.node w ++ rest) = f.node :: waiting rest := by
    rw [waiting_append, waiting_pending]; rfl
  have hbelow : g.contains root f.node = .ok true := h.within f (List.mem_cons_self ..)
  constructor
  case grown => exact h.grown.trans hg
  case within =>
    intro f' hf
    rcases List.mem_append.1 hf with hf | hf
    · rcases mem_pending.1 hf with ⟨c, hc, -, rfl⟩ | rfl
      · obtain ⟨_, q, hp, rfl, hq, hpath⟩ := Graph.contains_iff.1 hbelow
        have hqs := Nat.lt_of_le_of_lt hpath.le hp
        refine Graph.contains_trans hbelow ?_
        rw [hq] at ha ⊢
        exact Graph.contains_of_extended (h.grown.trans hg) (Graph.locate_node hqs)
          (Graph.contains_of_allowsAll ha c hc)
      · exact hbelow
    · exact h.within f' (List.mem_cons_of_mem _ hf)
  case descends =>
    refine List.pairwise_append.2 ⟨?_, (List.pairwise_cons.1 h.descends).2, ?_⟩
    · rw [pending]
      refine List.pairwise_append.2 ⟨?_, List.pairwise_singleton .., ?_⟩
      · exact List.pairwise_map.2 (List.pairwise_of_forall fun _ _ n hn => nomatch hn)
      · intro f₁ hf₁ f₂ hf₂ n hn
        obtain ⟨c, hc, rfl⟩ := List.mem_map.1 hf₁
        rw [List.mem_singleton.1 hf₂] at hn
        cases hn
        exact Graph.index_lt_of_allowsAll ha c (List.mem_filter.1 hc).1
    · intro f₁ hf₁ f₂ hf₂ n hn
      have hlt : f.node.index < n.index := (List.pairwise_cons.1 h.descends).1 f₂ hf₂ n hn
      rcases mem_pending.1 hf₁ with ⟨c, hc, -, rfl⟩ | rfl
      · exact Nat.lt_trans (Graph.index_lt_of_allowsAll ha c hc) hlt
      · exact hlt
  case started_nodup => exact hstarted.1
  case started_iff =>
    intro n
    rw [hstarted.2, h.started_iff, mem_waiting_cons, hwaiting, List.mem_cons]
    constructor
    · rintro (hn | hn | hn | hn)
      · exact .inr (.inl hn)
      · exact .inl hn
      · exact .inr (.inl (eq_node_of_waiting? hn))
      · exact .inr (.inr hn)
    · rintro (hn | hn | hn)
      · exact .inr (.inl hn)
      · exact .inl hn
      · exact .inr (.inr (.inr hn))
  case waiting_new =>
    intro n hn
    rw [hwaiting] at hn
    rcases List.mem_cons.1 hn with rfl | hn
    · exact hfnew
    · exact h.waiting_new n (mem_waiting_cons.2 (.inr hn))
  case started_within => exact h.started_within_push hstarted.2
  case covered =>
    rw [pending, List.append_assoc]
    refine covered_starts _ [] ⟨fun c hc => ?_, h.covered_rest.mono fun c hc => ?_⟩
    · by_cases hm : c ∈ p.memo
      · exact .inl hm
      · right
        rw [List.append_nil, List.mem_filter]
        exact ⟨hc, by simpa [← Std.TreeMap.contains_iff_mem] using hm⟩
    · rcases hc with hc | hc
      · exact .inl hc
      · exact .inr (List.mem_singleton.1 hc ▸ List.mem_cons_self ..)
  case needed =>
    intro f' hf
    rcases List.mem_append.1 hf with hf | hf
    · have hftop := (h.needed f (List.mem_cons_self ..)).push (note (.ok (.wants w.request)))
      rcases mem_pending.1 hf with ⟨c, hc, -, rfl⟩ | rfl
      · exact .asked hftop (asked_push.2 (.inr ⟨hcall.1, w.request, hcall.2, hc⟩))
      · exact hftop
    · exact (h.needed f' (List.mem_cons_of_mem _ hf)).push _
  case started_needed =>
    intro n hn
    rcases (hstarted.2 n).1 hn with rfl | hn
    · exact (h.needed f (List.mem_cons_self ..)).push _
    · exact (h.started_needed n hn).push _
  case root_known => exact hknown root h.root_known
  case asked_known =>
    intro n c hc
    rcases asked_push.1 hc with hc | ⟨-, r, hr, hc⟩
    · exact hknown c (h.asked_known n c hc)
    · rw [hcall.2] at hr
      cases hr
      rw [List.map_append, List.mem_append]
      exact (known_or_pending hc).imp_right .inl

end Orderly

/-- Whatever a turn comes to, as long as it does not fail, it leaves an orderly stack. -/
theorem Turned.orderly {g : Graph} {root : Node} {f : Frame σ T} {rest : List (Frame σ T)}
    {p p' : Progress σ T} {fs : List (Frame σ T)} (ht : f.Turned p (.ok fs, p'))
    (h : Orderly g root (f :: rest) p) : Orderly g root (fs ++ rest) p' := by
  cases ht with
  | known hf hn =>
    subst hf
    have hs := (h.started_iff _).2 (.inl hn)
    refine h.pop (.refl _) (fun c => ⟨.inr, ?_⟩) ⟨h.started_nodup, fun c => ⟨.inr, ?_⟩⟩
      fun _ _ => Iff.rfl
    · rintro (rfl | hc)
      · exact hn
      · exact hc
    · rintro (rfl | hc)
      · exact hs
      · exact hc
  | value v hn hg =>
    refine h.pop hg (fun c => ?_) (h.started_push hn _) fun n c => ?_
    · rw [Std.TreeMap.mem_insert, Std.LawfulEqCmp.compare_eq_iff_eq, eq_comm]
    · rw [asked_push]
      refine ⟨?_, .inl⟩
      rintro (hc | ⟨-, r, hr, -⟩)
      · exact hc
      · rw [(hn.call _).2] at hr
        cases hr
  | asks w hn hg ha => exact h.suspend hn hg ha

/-- Also a turn that fails has called no handler twice, and none of a node outside. -/
theorem Turned.started {g : Graph} {root : Node} {f : Frame σ T} {rest : List (Frame σ T)}
    {p p' : Progress σ T} {r : Except Error (List (Frame σ T))} (ht : f.Turned p (r, p'))
    (h : Orderly g root (f :: rest) p) : (Call.started p'.calls).Nodup ∧
      ∀ n ∈ Call.started p'.calls, g.contains root n = .ok true := by
  have hpush : ∀ {note}, f.Notes p.memo note → ∀ x,
      (Call.started (p.calls.push (note x))).Nodup ∧
        ∀ n ∈ Call.started (p.calls.push (note x)), g.contains root n = .ok true := by
    intro note hn x
    have hs := h.started_push hn x
    exact ⟨hs.1, h.started_within_push hs.2⟩
  cases ht with
  | known | missing => exact ⟨h.started_nodup, h.started_within⟩
  | value _ hn _ => exact hpush hn _
  | fails _ hn _ => exact hpush hn _
  | asks _ hn _ _ => exact hpush hn _
  | refused _ _ hn _ _ => exact hpush hn _

end Frame

namespace Graph.Stage

variable {g : Graph} {root : Node} {handler : Handler σ T} {s : σ}

/-- Every stage of an evaluation is orderly. -/
theorem orderly {stack : List (Frame σ T)} {p : Progress σ T} (h : g.Stage root handler s stack p) :
    Frame.Orderly g root stack p := by
  induction h with
  | start hp =>
    have hroot : g.contains root root = .ok true := by
      rw [eq_node_of_locate hp]
      exact contains_iff.2 ⟨_, _, Fin.isLt _, rfl, rfl, .refl _⟩
    constructor
    case grown => exact .refl g
    case within => simpa [Frame.node] using hroot
    case descends => exact List.pairwise_singleton ..
    case started_nodup => exact List.nodup_nil
    case started_iff => simp [started, Frame.waiting, Frame.waiting?]
    case waiting_new => simp [Frame.waiting, Frame.waiting?]
    case started_within => simp [started]
    case covered => trivial
    case needed => simpa [Frame.node] using Needed.root
    case started_needed => simp [started]
    case root_known => exact .inr (List.mem_singleton_self root)
    case asked_known => simp [Asked]
  | @turn f rest fs p p' _ ht ih =>
    have hturned := Frame.turned handler f p
    rw [ht] at hturned
    exact hturned.orderly ih

end Graph.Stage

/-- Where a run ends, no handler was called twice, and none for a node that the root does not
contain. -/
theorem Frame.Ends.started {g : Graph} {root : Node} {handler : Handler σ T} {s : σ}
    {last : List (Frame σ T) × Progress σ T} {r : Except Error Unit} {p : Progress σ T}
    (h : Ends handler last (r, p)) (hlast : g.Stage root handler s last.1 last.2) :
    (started p.calls).Nodup ∧ ∀ n ∈ started p.calls, g.contains root n = .ok true := by
  cases h with
  | empty => exact ⟨hlast.orderly.started_nodup, hlast.orderly.started_within⟩
  | @fails f q _ e rest hturn =>
    have hturned := turned handler f q
    rw [hturn] at hturned
    exact hturned.started hlast.orderly

namespace Memo

theorem exists_value {memo : Memo T} {n : Node} (h : n ∈ memo) : ∃ v, memo.value n = .ok v := by
  rw [value, Std.TreeMap.getElem?_eq_some_getElem h]
  exact ⟨_, rfl⟩

theorem exists_values {memo : Memo T} : ∀ (ns : List Node), (∀ c ∈ ns, c ∈ memo) →
    ∃ vs, ns.mapM memo.value = .ok vs
  | [], _ => ⟨[], rfl⟩
  | n :: ns, h => by
    obtain ⟨v, hv⟩ := exists_value (h n (List.mem_cons_self ..))
    obtain ⟨vs, hvs⟩ := exists_values ns fun c hc => h c (List.mem_cons_of_mem _ hc)
    rw [List.mapM_cons, hv, hvs]
    exact ⟨v :: vs, rfl⟩

/-- Where all nodes asked for have values, there is an answer. -/
theorem exists_answer {memo : Memo T} : ∀ (r : Request), (∀ c ∈ r.nodes, c ∈ memo) →
    ∃ a, memo.answer r = .ok a
  | .one n, h => exists_value (h n (List.mem_singleton_self n))
  | .all ns, h => exists_values ns h

end Memo

/-- At every stage, the top of the stack starts a node whose handler was not called before, unless
the node has a value, or goes on with a handler that has all that it asked for. -/
theorem Graph.Stage.top {g : Graph} {root : Node} {handler : Handler σ T} {s : σ}
    {stack : List (Frame σ T)} {p : Progress σ T} (h : g.Stage root handler s stack p) :
    (∀ n rest, stack = .start n :: rest → n ∉ p.memo →
      n ∉ started p.calls ∧ n ∉ Frame.waiting rest) ∧
    ∀ n w rest, stack = .wait n w :: rest → ∃ a, p.memo.answer w.request = .ok a := by
  have ho := h.orderly
  constructor
  · rintro n rest rfl hn
    exact ⟨ho.not_started hn, fun hw => ho.ne_top hw rfl⟩
  · rintro n w rest rfl
    exact Memo.exists_answer _ fun c hc => (ho.covered.1 c hc).resolve_right List.not_mem_nil

/-- In every evaluation, each handler is called once at most, and only for nodes that the root
contains. An evaluation of a node of the graph comes out as its last stage ends, and any other is
refused at once. At every stage on the way to the end, if the top of the stack starts a node without
a value, the handler of that node was not called before and does not wait; if the top is a waiting
handler, all that it asked for has values. If the evaluation succeeds, the nodes with values are
those whose handlers were called, and those that the root needs. -/
theorem Graph.evaluate_calls_once (g : Graph) (root : Node) (handler : Handler σ T) (s : σ) :
    let out := g.evaluate root handler s
    (∀ e, g.locate root = .error e → out = ⟨.error e, g, s, #[]⟩) ∧
    (∀ q, g.locate root = .ok q → ∃ last r p, g.Stage root handler s last.1 last.2 ∧
      Frame.Ends handler last (r, p) ∧
      out = ⟨r.map fun _ => p.memo, p.graph, p.state, p.calls⟩) ∧
    (started out.calls).Nodup ∧
    (∀ n ∈ started out.calls, g.contains root n = .ok true) ∧
    (∀ stack p, g.Stage root handler s stack p →
      Frame.runStack handler stack p
        = Frame.runStack handler [.start root] { graph := g, state := s } ∧
      (∀ n rest, stack = .start n :: rest → n ∉ p.memo →
        n ∉ started p.calls ∧ n ∉ Frame.waiting rest) ∧
      (∀ n w rest, stack = .wait n w :: rest → ∃ a, p.memo.answer w.request = .ok a)) ∧
    (∀ memo, out.result = .ok memo → ∀ n,
      (n ∈ memo ↔ n ∈ started out.calls) ∧ (n ∈ memo ↔ Needed out.calls root n)) := by
  intro out
  have hstages := fun stack p (h : g.Stage root handler s stack p) => And.intro h.runStack_eq h.top
  refine ⟨fun e => evaluate_of_refused, fun q hq => ?_, ?_⟩
  · obtain ⟨last, r, p, -, hstage, hend, hout⟩ := exists_last_stage hq handler s
    exact ⟨last, r, p, hstage, hend, hout⟩
  cases hroot : g.locate root with
  | error e =>
    rw [show out = _ from evaluate_of_refused hroot]
    refine ⟨List.nodup_nil, List.forall_mem_nil _, hstages, ?_⟩
    rintro _ ⟨⟩
  | ok q =>
    obtain ⟨last, r, p, -, hstage, hend, hout⟩ := exists_last_stage hroot handler s
    have hstarted := hend.started hstage
    rw [show out = _ from hout]
    refine ⟨hstarted.1, hstarted.2, hstages, fun memo hmemo n => ?_⟩
    cases hend with
    | fails => cases hmemo
    | empty =>
      cases hmemo
      have ho := hstage.orderly
      have hiff : n ∈ p.memo ↔ n ∈ started p.calls := by
        rw [ho.started_iff]
        exact ⟨.inl, fun h => h.resolve_right List.not_mem_nil⟩
      refine ⟨hiff, fun h => ho.started_needed n (hiff.1 h), fun h => ?_⟩
      cases h with
      | root => exact ho.root_known.resolve_right List.not_mem_nil
      | asked _ ha => exact (ho.asked_known _ n ha).resolve_right List.not_mem_nil

namespace Graph

/-- Three records: the second mentions the first, the third mentions both. -/
def detour : Graph :=
  let g := ((Graph.empty 0).append "a" []).2
  let g := (g.append "b" [.node (g.node 0)]).2
  (g.append "c" [.node (g.node 1), .node (g.node 0)]).2

/-- A node weighs one more than all that it mentions. -/
def weigh : Handler Unit Nat := fun n => do
  let e ← Routine.read n
  let vs ← Inquiry.demandAll e.children
  return vs.foldl (· + ·) 1

/-- The first record is asked for twice, has two entries on the stack, and its handler is called
once. -/
theorem calls_once_detour : ∃ memo,
    (detour.evaluate (detour.node 2) weigh ()).result = .ok memo
    ∧ memo[detour.node 0]? = some 1 ∧ memo[detour.node 2]? = some 4
    ∧ started (detour.evaluate (detour.node 2) weigh ()).calls
      = [detour.node 2, detour.node 1, detour.node 0]
    ∧ ∀ n, n ∈ memo ↔ Needed (detour.evaluate (detour.node 2) weigh ()).calls (detour.node 2) n := by
  have hrun : ∃ p,
      Frame.runStack weigh [.start (detour.node 2)] { graph := detour, state := () } = (.ok (), p)
      ∧ p.memo[detour.node 0]? = some 1 ∧ p.memo[detour.node 2]? = some 4
      ∧ started p.calls = [detour.node 2, detour.node 1, detour.node 0] :=
    ⟨_, (Frame.runStack_of_turn rfl).trans <| (Frame.runStack_of_turn rfl).trans <|
      (Frame.runStack_of_turn rfl).trans <| (Frame.runStack_of_turn rfl).trans <|
      (Frame.runStack_of_turn rfl).trans <| (Frame.runStack_of_turn rfl).trans <|
      (Frame.runStack_of_turn rfl).trans <| Frame.runStack_nil _, rfl, rfl, rfl⟩
  obtain ⟨p, hrun, hfirst, hlast, hcalls⟩ := hrun
  have hout : detour.evaluate (detour.node 2) weigh ()
      = ⟨.ok p.memo, p.graph, p.state, p.calls⟩ := by
    rw [evaluate, show detour.locate (detour.node 2) = .ok _ from rfl]
    dsimp only
    rw [hrun]
  obtain ⟨-, -, -, -, -, hneeded⟩ := evaluate_calls_once detour (detour.node 2) weigh ()
  rw [hout] at hneeded ⊢
  exact ⟨p.memo, rfl, hfirst, hlast, hcalls, fun n => (hneeded p.memo rfl n).2⟩

end Graph

end TermGraph
