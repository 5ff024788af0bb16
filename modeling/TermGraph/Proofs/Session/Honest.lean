import Mathlib.Data.Set.Basic
import TermGraph.Pass.Basic
import TermGraph.Proofs.Graph.Append

/-!
Which nodes things hold, and scripts that make up none. A script is honest if it only uses nodes
that it was given, that it sees in the graph, or that an append or an answer gives it, and reports
no dangling node of its own accord. Main statement: an honest script run on a graph in which none of
the nodes that it knows dangles gives back, and asks about, only such nodes and those of the graph;
and no append in it meets a dangling node.
-/

namespace TermGraph

/-- Things that may hold nodes. `confined K a` says that all nodes in `a` are of `K` and that no
error in it is about a dangling node. -/
class Confined (α : Type) where
  confined : Set Node → α → Prop
  mono : ∀ {K K' : Set Node} {a : α}, K ⊆ K' → confined K a → confined K' a

export Confined (confined)

section Instances

variable {α β : Type}

instance : Confined Empty := ⟨fun _ q => q.elim, fun {_ _ q} => q.elim⟩

instance (q : Empty) : Confined (Empty.elim q) := q.elim

instance : Confined Unit := ⟨fun _ _ => True, fun _ _ => trivial⟩

instance : Confined String := ⟨fun _ _ => True, fun _ _ => trivial⟩

instance : Confined Node := ⟨fun K n => n ∈ K, fun h hn => h hn⟩

instance : Confined (Datum String Node) :=
  ⟨fun K v => ∀ n, v.node? = some n → n ∈ K, fun h hv n hn => h (hv n hn)⟩

instance [Confined α] : Confined (List α) :=
  ⟨fun K xs => ∀ x ∈ xs, confined K x, fun h hxs x hx => Confined.mono h (hxs x hx)⟩

instance [Confined α] [Confined β] : Confined (α × β) :=
  ⟨fun K x => confined K x.1 ∧ confined K x.2,
    fun h hx => ⟨Confined.mono h hx.1, Confined.mono h hx.2⟩⟩

instance : Confined Expr :=
  ⟨fun K e => e.node ∈ K ∧ confined K e.args, fun h he => ⟨h he.1, Confined.mono h he.2⟩⟩

instance [Confined α] : Confined (Memo α) :=
  ⟨fun K memo => ∀ n v, memo[n]? = some v → n ∈ K ∧ confined K v,
    fun h hm n v hv => ⟨h (hm n v hv).1, Confined.mono h (hm n v hv).2⟩⟩

instance [Confined α] : Confined (Term α) where
  confined K
    | .value v => confined K v
    | .custom c => confined K c
  mono {_ _ t} h ht := by cases t <;> exact Confined.mono h ht

instance : Confined Request :=
  ⟨fun K r => ∀ n ∈ r.nodes, n ∈ K, fun h hr n hn => h (hr n hn)⟩

instance [Confined α] : ∀ r : Request, Confined (r.Answer α)
  | .one _ => inferInstanceAs (Confined α)
  | .all _ => inferInstanceAs (Confined (List α))

instance : Confined Mismatch where
  confined K
    | .kind _ _ got => confined K got
    | .head n _ => n ∈ K
    | _ => True
  mono {_ _ m} h hm := by
    cases m with
    | kind _ _ got => exact Confined.mono h hm
    | head n _ => exact h hm
    | _ => trivial

instance : Confined Error where
  confined K
    | .foreign n _ => n ∈ K
    | .dangling _ _ => False
    | .mismatch _ reason => confined K reason
    | .notBelow n c => n ∈ K ∧ c ∈ K
    | .noResult n => n ∈ K
    | .unknownHead _ => True
    | .conflict _ => True
  mono {_ _ e} h he := by
    cases e with
    | mismatch _ reason => exact Confined.mono h he
    | notBelow n c => exact ⟨h he.1, h he.2⟩
    | foreign n _ => exact h he
    | noResult n => exact h he
    | dangling _ _ => exact he
    | _ => trivial

instance [Confined α] : Confined (Except Error α) where
  confined K
    | .ok a => confined K a
    | .error e => confined K e
  mono {_ _ r} h hr := by cases r <;> exact Confined.mono h hr

theorem confined_insert [Confined α] {K : Set Node} {memo : Memo α} {n : Node} {v : α}
    (hmemo : confined K memo) (hn : n ∈ K) (hv : confined K v) :
    confined K (memo.insert n v : Memo α) := by
  intro m w hw
  rw [Std.TreeMap.getElem?_insert] at hw
  split at hw
  · next hc =>
    cases hw
    rw [← Std.LawfulEqCmp.compare_eq_iff_eq.1 hc]
    exact ⟨hn, hv⟩
  · exact hmemo m w hw

theorem confined_value [Confined α] {K : Set Node} {memo : Memo α} {n : Node}
    (hmemo : confined K memo) (hn : n ∈ K) : confined K (memo.value n) := by
  rw [Memo.value]
  split
  · next v hv => exact (hmemo n v hv).2
  · exact hn

/-- A list of results is confined if every result is. -/
theorem confined_mapM [Confined β] {K : Set Node} {f : α → Except Error β} :
    ∀ {xs : List α}, (∀ x ∈ xs, confined K (f x)) → confined K (xs.mapM f)
  | [], _ => fun _ hy => nomatch hy
  | x :: xs, h => by
    have hx := h x (List.mem_cons_self ..)
    have hxs := confined_mapM fun y hy => h y (List.mem_cons_of_mem x hy)
    rw [List.mapM_cons]
    cases hy : f x with
    | error e => rw [hy] at hx; exact hx
    | ok y =>
      rw [hy] at hx
      cases hys : xs.mapM f with
      | error e => rw [hys] at hxs; exact hxs
      | ok ys =>
        rw [hys] at hxs
        exact List.forall_mem_cons.2 ⟨hx, hxs⟩

theorem confined_forM {K : Set Node} {f : α → Except Error Unit} :
    ∀ {xs : List α}, (∀ x ∈ xs, confined K (f x)) → confined K (xs.forM f)
  | [], _ => trivial
  | x :: xs, h => by
    have hx := h x (List.mem_cons_self ..)
    have hcons : (x :: xs).forM f = (f x >>= fun _ => xs.forM f) := rfl
    rw [hcons]
    cases hfx : f x with
    | error e =>
      rw [hfx] at hx
      exact hx
    | ok u => exact confined_forM fun y hy => h y (List.mem_cons_of_mem x hy)

end Instances

namespace Graph

variable {g g' : Graph} {K : Set Node}

/-- None of the nodes dangles in the graph. -/
def Covers (g : Graph) (K : Set Node) : Prop := ∀ n ∈ K, n.graph = g.id → n.index < g.size

/-- The nodes together with those of the graph. -/
def known (g : Graph) (K : Set Node) : Set Node := K ∪ { n | n ∈ g.nodes }

theorem subset_known (g : Graph) (K : Set Node) : K ⊆ g.known K := Set.subset_union_left

theorem mem_known_of_mem_nodes {n : Node} (h : n ∈ g.nodes) : n ∈ g.known K := .inr h

theorem Covers.known (h : g.Covers K) : g.Covers (g.known K) := by
  rintro n (hn | hn) hid
  · exact h n hn hid
  · exact (mem_nodes.1 hn).2

theorem Covers.extends (h : g.Covers K) (hg : g.Extends g') : g'.Covers K := fun n hn hid =>
  Nat.lt_of_lt_of_le (h n hn (hid.trans hg.id_eq)) hg.size_le

theorem Extends.known_subset (hg : g.Extends g') : g.known K ⊆ g'.known K := by
  rintro n (hn | hn)
  · exact .inl hn
  · exact .inr (hg.mem_nodes hn)

/-- A known node is refused only for being of another graph. -/
theorem Covers.eq_foreign (h : g.Covers K) {n : Node} {e : Error} (hn : n ∈ K)
    (he : refusal? (g.locate n) = some e) : n.graph ≠ g.id ∧ e = .foreign n g.id := by
  by_cases hid : n.graph = g.id
  · rw [refusal?_locate_eq_none.2 (mem_nodes.2 ⟨hid, h n hn hid⟩)] at he
    cases he
  · rw [locate_eq_foreign hid] at he
    exact ⟨hid, (Option.some.inj he).symm⟩

/-- So its refusal is confined. -/
theorem Covers.confined_refusal (h : g.Covers K) {n : Node} {e : Error} (hn : n ∈ K)
    (he : refusal? (g.locate n) = some e) : confined K e := by
  obtain ⟨-, rfl⟩ := h.eq_foreign hn he
  exact hn

theorem Covers.confined_first (h : g.Covers K) {ns : List Node} {e : Error} (hns : ∀ n ∈ ns, n ∈ K)
    (he : (ns.findSome? fun n => refusal? (g.locate n)) = some e) : confined K e := by
  obtain ⟨n, hn, hen⟩ := List.exists_of_findSome?_eq_some he
  exact h.confined_refusal (hns n hn) hen

end Graph

/-! ### Honest scripts -/

namespace Script

variable {Q : Type} {A : Q → Type} {α β : Type} [Confined Q] [∀ q, Confined (A q)] [Confined α]
  [Confined β] {K K' : Set Node}

/-- The script only uses nodes of `K` and those that it comes by on its way; so it does with every
larger set of nodes that holds the results of its appends, the answers to its questions and the
nodes of the graphs it looks at. -/
def Honest : Script Q A α → Set Node → Prop
  | .done a, K => confined K a
  | .look next, K => ∀ (g : Graph) (K' : Set Node), K ⊆ K' → (∀ n ∈ g.nodes, n ∈ K') →
      g.Covers K' → (next g).Honest K'
  | .append _ args next, K => confined K args ∧
      ∀ (r : Except Error Node) (K' : Set Node), K ⊆ K' → confined K' r → (next r).Honest K'
  | .ask q next, K => confined K q ∧
      ∀ (a : A q) (K' : Set Node), K ⊆ K' → confined K' a → (next a).Honest K'

theorem Honest.mono (h : K ⊆ K') : ∀ {s : Script Q A α}, s.Honest K → s.Honest K'
  | .done _, hs => Confined.mono h hs
  | .look _, hs => fun g _ hK => hs g _ (h.trans hK)
  | .append _ _ _, hs => ⟨Confined.mono h hs.1, fun r _ hK => hs.2 r _ (h.trans hK)⟩
  | .ask _ _, hs => ⟨Confined.mono h hs.1, fun a _ hK => hs.2 a _ (h.trans hK)⟩

theorem Honest.bind {f : α → Script Q A β} : ∀ {s : Script Q A α} {K : Set Node}, s.Honest K →
    (∀ (a : α) (K' : Set Node), K ⊆ K' → confined K' a → (f a).Honest K') → (s.bind f).Honest K
  | .done a, K, hs, hf => hf a K subset_rfl hs
  | .look _, _, hs, hf => fun g K' hK hg hc =>
    (hs g K' hK hg hc).bind fun a K'' hK' => hf a K'' (hK.trans hK')
  | .append _ _ _, _, hs, hf => ⟨hs.1, fun r K' hK hr =>
    (hs.2 r K' hK hr).bind fun a K'' hK' => hf a K'' (hK.trans hK')⟩
  | .ask _ _, _, hs, hf => ⟨hs.1, fun a K' hK ha =>
    (hs.2 a K' hK ha).bind fun b K'' hK' => hf b K'' (hK.trans hK')⟩

instance : Confined (Pause Q A α) where
  confined K
    | .done a => confined K a
    | .asks q next => (Script.ask q next).Honest K
  mono {_ _ p} h hp := by
    cases p with
    | done a => exact Confined.mono h hp
    | asks q next => exact Honest.mono h hp

/-- What an append gives back is confined to the nodes known after it. -/
theorem confined_append {g : Graph} {head : String} {args : List Value} (hg : g.Covers K)
    (hargs : confined (g.known K) args) :
    confined ((g.append head args).2.known K) (g.append head args).1 := by
  have hgrown := (g.extends_append head args).known_subset (K := K)
  rcases happend : g.append head args with ⟨e | n, g'⟩
  · have hrefusal := Graph.refusal?_append (g := g) head args
    rw [happend] at hgrown hrefusal
    rw [← Graph.findSome?_nodesOf] at hrefusal
    refine Confined.mono hgrown (hg.known.confined_first (fun n hn => ?_) hrefusal.symm)
    obtain ⟨v, hv, hvn⟩ := List.mem_filterMap.1 hn
    exact hargs v hv n hvn
  · obtain ⟨rfl, happended⟩ := Graph.appended_of_append happend
    refine Graph.mem_known_of_mem_nodes (Graph.mem_nodes.2 ⟨happended.grown.id_eq.symm, ?_⟩)
    rw [happended.size_eq]
    exact Nat.lt_succ_self _

/-- An honest script stops with what is confined to the nodes known then. -/
theorem Honest.advance : ∀ {s : Script Q A α} {g : Graph}, g.Covers K → s.Honest (g.known K) →
    confined ((s.advance g).2.known K) (s.advance g).1
  | .done _, _, _, hs => hs
  | .look next, g, hg, hs =>
    Honest.advance (s := next g) hg
      (hs g _ subset_rfl (fun _ => Graph.mem_known_of_mem_nodes) hg.known)
  | .append head args next, g, hg, hs => by
    have hgrown := g.extends_append head args
    exact Honest.advance (s := next (g.append head args).1) (hg.extends hgrown)
      (hs.2 _ _ hgrown.known_subset (confined_append hg hs.1))
  | .ask _ _, _, _, hs => hs

theorem Honest.run : ∀ {s : Silent α} {g : Graph}, g.Covers K → s.Honest (g.known K) →
    confined ((run s g).2.known K) (run s g).1
  | .done _, _, _, hs => hs
  | .look next, g, hg, hs =>
    Honest.run (s := next g) hg
      (hs g _ subset_rfl (fun _ => Graph.mem_known_of_mem_nodes) hg.known)
  | .append head args next, g, hg, hs => by
    have hgrown := g.extends_append head args
    exact Honest.run (s := next (g.append head args).1) (hg.extends hgrown)
      (hs.2 _ _ hgrown.known_subset (confined_append hg hs.1))
  | .ask q _, _, _, _ => q.elim

end Script

/-! ### Honest routines -/

namespace Routine

variable {Q : Type} {A : Q → Type} {σ α β : Type} [Confined Q] [∀ q, Confined (A q)] [Confined σ]
  [Confined α] [Confined β] {K : Set Node}

/-- The routine is honest from every state that is confined. -/
def Honest (K : Set Node) (a : Routine Q A σ α) : Prop :=
  ∀ (s : σ) (K' : Set Node), K ⊆ K' → confined K' s → Script.Honest (a s) K'

/-- The routine is honest for every argument that is confined. -/
def HonestFrom (K : Set Node) (f : β → Routine Q A σ α) : Prop :=
  ∀ (x : β) (K' : Set Node), K ⊆ K' → confined K' x → Honest K' (f x)

theorem Honest.mono {K' : Set Node} {a : Routine Q A σ α} (h : K ⊆ K') (ha : Honest K a) :
    Honest K' a :=
  fun s _ hK => ha s _ (h.trans hK)

theorem HonestFrom.mono {K' : Set Node} {f : β → Routine Q A σ α} (h : K ⊆ K')
    (hf : HonestFrom K f) : HonestFrom K' f := fun x _ hK => hf x _ (h.trans hK)

theorem honest_lift {r : Except Error α} (h : confined K r) : Honest K (lift r : Routine Q A σ α) :=
  fun _ _ hK hs => ⟨Confined.mono hK h, hs⟩

theorem honest_pure {x : α} (h : confined K x) : Honest K (pure x : Routine Q A σ α) :=
  honest_lift (r := .ok x) h

theorem honest_throw {e : Error} (h : confined K e) : Honest K (throw e : Routine Q A σ α) :=
  honest_lift (r := .error e) h

theorem honest_get : Honest K (get : Routine Q A σ σ) := fun _ _ _ hs => ⟨hs, hs⟩

theorem honest_modify {f : σ → σ}
    (h : ∀ (s : σ) (K' : Set Node), K ⊆ K' → confined K' s → confined K' (f s)) :
    Honest K (modify f : Routine Q A σ PUnit) :=
  fun s _ hK hs => ⟨trivial, h s _ hK hs⟩

theorem honest_look {f : Graph → Except Error α} (h : ∀ (g : Graph) (K' : Set Node), K ⊆ K' →
    (∀ n ∈ g.nodes, n ∈ K') → g.Covers K' → confined K' (f g)) :
    Honest K (look f : Routine Q A σ α) :=
  fun _ _ hK hs g _ hK' hg hc => ⟨h g _ (hK.trans hK') hg hc, Confined.mono hK' hs⟩

theorem honest_append (head : String) {args : List Value} (h : confined K args) :
    Honest K (append head args : Routine Q A σ Node) :=
  fun _ _ hK hs => ⟨Confined.mono hK h, fun _ _ hK' hr => ⟨hr, Confined.mono hK' hs⟩⟩

/-- One honest routine after another. -/
theorem Honest.bind {a : Routine Q A σ α} {f : α → Routine Q A σ β} (ha : Honest K a)
    (hf : HonestFrom K f) : Honest K (a >>= f) := by
  intro s K' hK hs
  have hbind : (a >>= f) s = (a s).bind fun r =>
      (ExceptT.bindCont f r.1 : StateT σ (Script Q A) _) r.2 := rfl
  rw [hbind]
  refine (ha s K' hK hs).bind fun ⟨r, s'⟩ K'' hK' hr => ?_
  cases r with
  | error e => exact hr
  | ok x => exact hf x K'' (hK.trans hK') hr.1 s' K'' subset_rfl hr.2

theorem honest_forM {visit : β → Routine Q A σ Unit} (hvisit : HonestFrom K visit) :
    ∀ {xs : List β}, confined K xs → Honest K (xs.forM visit)
  | [], _ => honest_pure trivial
  | x :: xs, hxs => by
    refine Honest.bind (hvisit x K subset_rfl (hxs x (List.mem_cons_self ..))) fun _ K' hK _ => ?_
    exact (honest_forM hvisit fun y hy => hxs y (List.mem_cons_of_mem _ hy)).mono hK

/-- What an honest action ends with is confined to the nodes known then. -/
theorem Honest.run {a : Action σ α} {s : σ} {g : Graph} (hg : g.Covers K) (ha : Honest K a)
    (hs : confined K s) :
    confined ((run a s g).2.2.known K) (run a s g).1
      ∧ confined ((run a s g).2.2.known K) (run a s g).2.1 :=
  Script.Honest.run (s := a s) hg
    (ha s _ (g.subset_known K) (Confined.mono (g.subset_known K) hs))

end Routine

end TermGraph
