import Mathlib
import DpdkGraph.EdgeVisibility

/-!
# The order of the vertices

`crucial_updates` calls `update` for the scheduled vertices of the interval
from several threads, so that the requests of different calls come in any
order. A program that writes to its own vertex and its out-edges only never
notices: a call reads blocks that nobody writes to while the worker
computes, and the slots of its own out-edges, to which no other vertex
writes.

What a call comes to that is let alone (`Update.settle`) is therefore what
it comes to among the others (`Pending`). Nothing is said about which slot an
edge has: that the slots which different vertices write to differ holds of
what the two loaders add, empty blocks or not.
-/

namespace Engine

open VertexProgram
open Transition (Run)

variable {V E : Type} {x : Input V E} {part : IntervalPartition}

/-! ## Where the objects point to -/

/-- **The objects keep apart.** What is read through an object is in a block,
or it is what is written through the object; the out-edges are written to in
the given cells, each in one of its own. -/
structure Apart (cells : Set Ptr) (added : Added) : Prop where
  /-- What is read is in a block, or is the cell that is written. -/
  read : ∀ a ∈ added, (∃ p i, a.2.2.dataPtr = .inbuf p i) ∨
    a.2.1 = .outedge ∧ a.2.2.dataPtr = a.2.2.target
  /-- An out-edge is written in one of the cells. -/
  written : ∀ a ∈ added, a.2.1 = .outedge → a.2.2.target ∈ cells
  /-- Different out-edges have different cells. -/
  differ : added.Pairwise fun a b =>
    a.2.1 = .outedge → b.2.1 = .outedge → a.2.2.target ≠ b.2.2.target

namespace Apart

variable {cells cells' : Set Ptr} {added added' : Added}

theorem nil : Apart cells [] where
  read _ ha := absurd ha List.not_mem_nil
  written _ ha := absurd ha List.not_mem_nil
  differ := List.Pairwise.nil

theorem mono (h : Apart cells added) (hsub : cells ⊆ cells') :
    Apart cells' added where
  read := h.read
  written a ha hout := hsub (h.written a ha hout)
  differ := h.differ

/-- Two loaders that write in different cells. -/
theorem append (h : Apart cells added) (h' : Apart cells' added')
    (hdis : Disjoint cells cells') : Apart (cells ∪ cells') (added ++ added') where
  read a ha := (List.mem_append.mp ha).elim (h.read a) (h'.read a)
  written a ha hout := by
    rcases List.mem_append.mp ha with ha | ha
    · exact Or.inl (h.written a ha hout)
    · exact Or.inr (h'.written a ha hout)
  differ := by
    refine List.pairwise_append.mpr ⟨h.differ, h'.differ, ?_⟩
    intro a ha b hb hout hout' heq
    refine Set.disjoint_left.mp hdis (h.written a ha hout) ?_
    rw [heq]
    exact h'.written b hb hout'

/-- An in-edge object whose value is in a block. -/
theorem inedge (v : ℕ) {e : Edge} {p i : ℕ} (h : e.dataPtr = .inbuf p i) :
    Apart ∅ [(v, .inedge, e)] where
  read a ha := by
    rw [List.mem_singleton.mp ha]
    exact Or.inl ⟨p, i, h⟩
  written a ha hout := by
    rw [List.mem_singleton.mp ha] at hout
    cases hout
  differ := List.pairwise_singleton _ _

/-- An out-edge object whose value is in a block or in its own cell. -/
theorem outedge (v : ℕ) {e : Edge}
    (h : (∃ p i, e.dataPtr = .inbuf p i) ∨ e.dataPtr = e.target) :
    Apart {e.target} [(v, .outedge, e)] where
  read a ha := by
    rw [List.mem_singleton.mp ha]
    exact h.imp_right fun h => ⟨rfl, h⟩
  written a ha _ := by
    rw [List.mem_singleton.mp ha]
    rfl
  differ := List.pairwise_singleton _ _

/-- The objects of one loader after the other. -/
theorem flatMap {cells : ℕ → Set Ptr} {f : ℕ → Added} {ps : List ℕ}
    (h : ∀ p ∈ ps, Apart (cells p) (f p)) (hnodup : ps.Nodup)
    (hdis : ∀ p q, p ≠ q → Disjoint (cells p) (cells q)) :
    Apart (⋃ p ∈ ps, cells p) (ps.flatMap f) := by
  induction ps with
  | nil => exact nil
  | cons p ps ih =>
    obtain ⟨hp, hps⟩ := List.nodup_cons.mp hnodup
    rw [List.flatMap_cons]
    refine mono ((h p List.mem_cons_self).append
      (ih (fun q hq => h q (List.mem_cons_of_mem _ hq)) hps) ?_) ?_
    · refine Set.disjoint_iUnion₂_right.mpr fun q hq => hdis p q ?_
      rintro rfl
      exact hp hq
    · refine Set.union_subset ?_ ?_
      · exact Set.subset_biUnion_of_mem (u := cells) List.mem_cons_self
      · exact Set.biUnion_subset_biUnion_left
          fun q hq => List.mem_cons_of_mem _ hq

end Apart

/-- The objects that `load_vertices_XG` adds: the out-edges have a slot of
the copy each, in the order in which they come. -/
theorem loadVerticesFrom_apart (blocksizes : ℕ → ℕ) (own : ℕ → Bool)
    (es : List (EdgeWithValue E × ℕ)) :
    ∀ c : Cursor, Apart {p | ∃ k, c.edgeptrSyn ≤ k ∧ p = .mainToMain k}
      (loadVerticesFrom blocksizes own c es) := by
  induction es with
  | nil => exact fun c => Apart.nil
  | cons n es ih =>
    obtain ⟨e, k⟩ := n
    intro c
    have hrest := ih (c.next blocksizes (own e.src))
    have hsyn : (c.next blocksizes (own e.src)).edgeptrSyn =
        if own e.src then c.edgeptrSyn + 1 else c.edgeptrSyn := by
      unfold Cursor.next
      dsimp only
      split <;> rfl
    rw [hsyn] at hrest
    unfold loadVerticesFrom
    dsimp only
    rw [List.append_assoc]
    by_cases hown : own e.src = true
    · rw [if_pos hown] at hrest ⊢
      refine Apart.mono (Apart.append (Apart.outedge _ (Or.inl ⟨_, _, rfl⟩))
        (Apart.append (Apart.inedge _ rfl) hrest (Set.empty_disjoint _)) ?_) ?_
      · refine Set.disjoint_left.mpr ?_
        rintro p rfl (hp | ⟨j, hj, heq⟩)
        · exact hp
        · have heq := Ptr.mainToMain.inj heq
          omega
      · rintro p (rfl | hp | ⟨j, hj, rfl⟩)
        · exact ⟨c.edgeptrSyn, le_rfl, rfl⟩
        · exact absurd hp (Set.notMem_empty p)
        · exact ⟨j, by omega, rfl⟩
    · rw [if_neg hown] at hrest
      rw [if_neg hown, List.nil_append]
      refine Apart.mono (Apart.append (Apart.inedge _ rfl) hrest
        (Set.empty_disjoint _)) ?_
      rw [Set.empty_union]

/-- The objects that `read_next_vertices_XG` adds have a slot of the `obuf`
each. -/
theorem readNextVerticesXG_apart (w p : ℕ) :
    Apart {c | ∃ i, c = .obuf p i} (readNextVerticesXG x part w p) where
  read a ha := by
    obtain ⟨n, -, rfl⟩ := List.mem_map.mp ha
    exact Or.inr ⟨rfl, rfl⟩
  written a ha _ := by
    obtain ⟨n, -, rfl⟩ := List.mem_map.mp ha
    exact ⟨n.2, rfl⟩
  differ := by
    refine List.pairwise_map.mpr ?_
    have hslots : ((x.outFile part w p).zipIdx.map Prod.snd).Nodup := by
      rw [List.zipIdx_map_snd]
      exact List.nodup_range'
    refine (List.pairwise_map.mp hslots).imp fun {a b} hne _ _ heq => ?_
    exact hne (Ptr.obuf.inj heq).2

/-- The cells that a worker writes to while it computes. -/
def written (part : IntervalPartition) (w : ℕ) : Set Ptr :=
  {p | ∃ k, 0 ≤ k ∧ p = .mainToMain k} ∪
    ⋃ p ∈ (List.range part.nshards).filter (· ≠ w), {c | ∃ i, c = .obuf p i}

theorem loadBeforeUpdates_apart (w : ℕ) :
    Apart (written part w) (loadBeforeUpdates x part w) := by
  refine Apart.append (loadVerticesFrom_apart _ _ _ (.start _))
    (Apart.flatMap (fun p _ => readNextVerticesXG_apart w p)
      (List.nodup_range.filter _) ?_) ?_
  · intro p q hne
    refine Set.disjoint_left.mpr ?_
    rintro c ⟨i, rfl⟩ ⟨j, heq⟩
    exact hne (Ptr.obuf.inj heq).1
  · refine Set.disjoint_left.mpr ?_
    rintro c ⟨k, -, rfl⟩ hc
    obtain ⟨p, -, i, heq⟩ := Set.mem_iUnion₂.mp hc
    cases heq

/-- No block is among them. -/
theorem inbuf_notMem_written (w p i : ℕ) : .inbuf p i ∉ written part w := by
  rintro (⟨k, -, heq⟩ | hc)
  · cases heq
  · obtain ⟨q, -, j, heq⟩ := Set.mem_iUnion₂.mp hc
    cases heq

/-! ## One worker computes -/

namespace Job

variable (job : Job x)

/-- The objects of a vertex are among those that the worker has added. -/
theorem mem_added {w v : ℕ} {side : Side} {e : Edge}
    (he : e ∈ job.edges w side v) :
    (v, side, e) ∈ loadBeforeUpdates x job.part w := by
  have hmem : e ∈ (loadBeforeUpdates x job.part w).edges side v := by
    cases side with
    | inedge => exact he
    | outedge => exact (job.added w v).mem_iff.mp he
  obtain ⟨⟨u, side', e'⟩, ha, rfl⟩ := List.mem_map.mp hmem
  obtain ⟨hadded, hkey⟩ := List.mem_filter.mp ha
  obtain ⟨hv, hside⟩ := of_decide_eq_true hkey
  obtain rfl : u = v := hv
  obtain rfl : side' = side := hside
  exact hadded

/-- The cells that a vertex writes to. -/
def Owns (w v : ℕ) (c : Ptr) : Prop := ∃ e ∈ job.edges w .outedge v, e.target = c

instance (w v : ℕ) : DecidablePred (job.Owns w v) := fun c =>
  inferInstanceAs (Decidable (∃ e ∈ job.edges w .outedge v, e.target = c))

variable {job}

theorem Owns.not_inbuf {w v : ℕ} {c : Ptr} (h : job.Owns w v c) (p i : ℕ) :
    c ≠ .inbuf p i := by
  obtain ⟨e, he, rfl⟩ := h
  rintro heq
  have hnot : Ptr.inbuf p i ∉ written job.part w := inbuf_notMem_written w p i
  refine hnot ?_
  rw [← heq]
  exact (loadBeforeUpdates_apart w).written _ (job.mem_added he) rfl

/-- **No cell has two owners.** -/
theorem Owns.unique {w u v : ℕ} {c : Ptr} (hu : job.Owns w u c)
    (hv : job.Owns w v c) : u = v := by
  obtain ⟨e, he, rfl⟩ := hu
  obtain ⟨e', he', heq⟩ := hv
  have hapart : Apart (written job.part w) (loadBeforeUpdates x job.part w) :=
    loadBeforeUpdates_apart w
  have hdiffer := hapart.differ
  by_contra hne
  have hne : ((u, Side.outedge, e) : ℕ × Side × Edge) ≠ (v, Side.outedge, e') :=
    fun h => hne (congrArg Prod.fst h)
  have hsymm : Std.Symm fun a b : ℕ × Side × Edge => a.2.1 = .outedge →
      b.2.1 = .outedge → a.2.2.target ≠ b.2.2.target :=
    ⟨fun a b h hb ha heq => h ha hb heq.symm⟩
  exact hdiffer.forall (job.mem_added he) (job.mem_added he') hne rfl rfl
    heq.symm

/-- What a vertex reads of an edge is in a block or its own. -/
theorem read_cases {w v : ℕ} {side : Side} {e : Edge}
    (he : e ∈ job.edges w side v) :
    (∃ p i, e.dataPtr = .inbuf p i) ∨ job.Owns w v e.dataPtr := by
  rcases (loadBeforeUpdates_apart w).read _ (job.mem_added he) with
    hin | ⟨hside, heq⟩
  · exact Or.inl hin
  · obtain rfl : side = .outedge := hside
    exact Or.inr ⟨e, he, heq.symm⟩

end Job

/-- **What a call comes to** that is let alone: the vertex data and the
buffers in the end. There is no result where it asks for an edge that is not
there. -/
def settle (edges : Side → List Edge) :
    Update V E Unit → V → Memory E → Option (V × Memory E)
  | .done _, d, m => some (d, m)
  | .getData next, d, m => settle edges (next d) d m
  | .setData d next, _, m => settle edges next d m
  | .getEdge side i next, d, m =>
    (edges side)[i]?.bind fun e => settle edges (next (e.getData m)) d m
  | .setEdge side i y next, d, m =>
    (edges side)[i]?.bind fun e => settle edges next d (e.setData m y)

/-- The buffers if the vertex had been the only one to write since they were
`base`. -/
def ownView (job : Job x) (w v : ℕ) (base m : Memory E) : Memory E := fun c =>
  if job.Owns w v c then m c else base c

section View

variable {job : Job x} {w v : ℕ} {base m : Memory E}

theorem ownView_self : ownView job w v base base = base := by
  funext c
  unfold ownView
  rw [ite_self]

/-- A write to a cell of the vertex. -/
theorem ownView_update_of_owns {c : Ptr} (hc : job.Owns w v c) (y : E) :
    ownView job w v base (Function.update m c y) =
      Function.update (ownView job w v base m) c y := by
  funext c'
  unfold ownView
  by_cases heq : c' = c
  · subst heq
    rw [if_pos hc, Function.update_self, Function.update_self]
  · rw [Function.update_of_ne heq, Function.update_of_ne heq]

/-- While the blocks are as they were, the vertex reads the same there. -/
theorem getData_ownView {side : Side} {e : Edge}
    (hblocks : ∀ p i, m (.inbuf p i) = base (.inbuf p i))
    (he : e ∈ job.edges w side v) :
    e.getData (ownView job w v base m) = e.getData m := by
  unfold Edge.getData ownView
  split
  · rfl
  · next hnot =>
    obtain ⟨p, i, heq⟩ := (Job.read_cases he).resolve_right hnot
    rw [heq, hblocks]

end View

/-! ## Calls among other calls -/

/-- What the call of a vertex comes to, if no other vertex wrote any more. -/
def comesTo (job : Job x) (w v : ℕ) (base : Memory E) (s : State V E) :
    Option (V × Memory E) :=
  settle (fun side => job.edges w side v) ((s.worker w).todo v)
    ((s.worker w).value v) (ownView job w v base (s.worker w).memory)

/-- **The calls of worker `w` on their way**: `s` is the state in which they
began and `s'` the one in which they are. -/
structure Pending (job : Job x) (w : ℕ) (s s' : State V E) : Prop where
  /-- The other workers, and what no call changes. -/
  others : ∀ u, u ≠ w → s'.worker u = s.worker u
  iter : (s'.worker w).iter = (s.worker w).iter
  phase : (s'.worker w).phase = (s.worker w).phase
  got : (s'.worker w).got = (s.worker w).got
  /-- The vertices of the other intervals. -/
  idle : ∀ v, ¬job.part.Mem w v →
    (s'.worker w).todo v = (s.worker w).todo v ∧
      (s'.worker w).value v = (s.worker w).value v
  /-- The cells that belong to no vertex of the interval. -/
  untouched : ∀ c, (∀ v, job.part.Mem w v → ¬job.Owns w v c) →
    (s'.worker w).memory c = (s.worker w).memory c
  /-- The calls write to no in-edge. -/
  out : ∀ v, job.part.Mem w v → ((s'.worker w).todo v).OutOnly
  /-- What a call comes to does not change on its way. -/
  settled : ∀ v, job.part.Mem w v →
    comesTo job w v (s.worker w).memory s' =
      settle (fun side => job.edges w side v) ((s.worker w).todo v)
        ((s.worker w).value v) (s.worker w).memory

variable {job : Job x} {w : ℕ} {s s' s'' : State V E}

theorem Pending.start (hout : ∀ v, job.part.Mem w v →
    ((s.worker w).todo v).OutOnly) : Pending job w s s where
  others _ _ := rfl
  iter := rfl
  phase := rfl
  got := rfl
  idle _ _ := ⟨rfl, rfl⟩
  untouched _ _ := rfl
  out := hout
  settled v _ := by
    unfold comesTo
    rw [ownView_self]

theorem Pending.blocks (h : Pending job w s s') (p i : ℕ) :
    (s'.worker w).memory (.inbuf p i) = (s.worker w).memory (.inbuf p i) :=
  h.untouched _ fun _ _ howns => howns.not_inbuf p i rfl

/-- **A request of vertex `v`**: its call goes on, and the buffers change in
cells of the vertex only. -/
theorem Pending.request_of (h : Pending job w s s') {v : ℕ}
    (hv : job.part.Mem w v) {y : Worker V E}
    (hworker : ∀ u, s''.worker u = Function.update s'.worker w y u)
    (hiter : y.iter = (s'.worker w).iter)
    (hphase : y.phase = (s'.worker w).phase) (hgot : y.got = (s'.worker w).got)
    (hothers : ∀ u, u ≠ v → y.todo u = (s'.worker w).todo u ∧
      y.value u = (s'.worker w).value u)
    (hcells : ∀ c, ¬job.Owns w v c → y.memory c = (s'.worker w).memory c)
    (hout : (y.todo v).OutOnly)
    (hsettle : settle (fun side => job.edges w side v) (y.todo v) (y.value v)
        (ownView job w v (s.worker w).memory y.memory) =
      comesTo job w v (s.worker w).memory s') : Pending job w s s'' := by
  have hself : s''.worker w = y := by
    rw [hworker, Function.update_self]
  -- what another vertex sees of its own cells stays
  have hview : ∀ u, u ≠ v → job.part.Mem w u →
      ownView job w u (s.worker w).memory y.memory =
        ownView job w u (s.worker w).memory (s'.worker w).memory := by
    intro u hu _
    funext c
    unfold ownView
    split
    · next howns =>
      exact hcells c fun hv => hu (howns.unique hv)
    · rfl
  refine ⟨fun u hu => ?_, ?_, ?_, ?_, fun u hu => ?_, fun c hc => ?_,
    fun u hu => ?_, fun u hu => ?_⟩
  · rw [hworker, Function.update_of_ne hu]
    exact h.others u hu
  · rw [hself, hiter, h.iter]
  · rw [hself, hphase, h.phase]
  · rw [hself, hgot, h.got]
  · have hne : u ≠ v := fun heq => hu (heq ▸ hv)
    rw [hself, (hothers u hne).1, (hothers u hne).2]
    exact h.idle u hu
  · rw [hself, hcells c (hc v hv)]
    exact h.untouched c hc
  · rw [hself]
    by_cases hne : u = v
    · rw [hne]
      exact hout
    · rw [(hothers u hne).1]
      exact h.out u hu
  · rw [← h.settled u hu]
    unfold comesTo
    rw [hself]
    by_cases hne : u = v
    · rw [hne]
      exact hsettle
    · rw [(hothers u hne).1, (hothers u hne).2, hview u hne hu]

/-- **A request leaves what the calls come to.** The call of the vertex is one
request further, on the cells it owns; the other calls see nothing of it,
because they read no cell that another vertex writes to. -/
theorem Pending.request (h : Pending job w s s') {v : ℕ}
    (hstep : requestStep job s' w v = some s'') : Pending job w s s'' := by
  unfold requestStep at hstep
  split at hstep
  case isFalse => cases hstep
  case isTrue hguard =>
    obtain ⟨hv, -⟩ := hguard
    have hout := h.out v hv
    have hrest : ∀ (t : Update V E Unit) (u : ℕ), u ≠ v →
        Function.update (s'.worker w).todo v t u = (s'.worker w).todo u :=
      fun t u hu => Function.update_of_ne hu _ _
    cases htodo : (s'.worker w).todo v with
    | done a =>
      rw [htodo] at hstep
      cases hstep
    | getData next =>
      rw [htodo] at hstep hout
      obtain rfl := Option.some.inj hstep
      refine h.request_of hv (fun _ => rfl) rfl rfl rfl
        (fun u hu => ⟨hrest _ u hu, rfl⟩) (fun _ _ => rfl) ?_ ?_
      · dsimp only
        rw [Function.update_self]
        exact hout _
      · dsimp only
        unfold comesTo
        rw [Function.update_self, htodo]
        rfl
    | setData d next =>
      rw [htodo] at hstep hout
      obtain rfl := Option.some.inj hstep
      refine h.request_of hv (fun _ => rfl) rfl rfl rfl
        (fun u hu => ⟨hrest _ u hu, Function.update_of_ne hu _ _⟩)
        (fun _ _ => rfl) ?_ ?_
      · dsimp only
        rw [Function.update_self]
        exact hout
      · dsimp only
        unfold comesTo
        rw [Function.update_self, Function.update_self, htodo]
        rfl
    | getEdge side i next =>
      rw [htodo] at hstep hout
      obtain ⟨e, he, rfl⟩ := Option.map_eq_some_iff.mp hstep
      refine h.request_of hv (fun _ => rfl) rfl rfl rfl
        (fun u hu => ⟨hrest _ u hu, rfl⟩) (fun _ _ => rfl) ?_ ?_
      · dsimp only
        rw [Function.update_self]
        exact hout _
      · dsimp only
        -- an edge is read from a cell of the vertex, or from one that no call writes
        -- to
        unfold comesTo
        rw [Function.update_self, htodo, settle, he, Option.bind_some,
          getData_ownView h.blocks (List.mem_of_getElem? he)]
    | setEdge side i d next =>
      rw [htodo] at hstep hout
      obtain ⟨e, he, rfl⟩ := Option.map_eq_some_iff.mp hstep
      obtain ⟨rfl, hout⟩ := hout
      -- what is written to is an out-edge, a cell of the vertex
      have howns : job.Owns w v e.target := ⟨e, List.mem_of_getElem? he, rfl⟩
      refine h.request_of hv (fun _ => rfl) rfl rfl rfl
        (fun u hu => ⟨hrest _ u hu, rfl⟩) (fun c hc => ?_) ?_ ?_
      · refine Function.update_of_ne ?_ _ _
        rintro rfl
        exact hc howns
      · dsimp only
        rw [Function.update_self]
        exact hout
      · dsimp only
        unfold comesTo
        rw [Function.update_self, htodo, settle, he, Option.bind_some]
        unfold Edge.setData
        rw [ownView_update_of_owns howns]

/-! ## `crucial_updates` -/

/-- The worker calls `update` for the scheduled vertices. -/
def calls (job : Job x) (w : ℕ) (scheduled : ℕ → Bool) (s : State V E) :
    State V E :=
  s.setWorker w
    { s.worker w with
      todo := fun v =>
        if scheduled v then
          x.program (s.worker w).iter (job.vertex w v)
        else .done ()
      phase := .computing }

/-- **`crucial_updates`** of worker `w`, whose threads take the requests of
the calls in the order `order`: they end in `s'`, where all calls have
returned. A vertex after the other is the order that has the requests of
each vertex together. -/
structure CrucialUpdates (job : Job x) (w : ℕ) (scheduled : ℕ → Bool)
    (s : State V E) (order : List ℕ) (s' : State V E) : Prop where
  /-- The requests, in this order. -/
  run : Run (fun s v => requestStep job s w v) (fun _ _ => True)
    (calls job w scheduled s) order s'
  /-- All calls have returned. -/
  returned : ∀ v, job.part.Mem w v → ((s'.worker w).todo v).isDone = true

theorem pending_of_run {scheduled : ℕ → Bool} {order : List ℕ}
    (hprogram : ∀ iteration vertex, (x.program iteration vertex).OutOnly)
    (hrun : Run (fun s v => requestStep job s w v) (fun _ _ => True)
      (calls job w scheduled s) order s') :
    Pending job w (calls job w scheduled s) s' := by
  refine hrun.invariant (I := Pending job w (calls job w scheduled s))
    (fun _ _ _ h _ hstep => h.request hstep) (Pending.start fun v _ => ?_)
  unfold calls
  rw [setWorker_self]
  dsimp only
  split
  · exact hprogram _ _
  · trivial

/-- When its call has returned, a vertex and its cells are what the call
comes to. -/
theorem Pending.settled_eq (h : Pending job w s s') {v : ℕ}
    (hv : job.part.Mem w v)
    (hdone : ((s'.worker w).todo v).isDone = true) :
    settle (fun side => job.edges w side v) ((s.worker w).todo v)
        ((s.worker w).value v) (s.worker w).memory =
      some ((s'.worker w).value v,
        ownView job w v (s.worker w).memory (s'.worker w).memory) := by
  rw [← h.settled v hv]
  unfold comesTo
  cases htodo : (s'.worker w).todo v with
  | done a => rfl
  | _ =>
    rw [htodo] at hdone
    cases hdone

/-- **Where all calls have returned there is one state of the workers.** A
vertex has the value its call comes to, a cell with an owner what the owner's
call leaves there, and any other cell what it had. -/
theorem Pending.worker_eq {s₁ s₂ : State V E} (h₁ : Pending job w s s₁)
    (h₂ : Pending job w s s₂)
    (hdone₁ : ∀ v, job.part.Mem w v → ((s₁.worker w).todo v).isDone = true)
    (hdone₂ : ∀ v, job.part.Mem w v → ((s₂.worker w).todo v).isDone = true) :
    s₁.worker = s₂.worker := by
  have hsame : ∀ v, job.part.Mem w v →
      (s₁.worker w).value v = (s₂.worker w).value v ∧
        ownView job w v (s.worker w).memory (s₁.worker w).memory =
          ownView job w v (s.worker w).memory (s₂.worker w).memory := by
    intro v hv
    have heq := (h₁.settled_eq hv (hdone₁ v hv)).symm.trans
      (h₂.settled_eq hv (hdone₂ v hv))
    exact Prod.ext_iff.mp (Option.some.inj heq)
  -- cell by cell: an owner, or untouched
  have hmemory : (s₁.worker w).memory = (s₂.worker w).memory := by
    funext c
    by_cases hc : ∃ v, job.part.Mem w v ∧ job.Owns w v c
    · obtain ⟨v, hv, howns⟩ := hc
      have heq := congrFun (hsame v hv).2 c
      unfold ownView at heq
      rw [if_pos howns, if_pos howns] at heq
      exact heq
    · have hc : ∀ v, job.part.Mem w v → ¬job.Owns w v c :=
        fun v hv howns => hc ⟨v, hv, howns⟩
      rw [h₁.untouched c hc, h₂.untouched c hc]
  have hvalue : (s₁.worker w).value = (s₂.worker w).value := by
    funext v
    by_cases hv : job.part.Mem w v
    · exact (hsame v hv).1
    · rw [(h₁.idle v hv).2, (h₂.idle v hv).2]
  -- a call that has returned is `done`, and nothing else
  have htodo : (s₁.worker w).todo = (s₂.worker w).todo := by
    funext v
    by_cases hv : job.part.Mem w v
    · have hd₁ := hdone₁ v hv
      have hd₂ := hdone₂ v hv
      cases heq₁ : (s₁.worker w).todo v <;> cases heq₂ : (s₂.worker w).todo v <;>
        simp_all [Update.isDone]
    · rw [(h₁.idle v hv).1, (h₂.idle v hv).1]
  funext u
  by_cases hu : u = w
  · subst hu
    have hiter := h₁.iter.trans h₂.iter.symm
    have hphase := h₁.phase.trans h₂.phase.symm
    have hgot := h₁.got.trans h₂.got.symm
    cases heq₁ : s₁.worker u
    cases heq₂ : s₂.worker u
    simp_all
  · rw [h₁.others u hu, h₂.others u hu]

/-- What happens next depends on the workers only. -/
theorem step_congr {t : State V E} (h : s.worker = t.worker) {a : Action}
    (hstep : step job s a = some s') :
    ∃ t', step job t a = some t' ∧ s'.worker = t'.worker := by
  obtain ⟨worker, writes, found⟩ := s
  obtain ⟨worker', writes', found'⟩ := t
  obtain rfl : worker = worker' := h
  cases a with
  | begin u =>
    simp only [step, beginStep] at hstep ⊢
    split at hstep
    · next hguard =>
      cases hstep
      exact ⟨_, if_pos hguard, rfl⟩
    · cases hstep
  | request u v =>
    simp only [step, requestStep] at hstep ⊢
    split at hstep
    case isFalse => cases hstep
    case isTrue hguard =>
      rw [if_pos hguard]
      cases htodo : (worker u).todo v with
      | done a =>
        rw [htodo] at hstep
        cases hstep
      | getData next =>
        rw [htodo] at hstep
        cases hstep
        exact ⟨_, rfl, rfl⟩
      | setData d next =>
        rw [htodo] at hstep
        cases hstep
        exact ⟨_, rfl, rfl⟩
      | getEdge side i next =>
        rw [htodo] at hstep
        obtain ⟨e, he, rfl⟩ := Option.map_eq_some_iff.mp hstep
        exact ⟨_, Option.map_eq_some_iff.mpr ⟨e, he, rfl⟩, rfl⟩
      | setEdge side i d next =>
        rw [htodo] at hstep
        obtain ⟨e, he, rfl⟩ := Option.map_eq_some_iff.mp hstep
        exact ⟨_, Option.map_eq_some_iff.mpr ⟨e, he, rfl⟩, rfl⟩
  | finish u =>
    simp only [step, finishStep] at hstep ⊢
    split at hstep
    · next hguard =>
      cases hstep
      exact ⟨_, if_pos hguard, rfl⟩
    · cases hstep
  | deliver p u =>
    simp only [step, deliverStep] at hstep ⊢
    split at hstep
    · next hguard =>
      cases hstep
      exact ⟨_, if_pos hguard, rfl⟩
    · cases hstep
  | sync u =>
    simp only [step, syncStep] at hstep ⊢
    split at hstep
    · next hguard =>
      cases hstep
      exact ⟨_, if_pos hguard, rfl⟩
    · cases hstep

/-- The same steps lead on from two states with the same workers. -/
theorem run_congr {t : State V E} {as : List Action}
    (hrun : Run (step job) (fun _ _ => True) s as s') (h : s.worker = t.worker) :
    ∃ t', Run (step job) (fun _ _ => True) t as t' ∧ s'.worker = t'.worker := by
  induction hrun generalizing t with
  | nil s => exact ⟨t, Run.nil t, h⟩
  | cons _ hstep _ ih =>
    obtain ⟨u, hu, hworker⟩ := step_congr h hstep
    obtain ⟨t', hrun, heq⟩ := ih hworker
    exact ⟨t', Run.cons trivial hu hrun, heq⟩

/-! ## No order gets stuck -/

/-- The call of vertex `v` can be taken to its end, among the others. -/
def Returns (job : Job x) (w v : ℕ) (s : State V E) : Prop :=
  ∃ order s', Run (fun s v => requestStep job s w v) (fun _ _ => True)
      s order s' ∧
    ((s'.worker w).todo v).isDone = true ∧
    ∀ u, u ≠ v → (s'.worker w).todo u = (s.worker w).todo u

/-- Worker `w` computes, and the call of vertex `v` comes to something when
it is let alone. -/
structure Ready (job : Job x) (w v : ℕ) (s s' : State V E) : Prop where
  pending : Pending job w s s'
  computing : (s'.worker w).phase = .computing
  comes : (settle (fun side => job.edges w side v) ((s.worker w).todo v)
    ((s.worker w).value v) (s.worker w).memory).isSome = true

variable {v : ℕ}

/-- The next request of a call, and the rest of it. -/
theorem Ready.returns_of_answer (h : Ready job w v s s')
    (hv : job.part.Mem w v) {next : Update V E Unit}
    (hanswer : answer job s' w v ((s'.worker w).todo v) = some s'')
    (htodo : (s''.worker w).todo = Function.update (s'.worker w).todo v next)
    (hrest : Ready job w v s s'' → (s''.worker w).todo v = next →
      Returns job w v s'') : Returns job w v s' := by
  have hstep : requestStep job s' w v = some s'' := by
    unfold requestStep
    rw [if_pos ⟨hv, h.computing⟩]
    exact hanswer
  have hnext := h.pending.request hstep
  have hphase : (s''.worker w).phase = .computing := by
    rw [hnext.phase, ← h.pending.phase]
    exact h.computing
  obtain ⟨order, t, hrun, hdone, hothers⟩ := hrest ⟨hnext, hphase, h.comes⟩
    (by rw [htodo, Function.update_self])
  refine ⟨v :: order, t, Run.cons trivial hstep hrun, hdone, fun u hu => ?_⟩
  rw [hothers u hu, htodo, Function.update_of_ne hu]

/-- The edge that a call asks for is there. -/
theorem Ready.exists_edge (h : Ready job w v s s') (hv : job.part.Mem w v)
    {side : Side} {i : ℕ} {f : Edge → Option (V × Memory E)}
    (hsettle : settle (fun side => job.edges w side v) ((s'.worker w).todo v)
        ((s'.worker w).value v)
        (ownView job w v (s.worker w).memory (s'.worker w).memory) =
      (job.edges w side v)[i]?.bind f) :
    ∃ e, (job.edges w side v)[i]? = some e := by
  have hcomes := h.comes
  rw [← h.pending.settled v hv] at hcomes
  unfold comesTo at hcomes
  rw [hsettle] at hcomes
  obtain ⟨r, hr⟩ := Option.isSome_iff_exists.mp hcomes
  obtain ⟨e, he, -⟩ := Option.bind_eq_some_iff.mp hr
  exact ⟨e, he⟩

/-- **A call that comes to something returns**, whatever the other calls have
done before. The induction is on what is left of the call. -/
theorem Ready.returns (hv : job.part.Mem w v) (u : Update V E Unit) :
    ∀ s', Ready job w v s s' → (s'.worker w).todo v = u →
      Returns job w v s' := by
  induction u with
  | done a =>
    intro s' _ htodo
    exact ⟨[], s', Run.nil s', by rw [htodo]; rfl, fun _ _ => rfl⟩
  | getData next ih =>
    intro s' h htodo
    refine h.returns_of_answer hv (by rw [htodo]; rfl)
      (congrArg Worker.todo (setWorker_self _ _)) fun hready hnext => ?_
    exact ih _ _ hready hnext
  | setData d next ih =>
    intro s' h htodo
    refine h.returns_of_answer hv (by rw [htodo]; rfl)
      (congrArg Worker.todo (setWorker_self _ _)) fun hready hnext => ?_
    exact ih _ hready hnext
  | getEdge side i next ih =>
    intro s' h htodo
    obtain ⟨e, he⟩ := h.exists_edge hv (by rw [htodo, settle])
    refine h.returns_of_answer hv (by rw [htodo, answer, he]; rfl)
      (congrArg Worker.todo (setWorker_self _ _)) fun hready hnext => ?_
    exact ih _ _ hready hnext
  | setEdge side i d next ih =>
    intro s' h htodo
    obtain ⟨e, he⟩ := h.exists_edge hv (by rw [htodo, settle])
    refine h.returns_of_answer hv (by rw [htodo, answer, he]; rfl)
      (congrArg Worker.todo (setWorker_self _ _)) fun hready hnext => ?_
    exact ih _ hready hnext

/-- All the calls return, one vertex after the other. -/
theorem exists_rest (vs : List ℕ) :
    ∀ s', (∀ v ∈ vs, job.part.Mem w v ∧ Ready job w v s s') →
      ∃ order s'', Run (fun s v => requestStep job s w v) (fun _ _ => True)
          s' order s'' ∧
        (∀ v ∈ vs, ((s''.worker w).todo v).isDone = true) ∧
        ∀ u, u ∉ vs → (s''.worker w).todo u = (s'.worker w).todo u := by
  induction vs with
  | nil =>
    intro s' _
    exact ⟨[], s', Run.nil s', fun v hv => absurd hv List.not_mem_nil,
      fun _ _ => rfl⟩
  | cons v vs ih =>
    intro s' h
    obtain ⟨hv, hready⟩ := h v List.mem_cons_self
    obtain ⟨order, t, hrun, hdone, hothers⟩ :=
      Ready.returns hv _ s' hready rfl
    have hpending : Pending job w s t := hrun.invariant
      (I := Pending job w s) (fun _ _ _ h _ hstep => h.request hstep)
      hready.pending
    have hphase : (t.worker w).phase = .computing := by
      rw [hpending.phase, ← hready.pending.phase]
      exact hready.computing
    obtain ⟨order', t', hrun', hdone', hothers'⟩ := ih t fun u hu =>
      ⟨(h u (List.mem_cons_of_mem _ hu)).1, hpending, hphase,
        (h u (List.mem_cons_of_mem _ hu)).2.comes⟩
    refine ⟨order ++ order', t', hrun.append hrun', fun u hu => ?_,
      fun u hu => ?_⟩
    · by_cases hmem : u ∈ vs
      · exact hdone' u hmem
      · obtain rfl := (List.mem_cons.mp hu).resolve_right hmem
        rw [hothers' u hmem]
        exact hdone
    · rw [hothers' u (List.not_mem_of_not_mem_cons hu),
        hothers u (List.ne_of_not_mem_cons hu)]

/-! ## The result -/

/-- **The order of the vertices does not matter**, for a program that writes
to its own vertex and its out-edges only: what one order makes of the
workers every order makes of them, and so does what happens later in the
iteration, and no order gets stuck. -/
theorem crucialUpdates_order {scheduled : ℕ → Bool} {order : List ℕ}
    (hprogram : ∀ iteration vertex, (x.program iteration vertex).OutOnly)
    (h : CrucialUpdates job w scheduled s order s') :
    (∀ order' s'', CrucialUpdates job w scheduled s order' s'' →
      s'.worker = s''.worker ∧
        ∀ as t, Run (step job) (fun _ _ => True) s' as t →
          ∃ t', Run (step job) (fun _ _ => True) s'' as t' ∧
            t.worker = t'.worker) ∧
    ∀ order' s'', Run (fun s v => requestStep job s w v) (fun _ _ => True)
        (calls job w scheduled s) order' s'' →
      ∃ rest t, CrucialUpdates job w scheduled s (order' ++ rest) t := by
  -- either order leaves the calls pending as they were at the start, so that both
  -- come to the same
  have hpending := pending_of_run hprogram h.run
  constructor
  · intro order' s'' h'
    have hworker := hpending.worker_eq (pending_of_run hprogram h'.run)
      h.returned h'.returned
    exact ⟨hworker, fun as t hrun => run_congr hrun hworker⟩
  · intro order' s'' hrun
    have hpending' := pending_of_run hprogram hrun
    have hphase : (s''.worker w).phase = .computing := by
      rw [hpending'.phase]
      unfold calls
      rw [setWorker_self]
    have hmem : ∀ v, v ∈ List.range' (job.part.first w)
        (job.part.second w + 1 - job.part.first w) ↔
          job.part.first w ≤ v ∧ v ≤ job.part.second w := by
      intro v
      rw [List.mem_range'_1]
      omega
    by_cases hw : w < job.part.nshards
    · -- the calls that are left can be run one vertex after the other
      obtain ⟨rest, t, hrest, hdone, -⟩ := exists_rest (s := calls job w scheduled s)
        (List.range' (job.part.first w)
          (job.part.second w + 1 - job.part.first w)) s'' fun v hv => by
        have hv : job.part.Mem w v := ⟨hw, (hmem v).mp hv⟩
        refine ⟨hv, hpending', hphase, ?_⟩
        rw [hpending.settled_eq hv (h.returned v hv)]
        rfl
      exact ⟨rest, t, hrun.append hrest,
        fun v hv => hdone v ((hmem v).mpr hv.2)⟩
    · exact ⟨[], s'', by rw [List.append_nil]; exact hrun,
        fun v hv => absurd hv.1 hw⟩

/-- Two vertices that pass on what they find, each to the other one. -/
def twoEdges : Input ℕ ℕ where
  edges := [⟨0, 1, 5⟩, ⟨1, 0, 7⟩]
  sorted := by decide
  noloop := by decide
  program _ _ := .getEdge .inedge 0 fun y =>
    .setData y (.setEdge .outedge 0 (y + 1) (.done ()))
  value := fun _ => 0

/-- They are in one interval, with two vertices that have no edges. -/
def twoEdgesJob : Job twoEdges where
  part := fourVertices
  covered e he := by
    rcases List.mem_cons.mp he with rfl | he
    · exact ⟨⟨0, by decide⟩, 0, by decide⟩
    · rw [List.mem_singleton.mp he]
      exact ⟨⟨0, by decide⟩, 0, by decide⟩
  outedges w v := (loadBeforeUpdates twoEdges fourVertices w).edges .outedge v
  added _ _ := List.Perm.refl _
  copied _ _ := true
  blank _ _ := 0

/-- A run of `crucial_updates` that can be computed. -/
theorem exists_crucialUpdates (order : List ℕ)
    (h : (Transition.exec (fun s v => requestStep twoEdgesJob s 0 v)
      (fun _ _ => True)
      (calls twoEdgesJob 0 (fun v => decide (v < 2)) (init twoEdgesJob))
      order).any (fun s' => decide (((List.range 4).all fun v =>
        ((s'.worker 0).todo v).isDone) = true)) = true) :
    ∃ s', CrucialUpdates twoEdgesJob 0 (fun v => decide (v < 2))
      (init twoEdgesJob) order s' := by
  obtain ⟨s', hrun, hdone⟩ := Transition.exists_run _ _ _ _
    (fun s' : State ℕ ℕ => ((List.range 4).all fun v =>
      ((s'.worker 0).todo v).isDone) = true) h
  refine ⟨s', hrun, fun v hv => List.all_eq_true.mp hdone v ?_⟩
  exact List.mem_range.mpr (Nat.lt_succ_of_le hv.2.2)

/-- One vertex after the other, and the two at the same time. -/
theorem crucialUpdates_order_twoEdges :
    ∃ s' s'', CrucialUpdates twoEdgesJob 0 (fun v => decide (v < 2))
        (init twoEdgesJob) [0, 0, 0, 1, 1, 1] s' ∧
      CrucialUpdates twoEdgesJob 0 (fun v => decide (v < 2))
        (init twoEdgesJob) [1, 0, 0, 1, 1, 0] s'' ∧
      s'.worker = s''.worker := by
  obtain ⟨s', h'⟩ := exists_crucialUpdates [0, 0, 0, 1, 1, 1]
    (by decide +kernel)
  obtain ⟨s'', h''⟩ := exists_crucialUpdates [1, 0, 0, 1, 1, 0]
    (by decide +kernel)
  have hprogram : ∀ iteration vertex,
      (twoEdges.program iteration vertex).OutOnly :=
    fun _ _ _ => ⟨rfl, trivial⟩
  exact ⟨s', s'', h', h'', ((crucialUpdates_order hprogram h').1 _ _ h'').1⟩

end Engine
