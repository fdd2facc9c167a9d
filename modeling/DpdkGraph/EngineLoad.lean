import Mathlib
import DpdkGraph.Engine
import DpdkGraph.SortedBlocks

/-!
# Where the edge objects point to

`load_vertices_XG` reads the in-edges of a worker in one go and follows the
block under its cursor. When the end of a block is reached it goes on to the
next one, once, so that an edge that comes after an empty block is looked
for in the wrong block. Where no block is empty that has one with edges
after it (`NoGaps`), the objects of an edge point to its slot in its block. A
graph all of whose blocks have an edge (`Loadable`) has none; on another one
`load_edata_XG` stops before the edges are read.
-/

namespace Engine

open VertexProgram

variable {V E : Type} {x : Input V E} {part : IntervalPartition}

/-- No empty in-block comes before one that has edges. -/
def NoGaps (x : Input V E) (part : IntervalPartition) : Prop :=
  ∀ w < part.nshards, ∀ q < part.nshards, ∀ p < q,
    (x.block part p w).length = 0 → (x.block part q w).length = 0

/-- **Every in-block has an edge.** `load_edata_XG` asks for each in-block in
one chunk, and stops the worker where a block has none. -/
def Loadable (x : Input V E) (part : IntervalPartition) : Prop :=
  ∀ w < part.nshards, ∀ p < part.nshards, 0 < (x.block part p w).length

instance (x : Input V E) (part : IntervalPartition) : Decidable (Loadable x part) :=
  inferInstanceAs (Decidable (∀ w < part.nshards, ∀ p < part.nshards, _))

/-- A graph that can be loaded has no empty block to go wrong at. -/
theorem Loadable.noGaps (h : Loadable x part) : NoGaps x part :=
  fun w hw _ hq p hp hzero => absurd hzero (h w hw p (hp.trans hq)).ne'

/-- The worker of a vertex. -/
def home (part : IntervalPartition) (v : ℕ) : ℕ := (part.shardOf v).getD 0

/-- The slot of edge `k` in its block. -/
def slotOf (x : Input V E) (part : IntervalPartition) (k a b : ℕ) : ℕ :=
  (x.edges.take k).countP fun e => decide (InBlock part a b e)

/-- The slot of an edge, given with its number. -/
def slot (x : Input V E) (part : IntervalPartition)
    (e : EdgeWithValue E × ℕ) : ℕ :=
  slotOf x part e.2 (home part e.1.src) (home part e.1.dst)

/-- The in-edge object of an edge. -/
def inObject (x : Input V E) (part : IntervalPartition)
    (e : EdgeWithValue E × ℕ) : Edge where
  edge := e.2
  vertexid := e.1.src
  dataPtr := .inbuf (home part e.1.src) (slot x part e)
  dataPtrSyn :=
    if home part e.1.src = home part e.1.dst then
      some (.mainToMain (slot x part e))
    else none

/-- The out-edge object of an edge. -/
def outObject (x : Input V E) (part : IntervalPartition)
    (e : EdgeWithValue E × ℕ) : Edge :=
  if home part e.1.src = home part e.1.dst then
    ⟨e.2, e.1.dst, .inbuf (home part e.1.src) (slot x part e),
      some (.mainToMain (slot x part e))⟩
  else ⟨e.2, e.1.dst, .obuf (home part e.1.dst) (slot x part e), none⟩

theorem home_eq {k v : ℕ} (h : part.Mem k v) : home part v = k := by
  unfold home
  rw [IntervalPartition.shardOf_eq_some h]
  rfl

section Cover

variable (hcov : Covered x part)
include hcov

theorem mem_src {e : EdgeWithValue E} (he : e ∈ x.edges) :
    part.Mem (home part e.src) e.src := by
  obtain ⟨⟨k, hk⟩, -⟩ := hcov e he
  rw [home_eq hk]
  exact hk

theorem mem_dst {e : EdgeWithValue E} (he : e ∈ x.edges) :
    part.Mem (home part e.dst) e.dst := by
  obtain ⟨-, k, hk⟩ := hcov e he
  rw [home_eq hk]
  exact hk

theorem mem_src_iff {e : EdgeWithValue E} (he : e ∈ x.edges) {k : ℕ} :
    part.Mem k e.src ↔ home part e.src = k :=
  ⟨home_eq, fun h => h ▸ mem_src hcov he⟩

theorem mem_dst_iff {e : EdgeWithValue E} (he : e ∈ x.edges) {k : ℕ} :
    part.Mem k e.dst ↔ home part e.dst = k :=
  ⟨home_eq, fun h => h ▸ mem_dst hcov he⟩

/-- The edges of a block among the in-edges of the worker. -/
theorem countP_block {l : List (EdgeWithValue E)} (hl : ∀ e ∈ l, e ∈ x.edges)
    (a w : ℕ) :
    SortedBlocks.size (fun e : EdgeWithValue E => home part e.src)
        (l.filter fun e => decide (part.Mem w e.dst)) a =
      l.countP fun e => decide (InBlock part a w e) := by
  unfold SortedBlocks.size
  rw [List.countP_filter]
  refine List.countP_congr fun e he => ?_
  rw [Bool.and_eq_true, decide_eq_true_eq, decide_eq_true_eq,
    decide_eq_true_eq, ← mem_src_iff hcov (hl e he)]
  exact Iff.rfl

theorem home_mono {a b : EdgeWithValue E} (ha : a ∈ x.edges)
    (hb : b ∈ x.edges) (hle : a.src ≤ b.src) :
    home part a.src ≤ home part b.src :=
  (mem_src hcov ha).mono (mem_src hcov hb) hle

end Cover

theorem length_block (x : Input V E) (part : IntervalPartition) (a b : ℕ) :
    (x.block part a b).length =
      x.edges.countP fun e => decide (InBlock part a b e) := by
  unfold Input.block
  rw [List.length_map, List.countP_eq_length_filter]

/-- The place of an in-edge of worker `w`: the blocks before its own, and
the edges of its own block before it. -/
theorem place_eq (hcov : Covered x part) {done es : List (EdgeWithValue E)}
    {e : EdgeWithValue E} (hx : x.edges = done ++ e :: es) {w : ℕ}
    (hw : part.Mem w e.dst) :
    (done.countP fun e => decide (part.Mem w e.dst)) =
        SortedBlocks.start (fun e => home part e.src)
            (x.edges.filter fun e => decide (part.Mem w e.dst))
            (home part e.src) +
          slotOf x part done.length (home part e.src) w ∧
      slotOf x part done.length (home part e.src) w <
        (x.block part (home part e.src) w).length := by
  have hsub : ∀ a ∈ done, a ∈ x.edges := fun a ha => by
    rw [hx]
    exact List.mem_append_left _ ha
  have htake : x.edges.take done.length = done := by
    rw [hx, List.take_left]
  have hsplit : (x.edges.filter fun e => decide (part.Mem w e.dst)) =
      (done.filter fun e => decide (part.Mem w e.dst)) ++
        e :: es.filter fun e => decide (part.Mem w e.dst) := by
    rw [hx, List.filter_append, List.filter_cons,
      if_pos (decide_eq_true hw)]
  have hsorted : ((done.filter fun e => decide (part.Mem w e.dst)) ++
      e :: es.filter fun e => decide (part.Mem w e.dst)).Pairwise
        fun a b => home part a.src ≤ home part b.src := by
    rw [← hsplit]
    refine List.Pairwise.imp_of_mem ?_ (x.sorted.filter _)
    intro a b ha hb hle
    exact home_mono hcov (List.mem_of_mem_filter ha)
      (List.mem_of_mem_filter hb) hle
  have hplace := SortedBlocks.length_eq hsorted
  have hlt := SortedBlocks.size_lt (fun e : EdgeWithValue E => home part e.src)
    (done.filter fun e => decide (part.Mem w e.dst))
    (es.filter fun e => decide (part.Mem w e.dst)) e
  rw [← hsplit, countP_block hcov hsub] at hplace hlt
  rw [countP_block hcov fun a ha => ha] at hlt
  unfold slotOf
  rw [htake, length_block]
  exact ⟨by rw [← hplace, List.countP_eq_length_filter], hlt⟩

/-! ## The cursor -/

/-- Where the in-block of worker `w` from worker `q` starts among its
in-edges. -/
def blockStart (x : Input V E) (part : IntervalPartition) (w q : ℕ) : ℕ :=
  SortedBlocks.start (fun e => home part e.src)
    (x.edges.filter fun e => decide (part.Mem w e.dst)) q

theorem blockStart_succ (hcov : Covered x part) (w q : ℕ) :
    blockStart x part w (q + 1) =
      blockStart x part w q + (x.block part q w).length := by
  unfold blockStart
  rw [SortedBlocks.start_succ, countP_block hcov fun a ha => ha, length_block]

/-- The number of in-edges of worker `w`. -/
def inEdges (x : Input V E) (part : IntervalPartition) (w : ℕ) : ℕ :=
  x.edges.countP fun e => decide (part.Mem w e.dst)

/-- While there are edges left, the block that comes next is not empty. -/
theorem block_ne_nil (hcov : Covered x part) (hgaps : NoGaps x part) {w q : ℕ}
    (hw : w < part.nshards) (hlt : blockStart x part w q < inEdges x part w) :
    0 < (x.block part q w).length := by
  by_contra hzero
  have hall : ∀ i, q ≤ i → (x.block part i w).length = 0 := by
    intro i hi
    rcases hi.eq_or_lt with rfl | hi
    · omega
    · by_cases hshard : i < part.nshards
      · exact hgaps w hw i hshard q hi (by omega)
      · rw [length_block, List.countP_eq_zero]
        intro e _
        simpa using fun hin : InBlock part i w e => hshard hin.1.1
  have hstart : ∀ r, q ≤ r → blockStart x part w r = blockStart x part w q :=
    fun r hr => SortedBlocks.start_eq_of_size hr fun i hi => by
      rw [countP_block hcov fun a ha => ha, ← length_block]
      exact hall i hi
  have htotal : blockStart x part w (max q part.nshards) =
      inEdges x part w := by
    unfold blockStart inEdges
    rw [SortedBlocks.start_eq, List.countP_filter]
    refine List.countP_congr fun e he => ?_
    have := (mem_src hcov he).1
    rw [Bool.and_eq_true, decide_eq_true_eq]
    exact ⟨fun h => h.2, fun h => ⟨by omega, h⟩⟩
  have := hstart (max q part.nshards) (le_max_left _ _)
  omega

/-- The cursor of `load_vertices_XG` after the edges `done`. -/
structure Cursor.After (x : Input V E) (part : IntervalPartition) (w : ℕ)
    (done : List (EdgeWithValue E)) (c : Cursor) : Prop where
  /-- It has passed the in-edges of the worker … -/
  edgeptr : c.edgeptr = done.countP fun e => decide (part.Mem w e.dst)
  /-- … and among them the inner ones. -/
  edgeptrSyn : c.edgeptrSyn = done.countP fun e => decide (InBlock part w w e)
  /-- The block ends where the next one begins. -/
  brange : c.brange = blockStart x part w (c.bid + 1)
  above : blockStart x part w c.bid ≤ c.edgeptr
  /-- While there are edges, the next one is in the block under the
  cursor. -/
  below : c.edgeptr < inEdges x part w → c.edgeptr < c.brange

theorem Cursor.After.start (hcov : Covered x part) (hgaps : NoGaps x part)
    {w : ℕ} (hw : w < part.nshards) :
    Cursor.After x part w []
      (.start fun p => (x.block part p w).length) where
  edgeptr := rfl
  edgeptrSyn := rfl
  brange := by
    rw [blockStart_succ hcov]
    exact (Nat.zero_add _).symm
  above := le_rfl
  below h := block_ne_nil hcov hgaps hw h

/-- An edge to another worker is not in the file. -/
theorem Cursor.After.pass {w : ℕ} {done : List (EdgeWithValue E)} {c : Cursor}
    (h : c.After x part w done) {e : EdgeWithValue E}
    (he : ¬part.Mem w e.dst) : c.After x part w (done ++ [e]) where
  edgeptr := by
    rw [List.countP_append, List.countP_singleton,
      if_neg (by simpa using he)]
    exact h.edgeptr
  edgeptrSyn := by
    rw [List.countP_append, List.countP_singleton,
      if_neg (by simpa using fun hb : InBlock part w w e => he hb.2)]
    exact h.edgeptrSyn
  brange := h.brange
  above := h.above
  below := h.below

/-- **The cursor after one more in-edge.** It counts the in-edges, and those
inside the interval, and it moves on to the next block where this one ends. That
a single move is enough is what the absence of gaps is for. -/
theorem Cursor.After.next (hcov : Covered x part) (hgaps : NoGaps x part)
    {w : ℕ} {done : List (EdgeWithValue E)} {c : Cursor}
    (h : c.After x part w done) {e : EdgeWithValue E}
    (he : part.Mem w e.dst) (hlt : c.edgeptr < inEdges x part w) :
    (c.next (fun p => (x.block part p w).length)
      (decide (part.Mem w e.src))).After x part w (done ++ [e]) := by
  have hptr : c.edgeptr + 1 =
      (done ++ [e]).countP fun e => decide (part.Mem w e.dst) := by
    rw [List.countP_append, List.countP_singleton, if_pos (by simpa using he),
      h.edgeptr]
  have hsyn : (if decide (part.Mem w e.src) = true then c.edgeptrSyn + 1
        else c.edgeptrSyn) =
      (done ++ [e]).countP fun e => decide (InBlock part w w e) := by
    rw [List.countP_append, List.countP_singleton, ← h.edgeptrSyn]
    by_cases hs : part.Mem w e.src
    · rw [if_pos (decide_eq_true hs),
        if_pos (decide_eq_true (show InBlock part w w e from ⟨hs, he⟩))]
    · rw [if_neg (by simpa using hs),
        if_neg (by simpa using fun hb : InBlock part w w e => hs hb.1)]
      rfl
  have hbelow := h.below hlt
  unfold Cursor.next
  dsimp only
  split
  · -- the block comes to its end with this edge, and the next one has an edge, as
    -- there are no gaps
    next hend =>
    have hsucc := blockStart_succ (x := x) hcov w (c.bid + 1)
    refine ⟨hptr, hsyn, ?_, ?_, fun hmore => ?_⟩
    · rw [hsucc, h.brange]
    · rw [← h.brange]
      exact hend
    · have hmore : c.edgeptr + 1 < inEdges x part w := hmore
      have hpos : 0 < (x.block part (c.bid + 1) w).length := by
        refine block_ne_nil hcov hgaps he.1 ?_
        rw [← h.brange]
        omega
      show c.edgeptr + 1 < c.brange + (x.block part (c.bid + 1) w).length
      omega
  · next hin =>
    exact ⟨hptr, hsyn, h.brange, h.above.trans (Nat.le_succ _),
      fun _ => not_le.mp hin⟩

/-- **The block pointer of the next edge**: it is in the block of the edge's
source, behind as many edges of that block as have been passed. -/
theorem Cursor.After.eptr (hcov : Covered x part) {w : ℕ}
    {done es : List (EdgeWithValue E)} {e : EdgeWithValue E} {c : Cursor}
    (h : c.After x part w done) (hx : x.edges = done ++ e :: es)
    (he : part.Mem w e.dst) :
    c.edgeptr < inEdges x part w ∧
      c.eptr (fun p => (x.block part p w).length) =
        .inbuf (home part e.src)
          (slotOf x part done.length (home part e.src) w) := by
  obtain ⟨hplace, hslot⟩ := place_eq hcov hx he
  rw [← h.edgeptr] at hplace
  have hsucc := blockStart_succ (x := x) hcov w (home part e.src)
  have hplace : c.edgeptr = blockStart x part w (home part e.src) +
    slotOf x part done.length (home part e.src) w := hplace
  have hlt : c.edgeptr < inEdges x part w := by
    rw [h.edgeptr]
    unfold inEdges
    rw [hx, List.countP_append, List.countP_cons,
      if_pos (by simpa using he)]
    omega
  have hbelow := h.below hlt
  have hbrange := h.brange
  have hbid : c.bid = home part e.src := by
    refine SortedBlocks.unique h.above ?_ ?_ ?_
    · exact lt_of_lt_of_eq hbelow hbrange
    · exact Nat.le.intro hplace.symm
    · exact lt_of_lt_of_eq (by omega) hsucc.symm
  refine ⟨hlt, ?_⟩
  unfold Cursor.eptr
  rw [hbid] at hbrange ⊢
  congr 1
  show c.edgeptr - (c.brange - (x.block part (home part e.src) w).length) = _
  omega

/-! ## The objects -/

/-- What `load_vertices_XG` adds for an edge. -/
def addedBy (x : Input V E) (part : IntervalPartition) (w : ℕ)
    (e : EdgeWithValue E × ℕ) : Added :=
  (if part.Mem w e.1.src then [(e.1.src, .outedge, outObject x part e)]
    else []) ++ [(e.1.dst, .inedge, inObject x part e)]

theorem loadVerticesFrom_eq (hcov : Covered x part) (hgaps : NoGaps x part)
    {w : ℕ} (es : List (EdgeWithValue E)) :
    ∀ (done : List (EdgeWithValue E)) (c : Cursor), x.edges = done ++ es →
      c.After x part w done →
      loadVerticesFrom (fun p => (x.block part p w).length)
          (fun v => decide (part.Mem w v)) c
          ((es.zipIdx done.length).filter fun e =>
            decide (part.Mem w e.1.dst)) =
        ((es.zipIdx done.length).filter fun e =>
          decide (part.Mem w e.1.dst)).flatMap (addedBy x part w) := by
  induction es with
  | nil => intros; rfl
  | cons e es ih =>
    intro done c hx hc
    have hx' : x.edges = (done ++ [e]) ++ es := by
      rw [hx, List.append_assoc]
      rfl
    have hlen : done.length + 1 = (done ++ [e]).length := by
      rw [List.length_append]
      rfl
    have he : e ∈ x.edges := by
      rw [hx]
      exact List.mem_append_right _ List.mem_cons_self
    rw [List.zipIdx_cons, List.filter_cons]
    by_cases hw : part.Mem w e.dst
    · have hhome : home part e.dst = w := home_eq hw
      obtain ⟨hlt, hptr⟩ := hc.eptr hcov hx hw
      have hslot : slot x part (e, done.length) =
          slotOf x part done.length (home part e.src) w := by
        unfold slot
        rw [hhome]
      have hsyn : part.Mem w e.src →
          c.edgeptrSyn = slotOf x part done.length (home part e.src) w := by
        intro hs
        rw [home_eq hs, hc.edgeptrSyn]
        unfold slotOf
        rw [hx, List.take_left]
      rw [if_pos (decide_eq_true hw), List.flatMap_cons, loadVerticesFrom,
        hlen, ih _ _ hx' (hc.next hcov hgaps hw hlt)]
      refine congrArg (· ++ _) ?_
      unfold addedBy
      by_cases hs : part.Mem w e.src
      · have hsame : home part e.src = home part e.dst := by
          rw [home_eq hs, hhome]
        rw [if_pos (decide_eq_true hs), if_pos (decide_eq_true hs), if_pos hs]
        unfold outObject inObject
        rw [if_pos hsame, if_pos hsame, hptr, hsyn hs, hslot]
      · have hother : home part e.src ≠ home part e.dst := by
          rw [hhome]
          exact fun h => hs ((mem_src_iff hcov he).mpr h)
        rw [if_neg (by simpa using hs), if_neg (by simpa using hs),
          if_neg hs]
        unfold inObject
        rw [if_neg hother, hptr, hslot]
    · rw [if_neg (by simpa using hw), hlen]
      exact ih _ _ hx' (hc.pass hw)

/-- What `load_vertices_XG` adds. -/
theorem loadVerticesXG_eq (hcov : Covered x part) (hgaps : NoGaps x part)
    {w : ℕ} (hw : w < part.nshards) :
    loadVerticesXG x part w =
      (x.mainFile part w).flatMap (addedBy x part w) :=
  loadVerticesFrom_eq hcov hgaps x.edges [] _ rfl
    (Cursor.After.start hcov hgaps hw)

theorem readNextFrom_eq {w p : ℕ} (hne : w ≠ p)
    (es : List (EdgeWithValue E)) :
    ∀ done : List (EdgeWithValue E), x.edges = done ++ es →
      (((es.zipIdx done.length).filter fun e =>
          decide (InBlock part w p e.1)).zipIdx
            (done.countP fun e => decide (InBlock part w p e))).map
          (fun entry => (entry.1.1.src, Side.outedge,
            (⟨entry.1.2, entry.1.1.dst, .obuf p entry.2, none⟩ : Edge))) =
        ((es.zipIdx done.length).filter fun e =>
          decide (InBlock part w p e.1)).map
            fun e => (e.1.src, Side.outedge, outObject x part e) := by
  induction es with
  | nil => intros; rfl
  | cons e es ih =>
    intro done hx
    have hx' : x.edges = (done ++ [e]) ++ es := by
      rw [hx, List.append_assoc]
      rfl
    have hlen : done.length + 1 = (done ++ [e]).length := by
      rw [List.length_append]
      rfl
    have ih := ih _ hx'
    rw [List.countP_append, List.countP_singleton, ← hlen] at ih
    rw [List.zipIdx_cons, List.filter_cons]
    by_cases hin : InBlock part w p e
    · rw [if_pos (decide_eq_true hin)] at ih ⊢
      rw [List.zipIdx_cons, List.map_cons, List.map_cons, ih]
      refine congrArg (· :: _) ?_
      have hsrc := home_eq hin.1
      have hdst := home_eq hin.2
      unfold outObject slot
      dsimp only
      rw [if_neg (by rw [hsrc, hdst]; exact hne), hsrc, hdst]
      unfold slotOf
      rw [hx, List.take_left]
    · rw [if_neg (by simpa using hin)] at ih ⊢
      exact ih

/-- What `read_next_vertices_XG` adds. -/
theorem readNextVerticesXG_eq {w p : ℕ} (hne : w ≠ p) :
    readNextVerticesXG x part w p =
      (x.outFile part w p).map
        fun e => (e.1.src, Side.outedge, outObject x part e) :=
  readNextFrom_eq hne x.edges [] rfl

theorem Added.edges_append (a b : Added) (side : Side) (v : ℕ) :
    (a ++ b).edges side v = a.edges side v ++ b.edges side v := by
  unfold Added.edges
  rw [List.filter_append, List.map_append]

/-- The in-edges of worker `w`, among what `load_vertices_XG` adds. -/
theorem edges_inedge_main (w v : ℕ) (l : List (EdgeWithValue E × ℕ)) :
    Added.edges (l.flatMap (addedBy x part w)) .inedge v =
      (l.filter fun e => decide (e.1.dst = v)).map (inObject x part) := by
  induction l with
  | nil => rfl
  | cons e l ih =>
    rw [List.flatMap_cons, Added.edges_append, ih, List.filter_cons]
    unfold addedBy Added.edges
    by_cases hs : part.Mem w e.1.src <;> by_cases hv : e.1.dst = v <;>
      simp [hs, hv]

/-- The out-edges of worker `w`, among what `load_vertices_XG` adds. -/
theorem edges_outedge_main {w v : ℕ} (hv : part.Mem w v)
    (l : List (EdgeWithValue E × ℕ)) :
    Added.edges (l.flatMap (addedBy x part w)) .outedge v =
      (l.filter fun e => decide (e.1.src = v)).map (outObject x part) := by
  induction l with
  | nil => rfl
  | cons e l ih =>
    rw [List.flatMap_cons, Added.edges_append, ih, List.filter_cons]
    unfold addedBy Added.edges
    by_cases hs : e.1.src = v
    · simp [hs, hv]
    · by_cases hm : part.Mem w e.1.src <;> simp [hs, hm]

/-- What a list of out-edges adds. -/
theorem edges_map_outedge (side : Side) (v : ℕ)
    (l : List (EdgeWithValue E × ℕ)) :
    Added.edges (l.map fun e => (e.1.src, Side.outedge, outObject x part e))
        side v =
      if side = .outedge then
        (l.filter fun e => decide (e.1.src = v)).map (outObject x part)
      else [] := by
  induction l with
  | nil => cases side <;> rfl
  | cons e l ih =>
    rw [List.map_cons, List.filter_cons]
    unfold Added.edges at ih ⊢
    rw [List.filter_cons]
    cases side with
    | inedge =>
      rw [if_neg (by simp)]
      exact ih
    | outedge =>
      rw [if_pos rfl] at ih ⊢
      by_cases hs : e.1.src = v
      · rw [if_pos (by simp [hs]), if_pos (decide_eq_true hs), List.map_cons,
          ih]
        rfl
      · rw [if_neg (by simp [hs]), if_neg (by simp [hs])]
        exact ih

theorem edges_flatMap (side : Side) (v : ℕ) (ps : List ℕ) (f : ℕ → Added) :
    Added.edges (ps.flatMap f) side v =
      ps.flatMap fun p => (f p).edges side v := by
  induction ps with
  | nil => rfl
  | cons p ps ih =>
    rw [List.flatMap_cons, Added.edges_append, ih, List.flatMap_cons]

/-- The edges of the graph with destination, or source, `v`. -/
def Input.edgesAt (x : Input V E) : Side → ℕ → List (EdgeWithValue E × ℕ)
  | .inedge, v => x.numbered.filter fun e => decide (e.1.dst = v)
  | .outedge, v => x.numbered.filter fun e => decide (e.1.src = v)

/-- The object that an endpoint has of an edge. -/
def object (x : Input V E) (part : IntervalPartition) :
    Side → EdgeWithValue E × ℕ → Edge
  | .inedge => inObject x part
  | .outedge => outObject x part

theorem mem_of_numbered {e : EdgeWithValue E × ℕ} (h : e ∈ x.numbered) :
    e.1 ∈ x.edges := by
  obtain ⟨e, k⟩ := e
  exact List.mem_of_getElem? (List.mem_zipIdx_iff_getElem?.mp h)

/-- **The in-edge objects of a vertex** are those of its in-edges, in the order
of the input, each with the cell of its edge. -/
theorem edges_inedge (hcov : Covered x part) (hgaps : NoGaps x part)
    {w v : ℕ} (hv : part.Mem w v) :
    (loadBeforeUpdates x part w).edges .inedge v =
      (x.edgesAt .inedge v).map (object x part .inedge) := by
  unfold loadBeforeUpdates
  rw [Added.edges_append, loadVerticesXG_eq hcov hgaps hv.1,
    edges_inedge_main, edges_flatMap]
  have hnil : (((List.range part.nshards).filter (· ≠ w)).flatMap fun p =>
      (readNextVerticesXG x part w p).edges .inedge v) = [] := by
    refine List.flatMap_eq_nil_iff.mpr fun p hp => ?_
    have hne : p ≠ w := by simpa using (List.mem_filter.mp hp).2
    rw [readNextVerticesXG_eq hne.symm, edges_map_outedge]
    rfl
  rw [hnil, List.append_nil]
  unfold Input.mainFile
  rw [List.filter_filter]
  show _ = (x.numbered.filter fun e => decide (e.1.dst = v)).map _
  refine congrArg (List.map _) (List.filter_congr fun e _ => ?_)
  by_cases he : e.1.dst = v
  · simp [he, hv]
  · simp [he]

/-- **The out-edge objects of a vertex** are those of its out-edges, up to the
order: the edges inside the interval come from one loader, and the others block
by block. -/
theorem edges_outedge (hcov : Covered x part) (hgaps : NoGaps x part)
    {w v : ℕ} (hv : part.Mem w v) :
    ((loadBeforeUpdates x part w).edges .outedge v).Perm
      ((x.edgesAt .outedge v).map (object x part .outedge)) := by
  have hfiles : (loadBeforeUpdates x part w).edges .outedge v =
      ((w :: (List.range part.nshards).filter (· ≠ w)).flatMap fun p =>
        (x.edgesAt .outedge v).filter
          fun e => decide (home part e.1.dst = p)).map
            (object x part .outedge) := by
    unfold loadBeforeUpdates
    rw [Added.edges_append, loadVerticesXG_eq hcov hgaps hv.1,
      edges_outedge_main hv, edges_flatMap, List.flatMap_cons, List.map_append,
      List.map_flatMap]
    refine congrArg₂ (· ++ ·) (congrArg _ ?_) (List.flatMap_congr ?_)
    · unfold Input.mainFile Input.edgesAt
      rw [List.filter_filter, List.filter_filter]
      refine List.filter_congr fun e he => ?_
      rw [Bool.and_comm,
        decide_eq_decide.mpr (mem_dst_iff hcov (mem_of_numbered he))]
    · intro p hp
      have hne : p ≠ w := by simpa using (List.mem_filter.mp hp).2
      rw [readNextVerticesXG_eq hne.symm, edges_map_outedge, if_pos rfl]
      unfold Input.outFile Input.edgesAt
      rw [List.filter_filter, List.filter_filter]
      refine congrArg (List.map _) (List.filter_congr fun e he => ?_)
      have hdst := mem_dst_iff hcov (mem_of_numbered he) (k := p)
      by_cases hs : e.1.src = v
      · have hin : InBlock part w p e.1 ↔ home part e.1.dst = p :=
          ⟨fun h => hdst.mp h.2, fun h => ⟨by rw [hs]; exact hv, hdst.mpr h⟩⟩
        simp only [hs, decide_true, Bool.true_and, Bool.and_true]
        exact decide_eq_decide.mpr hin
      · simp [hs]
  rw [hfiles]
  refine List.Perm.map _ (SortedBlocks.perm_flatMap ?_ ?_)
  · exact List.nodup_cons.mpr ⟨by simp, List.nodup_range.filter _⟩
  · intro e he
    have hmem := (mem_dst hcov (mem_of_numbered (List.mem_of_mem_filter he))).1
    by_cases hw : home part e.1.dst = w
    · rw [hw]
      exact List.mem_cons_self
    · exact List.mem_cons_of_mem _ (List.mem_filter.mpr
        ⟨List.mem_range.mpr hmem, by simpa using hw⟩)

/-- **The objects of a vertex point to the slots of its edges.** -/
theorem Job.edges_perm (job : Job x) (hgaps : NoGaps x job.part) {w v : ℕ}
    (hv : job.part.Mem w v) (side : Side) :
    (job.edges w side v).Perm
      ((x.edgesAt side v).map (object x job.part side)) := by
  cases side with
  | inedge =>
    show ((loadBeforeUpdates x job.part w).edges .inedge v).Perm _
    rw [edges_inedge job.covered hgaps hv]
  | outedge =>
    exact (job.added w v).trans (edges_outedge job.covered hgaps hv)

end Engine
