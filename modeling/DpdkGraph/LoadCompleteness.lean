import Mathlib
import DpdkGraph.LoadSegments

/-!
# The load is complete

The segments of the vertices follow one another as long as the room of each
vertex is the sum of its degrees. That sum is taken as an `int`. For a
vertex with `2 ^ 31` edges or more it wraps around, and `edata` is then
shorter than the records that go into it: the segments cannot be apart and
within the array at the same time, whatever the order of the loaders. Apart
from that the loaders stop at their own limits: the in-blocks have to be one
chunk each (`BlockLoading.Job.Fits`), and the values of an out-block have to
fit an `int` (`OutFits`). Within these bounds the load is complete in every
order, and otherwise it is not (`complete_load_iff`).

The bound on the degrees is needed for one direction by counting: segments
that are apart and lie in `edata` are together not longer than `edata`. For
the other one the loaders are an instance of `SharedAppends`; what is meant
for a lane is, counted over all loaders, one record for each edge at that
side of the vertex.
-/

namespace Loading

open SparseRows (Item expand encode encodeItem)
open Reshard (toInt32)
open MainShard (OwnShard)
open VertexProgram (Side)
open SharedAppends (sel Roomy)

/-- **The load is complete**: the blocks are read, the segments are apart and
within the array, and whatever the order of the loaders, no record is written
over, all records are in the segments of their vertices, and at the end each
vertex has one record for each of its edges. -/
structure Complete (x : Subgraph) : Prop where
  /-- No assertion of `load_edata_XG` or of the I/O manager stops the loader
  of the main shard. -/
  edata : BlockLoading.Completes x.edata
  /-- No assertion of `read_next_vertices_XG` stops the other loaders. -/
  reads : ∀ p < x.part.nshards, p ≠ x.main.exec → ((x.request p).read).isSome
  /-- The segments are apart … -/
  disjoint : ∀ u v, x.Mem u → x.Mem v → ∀ z,
    x.InSegment u z → x.InSegment v z → u = v
  /-- … and inside `edata`. -/
  inside : ∀ v, x.Mem v → ∀ z, x.InSegment v z → 0 ≤ z ∧ z < x.numEdges
  /-- No assertion of an append stops a loader. -/
  live : ∀ ps s, x.Reaches ps s →
    s.Finished x.system ∨ ∃ p s', SharedAppends.step x.system s p = some s'
  /-- The loaders come to an end. -/
  bounded : ∃ n, ∀ ps s, x.Reaches ps s → ps.length ≤ n
  /-- No record is written over. -/
  kept : ∀ ps s, x.Reaches ps s → ∀ p s',
    SharedAppends.step x.system s p = some s' →
      ∀ z r, s.cell z = some r → s'.cell z = some r
  /-- Every record is in the segment of a vertex. -/
  within : ∀ ps s, x.Reaches ps s → ∀ z r, s.cell z = some r →
    ∃ v, x.Mem v ∧ x.InSegment v z
  /-- In the end each vertex has its records, and its counters their numbers. -/
  records : ∀ ps s, x.Reaches ps s → s.Finished x.system → ∀ v, x.Mem v →
    (s.count (.inedge, v) : ℤ) = (x.degree v).indegree
      ∧ (s.count (.outedge, v) : ℤ) = (x.degree v).outdegree
      ∧ (s.lane x.system (.inedge, v)).Perm ((x.inNeighbours v).map some)
      ∧ (s.lane x.system (.outedge, v)).Perm ((x.outNeighbours v).map some)

namespace Subgraph

variable (x : Subgraph)

/-! ## Where the segments are -/

/-- The sum of the degrees. -/
def edgesOf (v : ℕ) : ℤ := (x.degree v).indegree + (x.degree v).outdegree

/-- `ecounter` before the `i`-th vertex. -/
def offset (i : ℕ) : ℤ := ∑ j ∈ Finset.range i, x.room (x.st + j)

theorem indegree_nonneg (v : ℕ) : 0 ≤ (x.degree v).indegree := by
  rw [x.indegree_eq]
  exact Int.natCast_nonneg _

theorem outdegree_nonneg (v : ℕ) : 0 ≤ (x.degree v).outdegree := by
  rw [x.outdegree_eq]
  exact Int.natCast_nonneg _

theorem numEdgesSubinterval_eq (n v : ℕ) :
    x.numEdgesSubinterval n v = ∑ j ∈ Finset.range n, x.room (v + j) := by
  induction n generalizing v with
  | zero => rfl
  | succ n ih =>
    rw [numEdgesSubinterval, ih, Finset.sum_range_succ', Nat.add_zero,
      add_comm]
    refine congrArg (· + _) (Finset.sum_congr rfl fun j _ => ?_)
    rw [Nat.add_assoc, Nat.add_comm 1 j]

theorem numEdges_eq : x.numEdges = x.offset x.nvertices :=
  x.numEdgesSubinterval_eq _ _

theorem getElem?_initVertices (n v : ℕ) (ecounter : ℤ) {i : ℕ} (hi : i < n) :
    (x.initVertices n v ecounter)[i]? = some ⟨v + i,
      ecounter + ∑ j ∈ Finset.range i, x.room (v + j),
      ecounter + ∑ j ∈ Finset.range i, x.room (v + j)
        + (x.degree (v + i)).indegree⟩ := by
  induction n generalizing v ecounter i with
  | zero => exact absurd hi (Nat.not_lt_zero _)
  | succ n ih =>
    cases i with
    | zero => simp [initVertices]
    | succ i =>
      have hsum : ecounter + x.room v +
          ∑ j ∈ Finset.range i, x.room (v + 1 + j) =
            ecounter + ∑ j ∈ Finset.range (i + 1), x.room (v + j) := by
        rw [Finset.sum_range_succ', Nat.add_zero, add_assoc,
          add_comm (x.room v)]
        refine congrArg (fun r => ecounter + (r + _))
          (Finset.sum_congr rfl fun j _ => ?_)
        rw [Nat.add_assoc, Nat.add_comm 1 j]
      have hindex : v + 1 + i = v + (i + 1) := by omega
      rw [initVertices, List.getElem?_cons_succ, ih _ _ (by omega), hsum,
        hindex]

/-- Fewer vertices than an `int` counts. -/
theorem nvertices_eq (hint : x.size < 2 ^ 31) : x.nvertices = x.size := by
  unfold nvertices
  exact if_pos hint

/-- It is the number of vertices, taken as an `int`. -/
theorem nvertices_eq_toNat : x.nvertices = (toInt32 x.size).toNat := by
  have hle : x.size ≤ 2 ^ 32 := by
    have hlt := IntervalPartition.second_lt x.exec_lt
    unfold size
    omega
  unfold nvertices
  split
  · next hint => rw [Reshard.toInt32_natCast hint, Int.toNat_natCast]
  · next hlarge =>
    unfold toInt32
    rw [Int.bmod_def]
    split <;> omega

theorem mem_iff (hint : x.size < 2 ^ 31) (v : ℕ) :
    x.Mem v ↔ ∃ i < x.nvertices, v = x.st + i := by
  have hle := IntervalPartition.first_le x.exec_lt
  rw [x.nvertices_eq hint]
  unfold Mem IntervalPartition.Mem size st
  constructor
  · rintro ⟨-, hst, hen⟩
    exact ⟨v - x.part.first x.main.exec, by omega, by omega⟩
  · rintro ⟨i, hi, rfl⟩
    exact ⟨x.exec_lt, by omega, by omega⟩

theorem vertex_eq {i : ℕ} (hi : i < x.nvertices) :
    x.vertex (x.st + i) = ⟨x.st + i, x.offset i,
      x.offset i + (x.degree (x.st + i)).indegree⟩ := by
  unfold vertex vertices
  rw [Nat.add_sub_cancel_left, List.getD_eq_getElem?_getD,
    x.getElem?_initVertices _ _ _ hi, Option.getD_some, zero_add]
  rfl

/-- **The segment of a vertex** begins at `ecounter`, and has as many cells
as the vertex has edges. -/
theorem inSegment_iff {i : ℕ} (hi : i < x.nvertices) (z : ℤ) :
    x.InSegment (x.st + i) z ↔
      x.offset i ≤ z ∧ z < x.offset i + x.edgesOf (x.st + i) := by
  unfold InSegment edgesOf
  rw [x.vertex_eq hi, add_assoc]

/-! ## The rooms -/

theorem room_eq {v : ℕ} (h : x.edgesOf v < 2 ^ 31) :
    x.room v = x.edgesOf v := by
  have hin := x.indegree_nonneg v
  have hout := x.outdegree_nonneg v
  unfold edgesOf at h ⊢
  exact Int.bmod_eq_of_le (by omega) (by omega)

/-- A sum that is no `int` wraps around. -/
theorem room_lt {v : ℕ} (h : ¬x.edgesOf v < 2 ^ 31) :
    x.room v < x.edgesOf v := by
  have hlt := x.degree_lt v
  have hroom : x.room v < 2 ^ 31 := by
    have hbound := Int.bmod_lt (m := 2 ^ 32)
      (x := (x.degree v).indegree + (x.degree v).outdegree) (by norm_num)
    unfold room toInt32
    norm_num at hbound ⊢
    exact hbound
  exact lt_of_lt_of_le hroom (not_lt.mp h)

theorem room_le (v : ℕ) : x.room v ≤ x.edgesOf v := by
  by_cases h : x.edgesOf v < 2 ^ 31
  · exact (x.room_eq h).le
  · exact (x.room_lt h).le

theorem edgesOf_nonneg (v : ℕ) : 0 ≤ x.edgesOf v :=
  add_nonneg (x.indegree_nonneg v) (x.outdegree_nonneg v)

/-- **Segments that are apart and within `edata` need its room**: the sum of
their lengths, which are not `int`s here, is at most the number of edges there
is memory for. -/
theorem sum_edgesOf_le (hint : x.size < 2 ^ 31)
    (hdisjoint : ∀ u v, x.Mem u → x.Mem v → ∀ z,
      x.InSegment u z → x.InSegment v z → u = v)
    (hinside : ∀ v, x.Mem v → ∀ z, x.InSegment v z →
      0 ≤ z ∧ z < x.numEdges) :
    ∑ i ∈ Finset.range x.nvertices, x.edgesOf (x.st + i) ≤
      (x.numEdges.toNat : ℤ) := by
  have hmem : ∀ i, i < x.nvertices → x.Mem (x.st + i) :=
    fun i hi => (x.mem_iff hint _).mpr ⟨i, hi, rfl⟩
  have hpairwise : (Finset.range x.nvertices : Set ℕ).PairwiseDisjoint
      fun i => Finset.Ico (x.offset i) (x.offset i + x.edgesOf (x.st + i)) := by
    intro i hi j hj hne
    have hi : i < x.nvertices := Finset.mem_range.mp hi
    have hj : j < x.nvertices := Finset.mem_range.mp hj
    refine Finset.disjoint_left.mpr fun z hz hz' => hne ?_
    have heq := hdisjoint _ _ (hmem i hi) (hmem j hj) z
      ((x.inSegment_iff hi z).mpr (Finset.mem_Ico.mp hz))
      ((x.inSegment_iff hj z).mpr (Finset.mem_Ico.mp hz'))
    omega
  have hsubset : (Finset.range x.nvertices).biUnion (fun i =>
      Finset.Ico (x.offset i) (x.offset i + x.edgesOf (x.st + i))) ⊆
        Finset.Ico 0 x.numEdges := by
    intro z hz
    obtain ⟨i, hi, hz⟩ := Finset.mem_biUnion.mp hz
    have hi := Finset.mem_range.mp hi
    exact Finset.mem_Ico.mpr (hinside _ (hmem i hi) z
      ((x.inSegment_iff hi z).mpr (Finset.mem_Ico.mp hz)))
  have hcard := Finset.card_le_card hsubset
  rw [Finset.card_biUnion hpairwise, Int.card_Ico, sub_zero] at hcard
  calc ∑ i ∈ Finset.range x.nvertices, x.edgesOf (x.st + i)
      = ((∑ i ∈ Finset.range x.nvertices, (Finset.Ico (x.offset i)
          (x.offset i + x.edgesOf (x.st + i))).card : ℕ) : ℤ) := by
        rw [Nat.cast_sum]
        refine Finset.sum_congr rfl fun i _ => ?_
        rw [Int.card_Ico, add_sub_cancel_left,
          Int.toNat_of_nonneg (x.edgesOf_nonneg _)]
    _ ≤ (x.numEdges.toNat : ℤ) := Int.ofNat_le.mpr hcard

/-- Where the segments are apart and within `edata`, no sum of degrees has
wrapped around. -/
theorem edgesOf_lt (hint : x.size < 2 ^ 31)
    (hdisjoint : ∀ u v, x.Mem u → x.Mem v → ∀ z,
      x.InSegment u z → x.InSegment v z → u = v)
    (hinside : ∀ v, x.Mem v → ∀ z, x.InSegment v z →
      0 ≤ z ∧ z < x.numEdges)
    {v : ℕ} (hv : x.Mem v) : x.edgesOf v < 2 ^ 31 := by
  by_contra hlarge
  obtain ⟨i, hi, rfl⟩ := (x.mem_iff hint v).mp hv
  have hmem := Finset.mem_range.mpr hi
  have hsum := x.sum_edgesOf_le hint hdisjoint hinside
  have hless : x.numEdges <
      ∑ i ∈ Finset.range x.nvertices, x.edgesOf (x.st + i) := by
    rw [x.numEdges_eq]
    exact Finset.sum_lt_sum (fun j _ => x.room_le _) ⟨i, hmem, x.room_lt hlarge⟩
  have hpos : 0 < ∑ i ∈ Finset.range x.nvertices, x.edgesOf (x.st + i) :=
    lt_of_lt_of_le (by omega : (0 : ℤ) < x.edgesOf (x.st + i))
      (Finset.single_le_sum (f := fun i => x.edgesOf (x.st + i))
        (fun j _ => x.edgesOf_nonneg _) hmem)
  omega

/-- **Neither the number of vertices nor a sum of degrees wraps around.** -/
structure Small : Prop where
  /-- An `int` counts the vertices … -/
  vertices : x.size < 2 ^ 31
  /-- … and the edges of each. -/
  degrees : ∀ v, x.Mem v → (x.degree v).indegree + (x.degree v).outdegree < 2 ^ 31

/-- **An out-block fits**: its values take fewer than `2 ^ 31 - 1` bytes, and
the two counters of vertices do not overflow. -/
def OutFits (p : ℕ) : Prop :=
  x.slots p * x.main.loader.edgeSize + 1 < 2 ^ 31
    ∧ BlockDecoding.reach x.nvertices 0 (x.outItems p) < 2 ^ 31
    ∧ toInt32 x.st + BlockDecoding.reach x.nvertices 0 (x.outItems p) < 2 ^ 31

/-- **The load fits**: the vertices and their degrees, and the blocks. -/
structure Fits : Prop extends Small x where
  /-- The in-blocks are read in one chunk each. -/
  edata : x.edata.Fits
  /-- The out-blocks suit their reader. -/
  out : ∀ p < x.part.nshards, p ≠ x.main.exec → x.OutFits p

variable {x}

theorem offset_succ (hsmall : x.Small) {i : ℕ} (hi : i < x.nvertices) :
    x.offset (i + 1) = x.offset i + x.edgesOf (x.st + i) := by
  unfold offset
  rw [Finset.sum_range_succ,
    x.room_eq (hsmall.degrees _ ((x.mem_iff hsmall.vertices _).mpr ⟨i, hi, rfl⟩))]

theorem offset_mono (hsmall : x.Small) {i j : ℕ} (hij : i ≤ j)
    (hj : j ≤ x.nvertices) : x.offset i ≤ x.offset j := by
  induction j, hij using Nat.le_induction with
  | base => exact le_rfl
  | succ j _ ih =>
    rw [offset_succ hsmall hj]
    exact (ih (by omega)).trans
      (le_add_of_nonneg_right (x.edgesOf_nonneg _))

/-- The segments are apart. -/
theorem Small.disjoint (hsmall : x.Small) {u v : ℕ} (hu : x.Mem u)
    (hv : x.Mem v) {z : ℤ} (hzu : x.InSegment u z) (hzv : x.InSegment v z) :
    u = v := by
  obtain ⟨i, hi, rfl⟩ := (x.mem_iff hsmall.vertices u).mp hu
  obtain ⟨j, hj, rfl⟩ := (x.mem_iff hsmall.vertices v).mp hv
  rw [x.inSegment_iff hi, ← offset_succ hsmall hi] at hzu
  rw [x.inSegment_iff hj, ← offset_succ hsmall hj] at hzv
  rcases lt_trichotomy i j with hlt | rfl | hlt
  · have hle : x.offset (i + 1) ≤ x.offset j := offset_mono hsmall hlt hj.le
    omega
  · rfl
  · have hle : x.offset (j + 1) ≤ x.offset i := offset_mono hsmall hlt hi.le
    omega

/-- The segments are within `edata`. -/
theorem Small.inside (hsmall : x.Small) {v : ℕ} (hv : x.Mem v) {z : ℤ}
    (hz : x.InSegment v z) : 0 ≤ z ∧ z < x.numEdges := by
  obtain ⟨i, hi, rfl⟩ := (x.mem_iff hsmall.vertices v).mp hv
  rw [x.inSegment_iff hi, ← offset_succ hsmall hi] at hz
  have hbelow : x.offset 0 ≤ x.offset i :=
    offset_mono hsmall (Nat.zero_le i) hi.le
  have habove : x.offset (i + 1) ≤ x.offset x.nvertices :=
    offset_mono hsmall hi le_rfl
  have hzero : x.offset 0 = 0 := rfl
  rw [x.numEdges_eq]
  exact ⟨by omega, by omega⟩

/-! ## What the loaders add -/

variable (x)

instance (v : ℕ) : Decidable (x.Mem v) :=
  inferInstanceAs (Decidable (x.part.Mem _ _))

theorem inWindow_eq (v : ℕ) :
    x.main.loader.inWindow v = decide (x.Mem v) := by
  have hlt := x.exec_lt
  unfold MainShard.Loader.inWindow Mem IntervalPartition.Mem
  rw [x.windowSt, x.windowEn]
  simp [hlt]

/-- What an edge of the main file adds. -/
def adds (e : ℕ × ℕ) : List ((Side × ℕ) × ℕ) :=
  (if x.Mem e.1 then [((.outedge, e.1), e.2)] else [])
    ++ [((.inedge, e.2), e.1)]

/-- **The loader of the main shard** adds an in-edge for each edge, and an
out-edge if the source is a vertex of the worker too. -/
theorem mainAppends_eq : x.mainAppends = x.main.pairs.flatMap x.adds := by
  have hload := x.main.toShard.load_eq
  have hrecords := x.main.records_eq hload
  have hadded : ∀ q ∈ x.main.pairs.zipIdx,
      (x.main.added q).map (fun r => ((r.side, r.vertex), r.vertexid)) =
        x.adds q.1 := by
    intro q hq
    have hdst := x.main.dst q.1 (List.fst_mem_of_mem_zipIdx hq)
    have hout := x.inWindow_eq q.1.1
    unfold OwnShard.added MainShard.Loader.outRecord
      MainShard.Loader.inRecord MainShard.Loader.hasVertex adds
    rw [hdst, hout, x.scheduled, x.inedges, x.outedges]
    by_cases hmem : x.Mem q.1.1 <;> simp [hmem]
  unfold mainAppends
  rw [hload]
  dsimp only
  rw [hrecords, List.map_flatMap]
  calc x.main.pairs.zipIdx.flatMap (fun q => (x.main.added q).map
          fun r => ((r.side, r.vertex), r.vertexid))
      = x.main.pairs.zipIdx.flatMap fun q => x.adds q.1 :=
        List.flatMap_congr hadded
    _ = (x.main.pairs.zipIdx.map Prod.fst).flatMap x.adds := by
        rw [List.flatMap_map]
    _ = x.main.pairs.flatMap x.adds := by
        rw [List.zipIdx_map_fst]

/-- A row has the edges of one vertex. -/
theorem length_targets_le (start : ℕ) {its : List Item} {it : Item}
    (hit : it ∈ its) : ∃ v, it.targets.length ≤
      (expand start its).countP fun e => decide (e.1 = v) := by
  induction its generalizing start with
  | nil => exact absurd hit List.not_mem_nil
  | cons jt its ih =>
    rcases List.mem_cons.mp hit with rfl | hrest
    · refine ⟨start, ?_⟩
      rw [expand, List.countP_append, List.countP_map]
      have hall : it.targets.countP
          ((fun e : ℕ × ℕ => decide (e.1 = start)) ∘ fun t => (start, t)) =
            it.targets.length :=
        List.countP_eq_length.mpr fun t _ => decide_eq_true rfl
      omega
    · obtain ⟨v, hv⟩ := ih (start + jt.span) hrest
      refine ⟨v, ?_⟩
      rw [expand, List.countP_append]
      omega

/-- The edges from the worker to interval `p`. -/
def outEdges (p : ℕ) : List (ℕ × ℕ) :=
  x.edges.filter fun e =>
    decide (x.part.Mem x.main.exec e.1 ∧ x.part.Mem p e.2)

theorem mem_outEdges {p : ℕ} (hp : p < x.part.nshards) (hne : p ≠ x.main.exec)
    {q : ℕ × ℕ} (hq : q ∈ expand x.st (x.outItems p)) :
    q ∈ x.edges ∧ x.Mem q.1 ∧ x.part.Mem p q.2 := by
  have hq' := List.mem_filter.mp ((x.out_decodes p hp hne).mem_iff.mp hq)
  exact ⟨hq'.1, of_decide_eq_true hq'.2⟩

/-- The rows of an out-block are counted by an `int`. -/
theorem short_outItems {p : ℕ} (hp : p < x.part.nshards) (hne : p ≠ x.main.exec) :
    ∀ it ∈ x.outItems p, it.targets.length < 2 ^ 31 := by
  intro it hit
  obtain ⟨v, hle⟩ := length_targets_le (x.part.first x.main.exec) hit
  have hcount : (expand (x.part.first x.main.exec) (x.outItems p)).countP
      (fun e => decide (e.1 = v)) ≤
        x.edges.countP fun e => decide (e.1 = v) := by
    rw [(x.out_decodes p hp hne).countP_eq]
    exact List.Sublist.countP_le List.filter_sublist
  have hdegree := x.outdegree_eq v
  have hlt := (x.degree_lt v).2
  omega

theorem length_outItems {p : ℕ} (hp : p < x.part.nshards) (hne : p ≠ x.main.exec) :
    (expand x.st (x.outItems p)).length = x.slots p := by
  rw [x.slots_eq, List.countP_eq_length_filter]
  exact (x.out_decodes p hp hne).length_eq

/-- Items with their bytes. -/
def pieces (its : List Item) : List (Item × List UInt8) :=
  its.map fun it => (it, encodeItem it)

@[simp] theorem map_fst_pieces (its : List Item) : (pieces its).map Prod.fst = its := by
  unfold pieces
  rw [List.map_map]
  exact List.map_id its

@[simp] theorem flatMap_snd_pieces (its : List Item) :
    (pieces its).flatMap Prod.snd = encode its := by
  unfold pieces
  rw [List.flatMap_map]
  rfl

/-- **An out-block**, with the rows that it has, is one that conforms to the
grammar. -/
def block {p : ℕ} (hint : x.size < 2 ^ 31) (hp : p < x.part.nshards)
    (hne : p ≠ x.main.exec) : BlockDecoding.Block where
  start := x.st
  nvecs := x.nvertices
  rangeSt := x.part.first p
  rangeEnd := x.part.second p
  edgeSize := x.main.loader.edgeSize
  pieces := pieces (x.outItems p)
  nvecs_lt := x.nvertices_eq hint ▸ hint
  start_add_nvecs_le := by
    have hlt := IntervalPartition.second_lt x.exec_lt
    have hle := IntervalPartition.first_le x.exec_lt
    rw [x.nvertices_eq hint]
    unfold size st
    omega
  edgeSize_pos := x.main.edgeSize_pos
  codes := by
    intro y hy
    obtain ⟨it, hit, rfl⟩ := List.mem_map.mp hy
    exact BlockDecoding.Block.codes_encodeItem (x.out_valid p hp hne it hit)
  sources := by
    intro q hq
    rw [map_fst_pieces] at hq
    obtain ⟨i, hi, heq⟩ := (x.mem_iff hint _).mp (x.mem_outEdges hp hne hq).2.1
    omega
  targets := by
    intro q hq
    rw [map_fst_pieces] at hq
    exact (x.mem_outEdges hp hne hq).2.2.2
  ne := by
    intro q hq
    rw [map_fst_pieces] at hq
    exact (x.noloop q (x.mem_outEdges hp hne hq).1).symm

theorem edges_block {p : ℕ} (hint : x.size < 2 ^ 31) (hp : p < x.part.nshards)
    (hne : p ≠ x.main.exec) :
    (x.block hint hp hne).edges = expand x.st (x.outItems p) :=
  congrArg (expand x.st) (map_fst_pieces _)

theorem edatafilesize_block {p : ℕ} (hint : x.size < 2 ^ 31) (hp : p < x.part.nshards)
    (hne : p ≠ x.main.exec) :
    (x.block hint hp hne).edatafilesize = x.slots p * x.main.loader.edgeSize := by
  unfold BlockDecoding.Block.edatafilesize
  rw [x.edges_block hint hp hne, x.length_outItems hp hne]
  rfl

theorem last_block {p : ℕ} (hint : x.size < 2 ^ 31) (hp : p < x.part.nshards)
    (hne : p ≠ x.main.exec) : (x.block hint hp hne).last
      = BlockDecoding.reach x.nvertices 0 (x.outItems p) :=
  congrArg (BlockDecoding.reach x.nvertices 0) (map_fst_pieces _)

/-- The call for an out-block is the one for the block of the grammar. -/
theorem request_eq {p : ℕ} (hint : x.size < 2 ^ 31) (hp : p < x.part.nshards)
    (hne : p ≠ x.main.exec) :
    x.request p = (x.block hint hp hne).request fun _ => true := by
  unfold request BlockDecoding.Block.request
  rw [x.edatafilesize_block hint hp hne, ← flatMap_snd_pieces]
  rfl

/-- A block of the grammar fits as the file does. -/
theorem fits_block_iff {p : ℕ} (hint : x.size < 2 ^ 31) (hp : p < x.part.nshards)
    (hne : p ≠ x.main.exec) : (x.block hint hp hne).Fits ↔ x.OutFits p := by
  unfold BlockDecoding.Block.Fits OutFits
  rw [x.edatafilesize_block hint hp hne, x.last_block hint hp hne]
  exact Iff.rfl

/-- **An out-block is read if it fits**: its edges are added. -/
theorem read_request {p : ℕ} (hint : x.size < 2 ^ 31) (hp : p < x.part.nshards)
    (hne : p ≠ x.main.exec) (hfits : x.OutFits p) :
    ∃ l, (x.request p).read = some l
      ∧ l.map (fun r => (r.vertex, r.target)) = expand x.st (x.outItems p) := by
  have hblock := (x.fits_block_iff hint hp hne).mpr hfits
  refine ⟨(x.block hint hp hne).records fun _ => true, ?_, ?_⟩
  · rw [x.request_eq hint hp hne, BlockDecoding.Block.read_eq hblock.1,
      if_pos ⟨hblock.2.1, by simpa using hblock.2.2⟩]
  · rw [← x.edges_block hint hp hne, BlockDecoding.Block.records, List.filter_true,
      BlockDecoding.slots, List.map_map]
    exact List.zipIdx_map_fst 0 _

/-- **Otherwise it is not.** -/
theorem outFits_of_read {p : ℕ} (hint : x.size < 2 ^ 31) (hp : p < x.part.nshards)
    (hne : p ≠ x.main.exec) (h : ((x.request p).read).isSome) : x.OutFits p := by
  obtain ⟨l, hl⟩ := Option.isSome_iff_exists.mp h
  rw [x.request_eq hint hp hne] at hl
  refine (x.fits_block_iff hint hp hne).mp
    (BlockDecoding.Block.fits_of_read (fun y hy => ?_) hl)
  obtain ⟨it, hit, rfl⟩ := List.mem_map.mp hy
  exact x.short_outItems hp hne it hit

/-- **The loader of an out-block** adds an out-edge for each edge. -/
theorem outAppends_eq (hfits : x.Fits) {p : ℕ} (hp : p < x.part.nshards)
    (hne : p ≠ x.main.exec) : ∃ l : List (ℕ × ℕ), l.Perm (x.outEdges p) ∧
      x.outAppends p = l.map fun e => ((.outedge, e.1), e.2) := by
  obtain ⟨l, hread, hedges⟩ := x.read_request hfits.vertices hp hne (hfits.out p hp hne)
  refine ⟨l.map fun r => (r.vertex, r.target), ?_, ?_⟩
  · rw [hedges]
    exact x.out_decodes p hp hne
  · unfold outAppends
    rw [hread, Option.getD_some, List.map_map]
    rfl

/-! ## What is meant for a lane -/

/-- The in-edges that the main loader adds to a vertex. -/
theorem sel_inedge_adds (v : ℕ) (l : List (ℕ × ℕ)) :
    sel (Side.inedge, v) (l.flatMap x.adds) =
      ((l.filter fun e => decide (e.2 = v)).map Prod.fst : List ℕ) := by
  induction l with
  | nil => rfl
  | cons e l ih =>
    have hadds : sel (Side.inedge, v) (x.adds e) =
        if e.2 = v then {e.1} else 0 := by
      unfold adds
      by_cases hmem : x.Mem e.1
      · simp [hmem, SharedAppends.sel_cons]
      · simp [hmem, SharedAppends.sel_cons]
    rw [List.flatMap_cons, SharedAppends.sel_append, ih, hadds]
    by_cases hv : e.2 = v
    · rw [List.filter_cons_of_pos (by simpa using hv), if_pos hv]
      rfl
    · rw [List.filter_cons_of_neg (by simpa using hv), if_neg hv, zero_add]

/-- The out-edges that the main loader adds to a vertex. -/
theorem sel_outedge_adds (v : ℕ) (l : List (ℕ × ℕ)) :
    sel (Side.outedge, v) (l.flatMap x.adds) =
      if x.Mem v then
        (((l.filter fun e => decide (e.1 = v)).map Prod.snd : List ℕ) :
          Multiset ℕ)
      else 0 := by
  induction l with
  | nil => simp
  | cons e l ih =>
    have hadds : sel (Side.outedge, v) (x.adds e) =
        if x.Mem v ∧ e.1 = v then {e.2} else 0 := by
      unfold adds
      by_cases hv : e.1 = v
      · subst hv
        by_cases hmem : x.Mem e.1
        · simp [hmem, SharedAppends.sel_cons]
        · simp [hmem, SharedAppends.sel_cons]
      · by_cases hmem : x.Mem e.1
        · simp [hmem, SharedAppends.sel_cons, hv]
        · simp [hmem, SharedAppends.sel_cons, hv]
    rw [List.flatMap_cons, SharedAppends.sel_append, ih, hadds]
    by_cases hmem : x.Mem v
    · rw [if_pos hmem, if_pos hmem]
      by_cases hv : e.1 = v
      · rw [List.filter_cons_of_pos (by simpa using hv), if_pos ⟨hmem, hv⟩]
        rfl
      · rw [List.filter_cons_of_neg (by simpa using hv),
          if_neg fun h => hv h.2, zero_add]
    · rw [if_neg hmem, if_neg hmem, if_neg fun h => hmem h.1, zero_add]

/-- The edges that an out-loader adds to a vertex. -/
theorem sel_map_outedge (k : Side × ℕ) (l : List (ℕ × ℕ)) :
    sel k (l.map fun e => ((Side.outedge, e.1), e.2)) =
      if k.1 = .outedge then
        (((l.filter fun e => decide (e.1 = k.2)).map Prod.snd : List ℕ) :
          Multiset ℕ)
      else 0 := by
  induction l with
  | nil => simp
  | cons e l ih =>
    obtain ⟨side, v⟩ := k
    rw [List.map_cons, SharedAppends.sel_cons, ih]
    cases side with
    | inedge => simp
    | outedge =>
      by_cases hv : e.1 = v
      · rw [List.filter_cons_of_pos (by simpa using hv)]
        simp [hv]
      · rw [List.filter_cons_of_neg (by simpa using hv)]
        simp [hv]

/-- **A list falls into its parts**, if each of its items has a part and no
two. -/
theorem sum_filter_map {α β : Type*} {n : ℕ} {P : ℕ → α → Prop}
    [∀ k, DecidablePred (P k)] (f : α → β) {l : List α}
    (hex : ∀ a ∈ l, ∃ k < n, P k a)
    (huniq : ∀ a ∈ l, ∀ j k, P j a → P k a → j = k) :
    ∑ k ∈ Finset.range n,
        (((l.filter fun a => decide (P k a)).map f : List β) : Multiset β) =
      (l.map f : List β) := by
  induction l with
  | nil => simp
  | cons a l ih =>
    obtain ⟨k, hk, hP⟩ := hex a List.mem_cons_self
    have hterm : ∀ j, (((((a :: l).filter fun a => decide (P j a)).map f :
        List β)) : Multiset β) = (if j = k then {f a} else 0) +
          (((l.filter fun a => decide (P j a)).map f : List β) :
            Multiset β) := by
      intro j
      by_cases hj : P j a
      · have hjk := huniq a List.mem_cons_self j k hj hP
        rw [List.filter_cons_of_pos (by simpa using hj), if_pos hjk]
        rfl
      · have hjk : j ≠ k := fun hjk => hj (hjk ▸ hP)
        rw [List.filter_cons_of_neg (by simpa using hj), if_neg hjk, zero_add]
    rw [Finset.sum_congr rfl fun j _ => hterm j, Finset.sum_add_distrib,
      Finset.sum_ite_eq', if_pos (Finset.mem_range.mpr hk),
      ih (fun b hb => hex b (List.mem_cons_of_mem _ hb))
        fun b hb => huniq b (List.mem_cons_of_mem _ hb)]
    rfl

/-- The appends of the loader of an out-block that are meant for a lane. -/
theorem sel_outAppends (hfits : x.Fits) {p : ℕ} (hp : p < x.part.nshards)
    (hne : p ≠ x.main.exec) (k : Side × ℕ) : sel k (x.outAppends p) =
      if k.1 = .outedge then
        ((((x.outEdges p).filter fun e => decide (e.1 = k.2)).map Prod.snd :
          List ℕ) : Multiset ℕ)
      else 0 := by
  obtain ⟨l, hperm, heq⟩ := x.outAppends_eq hfits hp hne
  rw [heq, sel_map_outedge]
  split
  · exact Multiset.coe_eq_coe.mpr ((hperm.filter _).map _)
  · rfl

theorem total_eq (k : Side × ℕ) : x.system.total k =
    ∑ p ∈ Finset.range x.part.nshards,
        (if p ≠ x.main.exec then sel k (x.outAppends p) else 0)
      + sel k (x.main.pairs.flatMap x.adds) := by
  unfold SharedAppends.System.total
  show ∑ t ∈ Finset.range (x.part.nshards + 1), sel k (x.program t) = _
  rw [Finset.sum_range_succ', ← x.mainAppends_eq]
  refine congrArg (· + _) (Finset.sum_congr rfl fun p hp => ?_)
  show sel k (if p < x.part.nshards ∧ p ≠ x.main.exec then x.outAppends p
    else []) = _
  by_cases hne : p ≠ x.main.exec
  · rw [if_pos ⟨Finset.mem_range.mp hp, hne⟩, if_pos hne]
  · rw [if_neg fun h => hne h.2, if_neg hne]
    rfl

/-- **The in-edge records of a vertex**: one for each edge to it, from whichever
block the loader takes it. -/
theorem total_inedge (hfits : x.Fits) (v : ℕ) : x.system.total (.inedge, v) =
    if x.Mem v then ((x.inNeighbours v : List ℕ) : Multiset ℕ) else 0 := by
  have hzero : ∑ p ∈ Finset.range x.part.nshards,
      (if p ≠ x.main.exec then sel (Side.inedge, v) (x.outAppends p)
        else 0) = 0 := by
    refine Finset.sum_eq_zero fun p hp => ?_
    split
    · next hne =>
      rw [x.sel_outAppends hfits (Finset.mem_range.mp hp) hne]
      rfl
    · rfl
  have hmain : (x.main.pairs.filter fun e => decide (e.2 = v)).Perm
      (if x.Mem v then x.edges.filter fun e => decide (e.2 = v) else []) := by
    refine (x.main_decodes.filter _).trans (List.Perm.of_eq ?_)
    rw [List.filter_filter]
    by_cases hmem : x.Mem v
    · rw [if_pos hmem]
      refine List.filter_congr fun e _ => ?_
      by_cases hv : e.2 = v
      · subst hv
        have hmem' : x.part.Mem x.main.exec e.2 := hmem
        simp [hmem']
      · simp [hv]
    · rw [if_neg hmem]
      refine List.filter_eq_nil_iff.mpr fun e _ => ?_
      simp only [Bool.and_eq_true, decide_eq_true_eq, not_and]
      rintro rfl
      exact hmem
  rw [x.total_eq, hzero, zero_add, x.sel_inedge_adds]
  refine (Multiset.coe_eq_coe.mpr (hmain.map _)).trans ?_
  split
  · rfl
  · rfl

/-- **The out-edge records of a vertex**: one for each edge from it. The main
file adds those whose destination is in the interval as well, and each of the
other loaders those to its own worker; the intervals tile the ids. -/
theorem total_outedge (hfits : x.Fits) (v : ℕ) : x.system.total (.outedge, v) =
    if x.Mem v then ((x.outNeighbours v : List ℕ) : Multiset ℕ) else 0 := by
  have hout : ∀ p < x.part.nshards, p ≠ x.main.exec →
      sel (Side.outedge, v) (x.outAppends p) =
        if x.Mem v then
          ((((x.edges.filter fun e => decide (e.1 = v)).filter fun e =>
            decide (x.part.Mem p e.2)).map Prod.snd : List ℕ) : Multiset ℕ)
        else 0 := by
    intro p hp hne
    -- an out-block of another worker has the edges from the vertex into its interval
    rw [x.sel_outAppends hfits hp hne, if_pos rfl]
    unfold outEdges
    rw [List.filter_filter, List.filter_filter]
    by_cases hmem : x.Mem v
    · rw [if_pos hmem]
      refine congrArg _ (congrArg _ (List.filter_congr fun e _ => ?_))
      by_cases hv : e.1 = v
      · subst hv
        have hmem' : x.part.Mem x.main.exec e.1 := hmem
        simp [hmem']
      · simp [hv]
    · rw [if_neg hmem]
      refine (congrArg (fun l : List (ℕ × ℕ) =>
        ((l.map Prod.snd : List ℕ) : Multiset ℕ))
        (List.filter_eq_nil_iff.mpr fun e _ => ?_)).trans rfl
      simp only [Bool.and_eq_true, decide_eq_true_eq, not_and]
      rintro rfl hboth
      exact absurd hboth hmem
  rw [x.total_eq, x.sel_outedge_adds]
  by_cases hmem : x.Mem v
  · -- and the main file has those that stay inside
    have hmain : (((x.main.pairs.filter fun e => decide (e.1 = v)).map
        Prod.snd : List ℕ) : Multiset ℕ) =
          ((((x.edges.filter fun e => decide (e.1 = v)).filter fun e =>
            decide (x.part.Mem x.main.exec e.2)).map Prod.snd : List ℕ) :
              Multiset ℕ) := by
      refine Multiset.coe_eq_coe.mpr
        (((x.main_decodes.filter _).trans (List.Perm.of_eq ?_)).map _)
      rw [List.filter_filter, List.filter_filter]
      exact List.filter_congr fun e _ => Bool.and_comm _ _
    have hexec : x.main.exec ∈ Finset.range x.part.nshards :=
      Finset.mem_range.mpr x.exec_lt
    rw [if_pos hmem, if_pos hmem, hmain, ← Finset.add_sum_erase _ _ hexec,
      if_neg (not_not.mpr rfl), zero_add, add_comm]
    -- every edge goes to one interval, so that the files together have each of them
    -- once
    have hparts := sum_filter_map (n := x.part.nshards)
      (P := fun p (e : ℕ × ℕ) => x.part.Mem p e.2) Prod.snd
      (l := x.edges.filter fun e => decide (e.1 = v))
      (fun e he => by
        obtain ⟨k, hk⟩ := (x.covered e (List.mem_filter.mp he).1).2
        exact ⟨k, hk.1, hk⟩)
      fun e _ j k hj hk => hj.unique hk
    refine Eq.trans ?_ hparts
    rw [← Finset.add_sum_erase _ _ hexec]
    refine congrArg (_ + ·) (Finset.sum_congr rfl fun p hp => ?_)
    obtain ⟨hne, hp⟩ := Finset.mem_erase.mp hp
    rw [if_pos hne, hout p (Finset.mem_range.mp hp) hne, if_pos hmem]
  · rw [if_neg hmem, if_neg hmem, add_zero]
    refine Finset.sum_eq_zero fun p hp => ?_
    split
    · next hne => rw [hout p (Finset.mem_range.mp hp) hne, if_neg hmem]
    · rfl

/-! ## The loaders have room -/

variable {x}

theorem mem_of_lt_total (hfits : x.Fits) {k : Side × ℕ} {i : ℕ}
    (h : i < (x.system.total k).card) : x.Mem k.2 := by
  by_contra hmem
  obtain ⟨side, v⟩ := k
  cases side with
  | inedge =>
    rw [x.total_inedge hfits, if_neg hmem] at h
    exact absurd h (Nat.not_lt_zero _)
  | outedge =>
    rw [x.total_outedge hfits, if_neg hmem] at h
    exact absurd h (Nat.not_lt_zero _)

theorem card_inedge (hfits : x.Fits) {v : ℕ} (hv : x.Mem v) :
    ((x.system.total (.inedge, v)).card : ℤ) = (x.degree v).indegree := by
  rw [x.total_inedge hfits, if_pos hv, Multiset.coe_card, x.indegree_eq,
    List.countP_eq_length_filter]
  unfold inNeighbours
  rw [List.length_map]

theorem card_outedge (hfits : x.Fits) {v : ℕ} (hv : x.Mem v) :
    ((x.system.total (.outedge, v)).card : ℤ) = (x.degree v).outdegree := by
  rw [x.total_outedge hfits, if_pos hv, Multiset.coe_card, x.outdegree_eq,
    List.countP_eq_length_filter]
  unfold outNeighbours
  rw [List.length_map]

/-- The out-edge records are behind the in-edge records. -/
theorem outedgesPtr_eq (hint : x.size < 2 ^ 31) {v : ℕ} (hv : x.Mem v) : (x.vertex v).outedgesPtr =
    (x.vertex v).inedgesPtr + (x.degree v).indegree := by
  obtain ⟨i, hi, rfl⟩ := (x.mem_iff hint v).mp hv
  rw [x.vertex_eq hi]

/-- The cells that a lane is meant to have are in the segment of the
vertex. -/
theorem inSegment_of_lt (hfits : x.Fits) {k : Side × ℕ} {i : ℕ}
    (h : i < (x.system.total k).card) :
    x.InSegment k.2 (x.system.base k + i) := by
  obtain ⟨side, v⟩ := k
  have hv : x.Mem v := mem_of_lt_total hfits h
  have hptr := outedgesPtr_eq hfits.vertices hv
  have hin := x.indegree_nonneg v
  have hout := x.outdegree_nonneg v
  cases side with
  | inedge =>
    have hcard := card_inedge hfits hv
    show (x.vertex v).inedgesPtr ≤ (x.vertex v).inedgesPtr + i
      ∧ (x.vertex v).inedgesPtr + i <
        (x.vertex v).outedgesPtr + (x.degree v).outdegree
    omega
  | outedge =>
    have hcard := card_outedge hfits hv
    show (x.vertex v).inedgesPtr ≤ (x.vertex v).outedgesPtr + i
      ∧ (x.vertex v).outedgesPtr + i <
        (x.vertex v).outedgesPtr + (x.degree v).outdegree
    omega

/-- The lanes of one vertex do not share a cell. -/
theorem side_eq (hfits : x.Fits) {v : ℕ} {side side' : Side} {i j : ℕ}
    (hi : i < (x.system.total (side, v)).card)
    (hj : j < (x.system.total (side', v)).card)
    (heq : x.system.base (side, v) + i = x.system.base (side', v) + j) :
    side = side' := by
  have hv : x.Mem v := mem_of_lt_total hfits hi
  have hptr := outedgesPtr_eq hfits.vertices hv
  cases side with
  | inedge =>
    cases side' with
    | inedge => rfl
    | outedge =>
      have hcard := card_inedge hfits hv
      have heq : (x.vertex v).inedgesPtr + i = (x.vertex v).outedgesPtr + j :=
        heq
      omega
  | outedge =>
    cases side' with
    | outedge => rfl
    | inedge =>
      have hcard := card_inedge hfits hv
      have heq : (x.vertex v).outedgesPtr + i = (x.vertex v).inedgesPtr + j :=
        heq
      omega

/-- An append is one of the main loader, or of an out-block. -/
theorem mem_program (hfits : x.Fits) {t : ℕ} {a : (Side × ℕ) × ℕ} (h : a ∈ x.program t) :
    (t = 0 ∨ a.1.1 = .outedge) ∧ ∃ e ∈ x.edges,
      a = ((.outedge, e.1), e.2) ∨ a = ((.inedge, e.2), e.1) := by
  cases t with
  | zero =>
    have h : a ∈ x.mainAppends := h
    rw [x.mainAppends_eq] at h
    obtain ⟨e, he, ha⟩ := List.mem_flatMap.mp h
    have he' := (List.mem_filter.mp (x.main_decodes.mem_iff.mp he)).1
    refine ⟨Or.inl rfl, e, he', ?_⟩
    unfold adds at ha
    rcases List.mem_append.mp ha with hout | hin
    · split at hout
      · exact Or.inl (List.mem_singleton.mp hout)
      · exact absurd hout List.not_mem_nil
    · exact Or.inr (List.mem_singleton.mp hin)
  | succ p =>
    have h : a ∈ if p < x.part.nshards ∧ p ≠ x.main.exec then x.outAppends p
      else [] := h
    split at h
    · next hp =>
      obtain ⟨l, hperm, heq⟩ := x.outAppends_eq hfits hp.1 hp.2
      rw [heq] at h
      obtain ⟨e, he, rfl⟩ := List.mem_map.mp h
      exact ⟨Or.inr rfl, e,
        (List.mem_filter.mp (hperm.mem_iff.mp he)).1, Or.inl rfl⟩
    · exact absurd h List.not_mem_nil

/-- **The appends of the loaders have room** where the load fits. -/
theorem Fits.roomy (hfits : x.Fits) : Roomy x.system where
  apart := by
    rintro ⟨side, u⟩ ⟨side', v⟩ i hi j hj heq
    have hsegment := inSegment_of_lt hfits hj
    rw [← heq] at hsegment
    obtain rfl : u = v := hfits.disjoint (mem_of_lt_total hfits hi)
      (mem_of_lt_total hfits hj) (inSegment_of_lt hfits hi) hsegment
    obtain rfl := side_eq hfits hi hj heq
    exact ⟨rfl, by omega⟩
  owner := by
    rintro ⟨side, v⟩ hlane t u y z ht hu
    have hne : ¬side = .outedge := of_decide_eq_false hlane
    have ht0 : t = 0 := (mem_program hfits ht).1.resolve_right hne
    have hu0 : u = 0 := (mem_program hfits hu).1.resolve_right hne
    rw [ht0, hu0]
  allowed := by
    intro t a ha
    obtain ⟨-, e, he, rfl | rfl⟩ := mem_program hfits ha
    · exact decide_eq_true (x.noloop e he).symm
    · exact decide_eq_true (x.noloop e he)

/-- **A load that fits is complete.** The segments have the lengths that the
degrees say, so that the appends of `SharedAppends` have room; the loaders stop
at no assertion. -/
theorem Fits.complete (hfits : x.Fits) : Complete x where
  edata := BlockLoading.completes_of_fits hfits.edata
  reads := fun p hp hne => by
    obtain ⟨l, hread, -⟩ := x.read_request hfits.vertices hp hne (hfits.out p hp hne)
    rw [hread]
    rfl
  disjoint := fun _ _ hu hv _ hzu hzv => hfits.disjoint hu hv hzu hzv
  inside := fun _ hv _ hz => hfits.inside hv hz
  live := fun _ _ hrun => by
    obtain ⟨log, hinv⟩ := SharedAppends.exists_inv hfits.roomy hrun
    exact hinv.live hfits.roomy
  bounded := ⟨_, fun _ _ hrun => SharedAppends.Reaches.length_le hrun⟩
  kept := fun _ _ hrun _ _ hstep _ _ hz => by
    obtain ⟨log, hinv⟩ := SharedAppends.exists_inv hfits.roomy hrun
    exact hinv.keeps hfits.roomy hstep hz
  within := fun _ _ hrun z _ hz => by
    obtain ⟨log, hinv⟩ := SharedAppends.exists_inv hfits.roomy hrun
    obtain ⟨k, i, hi, rfl⟩ := hinv.within hz
    exact ⟨k.2, mem_of_lt_total hfits hi, inSegment_of_lt hfits hi⟩
  records := fun _ s hrun hend v hv => by
    obtain ⟨log, hinv⟩ := SharedAppends.exists_inv hfits.roomy hrun
    obtain ⟨hin, hinlane⟩ := hinv.lane_eq hend (.inedge, v)
    obtain ⟨hout, houtlane⟩ := hinv.lane_eq hend (.outedge, v)
    refine ⟨by rw [hin, card_inedge hfits hv], by rw [hout, card_outedge hfits hv],
      Multiset.coe_eq_coe.mp ?_, Multiset.coe_eq_coe.mp ?_⟩
    · rw [hinlane, x.total_inedge hfits, if_pos hv, Multiset.map_coe]
    · rw [houtlane, x.total_outedge hfits, if_pos hv, Multiset.map_coe]

/-! ## Where the load does not fit -/

/-- Block `exec` of a load that comes to its end is not empty: the worker has
an edge of its own. -/
theorem exists_own_edge (h : x.edata.Fits) :
    ∃ e ∈ x.edges, x.Mem e.1 ∧ x.Mem e.2 := by
  have hpos := (h.size x.edata.exec).1
  rw [x.edata_file, x.edata_exec, x.main.blocksizes, List.getD_eq_getElem?_getD,
    List.getElem?_map, x.main_blocks, List.getElem?_map,
    List.getElem?_range x.exec_lt] at hpos
  have hcount : 0 < x.edges.countP fun e =>
      decide (x.part.Mem x.main.exec e.1 ∧ x.part.Mem x.main.exec e.2) :=
    Nat.pos_of_mul_pos_left hpos
  obtain ⟨e, he, hmem⟩ := List.countP_pos_iff.mp hcount
  exact ⟨e, he, of_decide_eq_true hmem⟩

/-- **The vertices of a complete load are counted by an `int`**: else none is
set up, and there is no room for an edge. -/
theorem size_lt_of_complete (h : Complete x) : x.size < 2 ^ 31 := by
  by_contra hlarge
  have hzero : x.nvertices = 0 := by
    unfold nvertices
    exact if_neg hlarge
  obtain ⟨e, he, hmem, -⟩ := exists_own_edge (BlockLoading.fits_of_completes h.edata)
  have hdegree : 0 < (x.degree e.1).outdegree := by
    rw [x.outdegree_eq]
    exact Int.natCast_pos.mpr (List.countP_pos_iff.mpr ⟨e, he, decide_eq_true rfl⟩)
  have hvertices : x.vertices = [] := by
    unfold vertices
    rw [hzero]
    rfl
  have hvertex : x.vertex e.1 = ⟨e.1, 0, 0⟩ := by
    unfold vertex
    rw [hvertices]
    rfl
  have hroom : x.numEdges = 0 := by
    rw [x.numEdges_eq, hzero]
    rfl
  have hcell : x.InSegment e.1 0 := by
    unfold InSegment
    rw [hvertex]
    exact ⟨le_rfl, by simpa using hdegree⟩
  have hinside := (h.inside e.1 hmem 0 hcell).2
  rw [hroom] at hinside
  exact absurd hinside (lt_irrefl 0)

/-- **A complete load fits.** -/
theorem fits_of_complete (h : Complete x) : x.Fits where
  vertices := (size_lt_of_complete h)
  degrees := fun _ hv => x.edgesOf_lt (size_lt_of_complete h) h.disjoint h.inside hv
  edata := BlockLoading.fits_of_completes h.edata
  out := fun p hp hne => x.outFits_of_read (size_lt_of_complete h) hp hne (h.reads p hp hne)

/-- **The load is complete exactly where it fits.** -/
theorem complete_load_iff (x : Subgraph) : Complete x ↔ x.Fits :=
  ⟨fits_of_complete, Fits.complete⟩

/-! ## A graph with a vertex of too many edges -/

/-- Two workers: vertex `0` has `n` edges to and from vertex `1`, on the same
worker, and `n` to and from vertex `2`, on the other one, whose own block has
an edge too. -/
def hubEdges (n : ℕ) : List (ℕ × ℕ) :=
  List.replicate n (0, 1) ++ List.replicate n (1, 0) ++ List.replicate n (2, 0)
    ++ List.replicate n (0, 2) ++ [(2, 3)]

/-- The intervals of the two workers. -/
def hubPart : IntervalPartition where
  intervals := [(0, 1), (2, 4)]
  start := rfl
  contiguous := by decide
  ordered := by decide
  vid := by decide

theorem filter_hubEdges (n : ℕ) (q : ℕ × ℕ → Bool) : (hubEdges n).filter q =
    (if q (0, 1) then List.replicate n (0, 1) else [])
      ++ (if q (1, 0) then List.replicate n (1, 0) else [])
      ++ (if q (2, 0) then List.replicate n (2, 0) else [])
      ++ (if q (0, 2) then List.replicate n (0, 2) else [])
      ++ (if q (2, 3) then [(2, 3)] else []) := by
  unfold hubEdges
  simp only [List.filter_append, List.filter_replicate, List.filter_singleton,
    Bool.cond_eq_ite]

theorem countP_hubEdges (n : ℕ) (q : ℕ × ℕ → Bool) : (hubEdges n).countP q =
    (if q (0, 1) then n else 0) + (if q (1, 0) then n else 0)
      + (if q (2, 0) then n else 0) + (if q (0, 2) then n else 0)
      + (if q (2, 3) then 1 else 0) := by
  unfold hubEdges
  simp only [List.countP_append, List.countP_replicate, List.countP_singleton]

theorem forall_mem_hubEdges {n : ℕ} {P : ℕ × ℕ → Prop} (h : P (0, 1) ∧ P (1, 0)
    ∧ P (2, 0) ∧ P (0, 2) ∧ P (2, 3)) : ∀ e ∈ hubEdges n, P e := by
  intro e he
  obtain ⟨h01, h10, h20, h02, h23⟩ := h
  unfold hubEdges at he
  simp only [List.mem_append, List.mem_replicate, List.mem_singleton] at he
  rcases he with (((⟨-, rfl⟩ | ⟨-, rfl⟩) | ⟨-, rfl⟩) | ⟨-, rfl⟩) | rfl
  · exact h01
  · exact h10
  · exact h20
  · exact h02
  · exact h23

/-- The rows of the main shard of the first worker. -/
def hubItems (n : ℕ) : List Item :=
  [.row (List.replicate n 1), .row (List.replicate n 0), .row (List.replicate n 0)]

theorem expand_hubItems (n : ℕ) : expand 0 (hubItems n) =
    (List.replicate n (0, 1) ++ List.replicate n (1, 0)) ++ List.replicate n (2, 0) := by
  simp [hubItems, expand, Item.targets, Item.span]

theorem valid_replicate {n : ℕ} (hpos : 0 < n) (hlt : n < 2 ^ 30) {t : ℕ}
    (ht : t < 3) : (Item.row (List.replicate n t)).Valid := by
  refine ⟨fun h => ?_, by rw [List.length_replicate]; omega, fun u hu => ?_⟩
  · have hlen := congrArg List.length h
    rw [List.length_replicate] at hlen
    exact hpos.ne' hlen
  · rw [List.eq_of_mem_replicate hu]
    omega

/-- The loader of the first worker, with edge values of one byte. -/
def hubLoader (n : ℕ) : MainShard.Loader where
  windowSt := 0
  windowEn := 1
  scheduled := fun _ => true
  inedges := true
  outedges := true
  synchronous := true
  edgeSize := 1
  blocksizes := [1 * (n + n), 1 * n]

theorem forall_mem_hubItems {n : ℕ} {P : Item → Prop}
    (h : ∀ t < 3, P (.row (List.replicate n t))) : ∀ it ∈ hubItems n, P it := by
  intro it hit
  simp only [hubItems, List.mem_cons, List.not_mem_nil, or_false] at hit
  rcases hit with rfl | rfl | rfl
  · exact h 1 (by omega)
  · exact h 0 (by omega)
  · exact h 0 (by omega)

theorem short_replicate {n : ℕ} (hlt : n < 2 ^ 30) (t : ℕ) :
    (Item.row (List.replicate n t)).targets.length < 2 ^ 31 := by
  rw [Item.targets, List.length_replicate]
  omega

theorem sum_hubBlocks (n : ℕ) :
    [n + n, n].sum = ((hubItems n).flatMap Item.targets).length := by
  simp [hubItems, Item.targets]
  omega

/-- All edges lead to a vertex of the first worker. -/
theorem dst_hubItems (n : ℕ) : ∀ q ∈ expand 0 (hubItems n),
    (hubLoader n).inWindow q.2 = true := by
  intro q hq
  rw [expand_hubItems] at hq
  simp only [List.mem_append, List.mem_replicate] at hq
  rcases hq with (⟨-, rfl⟩ | ⟨-, rfl⟩) | ⟨-, rfl⟩
  · rfl
  · rfl
  · rfl

/-- Those of the first block start there too. -/
theorem src_hubItems (n : ℕ) : ∀ q ∈ (expand 0 (hubItems n)).zipIdx,
    (hubLoader n).inWindow q.1.1 = decide (0 ≤ q.2 ∧ q.2 < (List.take 1 [n + n, n]).sum) := by
  intro q hq
  rw [expand_hubItems, List.zipIdx_append, List.length_append, List.length_replicate,
    List.length_replicate] at hq
  rcases List.mem_append.mp hq with hq | hq
  · have hindex := List.snd_lt_of_mem_zipIdx hq
    have hmem := List.fst_mem_of_mem_zipIdx hq
    simp only [List.mem_append, List.mem_replicate, List.length_append,
      List.length_replicate] at hmem hindex
    have hwindow : (hubLoader n).inWindow q.1.1 = true := by
      rcases hmem with ⟨-, hq⟩ | ⟨-, hq⟩
      · rw [hq]
        rfl
      · rw [hq]
        rfl
    rw [hwindow]
    exact (decide_eq_true ⟨Nat.zero_le _, by simpa using hindex⟩).symm
  · have hindex := List.le_snd_of_mem_zipIdx hq
    have hmem := List.eq_of_mem_replicate (List.fst_mem_of_mem_zipIdx hq)
    have hwindow : (hubLoader n).inWindow q.1.1 = false := by
      rw [hmem]
      rfl
    rw [hwindow]
    refine (decide_eq_false fun h => ?_).symm
    have hlt := h.2
    simp at hlt
    omega

/-- The main shard of the first worker. -/
def hubShard (n : ℕ) (hpos : 0 < n) (hlt : n < 2 ^ 30) : OwnShard where
  loader := hubLoader n
  edgeSize_pos := Nat.one_pos
  items := hubItems n
  valid := forall_mem_hubItems fun _ ht => valid_replicate hpos hlt ht
  short := forall_mem_hubItems fun t _ => short_replicate hlt t
  blocks := [n + n, n]
  blocks_ne_nil := List.cons_ne_nil _ _
  blocksizes := rfl
  sum_blocks := sum_hubBlocks n
  exec := 0
  exec_lt := Nat.two_pos
  dst := dst_hubItems n
  src := src_hubItems n

/-- The in-blocks of the first worker, each of whole bytes, without
multiplexing. -/
def hubEdata (n : ℕ) : BlockLoading.Job where
  P := 2
  exec := 0
  edgeSize := 1
  edgeSize_pos := Nat.one_pos
  ET := [1]
  length_ET := rfl
  file := fun k => List.replicate ([1 * (n + n), 1 * n].getD k 0) 0
  dvd_length := fun _ => one_dvd _
  multiplex := 1
  multiplex_pos := Nat.one_pos
  niothreads := 1
  niothreads_pos := Nat.one_pos
  ioStripesize := 4096 * 1024 / 2
  ioStripesize_pos := by decide
  ioStripesize_lt := by decide
  found := fun _ => false
  startMplex := fun _ => 0
  startMplex_lt := fun _ => Nat.one_pos

/-- **The first worker and what it loads**: a vertex with so many edges that
their number is no `int`, in blocks that are each read in one chunk. -/
def hubGraph (n : ℕ) (hpos : 0 < n) (hlt : n < 2 ^ 30) : Subgraph where
  part := hubPart
  edges := hubEdges n
  noloop := forall_mem_hubEdges (by decide)
  covered := forall_mem_hubEdges
    ⟨⟨⟨0, by decide⟩, 0, by decide⟩, ⟨⟨0, by decide⟩, 0, by decide⟩,
      ⟨⟨1, by decide⟩, 0, by decide⟩, ⟨⟨0, by decide⟩, 1, by decide⟩,
      ⟨⟨1, by decide⟩, 1, by decide⟩⟩
  main := hubShard n hpos hlt
  exec_lt := Nat.two_pos
  windowSt := rfl
  windowEn := rfl
  scheduled := rfl
  inedges := rfl
  outedges := rfl
  main_decodes := by
    refine List.Perm.of_eq ((expand_hubItems n).trans ?_)
    rw [filter_hubEdges]
    show _ = _ ++ _ ++ _ ++ [] ++ []
    rw [List.append_nil, List.append_nil]
    rfl
  main_blocks := by
    show [n + n, n] =
      [(hubEdges n).countP fun e => decide (hubPart.Mem 0 e.1 ∧ hubPart.Mem 0 e.2),
        (hubEdges n).countP fun e => decide (hubPart.Mem 1 e.1 ∧ hubPart.Mem 0 e.2)]
    rw [countP_hubEdges, countP_hubEdges]
    show [n + n, n] = [n + n + 0 + 0 + 0, 0 + 0 + n + 0 + 0]
    simp only [Nat.add_zero, Nat.zero_add]
  edata := hubEdata n
  edata_P := rfl
  edata_exec := rfl
  edata_edgeSize := rfl
  edata_file := fun k => List.length_replicate
  outItems := fun _ => [.row (List.replicate n 2)]
  out_valid := by
    intro p hp hne it hit
    rw [List.mem_singleton.mp hit]
    exact valid_replicate hpos hlt (by omega)
  out_decodes := by
    intro p hp hne
    obtain rfl : p = 1 := by
      have hp : p < 2 := hp
      have hne : p ≠ 0 := hne
      omega
    refine List.Perm.of_eq ?_
    rw [filter_hubEdges]
    show expand 0 [.row (List.replicate n 2)]
      = [] ++ [] ++ [] ++ List.replicate n (0, 2) ++ []
    simp [expand, Item.targets]
  slots := fun p => (hubEdges n).countP fun e =>
    decide (hubPart.Mem 0 e.1 ∧ hubPart.Mem p e.2)
  slots_eq := fun _ => rfl
  degree := fun v =>
    ⟨((hubEdges n).countP fun e => decide (e.2 = v) : ℕ),
      ((hubEdges n).countP fun e => decide (e.1 = v) : ℕ)⟩
  indegree_eq := fun _ => rfl
  outdegree_eq := fun _ => rfl
  degree_lt := by
    intro v
    rw [countP_hubEdges, countP_hubEdges]
    simp only [decide_eq_true_eq]
    constructor
    · split_ifs <;> omega
    · split_ifs <;> omega

/-- Its in-blocks are one chunk each. -/
theorem fits_hubEdata {n : ℕ} (hpos : 0 < n) (hle : n + n ≤ 2 ^ 30) :
    (hubEdata n).Fits where
  opens := rfl
  size := by
    intro k
    have hlen : ((hubEdata n).file k).length = [1 * (n + n), 1 * n].getD k 0 :=
      List.length_replicate
    have hstripe : (hubEdata n).stripesize = 2 ^ 30 := rfl
    have hk : (k : ℕ) < 2 := k.isLt
    rw [hlen, hstripe]
    interval_cases (k : ℕ)
    · show 0 < 1 * (n + n) ∧ 1 * (n + n) ≤ 2 ^ 30
      omega
    · show 0 < 1 * n ∧ 1 * n ≤ 2 ^ 30
      omega

theorem countP_out_hubEdges (n : ℕ) : ((hubEdges n).countP fun e =>
    decide (hubPart.Mem 0 e.1 ∧ hubPart.Mem 1 e.2)) = n := by
  rw [countP_hubEdges]
  show 0 + 0 + 0 + n + 0 = n
  omega

/-- Its out-block fits. -/
theorem outFits_hubGraph {n : ℕ} (hpos : 0 < n) (hlt : n < 2 ^ 30) :
    (hubGraph n hpos hlt).OutFits 1 := by
  have hslots : (hubGraph n hpos hlt).slots 1 = n := countP_out_hubEdges n
  have hsize : (hubGraph n hpos hlt).main.loader.edgeSize = 1 := rfl
  have hst : (hubGraph n hpos hlt).st = 0 := rfl
  have hreach : BlockDecoding.reach (hubGraph n hpos hlt).nvertices 0
      ((hubGraph n hpos hlt).outItems 1) ≤ 1 := by
    show BlockDecoding.reach _ 0 [Item.row _] ≤ 1
    rw [BlockDecoding.reach]
    split
    · exact le_rfl
    · exact Nat.zero_le 1
  have hzero : toInt32 ((0 : ℕ) : ℤ) = 0 := rfl
  refine ⟨?_, by omega, ?_⟩
  · rw [hslots, hsize]
    omega
  · rw [hst, hzero]
    omega

/-- **A vertex with `2 ^ 31` edges**: the blocks can be read, and there is no
room for all records. -/
theorem not_complete_hubGraph : ¬∀ x : Subgraph, x.edata.Fits →
    (∀ p < x.part.nshards, p ≠ x.main.exec → x.OutFits p) → Complete x := by
  intro h
  have hpos : 0 < 2 ^ 29 := by norm_num
  have hlt : 2 ^ 29 < 2 ^ 30 := by norm_num
  have hfits := fits_of_complete (h (hubGraph (2 ^ 29) hpos hlt)
    (fits_hubEdata hpos (by norm_num)) fun p hp hne => ?_)
  · have hmem : hubPart.Mem 0 0 := by decide
    have hsum := hfits.degrees 0 hmem
    have hin : (((hubGraph (2 ^ 29) hpos hlt).degree 0).indegree : ℤ) = 2 ^ 30 := by
      show (((hubEdges (2 ^ 29)).countP fun e => decide (e.2 = 0) : ℕ) : ℤ) = 2 ^ 30
      rw [countP_hubEdges]
      rfl
    have hout : (((hubGraph (2 ^ 29) hpos hlt).degree 0).outdegree : ℤ) = 2 ^ 30 := by
      show (((hubEdges (2 ^ 29)).countP fun e => decide (e.1 = 0) : ℕ) : ℤ) = 2 ^ 30
      rw [countP_hubEdges]
      rfl
    rw [hin, hout] at hsum
    norm_num at hsum
  · have hp : p < 2 := hp
    have hne : p ≠ 0 := hne
    obtain rfl : p = 1 := by omega
    exact outFits_hubGraph hpos hlt

end Subgraph

end Loading
