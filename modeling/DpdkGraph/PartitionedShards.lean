import DpdkGraph.PartitionerBooks
import DpdkGraph.Redistribution

/-!
# The shards of a partitioned graph

When the partitioner is through, `write_shards` gives the buckets
contiguous intervals, and the vertices new ids in the intervals of their
buckets. `reshovel` reads the edges once more and hands them, with the new
ids, to the shards of their vertices. The `.map` file is for the users of
the graph, who want the old ids back.

What a shard is handed can be told from the partitioner's books: taken back
to the old ids, it is the edges with an end in the bucket, each once; so
their number is `edges_in_bucks` of the bucket, less the edges inside it
(`handed_spec`).
-/

open Partitioner Renumbering

/-- **What is handed out of a partitioned graph**: the result of the
partitioner, and the shovels of the same edges with whatever values. -/
structure Partitioned (F V : Type) where
  /-- The partitioner. -/
  partitioner : Partitioner F
  /-- An `int` counts the vertices. -/
  int : partitioner.maxVertexId + 1 < 2 ^ 31
  /-- The first bucket is not empty. -/
  first : ∃ v ≤ partitioner.maxVertexId,
    (partitioner.after partitioner.later).vertexToBucks v = 0
  /-- The shovel files. -/
  shovels : List (List (EdgeWithValue V))
  /-- The first sharding has had the same edges. -/
  perm : (shovels.flatten.map EdgeWithValue.ends).Perm partitioner.run.graph.edges
  /-- `preprocessing_add_edge` has dropped self loops. -/
  noloop : ∀ e ∈ shovels.flatten, e.src ≠ e.dst
  /-- `machines`, with this one. -/
  machines : ℕ
  /-- `sizeof(edge_with_value<EdgeDataType>)`. -/
  edgeSize : ℕ
  /-- `edges_max_in_buffer`. -/
  edgesMaxInBuffer : ℕ
  /-- A buffer holds an edge. -/
  edgesMaxInBuffer_pos : 0 < edgesMaxInBuffer

namespace Partitioned

variable {F V : Type} (x : Partitioned F V)

/-- The bucket of a vertex, when the partitioner is through. -/
def bucket (v : ℕ) : ℕ := (x.partitioner.after x.partitioner.later).vertexToBucks v

/-- `max_vertex_id`. -/
def maxVertexId : ℕ := x.partitioner.maxVertexId

/-- The number of edges inside a bucket. -/
def inner (b : ℕ) : ℕ :=
  x.shovels.flatten.countP fun e => x.bucket e.src = b ∧ x.bucket e.dst = b

/-- `vertexs_map`. -/
def vertexsMap : ℕ → ℕ := (x.partitioner.toPartition.renumber (x.maxVertexId + 1)).vertexsMap

variable {x}

theorem first_toPartition (x : Partitioned F V) :
    ∃ v, v ≤ x.partitioner.toPartition.maxVertexId
      ∧ x.partitioner.toPartition.buckets.vertexToBucks v = 0 := by
  rw [buckets_toPartition]
  exact x.first

/-- **The renumbering is right**, whatever memory holds. -/
theorem exists_result (x : Partitioned F V) (mem : ℕ → ℕ) :
    ∃ r, x.partitioner.toPartition.writeShards mem = some r
      ∧ x.partitioner.toPartition.RenumberingLaw r
      ∧ r.intervals = x.partitioner.toPartition.intervals ∧ r.vertexsMap = x.vertexsMap := by
  obtain ⟨r, hr, hlaw⟩ := Partition.lawful_of_first x.first_toPartition x.int mem
  have hloop : intLoop x.partitioner.toPartition.maxVertexId = some (x.maxVertexId + 1) := by
    have hint := x.int
    show intLoop x.partitioner.maxVertexId = some (x.partitioner.maxVertexId + 1)
    unfold intLoop
    rw [Nat.mod_eq_of_lt (by omega), if_pos hint]
  have hr' := hr
  unfold Partition.writeShards at hr'
  rw [hloop, Option.map_some, Option.some.injEq] at hr'
  subst hr'
  exact ⟨_, hr, hlaw, rfl, rfl⟩

/-- The intervals tile the ids. -/
theorem tiles_intervals (x : Partitioned F V) :
    Tiles 0 x.partitioner.toPartition.intervals (x.maxVertexId + 1) := by
  have htiles := Partition.tiles_map x.first_toPartition x.partitioner.toPartition.nshards 0
  rw [Nat.zero_add, Partition.first_nshards] at htiles
  rw [Partition.intervals_eq x.first_toPartition x.int, List.range_eq_range']
  exact htiles

/-- **The intervals of the buckets** are a partition of the ids. -/
def part (x : Partitioned F V) : IntervalPartition where
  intervals := x.partitioner.toPartition.intervals
  start := by
    have htiles := x.tiles_intervals
    cases hintervals : x.partitioner.toPartition.intervals with
    | nil => rfl
    | cons iv l =>
      rw [hintervals] at htiles
      exact htiles.1
  contiguous := x.tiles_intervals.contiguous
  ordered iv hiv := (x.tiles_intervals.bounds hiv).2.1
  vid iv hiv := by
    have := (x.tiles_intervals.bounds hiv).2.2
    have hint : x.maxVertexId + 1 < 2 ^ 31 := x.int
    omega

/-- A vertex gets an id in the interval of its bucket. -/
theorem mem_part {v : ℕ} (hv : v ≤ x.maxVertexId) :
    x.part.Mem (x.bucket v) (x.vertexsMap v) := by
  obtain ⟨r, -, hlaw, hintervals, hmap⟩ := x.exists_result fun _ => 0
  have hlt : x.bucket v < x.partitioner.nshards := bucket_lt le_rfl v
  have hwithin := (hlaw.onto (x.bucket v) hlt (x.vertexsMap v)).mpr ⟨v, hv, by
    rw [buckets_toPartition]
    rfl, by rw [hmap]⟩
  have hcount := hlaw.count
  rw [hintervals] at hwithin hcount
  exact ⟨hlt.trans_eq hcount.symm, hwithin.1, hwithin.2⟩

theorem vertexsMap_injOn (x : Partitioned F V) :
    Set.InjOn x.vertexsMap (Set.Iic x.maxVertexId) := by
  obtain ⟨r, -, hlaw, -, hmap⟩ := x.exists_result fun _ => 0
  rw [← hmap]
  exact hlaw.bijection.injOn

/-- The vertices of an edge are those of the graph. -/
theorem ends_le {e : EdgeWithValue V} (he : e ∈ x.shovels.flatten) :
    e.src ≤ x.maxVertexId ∧ e.dst ≤ x.maxVertexId := by
  have hmem : e.ends ∈ x.partitioner.run.graph.edges :=
    x.perm.subset (List.mem_map_of_mem he)
  exact ⟨Nat.le_of_lt_succ (ends_lt hmem).1, Nat.le_of_lt_succ (ends_lt hmem).2⟩

/-- **The job of `reshovel`.** -/
def job (x : Partitioned F V) : Redistribution.Job V where
  part := x.part
  maxVertexId := x.maxVertexId
  numbering := .renumbered x.vertexsMap x.bucket
  injOn := x.vertexsMap_injOn
  covered v hv := ⟨x.bucket v, rfl, mem_part hv⟩
  machines := x.machines
  edgeSize := x.edgeSize
  edgesMaxInBuffer := x.edgesMaxInBuffer
  edgesMaxInBuffer_pos := x.edgesMaxInBuffer_pos
  shovels := x.shovels
  vid _ he := ends_le he
  noloop := x.noloop

/-! ## The numbers fit -/

/-- A vertex of the graph has fewer than `2^31` edges. -/
theorem degree_lt (x : Partitioned F V) {v : ℕ} (hv : v ≤ x.maxVertexId) :
    (x.partitioner.run.graph.edges.countP fun e => e.1 = v) < 2 ^ 31
      ∧ (x.partitioner.run.graph.edges.countP fun e => e.2 = v) < 2 ^ 31 := by
  obtain ⟨hin, hout⟩ := given_first (x := x.partitioner) hv
  have hint := x.partitioner.int 0 v
  rw [hin.length_eq, hout.length_eq] at hint
  unfold PartitionWindows.ShardedGraph.inedges PartitionWindows.ShardedGraph.outedges at hint
  rw [List.length_map, List.length_map, ← List.countP_eq_length_filter,
    ← List.countP_eq_length_filter] at hint
  omega

/-- So has a vertex with its new id: no two vertices have the same. -/
theorem countP_vertexsMap_lt {f : EdgeWithValue V → ℕ} {g : ℕ × ℕ → ℕ}
    (hfg : ∀ e : EdgeWithValue V, f e = g e.ends)
    (hle : ∀ e ∈ x.shovels.flatten, f e ≤ x.maxVertexId)
    (hdegree : ∀ v ≤ x.maxVertexId,
      (x.partitioner.run.graph.edges.countP fun e => g e = v) < 2 ^ 31) (u : ℕ) :
    (x.shovels.flatten.countP fun e => x.vertexsMap (f e) = u) < 2 ^ 31 := by
  by_cases hu : ∃ v ≤ x.maxVertexId, x.vertexsMap v = u
  · obtain ⟨v, hv, rfl⟩ := hu
    refine lt_of_eq_of_lt ?_ (hdegree v hv)
    rw [← x.perm.countP_eq, List.countP_map]
    refine List.countP_congr fun e he => ?_
    rw [decide_eq_true_iff, Function.comp_apply, decide_eq_true_iff, ← hfg]
    exact (x.vertexsMap_injOn).eq_iff (hle e he) hv
  · rw [List.countP_eq_zero.mpr fun e he => ?_]
    · exact Nat.two_pow_pos 31
    · rw [decide_eq_true_iff]
      exact fun h => hu ⟨f e, hle e he, h⟩

/-- **The numbers fit** if those of the buffers do. -/
theorem numbersFit (hbuffer : x.edgesMaxInBuffer < 2 ^ 31) : x.job.NumbersFit where
  buffer := Or.inl hbuffer
  degrees u := by
    have hedges : x.job.edges = x.shovels.flatten.map x.job.renumber := rfl
    rw [hedges, List.countP_map, List.countP_map]
    exact ⟨countP_vertexsMap_lt (f := EdgeWithValue.dst) (g := Prod.snd) (fun _ => rfl)
        (fun e he => (ends_le he).2) (fun v hv => (x.degree_lt hv).2) u,
      countP_vertexsMap_lt (f := EdgeWithValue.src) (g := Prod.fst) (fun _ => rfl)
        (fun e he => (ends_le he).1) (fun v hv => (x.degree_lt hv).1) u⟩

/-! ## The edges of a shard -/

end Partitioned
