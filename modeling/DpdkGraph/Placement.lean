import DpdkGraph.Intervals
import DpdkGraph.Renumbering

/-!
# The intervals of the buckets, as a partition of the ids

Where the first bucket has a vertex, the renumbering gives each bucket an
interval of its own, and each vertex an id in the interval of its bucket
(`Renumbering`). So the intervals are a partition of the ids as the later
phases take it, and they look up the shard of a vertex in `vertex_to_bucks`.
-/

namespace Renumbering

/-- **The buckets can be renumbered**: an `int` counts the ids, and the first
bucket has a vertex. -/
structure Proper (x : Partition) : Prop where
  /-- An `int` counts the ids. -/
  int : x.maxVertexId + 1 < 2 ^ 31
  /-- The first bucket is not empty. -/
  first : ∃ v, v ≤ x.maxVertexId ∧ x.buckets.vertexToBucks v = 0

/-- `vertexs_map`. -/
def Partition.vertexsMap (x : Partition) : ℕ → ℕ := (x.renumber (x.maxVertexId + 1)).vertexsMap

namespace Proper

variable {x : Partition}

/-- **The renumbering is right**, whatever memory holds. -/
theorem exists_result (h : Proper x) (mem : ℕ → ℕ) :
    ∃ r, x.writeShards mem = some r ∧ x.RenumberingLaw r
      ∧ r.intervals = x.intervals ∧ r.vertexsMap = x.vertexsMap := by
  obtain ⟨r, hr, hlaw⟩ := Partition.lawful_of_first h.first h.int mem
  have hloop : intLoop x.maxVertexId = some (x.maxVertexId + 1) := by
    have hint := h.int
    unfold intLoop
    rw [Nat.mod_eq_of_lt (by omega), if_pos hint]
  have hr' := hr
  unfold Partition.writeShards at hr'
  rw [hloop, Option.map_some, Option.some.injEq] at hr'
  subst hr'
  exact ⟨_, hr, hlaw, rfl, rfl⟩

/-- The intervals tile the ids. -/
theorem tiles_intervals (h : Proper x) : Tiles 0 x.intervals (x.maxVertexId + 1) := by
  have htiles := Partition.tiles_map h.first x.nshards 0
  rw [Nat.zero_add, Partition.first_nshards] at htiles
  rw [Partition.intervals_eq h.first h.int, List.range_eq_range']
  exact htiles

/-- **The intervals of the buckets** are a partition of the ids. -/
def part (h : Proper x) : IntervalPartition where
  intervals := x.intervals
  start := by
    have htiles := h.tiles_intervals
    cases hintervals : x.intervals with
    | nil => rfl
    | cons iv l =>
      rw [hintervals] at htiles
      exact htiles.1
  contiguous := h.tiles_intervals.contiguous
  ordered iv hiv := (h.tiles_intervals.bounds hiv).2.1
  vid iv hiv := by
    have := (h.tiles_intervals.bounds hiv).2.2
    have hint : x.maxVertexId + 1 < 2 ^ 31 := h.int
    omega

/-- There is an interval for each bucket. -/
theorem nshards_part (h : Proper x) : h.part.nshards = x.nshards := by
  obtain ⟨r, -, hlaw, hintervals, -⟩ := h.exists_result fun _ => 0
  have hcount := hlaw.count
  rw [hintervals] at hcount
  exact hcount

theorem bucket_lt {v : ℕ} (hv : v ≤ x.maxVertexId) :
    x.buckets.vertexToBucks v < x.nshards :=
  x.counted_buckets.2 v (Nat.lt_succ_of_le hv)

/-- A vertex gets an id in the interval of its bucket. -/
theorem mem_part (h : Proper x) {v : ℕ} (hv : v ≤ x.maxVertexId) :
    h.part.Mem (x.buckets.vertexToBucks v) (x.vertexsMap v) := by
  obtain ⟨r, -, hlaw, hintervals, hmap⟩ := h.exists_result fun _ => 0
  have hlt := bucket_lt hv
  have hwithin := (hlaw.onto _ hlt (x.vertexsMap v)).mpr ⟨v, hv, rfl, by rw [hmap]⟩
  rw [hintervals] at hwithin
  exact ⟨hlt.trans_eq h.nshards_part.symm, hwithin.1, hwithin.2⟩

/-- No two vertices get the same id. -/
theorem vertexsMap_injOn (h : Proper x) : Set.InjOn x.vertexsMap (Set.Iic x.maxVertexId) := by
  obtain ⟨r, -, hlaw, -, hmap⟩ := h.exists_result fun _ => 0
  rw [← hmap]
  exact hlaw.bijection.injOn

end Proper

/-- The first pass leaves each vertex in the bucket that it has chosen. -/
theorem vertexToBucks_foldl_assign (choice : ℕ → ℕ) (s : Buckets) {m v : ℕ} (hv : v < m) :
    ((List.range m).foldl (assign choice) s).vertexToBucks v = choice v := by
  induction m with
  | zero => exact absurd hv (Nat.not_lt_zero v)
  | succ m ih =>
    rw [List.range_succ, List.foldl_append, List.foldl_cons, List.foldl_nil]
    show Function.update
      ((List.range m).foldl (assign choice) s).vertexToBucks m (choice m) v = choice v
    by_cases hvm : v = m
    · rw [hvm, Function.update_self]
    · rw [Function.update_of_ne hvm]
      exact ih (by omega)

/-- Without a partitioner the first bucket has the first vertex. -/
theorem proper_of_inTurn {x : Partition} (hint : x.maxVertexId + 1 < 2 ^ 31)
    (hassign : x.assignment = fun v => v % x.nshards) (hnone : x.reassignments = []) :
    Proper x := by
  refine ⟨hint, 0, Nat.zero_le _, ?_⟩
  unfold Partition.buckets Partition.after
  rw [hnone]
  show ((List.range (x.maxVertexId + 1)).foldl (assign x.assignment) _).vertexToBucks 0 = 0
  rw [vertexToBucks_foldl_assign _ _ (Nat.succ_pos _), hassign]
  exact Nat.zero_mod _

end Renumbering
