import Mathlib

/-!
# Edges and the interval partition

The sharder splits the vertex ids `0 … max_vertex_id` into contiguous
intervals, one per shard, and keeps them as the pairs `intervals[k]` of a
first and a last vertex. An interval may be empty – its last vertex is then
the one before its first – except the first one, whose first vertex is `0`.

`IntervalPartition` carries that shape as fields, and `Mem` is membership
of a vertex in the interval of a shard. Two loops of the sharder look the
shard of a vertex up: `shardOf` scans the intervals from the start, and
`advance` moves a current shard forward while the vertex lies beyond it.
-/

/-- `edge_with_value`: an edge of the shovel buffer. -/
structure EdgeWithValue (V : Type) where
  /-- The source vertex. -/
  src : ℕ
  /-- The destination vertex. -/
  dst : ℕ
  /-- The edge's value. -/
  value : V
deriving Repr, DecidableEq

namespace EdgeWithValue

variable {V : Type}

/-- The pair of the endpoints. -/
def ends (e : EdgeWithValue V) : ℕ × ℕ := (e.src, e.dst)

/-- The endpoints as the sort compares them: by source, then by
destination. -/
def sortKey (e : EdgeWithValue V) : ℕ ×ₗ ℕ := toLex (e.src, e.dst)

/-- `stopper()`: the edge that ends the shovel buffer. -/
def stopper (e : EdgeWithValue V) : Bool := e.src == 0 && e.dst == 0

/-- `edge_t_src_less`, for builds without dynamic edge values. -/
def edgeTSrcLess (a b : EdgeWithValue V) : Bool :=
  if a.src = b.src then decide (a.dst < b.dst) else decide (a.src < b.src)

/-- The comparison is the order of the sort keys. -/
theorem edgeTSrcLess_iff (a b : EdgeWithValue V) :
    edgeTSrcLess a b = true ↔ a.sortKey < b.sortKey := by
  unfold edgeTSrcLess sortKey
  rw [Prod.Lex.toLex_lt_toLex]
  split
  · next h => simp [h]
  · next h => simp [h]

/-- Sorted by the keys is sorted by the source. -/
theorem src_le_of_sortKey_le {a b : EdgeWithValue V} (h : a.sortKey ≤ b.sortKey) :
    a.src ≤ b.src := by
  rcases Prod.Lex.toLex_le_toLex.mp h with h | h
  · exact h.le
  · exact h.1.le

/-- For one source, sorted by the keys is sorted by the destination. -/
theorem dst_le_of_sortKey_le {a b : EdgeWithValue V} (h : a.sortKey ≤ b.sortKey)
    (hsrc : a.src = b.src) : a.dst ≤ b.dst := by
  rcases Prod.Lex.toLex_le_toLex.mp h with h | h
  · exact absurd h (by rw [hsrc]; exact lt_irrefl _)
  · exact h.2

/-- An edge that is not a self loop is not the stopper. -/
theorem stopper_eq_false {e : EdgeWithValue V} (h : e.src ≠ e.dst) :
    e.stopper = false := by
  unfold stopper
  rw [Bool.eq_false_iff]
  intro hs
  simp only [Bool.and_eq_true, beq_iff_eq] at hs
  exact h (hs.1.trans hs.2.symm)

end EdgeWithValue

/-- **A partition of the vertex ids into contiguous intervals**, one per
shard, of ids that a `vid_t` holds. -/
structure IntervalPartition where
  /-- `intervals[k]`: the first and the last vertex of shard `k`. -/
  intervals : List (ℕ × ℕ)
  /-- The ids start at `0`. -/
  start : (intervals.getD 0 (0, 0)).1 = 0
  /-- Each interval starts where the one before it ends. -/
  contiguous : intervals.IsChain (fun a b => b.1 = a.2 + 1)
  /-- An interval ends at its first vertex at least, or is empty. -/
  ordered : ∀ iv ∈ intervals, iv.1 ≤ iv.2 + 1
  /-- Ids fit a `vid_t`. -/
  vid : ∀ iv ∈ intervals, iv.2 < 2 ^ 32

namespace IntervalPartition

variable (p : IntervalPartition)

/-- The number of shards. -/
def nshards : ℕ := p.intervals.length

/-- `intervals[k].first`. -/
def first (k : ℕ) : ℕ := (p.intervals.getD k (0, 0)).1

/-- `intervals[k].second`. -/
def second (k : ℕ) : ℕ := (p.intervals.getD k (0, 0)).2

/-- The vertex `v` lies in the interval of shard `k`. -/
def Mem (k v : ℕ) : Prop := k < p.nshards ∧ p.first k ≤ v ∧ v ≤ p.second k

instance (k v : ℕ) : Decidable (p.Mem k v) :=
  inferInstanceAs (Decidable (_ ∧ _ ∧ _))

/-- The shard whose interval holds `v`, found by a scan from the start. -/
def shardOf (v : ℕ) : Option ℕ :=
  (List.range p.nshards).find? (fun k => decide (p.first k ≤ v ∧ v ≤ p.second k))

/-- The shard that the scan of the sorted edges moves to: from the current
one on, or from shard 0 when there is none yet, the first that does not end
before `v`. -/
def advance (current : Option ℕ) (v : ℕ) : Option ℕ :=
  ((List.range p.nshards).drop (current.getD 0)).find?
    (fun k => decide (¬ p.second k < v))

variable {p}

@[simp] theorem first_zero : p.first 0 = 0 := p.start

theorem first_succ {k : ℕ} (hk : k + 1 < p.nshards) :
    p.first (k + 1) = p.second k + 1 := by
  have h := List.isChain_iff_getElem.mp p.contiguous k hk
  unfold first second
  rw [List.getD_eq_getElem _ _ hk, List.getD_eq_getElem _ _ (by
    unfold nshards at hk; omega)]
  exact h

theorem first_le {k : ℕ} (hk : k < p.nshards) : p.first k ≤ p.second k + 1 := by
  unfold first second
  rw [List.getD_eq_getElem _ _ hk]
  exact p.ordered _ (List.getElem_mem hk)

theorem second_lt {k : ℕ} (hk : k < p.nshards) : p.second k < 2 ^ 32 := by
  unfold second
  rw [List.getD_eq_getElem _ _ hk]
  exact p.vid _ (List.getElem_mem hk)

/-- An interval ends before every later one starts. -/
theorem second_lt_first {j k : ℕ} (hjk : j < k) (hk : k < p.nshards) :
    p.second j < p.first k := by
  induction k with
  | zero => omega
  | succ k ih =>
    rw [first_succ hk]
    rcases Nat.lt_succ_iff_lt_or_eq.mp hjk with hlt | rfl
    · have h := ih hlt (by omega)
      have h' := first_le (p := p) (k := k) (by omega)
      omega
    · omega

/-- Intervals are in the order of their vertices. -/
theorem Mem.mono {j k u v : ℕ} (hj : p.Mem j u) (hk : p.Mem k v) (huv : u ≤ v) :
    j ≤ k := by
  by_contra hlt
  have h := second_lt_first (p := p) (j := k) (k := j) (by omega) hj.1
  have := hj.2.1
  have := hk.2.2
  omega

/-- A vertex lies in one interval only. -/
theorem Mem.unique {j k v : ℕ} (hj : p.Mem j v) (hk : p.Mem k v) : j = k :=
  le_antisymm (hj.mono hk le_rfl) (hk.mono hj le_rfl)

theorem Mem.lt {k v : ℕ} (h : p.Mem k v) : v < 2 ^ 32 :=
  lt_of_le_of_lt h.2.2 (second_lt h.1)

/-- Vertex 0 lies in the first interval. -/
theorem mem_zero (h : 0 < p.nshards) : p.Mem 0 0 :=
  ⟨h, by rw [first_zero], Nat.zero_le _⟩

/-- The scan finds the shard of a vertex. -/
theorem shardOf_eq_some {k v : ℕ} (h : p.Mem k v) : p.shardOf v = some k := by
  unfold shardOf
  rw [List.find?_range_eq_some]
  refine ⟨by simpa using h.2, List.mem_range.mpr h.1, ?_⟩
  intro j hj
  simp only [Bool.not_eq_true', decide_eq_false_iff_not]
  intro hmem
  have hlt := second_lt_first (p := p) hj h.1
  have := h.2.1
  omega

/-- Moving forward from a shard that is not past it finds the shard of a
vertex. -/
theorem advance_eq_some {c : Option ℕ} {k v : ℕ} (h : p.Mem k v)
    (hc : c.getD 0 ≤ k) : p.advance c v = some k := by
  unfold advance
  rw [List.range_eq_range', List.drop_range', List.find?_range'_eq_some]
  refine ⟨by simpa using h.2.2, ?_, ?_⟩
  · rw [List.mem_range'_1]
    have := h.1
    omega
  · intro j hj hjk
    simp only [Bool.not_eq_true', decide_eq_false_iff_not, not_not]
    have hlt := second_lt_first (p := p) hjk h.1
    have := h.2.1
    omega

end IntervalPartition
