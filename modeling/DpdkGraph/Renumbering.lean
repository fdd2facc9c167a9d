import Mathlib
import DpdkGraph.SortedBlocks
import DpdkGraph.Tiling

/-!
# Renumbering the vertices by buckets

The partitioner puts every vertex in a bucket and keeps count of the
vertices of each. It goes through the vertices once to assign them, and may
go through them again to move them. The sharder then gives the vertices new
ids: those of one bucket get the ids of one interval, in the order of their
old ids, and the intervals follow each other in the order of the buckets.
The counts decide where an interval starts; the array that holds them is
then used again for the next id of each bucket.

Which bucket a vertex gets is a matter of scores that are not modelled: an
assignment is any function. What the sharder makes of it is a renumbering
unless the first bucket is empty (`renumbering_iff`): the interval of an
empty bucket ends one before it starts, and for an interval that starts at
`0` that is the largest number a `vid_t` holds.
-/

namespace Renumbering

/-! ## Buckets -/

/-- The buckets of the vertices, and how many vertices each has. -/
structure Buckets where
  /-- `vertex_to_bucks`. -/
  vertexToBucks : ℕ → ℕ
  /-- `vertexs_in_bucks`. -/
  vertexsInBucks : ℕ → ℤ

/-- The bucket `b` gets `z` more vertices. -/
def Buckets.addTo (s : Buckets) (b : ℕ) (z : ℤ) : Buckets :=
  { s with vertexsInBucks := Function.update s.vertexsInBucks b (s.vertexsInBucks b + z) }

/-- The vertex gets the bucket `b`. -/
def Buckets.set (s : Buckets) (v b : ℕ) : Buckets :=
  { s with vertexToBucks := Function.update s.vertexToBucks v b }

/-- The first pass puts the vertex in the bucket that it chooses. -/
def assign (choice : ℕ → ℕ) (s : Buckets) (v : ℕ) : Buckets :=
  (s.set v (choice v)).addTo (choice v) 1

/-- A later pass moves the vertex if it chooses another bucket. -/
def reassign (choice : ℕ → ℕ) (s : Buckets) (v : ℕ) : Buckets :=
  if choice v ≠ s.vertexToBucks v then
    ((s.set v (choice v)).addTo (s.vertexToBucks v) (-1)).addTo (choice v) 1
  else s

/-- **What the partitioner is given, and what it chooses**, in the first pass
and in each pass after it. Without a partitioner, the first pass takes the
buckets in turn, and there are no more. -/
structure Partition where
  /-- `nshards`. -/
  nshards : ℕ
  /-- `max_vertex_id`. -/
  maxVertexId : ℕ
  /-- Ids fit a `vid_t`. -/
  vid : maxVertexId < 2 ^ 32
  /-- The buckets of the first pass. -/
  assignment : ℕ → ℕ
  /-- The buckets of the later passes. -/
  reassignments : List (ℕ → ℕ)
  /-- There is a bucket for each shard. -/
  assignment_lt : ∀ v, assignment v < nshards
  /-- In the later passes, too. -/
  reassignments_lt : ∀ choice ∈ reassignments, ∀ v, choice v < nshards

namespace Partition

/-- The buckets after `k` of the later passes. -/
def after (x : Partition) (k : ℕ) : Buckets :=
  (x.reassignments.take k).foldl
    (fun s choice => (List.range (x.maxVertexId + 1)).foldl (reassign choice) s)
    ((List.range (x.maxVertexId + 1)).foldl (assign x.assignment)
      ⟨fun _ => 0, fun _ => 0⟩)

/-- The buckets after all passes. -/
def buckets (x : Partition) : Buckets := x.after x.reassignments.length

end Partition

/-- How many of the vertices below `m` have the bucket `b`. -/
def members (bucks : ℕ → ℕ) (m b : ℕ) : ℕ :=
  SortedBlocks.size bucks (List.range m) b

/-- The vertices below `m` around one of them. -/
theorem range_split {m v : ℕ} (hv : v < m) :
    List.range m = List.range v ++ v :: List.range' (v + 1) (m - (v + 1)) := by
  have hm : m = v + (1 + (m - (v + 1))) := by omega
  conv_lhs => rw [hm]
  rw [List.range_eq_range', List.range_eq_range', ← List.range'_append_1, Nat.zero_add,
    Nat.add_comm 1, List.range'_succ]

/-- Changing the bucket of one vertex. -/
theorem members_update (bucks : ℕ → ℕ) {m v : ℕ} (hv : v < m) (b q : ℕ) :
    members (Function.update bucks v b) m q + (if bucks v = q then 1 else 0)
      = members bucks m q + (if b = q then 1 else 0) := by
  unfold members SortedBlocks.size
  rw [range_split hv]
  simp only [List.countP_append, List.countP_cons, decide_eq_true_eq,
    Function.update_self]
  have hbelow : (List.range v).countP
      (fun a => decide (Function.update bucks v b a = q))
      = (List.range v).countP (fun a => decide (bucks a = q)) := by
    refine List.countP_congr fun a ha => ?_
    rw [Function.update_of_ne (List.mem_range.mp ha).ne]
  have habove : (List.range' (v + 1) (m - (v + 1))).countP
      (fun a => decide (Function.update bucks v b a = q))
      = (List.range' (v + 1) (m - (v + 1))).countP (fun a => decide (bucks a = q)) := by
    refine List.countP_congr fun a ha => ?_
    have := (List.mem_range'_1.mp ha).1
    rw [Function.update_of_ne (by omega)]
  rw [hbelow, habove]
  omega

/-- The counts are those of the vertices below `m`, which are the only ones
that count. -/
def Counted (m n : ℕ) (s : Buckets) : Prop :=
  (∀ b, s.vertexsInBucks b = members s.vertexToBucks m b)
    ∧ ∀ v, v < m → s.vertexToBucks v < n

/-- **The first pass counts the vertices**: each bucket counts those that have
been put into it, by induction on the vertices seen. -/
theorem counted_assign {choice : ℕ → ℕ} {n : ℕ} (hlt : ∀ v, choice v < n) (m : ℕ) :
    Counted m n ((List.range m).foldl (assign choice) ⟨fun _ => 0, fun _ => 0⟩) := by
  induction m with
  | zero => exact ⟨fun b => rfl, fun v hv => absurd hv (Nat.not_lt_zero v)⟩
  | succ m ih =>
    rw [List.range_succ, List.foldl_append, List.foldl_cons, List.foldl_nil]
    obtain ⟨s, hs⟩ : ∃ s, s = (List.range m).foldl (assign choice)
      ⟨fun _ => 0, fun _ => 0⟩ := ⟨_, rfl⟩
    rw [← hs] at ih ⊢
    obtain ⟨hcount, hbuck⟩ := ih
    refine ⟨fun b => ?_, fun v hv => ?_⟩
    · -- the bucket of vertex `m` has one vertex more, the others have as many
      have hmembers : members (Function.update s.vertexToBucks m (choice m)) (m + 1) b
          = members s.vertexToBucks m b + if choice m = b then 1 else 0 := by
        unfold members SortedBlocks.size
        rw [List.range_succ, List.countP_append, List.countP_singleton,
          Function.update_self]
        congr 1
        · refine List.countP_congr fun a ha => ?_
          rw [Function.update_of_ne (List.mem_range.mp ha).ne]
        · simp only [decide_eq_true_eq]
      show Function.update s.vertexsInBucks (choice m) _ b = _
      rw [show (assign choice s m).vertexToBucks
        = Function.update s.vertexToBucks m (choice m) from rfl, hmembers]
      by_cases hb : b = choice m
      · subst hb
        rw [Function.update_self, if_pos rfl]
        show s.vertexsInBucks (choice m) + 1 = _
        rw [hcount]
        push_cast
        rfl
      · rw [Function.update_of_ne hb, if_neg (Ne.symm hb), Nat.add_zero]
        exact hcount b
    · show Function.update s.vertexToBucks m (choice m) v < n
      by_cases hvm : v = m
      · rw [hvm, Function.update_self]
        exact hlt m
      · rw [Function.update_of_ne hvm]
        exact hbuck v (by omega)

/-- **Moving a vertex keeps the counts right**: the bucket it leaves has one
vertex less, and the one it goes to one more; they may be the same. -/
theorem Counted.reassign {choice : ℕ → ℕ} {m n v : ℕ} {s : Buckets}
    (h : Counted m n s) (hlt : choice v < n) (hv : v < m) :
    Counted m n (Renumbering.reassign choice s v) := by
  unfold Renumbering.reassign
  split
  · next hne =>
    refine ⟨fun b => ?_, fun w hw => ?_⟩
    · have hupdate := members_update s.vertexToBucks hv (choice v) b
      have hcount := h.1 b
      show Function.update (Function.update s.vertexsInBucks (s.vertexToBucks v)
          (s.vertexsInBucks (s.vertexToBucks v) + -1)) (choice v)
          (Function.update s.vertexsInBucks (s.vertexToBucks v)
            (s.vertexsInBucks (s.vertexToBucks v) + -1) (choice v) + 1) b
        = (members (Function.update s.vertexToBucks v (choice v)) m b : ℤ)
      rw [Function.update_of_ne hne]
      by_cases hb : b = choice v
      · subst hb
        rw [if_neg (Ne.symm hne), if_pos rfl] at hupdate
        rw [Function.update_self, hcount]
        omega
      · rw [Function.update_of_ne hb]
        rw [if_neg (Ne.symm hb)] at hupdate
        by_cases hb' : b = s.vertexToBucks v
        · subst hb'
          rw [if_pos rfl] at hupdate
          rw [Function.update_self, hcount]
          omega
        · rw [if_neg (Ne.symm hb')] at hupdate
          rw [Function.update_of_ne hb', hcount]
          omega
    · show Function.update s.vertexToBucks v (choice v) w < n
      by_cases hwv : w = v
      · rw [hwv, Function.update_self]
        exact hlt
      · rw [Function.update_of_ne hwv]
        exact h.2 w hw
  · exact h

/-- A whole pass does. -/
theorem Counted.pass {choice : ℕ → ℕ} {m n : ℕ} (hlt : ∀ v, choice v < n)
    (vs : List ℕ) (hvs : ∀ v ∈ vs, v < m) :
    ∀ {s : Buckets}, Counted m n s →
      Counted m n (vs.foldl (Renumbering.reassign choice) s) := by
  induction vs with
  | nil => exact id
  | cons v vs ih =>
    intro s h
    exact ih (fun w hw => hvs w (List.mem_cons_of_mem _ hw))
      (h.reassign (hlt v) (hvs v List.mem_cons_self))

/-- **After every pass the counts are those of the buckets.** -/
theorem Partition.counted (x : Partition) (k : ℕ) :
    Counted (x.maxVertexId + 1) x.nshards (x.after k) := by
  have hpasses : ∀ (choices : List (ℕ → ℕ)), (∀ c ∈ choices, ∀ v, c v < x.nshards) →
      ∀ {s : Buckets}, Counted (x.maxVertexId + 1) x.nshards s →
        Counted (x.maxVertexId + 1) x.nshards (choices.foldl
          (fun s c => (List.range (x.maxVertexId + 1)).foldl (reassign c) s) s) := by
    intro choices
    induction choices with
    | nil => exact fun _ _ h => h
    | cons c choices ih =>
      intro hc s h
      exact ih (fun c' hc' => hc c' (List.mem_cons_of_mem _ hc'))
        (h.pass (hc c List.mem_cons_self) _ fun v hv => List.mem_range.mp hv)
  exact hpasses _ (fun c hc => x.reassignments_lt c (List.mem_of_mem_take hc))
    (counted_assign x.assignment_lt _)

theorem Partition.counted_buckets (x : Partition) :
    Counted (x.maxVertexId + 1) x.nshards x.buckets := x.counted _

/-! ## Intervals and new ids -/

/-- The value of a `long` converted to a `vid_t`. -/
def toVid (z : ℤ) : ℕ := (z % 2 ^ 32).toNat

theorem toVid_natCast {n : ℕ} (hn : n < 2 ^ 32) : toVid n = n := by
  unfold toVid
  omega

/-- **`write_shards`, the intervals** of `n` buckets from the bucket `iter`
on, where `vertexSt` is the first id that is free. -/
def intervalsFrom (counts : ℕ → ℤ) : ℕ → ℕ → ℕ → List (ℕ × ℕ)
  | _, 0, _ => []
  | iter, n + 1, vertexSt =>
    (vertexSt, toVid (vertexSt + counts iter - 1))
      :: intervalsFrom counts (iter + 1) n (toVid (vertexSt + counts iter))

/-- The next id of each bucket, and the new ids. -/
structure Cursors where
  /-- `vertexs_in_bucks`, used again for the next id of each bucket. -/
  next : ℕ → ℤ
  /-- `vertexs_map`. -/
  vertexsMap : ℕ → ℕ

/-- The vertex gets the next id of its bucket. -/
def renumberVertex (bucks : ℕ → ℕ) (c : Cursors) (v : ℕ) : Cursors :=
  ⟨Function.update c.next (bucks v) (c.next (bucks v) + 1),
    Function.update c.vertexsMap v (toVid (c.next (bucks v)))⟩

/-- `remap`: the old id of each new id; `mem` is what the memory of the array
holds. -/
def remap (vertexsMap : ℕ → ℕ) (mem : ℕ → ℕ) (m : ℕ) : ℕ → ℕ :=
  (List.range m).foldl (fun r v => Function.update r (vertexsMap v) v) mem

/-- How often a loop of an `int` up to `max_vertex_id + 1` goes round; the
`int` must not overflow. -/
def intLoop (maxVertexId : ℕ) : Option ℕ :=
  if (maxVertexId + 1) % 2 ^ 32 < 2 ^ 31 then some ((maxVertexId + 1) % 2 ^ 32)
  else none

/-- What `write_shards` makes of an assignment. -/
structure Result where
  /-- `intervals`. -/
  intervals : List (ℕ × ℕ)
  /-- `vertexs_map`. -/
  vertexsMap : ℕ → ℕ
  /-- What the `.map` file holds at each id. -/
  mapFile : ℕ → ℕ

namespace Partition

variable (x : Partition)

/-- `intervals`. -/
def intervals : List (ℕ × ℕ) :=
  intervalsFrom x.buckets.vertexsInBucks 0 x.nshards 0

/-- The new ids of the first `m` vertices. -/
def renumber (m : ℕ) : Cursors :=
  (List.range m).foldl (renumberVertex x.buckets.vertexToBucks)
    ⟨fun b => (x.intervals.getD b (0, 0)).1, fun _ => 2 ^ 32 - 1⟩

/-- **`write_shards`, the renumbering.** -/
def writeShards (mem : ℕ → ℕ) : Option Result :=
  (intLoop x.maxVertexId).map fun m =>
    ⟨x.intervals, (x.renumber m).vertexsMap, remap (x.renumber m).vertexsMap mem m⟩

/-- **The law of the renumbering**: the new ids are those of the old vertices in
another order, bucket by bucket, and the files say so. -/
structure RenumberingLaw (r : Result) : Prop where
  /-- After every pass the counts are the numbers of vertices of the
  buckets. -/
  counts : ∀ k, k ≤ x.reassignments.length → ∀ b, b < x.nshards →
    (x.after k).vertexsInBucks b
      = (((Finset.range (x.maxVertexId + 1)).filter
        fun v => (x.after k).vertexToBucks v = b).card : ℤ)
  /-- The map is a bijection of the ids. -/
  bijection : Set.BijOn r.vertexsMap (Set.Iic x.maxVertexId) (Set.Iic x.maxVertexId)
  /-- It keeps the order of the vertices of a bucket. -/
  increasing : ∀ v w, v < w → w ≤ x.maxVertexId →
    x.buckets.vertexToBucks v = x.buckets.vertexToBucks w →
    r.vertexsMap v < r.vertexsMap w
  /-- It maps the vertices of a bucket onto the bucket's interval. -/
  onto : ∀ b, b < x.nshards → ∀ u, Within (r.intervals.getD b (0, 0)) u
    ↔ ∃ v, v ≤ x.maxVertexId ∧ x.buckets.vertexToBucks v = b ∧ r.vertexsMap v = u
  /-- There is an interval for each bucket. -/
  count : r.intervals.length = x.nshards
  /-- The intervals are contiguous … -/
  contiguous : r.intervals.IsChain fun iv iv' => iv'.1 = iv.2 + 1
  /-- … in range … -/
  range : ∀ iv ∈ r.intervals, iv.2 ≤ x.maxVertexId
  /-- … and cover the ids. -/
  cover : ∀ v, v ≤ x.maxVertexId → ∃ iv ∈ r.intervals, Within iv v
  /-- The file is the inverse of the map. -/
  inverse : ∀ v, v ≤ x.maxVertexId → r.mapFile (r.vertexsMap v) = v

/-- The renumbering completes, and the law holds, whatever memory holds. -/
def Lawful : Prop := ∀ mem, ∃ r, x.writeShards mem = some r ∧ x.RenumberingLaw r

end Partition

/-! ## The place of a vertex -/

section Place

variable {bucks : ℕ → ℕ} {m : ℕ}

/-- The place of a vertex: behind the vertices of the buckets before its
own, and the vertices of its own before it. -/
def place (bucks : ℕ → ℕ) (m v : ℕ) : ℕ :=
  SortedBlocks.start bucks (List.range m) (bucks v) + members bucks v (bucks v)

theorem members_lt (bucks : ℕ → ℕ) {v w : ℕ} (hvw : v < w) :
    members bucks v (bucks v) < members bucks w (bucks v) := by
  unfold members
  rw [range_split hvw]
  exact SortedBlocks.size_lt bucks _ _ v

/-- The place of a vertex lies in the block of its bucket. -/
theorem place_lt (bucks : ℕ → ℕ) {v : ℕ} (hv : v < m) :
    place bucks m v < SortedBlocks.start bucks (List.range m) (bucks v + 1) := by
  rw [SortedBlocks.start_succ]
  exact Nat.add_lt_add_left (members_lt bucks hv) _

/-- The vertices of a bucket keep their order. -/
theorem place_lt_place {v w : ℕ} (hvw : v < w) (hb : bucks v = bucks w) :
    place bucks m v < place bucks m w := by
  unfold place
  rw [← hb]
  exact Nat.add_lt_add_left (members_lt bucks hvw) _

theorem place_injOn : Set.InjOn (place bucks m) (Set.Iio m) := by
  intro v hv w hw heq
  have hb : bucks v = bucks w := by
    refine SortedBlocks.unique (l := List.range m) (i := place bucks m v)
      (Nat.le_add_right _ _) (place_lt bucks hv) ?_ ?_
    · rw [heq]
      exact Nat.le_add_right _ _
    · rw [heq]
      exact place_lt bucks hw
  rcases Nat.lt_trichotomy v w with hlt | hvw | hlt
  · exact absurd heq (place_lt_place hlt hb).ne
  · exact hvw
  · exact absurd heq (place_lt_place hlt hb.symm).ne'

/-- The blocks of `n` buckets hold all vertices. -/
theorem start_eq_of_lt {n : ℕ} (hlt : ∀ v, v < m → bucks v < n) :
    SortedBlocks.start bucks (List.range m) n = m := by
  rw [SortedBlocks.start_eq, List.countP_eq_length.mpr, List.length_range]
  exact fun v hv => decide_eq_true (hlt v (List.mem_range.mp hv))

/-- **The places are a renumbering.** -/
theorem place_bijOn {n : ℕ} (hlt : ∀ v, v < m → bucks v < n) :
    Set.BijOn (place bucks m) (Set.Iio m) (Set.Iio m) := by
  have hmaps : Set.MapsTo (place bucks m) (Set.Iio m) (Set.Iio m) := by
    intro v hv
    refine lt_of_lt_of_le (place_lt bucks hv) ?_
    refine (SortedBlocks.start_mono (f := bucks) (List.range m) (hlt v hv)).trans ?_
    exact (start_eq_of_lt hlt).le
  refine ⟨hmaps, place_injOn, ?_⟩
  have hsurj := Finset.surjOn_of_injOn_of_card_le (s := Finset.range m)
    (t := Finset.range m) (place bucks m)
    (by rw [Finset.coe_range]; exact hmaps) (by rw [Finset.coe_range]; exact place_injOn)
    le_rfl
  rw [Finset.coe_range] at hsurj
  exact hsurj

end Place

/-! ## The intervals are the blocks of the buckets -/

namespace Partition

variable {x : Partition}

/-- The first place of a bucket. -/
def first (x : Partition) (b : ℕ) : ℕ :=
  SortedBlocks.start x.buckets.vertexToBucks (List.range (x.maxVertexId + 1)) b

theorem first_succ (x : Partition) (b : ℕ) :
    x.first (b + 1)
      = x.first b + members x.buckets.vertexToBucks (x.maxVertexId + 1) b :=
  SortedBlocks.start_succ _ _

theorem first_le (x : Partition) (b : ℕ) : x.first b ≤ x.maxVertexId + 1 := by
  unfold first
  rw [SortedBlocks.start_eq]
  exact List.countP_le_length.trans (List.length_range).le

theorem first_nshards (x : Partition) : x.first x.nshards = x.maxVertexId + 1 :=
  start_eq_of_lt x.counted_buckets.2

/-- With a vertex in the first bucket, no bucket ends at the first id. -/
theorem first_succ_pos (h : ∃ v, v ≤ x.maxVertexId ∧ x.buckets.vertexToBucks v = 0)
    (b : ℕ) : 0 < x.first (b + 1) := by
  obtain ⟨v, hv, hb⟩ := h
  have hone : 0 < x.first 1 := by
    have := members_lt x.buckets.vertexToBucks
      (show v < x.maxVertexId + 1 from Nat.lt_succ_of_le hv)
    rw [hb] at this
    rw [first_succ]
    omega
  exact hone.trans_le (SortedBlocks.start_mono _ (Nat.succ_le_succ (Nat.zero_le b)))

/-- **The intervals are the blocks**: each begins behind the one before, even if
it is empty, as long as the first one is not. -/
theorem intervalsFrom_eq
    (h : ∃ v, v ≤ x.maxVertexId ∧ x.buckets.vertexToBucks v = 0)
    (hm : x.maxVertexId + 1 < 2 ^ 31) (n : ℕ) :
    ∀ iter, intervalsFrom x.buckets.vertexsInBucks iter n (x.first iter)
      = (List.range' iter n).map fun b => (x.first b, x.first (b + 1) - 1) := by
  induction n with
  | zero => exact fun _ => rfl
  | succ n ih =>
    intro iter
    have hcount : (x.first iter : ℤ) + x.buckets.vertexsInBucks iter
        = (x.first (iter + 1) : ℕ) := by
      rw [x.counted_buckets.1, first_succ]
      push_cast
      rfl
    have hpos := first_succ_pos h iter
    have hle := x.first_le (iter + 1)
    have hlast : (x.first iter : ℤ) + x.buckets.vertexsInBucks iter - 1
        = ((x.first (iter + 1) - 1 : ℕ) : ℤ) := by
      rw [hcount]
      omega
    rw [intervalsFrom, hlast, hcount, toVid_natCast (by omega), toVid_natCast (by omega),
      ih, List.range'_succ, List.map_cons]

/-- The blocks tile the ids. -/
theorem tiles_map
    (h : ∃ v, v ≤ x.maxVertexId ∧ x.buckets.vertexToBucks v = 0) (n : ℕ) :
    ∀ iter, Tiles (x.first iter)
      ((List.range' iter n).map fun b => (x.first b, x.first (b + 1) - 1))
      (x.first (iter + n)) := by
  induction n with
  | zero => exact fun _ => rfl
  | succ n ih =>
    intro iter
    have hpos := first_succ_pos h iter
    have hsucc := x.first_succ iter
    rw [List.range'_succ, List.map_cons]
    refine ⟨rfl, ?_, ?_⟩
    · show x.first iter ≤ x.first (iter + 1) - 1 + 1
      omega
    · show Tiles (x.first (iter + 1) - 1 + 1) _ _
      rw [Nat.sub_add_cancel hpos, ← Nat.add_assoc, Nat.add_right_comm]
      exact ih (iter + 1)

section Good

variable (h : ∃ v, v ≤ x.maxVertexId ∧ x.buckets.vertexToBucks v = 0)
    (hm : x.maxVertexId + 1 < 2 ^ 31)

include h hm

theorem intervals_eq : x.intervals
    = (List.range x.nshards).map fun b => (x.first b, x.first (b + 1) - 1) := by
  rw [List.range_eq_range']
  exact intervalsFrom_eq h hm x.nshards 0

theorem getD_intervals {b : ℕ} (hb : b < x.nshards) :
    x.intervals.getD b (0, 0) = (x.first b, x.first (b + 1) - 1) := by
  rw [intervals_eq h hm, List.getD_eq_getElem?_getD, List.getElem?_map,
    List.getElem?_range hb]
  rfl

/-- **A vertex gets its place for its new id**: the next id of a bucket is its
first one and the number of its vertices that have been renumbered. -/
theorem renumber_spec (k : ℕ) (hk : k ≤ x.maxVertexId + 1) :
    (∀ b, b < x.nshards → (x.renumber k).next b
        = x.first b + members x.buckets.vertexToBucks k b)
      ∧ ∀ v, v < k → (x.renumber k).vertexsMap v
        = place x.buckets.vertexToBucks (x.maxVertexId + 1) v := by
  induction k with
  | zero =>
    refine ⟨fun b hb => ?_, fun v hv => absurd hv (Nat.not_lt_zero v)⟩
    show ((x.intervals.getD b (0, 0)).1 : ℤ) = _
    rw [getD_intervals h hm hb]
    exact (add_zero _).symm
  | succ k ih =>
    obtain ⟨hnext, hmap⟩ := ih (Nat.le_of_succ_le hk)
    have hbuck := x.counted_buckets.2 k hk
    have hstep : x.renumber (k + 1)
        = renumberVertex x.buckets.vertexToBucks (x.renumber k) k := by
      unfold renumber
      rw [List.range_succ, List.foldl_append]
      rfl
    -- the place is below the number of ids, which an `int` counts
    have hplace : toVid ((x.renumber k).next (x.buckets.vertexToBucks k))
        = place x.buckets.vertexToBucks (x.maxVertexId + 1) k := by
      have hlt := place_lt x.buckets.vertexToBucks hk
      have hle := x.first_le (x.buckets.vertexToBucks k + 1)
      have hcast : (x.renumber k).next (x.buckets.vertexToBucks k)
          = ((place x.buckets.vertexToBucks (x.maxVertexId + 1) k : ℕ) : ℤ) := by
        rw [hnext _ hbuck]
        unfold place
        push_cast
        rfl
      rw [hcast]
      refine toVid_natCast (lt_of_lt_of_le hlt (hle.trans ?_))
      omega
    rw [hstep]
    refine ⟨fun b hb => ?_, fun v hv => ?_⟩
    · -- one vertex more of its bucket has its new id
      have hmembers : members x.buckets.vertexToBucks (k + 1) b
          = members x.buckets.vertexToBucks k b
            + if x.buckets.vertexToBucks k = b then 1 else 0 := by
        unfold members SortedBlocks.size
        rw [List.range_succ, List.countP_append, List.countP_singleton]
        simp only [decide_eq_true_eq]
      show Function.update (x.renumber k).next _ _ b = _
      rw [hmembers]
      by_cases hbk : b = x.buckets.vertexToBucks k
      · subst hbk
        rw [Function.update_self, hnext _ hb, if_pos rfl]
        push_cast
        ring
      · rw [Function.update_of_ne hbk, if_neg (Ne.symm hbk), Nat.add_zero]
        exact hnext b hb
    · show Function.update (x.renumber k).vertexsMap k _ v = _
      by_cases hvk : v = k
      · rw [hvk, Function.update_self, hplace]
      · rw [Function.update_of_ne hvk]
        exact hmap v (by omega)

end Good

end Partition

/-- The inverse of a map that is injective below `m`. -/
theorem remap_spec {f : ℕ → ℕ} {m : ℕ} (hf : Set.InjOn f (Set.Iio m)) (mem : ℕ → ℕ) :
    ∀ k, k ≤ m → ∀ v, v < k → remap f mem k (f v) = v := by
  intro k
  induction k with
  | zero => exact fun _ v hv => absurd hv (Nat.not_lt_zero v)
  | succ k ih =>
    intro hk v hv
    have hstep : remap f mem (k + 1) = Function.update (remap f mem k) (f k) k := by
      unfold remap
      rw [List.range_succ, List.foldl_append]
      rfl
    rw [hstep]
    by_cases hvk : v = k
    · rw [hvk, Function.update_self]
    · rw [Function.update_of_ne fun heq => hvk (hf (lt_of_lt_of_le hv hk) hk heq)]
      exact ih (Nat.le_of_succ_le hk) v (by omega)

/-- The numbers of vertices, as the law counts them. -/
theorem card_filter_eq_members (bucks : ℕ → ℕ) (m b : ℕ) :
    ((Finset.range m).filter fun v => bucks v = b).card = members bucks m b := by
  unfold members SortedBlocks.size
  rw [List.countP_eq_length_filter]
  rfl

namespace Partition

variable {x : Partition}

/-- **With a vertex in the first bucket, the law holds**, as long as an `int`
counts the ids: each vertex gets its place, and the intervals are the blocks of
places of the buckets. -/
theorem lawful_of_first
    (h : ∃ v, v ≤ x.maxVertexId ∧ x.buckets.vertexToBucks v = 0)
    (hm : x.maxVertexId + 1 < 2 ^ 31) : x.Lawful := by
  intro mem
  have hloop : intLoop x.maxVertexId = some (x.maxVertexId + 1) := by
    unfold intLoop
    rw [Nat.mod_eq_of_lt (by omega), if_pos hm]
  obtain ⟨-, hmap⟩ := renumber_spec h hm (x.maxVertexId + 1) le_rfl
  have hbij := place_bijOn x.counted_buckets.2
  have heq : Set.EqOn (place x.buckets.vertexToBucks (x.maxVertexId + 1))
      (x.renumber (x.maxVertexId + 1)).vertexsMap (Set.Iio (x.maxVertexId + 1)) :=
    fun v hv => (hmap v hv).symm
  have hiio : Set.Iio (x.maxVertexId + 1) = Set.Iic x.maxVertexId := by
    ext v
    exact Nat.lt_succ_iff
  have hmapbij := hbij.congr heq
  have htiles : Tiles 0 x.intervals (x.maxVertexId + 1) := by
    have := tiles_map h x.nshards 0
    rw [Nat.zero_add, first_nshards] at this
    rw [intervals_eq h hm, List.range_eq_range']
    exact this
  refine ⟨_, by unfold writeShards; rw [hloop]; rfl, ?_⟩
  constructor
  · intro k _ b _
    rw [(x.counted k).1, card_filter_eq_members]
  · rw [hiio] at hmapbij
    exact hmapbij
  · -- inside a bucket the order of the vertices is kept
    intro v w hvw hw hb
    show (x.renumber _).vertexsMap v < (x.renumber _).vertexsMap w
    rw [hmap v (by omega), hmap w (by omega)]
    exact place_lt_place hvw hb
  · -- an interval has the new ids of its bucket
    intro b hb u
    show Within (x.intervals.getD b (0, 0)) u
      ↔ ∃ v, v ≤ x.maxVertexId ∧ _ ∧ (x.renumber _).vertexsMap v = u
    rw [getD_intervals h hm hb]
    have hpos := first_succ_pos h b
    constructor
    · rintro ⟨hfirst, hlast⟩
      have hu : u < x.first (b + 1) := by
        have : u ≤ x.first (b + 1) - 1 := hlast
        omega
      obtain ⟨v, hv, hplace⟩ := hbij.surjOn (lt_of_lt_of_le hu (x.first_le _))
      have hvb : x.buckets.vertexToBucks v = b := by
        refine SortedBlocks.unique (f := x.buckets.vertexToBucks)
          (l := List.range (x.maxVertexId + 1)) (i := u) ?_ ?_ hfirst hu
        · rw [← hplace]
          exact Nat.le_add_right _ _
        · rw [← hplace]
          exact place_lt _ hv
      -- and every vertex of the bucket gets one of them
      exact ⟨v, Nat.lt_succ_iff.mp hv, hvb, (hmap v hv).trans hplace⟩
    · rintro ⟨v, hv, hvb, rfl⟩
      rw [hmap v (Nat.lt_succ_of_le hv)]
      have hlt := place_lt x.buckets.vertexToBucks
        (show v < x.maxVertexId + 1 from Nat.lt_succ_of_le hv)
      rw [hvb] at hlt
      refine ⟨?_, Nat.le_sub_one_of_lt hlt⟩
      rw [← hvb]
      exact Nat.le_add_right _ _
  · show x.intervals.length = _
    rw [intervals_eq h hm, List.length_map, List.length_range]
  · exact htiles.contiguous
  · intro iv hiv
    have := (htiles.bounds hiv).2.2
    omega
  · exact fun v hv => htiles.cover (Nat.zero_le v) (Nat.lt_succ_of_le hv)
  · intro v hv
    exact remap_spec hmapbij.injOn mem _ le_rfl v (Nat.lt_succ_of_le hv)

/-- The law holds only if an `int` counts the ids and the first bucket has a
vertex. -/
theorem first_of_lawful (hlaw : x.Lawful) : x.maxVertexId + 1 < 2 ^ 31
    ∧ ∃ v, v ≤ x.maxVertexId ∧ x.buckets.vertexToBucks v = 0 := by
  obtain ⟨r, hr, hlaw⟩ := hlaw fun _ => 0
  unfold writeShards at hr
  obtain ⟨m, hloop, hr⟩ := Option.map_eq_some_iff.mp hr
  have hvid := x.vid
  have hm : x.maxVertexId + 1 < 2 ^ 31 := by
    unfold intLoop at hloop
    split at hloop
    · next hlt =>
      by_contra hge
      -- the loop does not go round, and all vertices keep the same new id
      have hmax : x.maxVertexId + 1 = 2 ^ 32 := by omega
      have hm0 : m = 0 := by
        rw [← Option.some.inj hloop, hmax, Nat.mod_self]
      subst hm0
      subst hr
      have h01 := hlaw.bijection.injOn
        (show 0 ∈ Set.Iic x.maxVertexId from Nat.zero_le _)
        (show 1 ∈ Set.Iic x.maxVertexId from show 1 ≤ x.maxVertexId by omega) rfl
      exact absurd h01 Nat.zero_ne_one
    · cases hloop
  refine ⟨hm, ?_⟩
  by_contra hnone
  push Not at hnone
  have hcount : x.buckets.vertexsInBucks 0 = 0 := by
    have h := x.counted_buckets.1 0
    have hzero : members x.buckets.vertexToBucks (x.maxVertexId + 1) 0 = 0 := by
      unfold members SortedBlocks.size
      refine List.countP_eq_zero.mpr fun v hv => ?_
      simpa using hnone v (Nat.lt_succ_iff.mp (List.mem_range.mp hv))
    exact h.trans (congrArg Nat.cast hzero)
  obtain ⟨n, hn⟩ : ∃ n, x.nshards = n + 1 :=
    Nat.exists_eq_succ_of_ne_zero
      (Nat.ne_of_gt (Nat.zero_lt_of_lt ((x.counted 0).2 0 (Nat.succ_pos _))))
  have hhead : (0, 2 ^ 32 - 1) ∈ r.intervals := by
    subst hr
    show (0, 2 ^ 32 - 1) ∈ intervalsFrom x.buckets.vertexsInBucks 0 x.nshards 0
    rw [hn, intervalsFrom, hcount]
    exact List.mem_cons_self
  have := hlaw.range _ hhead
  omega

end Partition

/-- **When the renumbering keeps its law**: exactly when the first bucket has
a vertex and an `int` counts the ids. -/
theorem renumbering_iff (x : Partition) :
    x.Lawful ↔ x.maxVertexId + 1 < 2 ^ 31
      ∧ ∃ v, v ≤ x.maxVertexId ∧ x.buckets.vertexToBucks v = 0 :=
  ⟨Partition.first_of_lawful, fun h => Partition.lawful_of_first h.2 h.1⟩

/-- Two vertices, both put in the first of two buckets, and then moved to the
second. -/
def firstBucketEmpty : Partition where
  nshards := 2
  maxVertexId := 1
  vid := by decide
  assignment := fun _ => 0
  reassignments := [fun _ => 1]
  assignment_lt := fun _ => Nat.two_pos
  reassignments_lt := fun c hc v => by
    rw [List.mem_singleton.mp hc]
    exact Nat.one_lt_two

/-- **An empty first bucket breaks the law**: its interval ends at the largest
number of a `vid_t`. -/
theorem not_renumbering_firstBucketEmpty : ¬firstBucketEmpty.Lawful := by
  intro h
  obtain ⟨v, hv, hb⟩ := (Partition.first_of_lawful h).2
  have hbucks : ∀ v, v ≤ 1 → firstBucketEmpty.buckets.vertexToBucks v = 1 := by
    decide
  exact absurd ((hbucks v hv).symm.trans hb) Nat.one_ne_zero

end Renumbering
