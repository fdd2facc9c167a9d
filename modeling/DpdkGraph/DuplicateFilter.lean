import DpdkGraph.FirstShards
import DpdkGraph.Placement
import DpdkGraph.Resharding

/-!
# The duplicate filter

The filter takes effect in `finish_shard`: of equal edges one goes to the
adjacency file of the first sharding (`FinishShard.Shard.onePerPair`). That
file is read by the partitioner, and by nobody else. `reshovel` reads the
shovel files a second time, where all edges still are, and `reshard` knows
no filter. So what the engine loads has an edge as often as it was added,
whatever the filter and the partitioner are.

A run is followed from the calls on. The shovels are merged into the sink,
which leaves the files of the first sharding; intervals and ids come from the
sink itself, from the vertices in turn, or from a partitioner that has read
the files, which may be any function of them (`Places`). From there on it is
the second phase (`Resharding`). `filterLaw_sound` says for which runs each
pair is still there once: for those whose first phase comes to an end and
whose input has no pair twice, and where no walk of `reshard` goes astray.
-/

/-! ## In the first sharding -/

namespace FinishShard

variable {V : Type}

/-- Of equal edges, one of them is left. -/
theorem mem_of_mem_removeDuplicates {acceptFirst : V → V → Bool}
    {l : List (EdgeWithValue V)} {e : EdgeWithValue V}
    (he : e ∈ removeDuplicates acceptFirst l) : e ∈ l := by
  have hfrom : ∀ (l : List (EdgeWithValue V)) (prev : EdgeWithValue V),
      e ∈ removeDuplicatesFrom acceptFirst prev l → e ∈ prev :: l := by
    intro l
    induction l with
    | nil => exact fun prev h => h
    | cons cur l ih =>
      intro prev h
      rw [removeDuplicatesFrom] at h
      split at h
      · have h' := ih _ h
        split at h'
        · exact List.mem_cons_of_mem _ h'
        · rcases List.mem_cons.mp h' with rfl | h'
          · exact List.mem_cons_self
          · exact List.mem_cons_of_mem _ (List.mem_cons_of_mem _ h')
      · rcases List.mem_cons.mp h with rfl | h
        · exact List.mem_cons_self
        · exact List.mem_cons_of_mem _ (ih _ h)
  cases l with
  | nil => exact he
  | cons a l => exact hfrom l a he

/-- **The filter does its work in the first sharding**: where a shard comes
in order, one edge of each pair is written. -/
theorem Shard.onePerPair {x : Shard V} (horder : x.InOrder)
    (hid : x.maxVertexId < 2 ^ 31) (hfilter : x.duplicateEdgeFilter.isSome = true) :
    OnePerPair x.edges x.writtenEdges := by
  have hperm := horder.written_perm hid
  have hkept : x.kept = (x.edges.map EdgeWithValue.ends).dedup := if_pos hfilter
  rw [hkept] at hperm
  have hnodup := hperm.nodup_iff.mpr (List.nodup_dedup _)
  refine .of_nodup hnodup (fun e he => ?_) fun e he => ?_
  · exact x.mem_written.mpr (List.mem_map_of_mem he)
  · refine x.sortedEdges_perm.mem_iff.mp ?_
    unfold Shard.writtenEdges at he
    split at he
    · exact he
    · exact mem_of_mem_removeDuplicates he

end FinishShard

namespace DuplicateFilter

open FirstSharding (MemorySink Sink Whole shardsOf)
open Redistribution (Numbering)

variable {V : Type}

/-! ## A run -/

/-- How the vertices get their shards. -/
inductive Placing where
  /-- `opti_times == 0`: by the intervals of the first sharding. -/
  | keep
  /-- `opti_times == -1`: in turn. -/
  | average
  /-- `opti_times >= 1`: by a partitioner, which reads the files of the first
  sharding and need not come to an end. -/
  | partition (choose : List (List UInt8) → Option Renumbering.Partition)

/-- The buckets are those that have been chosen, for `nshards` shards. -/
def Placing.Chooses (placing : Placing) (nshards : ℕ) (files : List (List UInt8))
    (q : Renumbering.Partition) : Prop :=
  match placing with
  | keep => False
  | average => q.assignment = (fun v => v % nshards) ∧ q.reassignments = []
  | partition choose => choose files = some q

/-- **A run of the sharder** with a duplicate filter. -/
structure Pipeline (V : Type) where
  /-- What it is configured with. -/
  config : Shovel.Config
  /-- `nshards`. -/
  nshards : ℕ
  /-- There is a shard. -/
  nshards_pos : 0 < nshards
  /-- The calls of `preprocessing_add_edge`. -/
  calls : List (EdgeWithValue V)
  /-- Ids fit a `vid_t`. -/
  vid : ∀ e ∈ calls, e.src < 2 ^ 32 ∧ e.dst < 2 ^ 32
  /-- The shovel files that an earlier run has left on disk. -/
  disk : ℕ → List (EdgeWithValue V)
  /-- `duplicate_edge_filter->acceptFirst`. -/
  acceptFirst : V → V → Bool
  /-- `opti_times`. -/
  placing : Placing
  /-- `machines`, with this one. -/
  machines : ℕ
  /-- `edges_max_in_buffer`. -/
  edgesMaxInBuffer : ℕ
  /-- A buffer holds an edge. -/
  edgesMaxInBuffer_pos : 0 < edgesMaxInBuffer
  /-- `compressed_block_size`. -/
  compressedBlockSize : ℕ
  /-- `sizeof(FinalEdgeDataType)`. -/
  valueSize : ℕ

/-- What is up to chance in a run: what fresh memory holds, and what `rand()`
returns. -/
structure Chance (V : Type) where
  /-- In the sorts of the shovels and the merge. -/
  memory : Shovel.Memory V
  /-- In the sink. -/
  garbage : ℕ → ℕ → EdgeWithValue V
  /-- In the sorts of `finish_shard`. -/
  finish : ℕ → ℕ → EdgeWithValue V
  /-- In the array for the `.map` file. -/
  remap : ℕ → ℕ
  /-- What `rand()` returns in the call of `reshard` for a shard. -/
  rand : ℕ → ℕ → ℕ

namespace Pipeline

variable (x : Pipeline V) (c : Chance V)

/-- The edges that were added and are not self loops. -/
def added : List (EdgeWithValue V) := Shovel.kept x.calls

/-- `max_vertex_id`. -/
def maxVertexId : ℕ := Shovel.maxId x.added

/-- The session of `preprocessing_add_edge`. -/
def session : Shovel.Session V :=
  Shovel.Session.session x.config c.memory.sort x.disk x.calls

/-- The shovel files that it leaves. -/
def shovels : List (List (EdgeWithValue V)) :=
  (List.range (x.session c).numshovels).map (x.session c).files

/-- **The first phase ends** with the sink `b`. -/
def Ends (b : MemorySink V) : Prop :=
  ∃ fuel out, Shovel.writeShards x.config x.nshards c.memory c.garbage x.disk x.calls fuel
    = some (out, .ok b)

/-- **The files of the first sharding**, where the filter has had its
effect. -/
def firstFiles (s : Sink V) : List (List UInt8) :=
  s.shards.mapIdx fun i edges =>
    FinishShard.finishShard (some x.acceptFirst) (c.finish i) x.maxVertexId edges

/-- **The intervals and the ids** that the sink leads to. -/
inductive Places (s : Sink V) : IntervalPartition → Numbering → Prop
  /-- The intervals of the first sharding, and the ids as they are. -/
  | keep {part : IntervalPartition} (mode : x.placing = .keep)
      (intervals : part.intervals = s.intervals) (count : part.nshards = x.nshards) :
      Places s part .plain
  /-- The buckets are given intervals, and the vertices ids in them. -/
  | renumber {q : Renumbering.Partition} {r : Renumbering.Result} {part : IntervalPartition}
      (chosen : x.placing.Chooses x.nshards (x.firstFiles c s) q)
      (nshards : q.nshards = x.nshards) (maxVertexId : q.maxVertexId = x.maxVertexId)
      (result : q.writeShards c.remap = some r) (intervals : part.intervals = r.intervals) :
      Places s part (.renumbered r.vertexsMap q.buckets.vertexToBucks)

/-- **The second phase**, with these intervals and ids: the shovel files, as
they are, are handed out and resharded. -/
structure Continues (part : IntervalPartition) (numbering : Numbering) (y : Second V) :
    Prop where
  part : y.job.part = part
  numbering : y.job.numbering = numbering
  maxVertexId : y.job.maxVertexId = x.maxVertexId
  machines : y.job.machines = x.machines
  edgeSize : y.job.edgeSize = x.config.edgeSize
  edgesMaxInBuffer : y.job.edgesMaxInBuffer = x.edgesMaxInBuffer
  shovels : y.job.shovels = x.shovels c
  compressedBlockSize : y.compressedBlockSize = x.compressedBlockSize
  valueSize : y.valueSize = x.valueSize
  rand : y.rand = c.rand

/-- A second phase that a run may come to. -/
def Comes (y : Second V) : Prop :=
  ∃ c b part numbering, x.Ends c b ∧ x.Places c b.books part numbering
    ∧ x.Continues c part numbering y

/-- **The law of the filter**: the run comes to its second phase, whatever
chance does, and of each pair that was added the files that the engine loads
have one edge where it belongs, with one of its values. -/
structure FilterLaw : Prop where
  /-- The first phase ends, and leads to intervals and ids. -/
  ends : ∀ c, ∃ b part numbering y, x.Ends c b ∧ x.Places c b.books part numbering
    ∧ x.Continues c part numbering y
  /-- Each pair is loaded once. -/
  once : ∀ y, x.Comes y → y.LoadsOnce (x.added.map y.job.renumber)

/-! ## The condition -/

/-- **The first phase goes well**: each edge that was added arrives in the
sink once, which takes them all, and there are intervals and ids for the
vertices. -/
structure Proceeds : Prop where
  /-- No shovel is empty, or without a buffer, or shorter than what is left of
  an earlier run. -/
  separate : Shovel.Separate x.config x.disk x.calls
  /-- The sink takes all edges. -/
  takes : Shovel.Takes x.config x.nshards x.disk x.calls
  /-- The intervals of the first sharding are as many as there are shards … -/
  keep : x.placing = .keep → (∀ i < Shovel.files x.config x.calls,
      Shovel.ShovelInOrder x.config x.disk x.calls i)
    ∧ shardsOf x.nshards (Shovel.destinations x.calls) = x.nshards
  /-- … or an `int` counts the vertices that are taken in turn … -/
  average : x.placing = .average → x.maxVertexId + 1 < 2 ^ 31
  /-- … or the partitioner ends with buckets that can be renumbered. -/
  partition : ∀ choose, x.placing = .partition choose → ∀ c b, x.Ends c b →
    ∃ q, choose (x.firstFiles c b.books) = some q ∧ q.nshards = x.nshards
      ∧ q.maxVertexId = x.maxVertexId ∧ Renumbering.Proper q

/-- No pair of vertices was added twice. -/
def OncePerPair : Prop := (x.added.map EdgeWithValue.ends).Nodup

/-- No shard gets too many edges for an `int`. -/
def Few : Prop := ∀ y, x.Comes y → y.Few (x.added.map y.job.renumber)

/-- **The runs that the law holds for.** It is not the filter that makes it
hold: the pairs must be different before it sees them, and none of the later
phases may go wrong. -/
structure Sound : Prop where
  /-- The first phase goes well. -/
  proceeds : x.Proceeds
  /-- The numbers fit. -/
  few : x.Few
  /-- No pair was added twice. -/
  once : x.OncePerPair
  /-- No walk goes astray. -/
  straight : ∀ y, x.Comes y → y.Straight (x.added.map y.job.renumber)

/-! ## The first phase -/

variable {x c}

theorem vid_added {e : EdgeWithValue V} (he : e ∈ x.added) :
    e.src < 2 ^ 32 ∧ e.dst < 2 ^ 32 :=
  x.vid e (List.mem_of_mem_filter he)

/-- **The shovel files have the edges that were added.** -/
theorem shovels_perm (h : Shovel.Separate x.config x.disk x.calls) :
    (x.shovels c).flatten.Perm x.added := by
  obtain ⟨hnum, -, hfiles⟩ :=
    Shovel.session_files x.config c.memory.sort x.disk x.calls
  have hflat : (x.shovels c).flatten
      = (List.range (Shovel.files x.config x.calls)).flatMap (x.session c).files := by
    rw [shovels, session, hnum]
    rfl
  unfold added
  rw [hflat, ← Shovel.flatMap_shovelOf_files x.config x.calls]
  refine List.Perm.flatMap_left _ fun i hi => ?_
  have hi := List.mem_range.mp hi
  rw [session, hfiles i hi, Shovel.fileOf, Shovel.overwrite,
    (Shovel.sortShovel_perm _ _ _).length_eq, List.drop_eq_nil_of_le (h.replaced i hi),
    List.append_nil]
  exact Shovel.sortShovel_perm _ _ _

/-- **A placement of the vertices**: each gets an id of its own, in the
interval of its shard. -/
structure Placed (x : Pipeline V) (part : IntervalPartition) (numbering : Numbering) :
    Prop where
  /-- Different vertices have different new ids. -/
  injOn : Set.InjOn numbering.number (Set.Iic x.maxVertexId)
  /-- Each new id is in the interval where the vertex is placed. -/
  covered : ∀ v ≤ x.maxVertexId, ∃ k, numbering.interval part v = some k
    ∧ part.Mem k (numbering.number v)

/-- The intervals of a sink that has made all shards. -/
theorem Proceeds.keep_part (h : x.Proceeds) (hmode : x.placing = .keep) {b : MemorySink V}
    (hends : x.Ends c b) : ∃ part : IntervalPartition, part.intervals = b.books.intervals
      ∧ part.nshards = x.nshards ∧ ∀ v ≤ x.maxVertexId, ∃ k, part.Mem k v := by
  obtain ⟨horder, hmade⟩ := h.keep hmode
  obtain ⟨fuel, out, hrun⟩ := hends
  have hdst : ∀ e ∈ Shovel.kept x.calls, e.dst < 2 ^ 32 := fun e he => (vid_added he).2
  obtain ⟨hne, hperm, hsorted, hwhole⟩ := FirstSharding.whole_of_writeShards x.nshards_pos
    hdst h.separate horder hmade hrun
  have hmax : Shovel.maxId out = x.maxVertexId := Shovel.maxId_perm hperm
  have hvid : Shovel.maxId out < 2 ^ 32 := FirstSharding.maxId_lt (Nat.two_pow_pos 32)
    fun e he => vid_added (hperm.subset he)
  refine ⟨hwhole.part hvid, rfl, hwhole.count, fun v hv => ?_⟩
  obtain ⟨iv, hiv, hwithin⟩ := hwhole.tiles.cover (Nat.zero_le v)
    (Nat.lt_succ_of_le (hv.trans_eq hmax.symm))
  obtain ⟨k, hk, rfl⟩ := List.mem_iff_getElem.mp hiv
  refine ⟨k, hk, ?_⟩
  have hget : (hwhole.part hvid).intervals.getD k (0, 0) = b.books.intervals[k] :=
    List.getD_eq_getElem _ _ hk
  unfold IntervalPartition.first IntervalPartition.second
  rw [hget]
  exact hwithin

/-- The buckets that are chosen can be renumbered. -/
theorem Proceeds.proper (h : x.Proceeds) {b : MemorySink V} (hends : x.Ends c b)
    {q : Renumbering.Partition} (hq : x.placing.Chooses x.nshards (x.firstFiles c b.books) q)
    (hnshards : q.nshards = x.nshards) (hmax : q.maxVertexId = x.maxVertexId) :
    Renumbering.Proper q := by
  unfold Placing.Chooses at hq
  split at hq
  · exact hq.elim
  · next hmode =>
    rw [← hnshards] at hq
    exact Renumbering.proper_of_inTurn (hmax ▸ h.average hmode) hq.1 hq.2
  · next choose hmode =>
    obtain ⟨q', hq', -, -, hproper⟩ := h.partition choose hmode c b hends
    obtain rfl := Option.some.inj (hq'.symm.trans hq)
    exact hproper

/-- Interval partitions with the same intervals are the same. -/
theorem part_ext {p p' : IntervalPartition} (h : p.intervals = p'.intervals) : p = p' := by
  cases p
  cases p'
  cases h
  rfl

/-- **What the first phase leads to is a placement**, however the vertices are
placed: by the intervals of the merge, by the ids alone, or by the
partitioner. -/
theorem Proceeds.placed (h : x.Proceeds) {b : MemorySink V} (hends : x.Ends c b)
    {part : IntervalPartition} {numbering : Numbering}
    (hplaces : x.Places c b.books part numbering) : x.Placed part numbering := by
  cases hplaces with
  | keep mode intervals count =>
    obtain ⟨part', hintervals, -, hcover⟩ := h.keep_part mode hends
    obtain rfl := part_ext (intervals.trans hintervals.symm)
    refine ⟨fun _ _ _ _ heq => heq, fun v hv => ?_⟩
    obtain ⟨k, hk⟩ := hcover v hv
    exact ⟨k, IntervalPartition.shardOf_eq_some hk, hk⟩
  | @renumber q r _ chosen nshards maxVertexId result intervals =>
    have hproper := h.proper hends chosen nshards maxVertexId
    obtain ⟨r', hr', -, hintervals, hmap⟩ := hproper.exists_result c.remap
    obtain rfl := Option.some.inj (hr'.symm.trans result)
    obtain rfl : part = hproper.part := part_ext (intervals.trans hintervals)
    refine ⟨?_, fun v hv => ⟨_, rfl, ?_⟩⟩
    · show Set.InjOn r'.vertexsMap _
      rw [hmap, ← maxVertexId]
      exact hproper.vertexsMap_injOn
    · show hproper.part.Mem _ (r'.vertexsMap v)
      rw [hmap]
      exact hproper.mem_part (maxVertexId ▸ hv)

/-- There is a placement. -/
theorem Proceeds.exists_places (h : x.Proceeds) {b : MemorySink V} (hends : x.Ends c b) :
    ∃ part numbering, x.Places c b.books part numbering := by
  cases hmode : x.placing with
  | keep =>
    obtain ⟨part, hintervals, hcount, -⟩ := h.keep_part hmode hends
    exact ⟨part, .plain, .keep hmode hintervals hcount⟩
  | average =>
    have hint := h.average hmode
    let q : Renumbering.Partition :=
      { nshards := x.nshards
        maxVertexId := x.maxVertexId
        vid := by omega
        assignment := fun v => v % x.nshards
        reassignments := []
        assignment_lt := fun v => Nat.mod_lt v x.nshards_pos
        reassignments_lt := fun choice hc => absurd hc List.not_mem_nil }
    have hchosen : x.placing.Chooses x.nshards (x.firstFiles c b.books) q := by
      rw [hmode]
      exact ⟨rfl, rfl⟩
    have hproper : Renumbering.Proper q := Renumbering.proper_of_inTurn hint rfl rfl
    obtain ⟨r, hr, -, hintervals, -⟩ := hproper.exists_result c.remap
    exact ⟨hproper.part, _, .renumber hchosen rfl rfl hr hintervals.symm⟩
  | partition choose =>
    obtain ⟨q, hq, hnshards, hmax, hproper⟩ := h.partition choose hmode c b hends
    have hchosen : x.placing.Chooses x.nshards (x.firstFiles c b.books) q := by
      rw [hmode]
      exact hq
    obtain ⟨r, hr, -, hintervals, -⟩ := hproper.exists_result c.remap
    exact ⟨hproper.part, _, .renumber hchosen hnshards hmax hr hintervals.symm⟩

/-- **The run goes on** from a placement. -/
theorem Placed.exists_continues {part : IntervalPartition} {numbering : Numbering}
    (h : x.Placed part numbering) (hsep : Shovel.Separate x.config x.disk x.calls) :
    ∃ y : Second V, x.Continues c part numbering y := by
  have hperm := shovels_perm (x := x) (c := c) hsep
  refine ⟨⟨{
    part := part
    maxVertexId := x.maxVertexId
    numbering := numbering
    injOn := h.injOn
    covered := h.covered
    machines := x.machines
    edgeSize := x.config.edgeSize
    edgesMaxInBuffer := x.edgesMaxInBuffer
    edgesMaxInBuffer_pos := x.edgesMaxInBuffer_pos
    shovels := x.shovels c
    vid := fun e he => FirstSharding.le_maxId (hperm.mem_iff.mp he)
    noloop := fun e he =>
      of_decide_eq_true (List.mem_filter.mp (hperm.mem_iff.mp he)).2 },
    x.compressedBlockSize, x.valueSize, c.rand⟩, ?_⟩
  constructor <;> rfl

/-- **The first phase ends**, and the run goes on. -/
theorem Proceeds.exists_comes (h : x.Proceeds) (c : Chance V) :
    ∃ b part numbering y, x.Ends c b ∧ x.Places c b.books part numbering
      ∧ x.Continues c part numbering y := by
  obtain ⟨bound, hrun⟩ := h.separate.conserves h.takes x.nshards_pos c.memory c.garbage
  obtain ⟨out, b, hout, -⟩ := hrun (bound + 1) (Nat.lt_succ_self bound)
  have hends : x.Ends c b := ⟨_, out, hout⟩
  obtain ⟨part, numbering, hplaces⟩ := h.exists_places hends
  obtain ⟨y, hy⟩ := (h.placed hends hplaces).exists_continues (c := c) h.separate
  exact ⟨b, part, numbering, y, hends, hplaces, hy⟩

/-- The second phase that a run comes to has the edges that were added. -/
theorem Proceeds.perm_of_comes (h : x.Proceeds) {y : Second V} (hy : x.Comes y) :
    y.job.shovels.flatten.Perm x.added := by
  obtain ⟨c, b, part, numbering, -, -, hcont⟩ := hy
  rw [hcont.shovels]
  exact shovels_perm h.separate

/-- There is something that chance may do. -/
theorem Proceeds.exists_chance (h : x.Proceeds) : Nonempty (Chance V) := by
  obtain ⟨e, -⟩ := List.exists_mem_of_ne_nil _ h.separate.kept_ne
  exact ⟨{
    memory := ⟨fun _ => e, fun _ _ => e, fun _ => ⟨0, e⟩⟩
    garbage := fun _ _ => e
    finish := fun _ _ => e
    remap := fun _ => 0
    rand := fun _ _ => 0 }⟩

/-! ## The whole run -/

/-- **Only a sound run keeps it**, of those that come to a second phase. -/
theorem FilterLaw.sound (h : x.FilterLaw) (hproceeds : x.Proceeds) (hfew : x.Few) :
    x.Sound := by
  have honce : ∀ y, x.Comes y → x.OncePerPair
      ∧ y.Straight (x.added.map y.job.renumber) := fun y hy =>
    Resharding.once_of_loadsOnce (x := ⟨y, x.added, hproceeds.perm_of_comes hy⟩)
      (hfew y hy) (h.once y hy)
  refine ⟨hproceeds, hfew, ?_, fun y hy => (honce y hy).2⟩
  -- that no pair is doubled does not depend on chance: one second phase tells
  obtain ⟨c⟩ := hproceeds.exists_chance
  obtain ⟨b, part, numbering, y, hends, hplaces, hcont⟩ := hproceeds.exists_comes c
  exact (honce y ⟨c, b, part, numbering, hends, hplaces, hcont⟩).1

end Pipeline

end DuplicateFilter
