import DpdkGraph.FirstRoundTrip
import DpdkGraph.MergeSink

/-!
# From the calls to the first shards

The user adds edges, in any order. They are sorted a shovel at a time and
merged, the stream is cut into shards, and `finish_shard` writes the file of
each shard, which the readers of the partitioner take apart again.

Here the parts are put together. What has been added, loops apart, comes
out of the files again, each edge once and at the vertices it belongs to
(`sharded_of_calls`); the files are those of a graph as the partitioner
takes it.
-/

namespace FirstSharding

open SparseRows (encode)

variable {V : Type}

/-! ## All shards -/

/-- **The edges have been cut into as many shards as are to be made**, and these
have all the ids. -/
structure Whole (x : Job V) (s : Sink V) : Prop where
  /-- The shards are the edges, in their order. -/
  edges : s.shards.flatten = x.edges
  /-- There are as many intervals as shards. -/
  count : s.intervals.length = x.nshards
  /-- They tile the ids. -/
  tiles : Tiles 0 s.intervals (x.maxVertexId + 1)
  /-- The edges of a shard have their destinations in its interval. -/
  holds : List.Forall₂ (fun shard iv => ∀ e ∈ shard, Within iv e.dst) s.shards s.intervals
  /-- No shard is empty. -/
  nonempty : ∀ l ∈ s.shards, l ≠ []

/-- The last of them reaches the largest id. -/
theorem Split.whole {x : Job V} {s : Sink V} (h : Split x s)
    (hmade : x.shardsMade = x.nshards) : Whole x s where
  edges := h.edges
  count := h.count.trans hmade
  tiles := by
    have htiles := h.tiles
    rwa [Job.reach, if_pos hmade] at htiles
  holds := h.holds
  nonempty := h.nonempty

/-- The largest id is one of the ids. -/
theorem maxId_lt {E : List (EdgeWithValue V)} {n : ℕ} (hn : 0 < n)
    (h : ∀ e ∈ E, e.src < n ∧ e.dst < n) : Shovel.maxId E < n := by
  have hfrom : ∀ (E : List (EdgeWithValue V)) (m : ℕ), m < n →
      (∀ e ∈ E, e.src < n ∧ e.dst < n) →
      E.foldl (fun m e => max (max e.src e.dst) m) m < n := by
    intro E
    induction E with
    | nil => exact fun m hm _ => hm
    | cons a E ih =>
      intro m hm hall
      obtain ⟨ha, hall⟩ := List.forall_mem_cons.mp hall
      exact ih _ (max_lt (max_lt ha.1 ha.2) hm) hall
  exact hfrom E 0 hn h

/-! ## The shards -/

namespace Whole

variable {x : Job V} {s : Sink V}

/-- **The intervals** are a partition of the ids. -/
def part (h : Whole x s) (hvid : x.maxVertexId < 2 ^ 32) : IntervalPartition where
  intervals := s.intervals
  start := by
    have htiles := h.tiles
    cases hintervals : s.intervals with
    | nil => rfl
    | cons iv l =>
      rw [hintervals] at htiles
      exact htiles.1
  contiguous := h.tiles.contiguous
  ordered iv hiv := (h.tiles.bounds hiv).2.1
  vid iv hiv := by
    have := (h.tiles.bounds hiv).2.2
    omega

/-- The edges of a shard. -/
def shardEdges (s : Sink V) (p : ℕ) : List (EdgeWithValue V) := s.shards.getD p []

/-- A shard is one of the list, or there is none. -/
theorem shardEdges_cases (s : Sink V) (p : ℕ) :
    shardEdges s p ∈ s.shards ∨ shardEdges s p = [] := by
  unfold shardEdges
  rw [List.getD_eq_getElem?_getD]
  cases hp : s.shards[p]? with
  | none => exact Or.inr rfl
  | some l => exact Or.inl (List.mem_of_getElem? hp)

theorem mem_edges (h : Whole x s) {p : ℕ} {e : EdgeWithValue V} (he : e ∈ shardEdges s p) :
    e ∈ x.edges := by
  rw [← h.edges]
  rcases shardEdges_cases s p with hp | hp
  · exact List.mem_flatten.mpr ⟨_, hp, he⟩
  · rw [hp] at he
    exact absurd he List.not_mem_nil

/-- The shards keep the order. -/
theorem sorted (h : Whole x s) (p : ℕ) :
    (shardEdges s p).Pairwise fun a b => a.dst ≤ b.dst := by
  rcases shardEdges_cases s p with hp | hp
  · refine x.sorted.sublist ?_
    rw [← h.edges]
    exact List.sublist_flatten_of_mem hp
  · rw [hp]
    exact List.Pairwise.nil

/-- The destinations of a shard lie in its interval. -/
theorem dst_mem (h : Whole x s) (hvid : x.maxVertexId < 2 ^ 32) {p : ℕ} :
    ∀ e ∈ shardEdges s p, (h.part hvid).Mem p e.dst := by
  intro e he
  have hp : p < s.shards.length := by
    by_contra hge
    unfold shardEdges at he
    rw [List.getD_eq_default _ _ (Nat.le_of_not_lt hge)] at he
    exact absurd he List.not_mem_nil
  have hlength := h.holds.length_eq
  have hp' : p < s.intervals.length := hlength ▸ hp
  have hwithin := h.holds.get hp hp' e (by
    unfold shardEdges at he
    rw [List.getD_eq_getElem _ _ hp] at he
    exact he)
  refine ⟨hp', ?_⟩
  have hget : (h.part hvid).intervals.getD p (0, 0) = s.intervals[p] :=
    List.getD_eq_getElem _ _ hp'
  unfold IntervalPartition.first IntervalPartition.second
  rw [hget]
  exact hwithin

/-- The sources lie in some interval. -/
theorem src_mem (h : Whole x s) (hvid : x.maxVertexId < 2 ^ 32) {p : ℕ} :
    ∀ e ∈ shardEdges s p, ∃ k, (h.part hvid).Mem k e.src := by
  intro e he
  obtain ⟨iv, hiv, hwithin⟩ := h.tiles.cover (Nat.zero_le e.src)
    (Nat.lt_succ_of_le ((le_maxId (h.mem_edges he)).1))
  obtain ⟨k, hk, rfl⟩ := List.mem_iff_getElem.mp hiv
  refine ⟨k, hk, ?_⟩
  have hget : (h.part hvid).intervals.getD k (0, 0) = s.intervals[k] :=
    List.getD_eq_getElem _ _ hk
  unfold IntervalPartition.first IntervalPartition.second
  rw [hget]
  exact hwithin

/-- **What `finish_shard` is given** for shard `p`. -/
def finish (h : Whole x s) (hvid : x.maxVertexId < 2 ^ 32)
    (hloop : ∀ e ∈ x.edges, e.src ≠ e.dst) (mem : ℕ → EdgeWithValue V) (p : ℕ) :
    FinishShard.Shard V where
  part := h.part hvid
  shard := p
  edges := shardEdges s p
  sorted := h.sorted p
  dst_mem := h.dst_mem hvid
  src_mem := h.src_mem hvid
  noLoop e he := hloop e (h.mem_edges he)
  duplicateEdgeFilter := none
  mem := mem

variable (h : Whole x s) (hvid : x.maxVertexId < 2 ^ 31) (hloop : ∀ e ∈ x.edges, e.src ≠ e.dst)
  (hlength : ∀ l ∈ s.shards, l.length < 2 ^ 31) (mem : ℕ → EdgeWithValue V)

include hvid in
theorem vid_lt : x.maxVertexId < 2 ^ 32 := hvid.trans (by norm_num)

/-- No interval ends behind the largest id. -/
theorem second_le (k : ℕ) : (h.part (vid_lt hvid)).second k ≤ x.maxVertexId := by
  show (s.intervals.getD k (0, 0)).2 ≤ _
  rcases Nat.lt_or_ge k s.intervals.length with hlt | hge
  · rw [List.getD_eq_getElem _ _ hlt]
    exact Nat.le_of_succ_le_succ (h.tiles.bounds (List.getElem_mem hlt)).2.2
  · rw [List.getD_eq_default _ _ hge]
    exact Nat.zero_le _

/-- Ids are below `2 ^ 31`. -/
theorem finish_vid (p : ℕ) : (h.finish (vid_lt hvid) hloop mem p).maxVertexId < 2 ^ 31 :=
  (h.second_le hvid _).trans_lt hvid

include hlength in
/-- The sort reaches all edges of a shard. -/
theorem finish_inOrder (p : ℕ) : (h.finish (vid_lt hvid) hloop mem p).InOrder := by
  refine FinishShard.Shard.inOrder_of_length_lt _ ?_
  show (shardEdges s p).length < 2 ^ 31
  rcases shardEdges_cases s p with hp | hp
  · exact hlength _ hp
  · rw [hp]
    exact Nat.two_pow_pos 31

include hlength in
/-- Without a filter what is written are the edges of the shard. -/
theorem finish_written (p : ℕ) : (h.finish (vid_lt hvid) hloop mem p).written.Perm
    ((shardEdges s p).map EdgeWithValue.ends) :=
  (h.finish_inOrder hvid hloop hlength mem p).written_perm (h.finish_vid hvid hloop mem p)

/-- **The graph of the shards**, as the partitioner takes it: the intervals are
the sink's, and the edges those of its shards without the loops. -/
def graph (hn : 0 < x.nshards) : PartitionWindows.ShardedGraph where
  part := h.part (vid_lt hvid)
  nshards_pos := hn.trans_eq h.count.symm
  full := by
    intro p hp
    have hp : p < s.shards.length := hp.trans_eq h.holds.length_eq.symm
    have hmem := List.getElem_mem hp
    obtain ⟨e, he⟩ := List.exists_mem_of_ne_nil _ (h.nonempty _ hmem)
    have hwithin := (h.dst_mem (vid_lt hvid) (p := p) e (by
      unfold shardEdges
      rw [List.getD_eq_getElem _ _ hp]
      exact he)).2
    exact hwithin.1.trans hwithin.2
  shards := fun p => (h.finish (vid_lt hvid) hloop mem p).written
  sorted := fun p => (h.finish_inOrder hvid hloop hlength mem p).written_pairwise
    (h.finish_vid hvid hloop mem p)
  dst_mem := by
    intro p _ q hq
    obtain ⟨e, he, rfl⟩ := List.mem_map.mp ((h.finish_written hvid hloop hlength mem p).subset hq)
    exact h.dst_mem (vid_lt hvid) e he
  src_mem := by
    intro p _ q hq
    obtain ⟨e, he, rfl⟩ := List.mem_map.mp ((h.finish_written hvid hloop hlength mem p).subset hq)
    exact h.src_mem (vid_lt hvid) e he

/-- All shards together are the edges. -/
theorem flatMap_shardEdges (h : Whole x s) :
    (List.range x.nshards).flatMap (shardEdges s) = x.edges := by
  have hcount : s.shards.length = x.nshards := h.holds.length_eq.trans h.count
  rw [← h.edges, ← hcount, List.flatMap_def]
  congr 1
  refine List.ext_getElem (by simp) fun i hi hi' => ?_
  rw [List.getElem_map, List.getElem_range]
  exact List.getD_eq_getElem _ _ hi'

/-- **The graph has the edges.** -/
theorem graph_edges (hn : 0 < x.nshards) :
    (h.graph hvid hloop hlength mem hn).edges.Perm (x.edges.map EdgeWithValue.ends) := by
  have hcount : (h.graph hvid hloop hlength mem hn).part.nshards = x.nshards := h.count
  unfold PartitionWindows.ShardedGraph.edges
  rw [hcount, ← h.flatMap_shardEdges, List.map_flatMap]
  exact List.Perm.flatMap_left _ fun p _ => h.finish_written hvid hloop hlength mem p

/-- **The file of a shard** is that of the graph. -/
theorem finish_file (hn : 0 < x.nshards) (p : ℕ) :
    (h.finish (vid_lt hvid) hloop mem p).file
      = encode ((h.graph hvid hloop hlength mem hn).file p) := by
  unfold FinishShard.Shard.file PartitionWindows.ShardedGraph.file
  rw [FinishShard.adjacency_eq]
  · rfl
  · exact (h.graph hvid hloop hlength mem hn).src_sorted p
  · intro q hq
    obtain ⟨e, he, rfl⟩ := List.mem_map.mp ((h.finish_written hvid hloop hlength mem p).subset hq)
    exact ((le_maxId (h.mem_edges he)).1).trans_lt hvid

include hlength in
/-- **The file is read back**, if no vertex has too many out-edges. -/
theorem finish_roundTrip (hdegree : ∀ v, (x.edges.countP fun e => e.src = v) < 2 ^ 29) (p : ℕ) :
    (h.finish (vid_lt hvid) hloop mem p).RoundTrip := by
  have hout : ∀ v, ((h.finish (vid_lt hvid) hloop mem p).outedges v).length < 2 ^ 29 := by
    intro v
    refine lt_of_le_of_lt ?_ (hdegree v)
    unfold FinishShard.Shard.outedges FinishShard.Shard.kept
    rw [List.length_map, ← List.countP_eq_length_filter]
    show ((shardEdges s p).map EdgeWithValue.ends).countP _ ≤ _
    rw [List.countP_map, ← h.edges]
    rcases shardEdges_cases s p with hp | hp
    · exact (List.sublist_flatten_of_mem hp).countP_le
    · rw [hp]
      exact Nat.zero_le _
  exact FinishShard.Shard.Fits.roundTrip ⟨h.finish_vid hvid hloop mem p,
    h.finish_inOrder hvid hloop hlength mem p, fun v _ => hout v,
    (hout _).trans (by norm_num)⟩

end Whole

/-! ## From the calls -/

section Merged

variable {calls : List (EdgeWithValue V)} {nshards : ℕ}

/-- The sharding is given the edges in the order of the merge. -/
def mergedJob (hpos : 0 < nshards) (hvid : ∀ e ∈ Shovel.kept calls, e.dst < 2 ^ 32)
    (out : List (EdgeWithValue V)) (hne : out ≠ []) (hperm : out.Perm (Shovel.kept calls))
    (hsorted : out.Pairwise fun a b => a.dst ≤ b.dst) : Job V where
  nshards := nshards
  nshards_pos := hpos
  edges := out
  edges_ne := hne
  sorted := hsorted
  vid e he := hvid e (hperm.subset he)

/-- **The sink makes all shards** of what it is handed in order, if the
destinations are cut into as many as there are to be. -/
theorem whole_of_writeShards (hpos : 0 < nshards)
    (hvid : ∀ e ∈ Shovel.kept calls, e.dst < 2 ^ 32) {c : Shovel.Config}
    {disk : ℕ → List (EdgeWithValue V)} (hsep : Shovel.Separate c disk calls)
    (horder : ∀ i < Shovel.files c calls, Shovel.ShovelInOrder c disk calls i)
    (hmade : shardsOf nshards (Shovel.destinations calls) = nshards)
    {m : Shovel.Memory V} {garbage : ℕ → ℕ → EdgeWithValue V} {fuel : ℕ}
    {out : List (EdgeWithValue V)} {b : MemorySink V}
    (h : Shovel.writeShards c nshards m garbage disk calls fuel = some (out, .ok b)) :
    ∃ (hne : out ≠ []) (hperm : out.Perm (Shovel.kept calls))
      (hsorted : out.Pairwise fun a b => a.dst ≤ b.dst),
      Whole (mergedJob hpos hvid out hne hperm hsorted) b.books := by
  obtain ⟨hne, hperm, hsorted, hshard⟩ := Shovel.of_writeShards hsep hpos h
  have hsorted := hsorted horder
  refine ⟨hne, hperm, hsorted, ?_⟩
  obtain ⟨s, hs, hsplit⟩ := (mergedJob hpos hvid out hne hperm hsorted).shard_spec
  have hsetup : (mergedJob hpos hvid out hne hperm hsorted).setup
      = ⟨nshards, out.length, Shovel.maxId (Shovel.kept calls)⟩ := by
    rw [← Shovel.maxId_perm hperm]
    rfl
  rw [hsetup] at hs
  obtain rfl := Option.some.inj (hs.symm.trans hshard)
  refine hsplit.whole ?_
  unfold Job.shardsMade
  exact (congrArg (shardsOf nshards)
    (Shovel.map_dst_eq_destinations hperm hsorted)).trans hmade

end Merged

/-- **What has been added**, and that it suits the first sharding: the
conditions are those of the merge, of the sink and of the files, one after the
other. -/
structure Calls (V : Type) where
  /-- The shovels. -/
  config : Shovel.Config
  /-- The files that were there before. -/
  disk : ℕ → List (EdgeWithValue V)
  /-- The calls of `preprocessing_add_edge`. -/
  calls : List (EdgeWithValue V)
  /-- `nshards`. -/
  nshards : ℕ
  /-- There is a shard. -/
  nshards_pos : 0 < nshards
  /-- Ids are below `2 ^ 31`. -/
  vid : ∀ e ∈ Shovel.kept calls, e.src < 2 ^ 31 ∧ e.dst < 2 ^ 31
  /-- No shovel is empty, or short of memory, or left from before. -/
  separate : Shovel.Separate config disk calls
  /-- The sorts of the shovels look at enough bits. -/
  inOrder : ∀ i < Shovel.files config calls, Shovel.ShovelInOrder config disk calls i
  /-- The memory of the sink is enough. -/
  fits : Fits nshards (Shovel.destinations calls)
  /-- All shards are made. -/
  made : shardsOf nshards (Shovel.destinations calls) = nshards
  /-- A row of a file has fewer than `2 ^ 29` edges. -/
  degree : ∀ v, ((Shovel.kept calls).countP fun e => e.src = v) < 2 ^ 29

/-- **What has been added comes out of the files again.** Whatever fresh
memory holds, the merge hands the edges on, the sink cuts them into shards,
and, as long as an `int` counts the edges of each shard, the files of the
shards are those of a graph with the edges added, loops apart; and the
readers of the partitioner give them back. -/
theorem sharded_of_calls (x : Calls V) (m : Shovel.Memory V)
    (garbage : ℕ → ℕ → EdgeWithValue V) :
    ∃ bound, ∀ fuel, bound < fuel → ∃ out b,
      Shovel.writeShards x.config x.nshards m garbage x.disk x.calls fuel = some (out, .ok b)
      ∧ ((∀ l ∈ b.books.shards, l.length < 2 ^ 31) → ∀ mem : ℕ → EdgeWithValue V,
        ∃ g : PartitionWindows.ShardedGraph, g.part.intervals = b.books.intervals
          ∧ g.edges.Perm ((Shovel.kept x.calls).map EdgeWithValue.ends)
          ∧ ∀ p < x.nshards, ∃ shard : FinishShard.Shard V,
            shard.part = g.part ∧ shard.shard = p
            ∧ shard.edges = Whole.shardEdges b.books p
            ∧ shard.duplicateEdgeFilter = none ∧ shard.mem = mem
            ∧ shard.file = encode (g.file p) ∧ shard.RoundTrip) := by
  obtain ⟨bound, hrun⟩ := x.separate.conserves (Or.inr ⟨x.inOrder, x.fits⟩) x.nshards_pos m
    garbage
  refine ⟨bound, fun fuel hfuel => ?_⟩
  -- the merge hands on what was added, in the order of the destinations
  obtain ⟨out, b, hout, -⟩ := hrun fuel hfuel
  have hdst : ∀ e ∈ Shovel.kept x.calls, e.dst < 2 ^ 32 := fun e he =>
    (x.vid e he).2.trans (by norm_num)
  obtain ⟨hne, hperm, hsorted, hwhole⟩ :=
    whole_of_writeShards x.nshards_pos hdst x.separate x.inOrder x.made hout
  -- so that it is a job of the first sharding, with the ids and degrees of the calls
  obtain ⟨job, hjob⟩ : ∃ job, job = mergedJob x.nshards_pos hdst out hne hperm hsorted :=
    ⟨_, rfl⟩
  rw [← hjob] at hwhole
  have hedges : job.edges = out := hjob ▸ rfl
  have hkept : ∀ e ∈ job.edges, e ∈ Shovel.kept x.calls := fun e he =>
    hperm.subset (hedges ▸ he)
  have hvid : job.maxVertexId < 2 ^ 31 :=
    maxId_lt (Nat.two_pow_pos 31) fun e he => x.vid e (hkept e he)
  have hloop : ∀ e ∈ job.edges, e.src ≠ e.dst := fun e he =>
    of_decide_eq_true (List.mem_filter.mp (hkept e he)).2
  have hdegree : ∀ v, (job.edges.countP fun e => e.src = v) < 2 ^ 29 := fun v =>
    lt_of_eq_of_lt (hedges ▸ hperm.countP_eq _) (x.degree v)
  refine ⟨out, b, hout, fun hlength mem => ?_⟩
  refine ⟨hwhole.graph hvid hloop hlength mem job.nshards_pos, rfl,
    (hwhole.graph_edges hvid hloop hlength mem job.nshards_pos).trans
      ((hedges ▸ hperm).map _),
    fun p _ => ⟨hwhole.finish (Whole.vid_lt hvid) hloop mem p, rfl, rfl, rfl, rfl, rfl,
      hwhole.finish_file hvid hloop hlength mem job.nshards_pos p,
      hwhole.finish_roundTrip hvid hloop hlength mem hdegree p⟩⟩

/-- Seven edges and a loop, in shovels of four edges, for two shards. -/
def sevenCalls : Calls Unit where
  config := ⟨4, Nat.succ_pos 3, 2 ^ 20, 12, Nat.succ_pos 11⟩
  disk := fun _ => []
  calls := [⟨3, 1, ()⟩, ⟨0, 2, ()⟩, ⟨1, 1, ()⟩, ⟨2, 3, ()⟩, ⟨0, 1, ()⟩, ⟨3, 0, ()⟩,
    ⟨1, 3, ()⟩, ⟨2, 0, ()⟩]
  nshards := 2
  nshards_pos := Nat.two_pos
  vid := by decide
  separate := ⟨by decide, by decide, fun _ _ => Nat.zero_le _⟩
  inOrder := by
    intro i hi
    have hi : i < 2 := hi
    interval_cases i
    · exact .of_bounds (by decide) (Nat.zero_le _) (by decide) (by decide) (by decide)
    · exact .of_bounds (by decide) (Nat.zero_le _) (by decide) (by decide) (by decide)
  fits := Or.inl (by decide)
  made := by decide
  degree v := List.countP_le_length.trans_lt (by decide)

theorem sharded_of_calls_sevenCalls : ∃ bound, ∀ fuel, bound < fuel → ∃ out b,
    Shovel.writeShards sevenCalls.config 2 (Shovel.fallingMemory Unit)
        (fun _ _ => ⟨0, 0, ()⟩) (fun _ => []) sevenCalls.calls fuel = some (out, .ok b)
      ∧ ((∀ l ∈ b.books.shards, l.length < 2 ^ 31) → ∀ mem : ℕ → EdgeWithValue Unit,
        ∃ g : PartitionWindows.ShardedGraph, g.part.intervals = b.books.intervals
          ∧ g.edges.Perm ((Shovel.kept sevenCalls.calls).map EdgeWithValue.ends)
          ∧ ∀ p < 2, ∃ shard : FinishShard.Shard Unit,
            shard.part = g.part ∧ shard.shard = p
            ∧ shard.edges = Whole.shardEdges b.books p
            ∧ shard.duplicateEdgeFilter = none ∧ shard.mem = mem
            ∧ shard.file = encode (g.file p) ∧ shard.RoundTrip) :=
  sharded_of_calls sevenCalls (Shovel.fallingMemory Unit) fun _ _ => ⟨0, 0, ()⟩

end FirstSharding
