import DpdkGraph.SinkCapacity

/-!
# The intervals of the first sharding

A number of shards is asked for. `determine_number_of_shards` rounds it up
to a multiple of the number of machines, the edges go into the memory of the
sink one by one, and each shard that is cut off leaves an interval. The law
is that in the end there is an interval for each shard that was asked for,
and that they tile the ids (`IntervalLaw`).

Nothing on the way makes that so. The memory can be too small, the number
can be rounded up, or be too large for a `shard_t`, and the destinations can
leave nothing for the last shards. What holds whenever the sharding
completes is that the intervals tile the ids as far as they reach (`Split`);
so the law comes down to counting the cuts, and to where the last interval
ends (`intervalLaw_iff`).
-/

namespace FirstSharding

variable {V : Type}

/-! ## The number of shards -/

/-- The number that is asked for, rounded up to a multiple of the machines. -/
def roundedUp (requested machines : ℕ) : ℕ :=
  (requested + machines - 1) / machines * machines

theorem roundedUp_pos {requested machines : ℕ} (hpos : 0 < requested)
    (hmach : 0 < machines) : 0 < roundedUp requested machines := by
  refine Nat.mul_pos (Nat.div_pos ?_ hmach) hmach
  omega

/-- It is the number of shards if that fits a `shard_t`. -/
theorem determineNumberOfShards_eq {requested machines n : ℕ} (hpos : 0 < requested)
    (hmach : 0 < machines) :
    determineNumberOfShards requested machines = some n
      ↔ roundedUp requested machines ≤ 255 ∧ n = roundedUp requested machines := by
  have hround := roundedUp_pos hpos hmach
  show (if roundedUp requested machines ≤ 255 ∧ 0 < roundedUp requested machines then
    some (roundedUp requested machines) else none) = some n ↔ _
  split
  · next h =>
    rw [Option.some.injEq]
    exact ⟨fun hn => ⟨h.1, hn.symm⟩, fun hn => hn.2.symm⟩
  · next h => exact iff_of_false (by simp) fun hn => h ⟨hn.1, hround⟩

/-! ## A request -/

/-- **What the first sharding is asked for**: a number of shards, as it is given
on the command line, and the stream of edges that the merge hands on. -/
structure Request (V : Type) where
  /-- `nshards_string`, a number. -/
  requested : ℕ
  /-- It is one at least. -/
  requested_pos : 0 < requested
  /-- The machines, with this one. -/
  machines : ℕ
  /-- This one is there. -/
  machines_pos : 0 < machines
  /-- The edges that the merge hands on. -/
  edges : List (EdgeWithValue V)
  /-- There is an edge at least. -/
  edges_ne : edges ≠ []
  /-- They come in the order of their destinations. -/
  sorted : edges.Pairwise fun a b => a.dst ≤ b.dst
  /-- Ids fit a `vid_t`. -/
  vid : ∀ e ∈ edges, e.dst < 2 ^ 32
  /-- What the memory of a shard has in it before it is filled. -/
  garbage : ℕ → ℕ → EdgeWithValue V

/-- **The law of the intervals**: there are `n` of them, contiguous and
pairwise disjoint, they cover the ids up to the largest, and each shard has
edges of its interval only. -/
structure IntervalLaw (n maxVertexId : ℕ) (s : Sink V) : Prop where
  /-- There are as many intervals as shards were asked for. -/
  count : s.intervals.length = n
  /-- Each starts behind the one before it. -/
  contiguous : s.intervals.IsChain fun iv iv' => iv'.1 = iv.2 + 1
  /-- No id lies in two. -/
  disjoint : s.intervals.Pairwise fun iv iv' => ∀ v, ¬(Within iv v ∧ Within iv' v)
  /-- Each id lies in one. -/
  cover : ∀ v, v ≤ maxVertexId → ∃ iv ∈ s.intervals, Within iv v
  /-- The edges of a shard have their destinations in its interval. -/
  holds : List.Forall₂ (fun shard iv => ∀ e ∈ shard, Within iv e.dst) s.shards
    s.intervals

namespace Request

variable (x : Request V)

/-- `max_vertex_id`. -/
def maxVertexId : ℕ := Shovel.maxId x.edges

/-- The sink for a number of shards. -/
def memory (nshards : ℕ) : MemorySetup V :=
  ⟨⟨nshards, x.edges.length, x.maxVertexId⟩, x.garbage⟩

/-- **The first sharding**: the number of shards is determined, and the edges
are cut. -/
def run : Option (Except Fault (MemorySink V)) :=
  (determineNumberOfShards x.requested x.machines).map fun nshards =>
    (x.memory nshards).shard x.edges

/-- It completes, and the law holds. -/
def Lawful : Prop :=
  ∃ b, x.run = some (.ok b) ∧ IntervalLaw x.requested x.maxVertexId b.books

/-- The number of shards to be made. -/
def nshards : ℕ := roundedUp x.requested x.machines

/-- How many of them are made. -/
def shardsMade : ℕ := shardsOf x.nshards (x.edges.map EdgeWithValue.dst)

/-- The last destination. -/
def lastId : ℕ := (x.edges.getLast x.edges_ne).dst

/-- **The requests that the law holds for.** Each condition excludes one way in
which the sharding ends badly, or with intervals other than those asked for. -/
structure Sound : Prop where
  /-- The number fits a `shard_t`. -/
  few : x.nshards ≤ 255
  /-- The memory of the sink is enough. -/
  fits : Fits x.nshards (x.edges.map EdgeWithValue.dst)
  /-- As many shards are made as were asked for. -/
  made : x.shardsMade = x.requested
  /-- The last of them reaches the largest id: it is the last that is to be
  made, or the largest id is the last destination. -/
  reaches : x.requested = x.nshards ∨ x.lastId = x.maxVertexId

/-- The job of the sharding. -/
def job : MemoryJob V where
  nshards := x.nshards
  nshards_pos := roundedUp_pos x.requested_pos x.machines_pos
  edges := x.edges
  edges_ne := x.edges_ne
  sorted := x.sorted
  vid := x.vid
  garbage := x.garbage

variable {x}

/-- **Where the sharding completes**, the edges are split. -/
theorem exists_run (hfew : x.nshards ≤ 255)
    (hfits : Fits x.nshards (x.edges.map EdgeWithValue.dst)) :
    ∃ b, x.run = some (.ok b) ∧ Split x.job.toJob b.books := by
  obtain ⟨b, s, hb, hs, hbooks⟩ := MemorySetup.shard_of_fits (x := x.memory x.nshards)
    x.job.nshards_pos rfl x.edges_ne hfits
  obtain ⟨s', hs', hsplit⟩ := x.job.toJob.shard_spec
  have hs : x.job.setup.shard x.job.edges = some s := hs
  obtain rfl := Option.some.inj (hs'.symm.trans hs)
  refine ⟨b, ?_, hbooks ▸ hsplit⟩
  unfold run
  rw [(determineNumberOfShards_eq x.requested_pos x.machines_pos).mpr ⟨hfew, rfl⟩]
  exact congrArg some hb

end Request

end FirstSharding
