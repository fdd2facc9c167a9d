import Mathlib
import DpdkGraph.ShovelFiles
import DpdkGraph.Tiling

/-!
# The first sharding: cutting the merged edges into shards

The merge hands the edges to the sharder, meant to be in the order of their
destinations, and the sharder cuts the stream into shards as it comes. A
shard is full once it has its share of edges, and is cut off where the
destination changes next. The share of the next shard is what is left,
divided among the shards that are left; the last shard gets the rest, and
its interval reaches the largest id.

Here the edges of the shard under way are a list; `SinkCapacity` puts them
into the memory that the code has for them. How many shards are made depends
on the sequence of the destinations alone, and on nothing but when they
change: `cuts` counts it, for a stream in any order (`Counting.addAll`). For
a stream in order each shard ends at a change of the destination for good,
so the intervals tile the ids whatever the shares (`Job.shard_spec`). But
nothing makes a cut possible: when a shard takes the last destination, the
shards after it are never made.
-/

namespace FirstSharding

variable {V : Type}

/-- `determine_number_of_shards`, for a number that is asked for: the next
multiple of the number of machines, which must fit a `shard_t`. -/
def determineNumberOfShards (requested machines : ℕ) : Option ℕ :=
  let nshards := (requested + machines - 1) / machines * machines
  if nshards ≤ 255 ∧ 0 < nshards then some nshards else none

/-- What the sink is told before the merge begins. -/
structure Setup where
  /-- `nshards`. -/
  nshards : ℕ
  /-- `shoveled_edges`. -/
  shoveledEdges : ℕ
  /-- `max_vertex_id`. -/
  maxVertexId : ℕ

/-- **The state of the merge's sink**, without its memory: the shards that are
finished, and the one that is being filled. -/
structure Sink (V : Type) where
  /-- `intervals`. -/
  intervals : List (ℕ × ℕ)
  /-- The edges that `finish_shard` got, shard by shard. -/
  shards : List (List (EdgeWithValue V))
  /-- `shardnum`. -/
  shardnum : ℕ
  /-- `sinkbuffer`, as far as it is filled. -/
  sinkbuffer : List (EdgeWithValue V)
  /-- `edges_per_shard`. -/
  edgesPerShard : ℕ
  /-- `sharded_edges`. -/
  shardedEdges : ℕ
  /-- `prevvid`. -/
  prevvid : ℕ
  /-- `this_interval_start`. -/
  thisIntervalStart : ℕ

/-- The edge goes to the shard under way. -/
def Sink.put (s : Sink V) (e : EdgeWithValue V) : Sink V :=
  { s with
    sinkbuffer := s.sinkbuffer ++ [e]
    prevvid := e.dst
    shardedEdges := s.shardedEdges + 1 }

namespace Setup

variable (x : Setup)

/-- The sink as `write_shards` sets it up. -/
def start : Sink V :=
  ⟨[], [], 0, [], x.shoveledEdges / x.nshards + 1, 0, 2 ^ 32 - 1, 0⟩

/-- The shard under way is finished. -/
def cut (s : Sink V) : Sink V :=
  { s with
    intervals := s.intervals ++ [(s.thisIntervalStart,
      if s.shardnum = x.nshards - 1 then x.maxVertexId else s.prevvid)]
    thisIntervalStart := (s.prevvid + 1) % 2 ^ 32
    shards := s.shards ++ [s.sinkbuffer]
    shardnum := s.shardnum + 1
    sinkbuffer := [] }

/-- What is left is divided among the shards that are left. -/
def rebudget (s : Sink V) : Sink V :=
  if s.shardnum < x.nshards then
    { s with
      edgesPerShard := (x.shoveledEdges - s.shardedEdges) / (x.nshards - s.shardnum) }
  else s

/-- **`createnextshard`**; a shard too many fails an assertion. -/
def createnextshard (s : Sink V) : Option (Sink V) :=
  if s.shardnum < x.nshards then some (x.rebudget (x.cut s)) else none

/-- **`add`**: a shard that has its share is cut off where the destination
changes. -/
def add (s : Sink V) (e : EdgeWithValue V) : Option (Sink V) :=
  if s.edgesPerShard ≤ s.sinkbuffer.length ∧ e.dst ≠ s.prevvid then
    (x.createnextshard s).map fun s => s.put e
  else some (s.put e)

/-- The calls of `add`. -/
def addAll : Sink V → List (EdgeWithValue V) → Option (Sink V)
  | s, [] => some s
  | s, e :: es => (x.add s e).bind fun s => addAll s es

/-- **`done`**: the last shard, and the assertions on the numbers of edges
and of shards. -/
def done (s : Sink V) : Option (Sink V) :=
  (x.createnextshard s).bind fun s =>
    if x.shoveledEdges = s.shardedEdges ∧ s.shardnum ≤ x.nshards then some s else none

/-- The whole sharding of the edges that the merge hands on. -/
def shard (edges : List (EdgeWithValue V)) : Option (Sink V) :=
  (x.addAll x.start edges).bind x.done

end Setup

/-! ## Cuts -/

/-- What is left of the destinations after a shard has taken `share` more,
and then the rest of its last one; `prev` is the last it has taken. -/
def afterShare : ℕ → ℕ → List ℕ → List ℕ
  | _, _, [] => []
  | 0, prev, d :: ds => if d ≠ prev then d :: ds else afterShare 0 prev ds
  | share + 1, _, d :: ds => afterShare share d ds

/-- **How often the destinations are cut**, `k` times at most: the shard
under way, whose last destination is `prev`, takes `share` more of them, and
each shard after it what is left divided by the number of shards left, but
one at least. -/
def cuts : ℕ → ℕ → ℕ → List ℕ → ℕ
  | 0, _, _, _ => 0
  | k + 1, share, prev, ds =>
    match afterShare share prev ds with
    | [] => 0
    | d :: rest => cuts k ((rest.length + 1) / (k + 1) - 1) d rest + 1

/-- **How many shards are made** of destinations, for `nshards` that are to
be made; the first takes one edge more than its part. -/
def shardsOf (nshards : ℕ) : List ℕ → ℕ
  | [] => 1
  | d :: ds => cuts (nshards - 1) ((ds.length + 1) / nshards) d ds + 1

/-- A destination that the shard under way takes. -/
theorem afterShare_cons_of_stay {share prev d : ℕ} {ds : List ℕ}
    (h : ¬(share = 0 ∧ d ≠ prev)) :
    afterShare share prev (d :: ds) = afterShare (share - 1) d ds := by
  cases share with
  | zero =>
    have hd : d = prev := by
      by_contra hne
      exact h ⟨rfl, hne⟩
    rw [afterShare, if_neg (not_not.mpr hd), hd]
  | succ share => rfl

/-- A destination that goes to the shard under way. -/
theorem cuts_cons_of_stay {k share prev d : ℕ} {ds : List ℕ}
    (h : ¬(share = 0 ∧ d ≠ prev)) :
    cuts k share prev (d :: ds) = cuts k (share - 1) d ds := by
  cases k with
  | zero => rfl
  | succ k =>
    unfold cuts
    rw [afterShare_cons_of_stay h]

/-- A destination before which the shard is cut off. -/
theorem cuts_cons_of_cut {k prev d : ℕ} {ds : List ℕ} (h : d ≠ prev) :
    cuts (k + 1) 0 prev (d :: ds) = cuts k ((ds.length + 1) / (k + 1) - 1) d ds + 1 := by
  have hafter : afterShare 0 prev (d :: ds) = d :: ds := by
    rw [afterShare, if_pos h]
  rw [cuts, hafter]

/-- At the end there are no more cuts. -/
theorem cuts_nil {k share prev : ℕ} : cuts k share prev [] = 0 := by
  cases k with
  | zero => rfl
  | succ k =>
    have hafter : afterShare share prev [] = [] := by cases share <;> rfl
    unfold cuts
    rw [hafter]

/-! ## The run, in any order -/

/-- **The sharding under way**, as far as numbers go, `rest` being the edges
still to come. -/
structure Counting (x : Setup) (s : Sink V) (rest : List (EdgeWithValue V)) : Prop where
  /-- The shard under way is not one too many. -/
  bound : s.shardnum < x.nshards
  /-- The edges so far are counted. -/
  sharded : s.shardedEdges + rest.length = x.shoveledEdges
  /-- The last shard has room for the rest. -/
  room : s.shardnum + 1 = x.nshards →
    s.sinkbuffer.length + rest.length ≤ s.edgesPerShard

section Counting

variable {x : Setup} {s : Sink V} {rest : List (EdgeWithValue V)} {e : EdgeWithValue V}

/-- The sink once a shard has been cut off with `left` edges to come. -/
def Setup.afterCut (x : Setup) (s : Sink V) (left : ℕ) : Sink V :=
  { x.cut s with edgesPerShard := left / (x.nshards - (s.shardnum + 1)) }

/-- The edge goes to the shard under way. -/
theorem Counting.stay (h : Counting x s (e :: rest)) : Counting x (s.put e) rest where
  bound := h.bound
  sharded := by
    have := h.sharded
    rw [List.length_cons] at this
    show s.shardedEdges + 1 + rest.length = _
    omega
  room hlast := by
    have := h.room hlast
    rw [List.length_cons] at this
    show (s.sinkbuffer ++ [e]).length + rest.length ≤ s.edgesPerShard
    rw [List.length_append, List.length_singleton]
    omega

/-- The last shard is not cut off. -/
theorem Counting.not_last (h : Counting x s (e :: rest))
    (hfull : s.edgesPerShard ≤ s.sinkbuffer.length) : s.shardnum + 1 < x.nshards := by
  have := h.bound
  have hroom := h.room
  rw [List.length_cons] at hroom
  omega

/-- **The shard is cut off**, and the edge starts the next one: the edges that
are left are shared among the shards that are left. -/
theorem Counting.cut (h : Counting x s (e :: rest))
    (hfull : s.edgesPerShard ≤ s.sinkbuffer.length) :
    x.createnextshard s = some (x.afterCut s (rest.length + 1))
      ∧ Counting x ((x.afterCut s (rest.length + 1)).put e) rest := by
  have hnext := h.not_last hfull
  have hsharded := h.sharded
  rw [List.length_cons] at hsharded
  have hshare : x.shoveledEdges - s.shardedEdges = rest.length + 1 := by omega
  have hrebudget : x.rebudget (x.cut s) = x.afterCut s (rest.length + 1) := by
    unfold Setup.afterCut
    rw [← hshare]
    exact if_pos hnext
  refine ⟨(if_pos h.bound).trans (congrArg some hrebudget), hnext, ?_, fun hlast => ?_⟩
  · show s.shardedEdges + 1 + rest.length = _
    omega
  · -- the last share is all that is left
    have hone : x.nshards - (s.shardnum + 1) = 1 := by
      have : s.shardnum + 1 + 1 = x.nshards := hlast
      omega
    show 1 + rest.length ≤ (rest.length + 1) / (x.nshards - (s.shardnum + 1))
    rw [hone, Nat.div_one, Nat.add_comm]

/-- **The calls of `add`** go through, and the shards they make are counted
by the cuts. -/
theorem Counting.addAll (rest : List (EdgeWithValue V)) :
    ∀ {s : Sink V}, Counting x s rest → ∃ s', x.addAll s rest = some s'
      ∧ Counting x s' [] ∧ s'.shardnum = s.shardnum
        + cuts (x.nshards - (s.shardnum + 1)) (s.edgesPerShard - s.sinkbuffer.length)
          s.prevvid (rest.map EdgeWithValue.dst) := by
  induction rest with
  | nil =>
    intro s h
    refine ⟨s, rfl, h, ?_⟩
    rw [List.map_nil, cuts_nil, Nat.add_zero]
  | cons e rest ih =>
    intro s h
    rw [List.map_cons, Setup.addAll, Setup.add]
    by_cases hcut : s.edgesPerShard ≤ s.sinkbuffer.length ∧ e.dst ≠ s.prevvid
    · obtain ⟨hcreate, hnext⟩ := h.cut hcut.1
      obtain ⟨s', hrun, h', hnum⟩ := ih hnext
      have hlast := h.not_last hcut.1
      refine ⟨s', ?_, h', hnum.trans ?_⟩
      · rw [if_pos hcut, hcreate]
        exact hrun
      · obtain ⟨k, hk⟩ : ∃ k, x.nshards - (s.shardnum + 1) = k + 1 :=
          ⟨x.nshards - (s.shardnum + 1) - 1, by omega⟩
        have hk' : x.nshards - (s.shardnum + 1 + 1) = k := by omega
        rw [hk, Nat.sub_eq_zero_of_le hcut.1, cuts_cons_of_cut hcut.2, List.length_map]
        show s.shardnum + 1 + cuts (x.nshards - (s.shardnum + 1 + 1))
          ((rest.length + 1) / (x.nshards - (s.shardnum + 1)) - 1) e.dst _ = _
        rw [hk, hk', Nat.add_assoc, Nat.add_comm 1]
    · obtain ⟨s', hrun, h', hnum⟩ := ih h.stay
      refine ⟨s', ?_, h', hnum.trans ?_⟩
      · rw [if_neg hcut]
        exact hrun
      · rw [cuts_cons_of_stay fun hc => hcut ⟨by omega, hc.2⟩]
        show s.shardnum + cuts _ (s.edgesPerShard - (s.sinkbuffer ++ [e]).length) _ _ = _
        rw [List.length_append, List.length_singleton, Nat.sub_add_eq]
        rfl

/-- The first edge starts the first shard. -/
theorem Setup.add_start (x : Setup) (e : EdgeWithValue V) :
    x.add x.start e = some ((x.start).put e) :=
  if_neg fun h => absurd h.1 (Nat.not_succ_le_zero _)

theorem Setup.start_counting {edges : List (EdgeWithValue V)} (hpos : 0 < x.nshards)
    (hcount : x.shoveledEdges = edges.length) (he : edges = e :: rest) :
    Counting x (x.start.put e) rest where
  bound := hpos
  sharded := by
    rw [hcount, he, List.length_cons]
    exact Nat.add_comm _ _
  room hlast := by
    have hone : x.nshards = 1 := hlast.symm
    show 1 + rest.length ≤ x.shoveledEdges / x.nshards + 1
    rw [hone, Nat.div_one, hcount, he, List.length_cons]
    omega

/-- The new share does not touch what is finished. -/
theorem Setup.rebudget_eq (x : Setup) (s : Sink V) :
    (x.rebudget s).intervals = s.intervals ∧ (x.rebudget s).shards = s.shards
      ∧ (x.rebudget s).shardnum = s.shardnum
      ∧ (x.rebudget s).shardedEdges = s.shardedEdges := by
  unfold rebudget
  split <;> exact ⟨rfl, rfl, rfl, rfl⟩

/-- **`done` finishes the last shard.** -/
theorem Counting.done (h : Counting x s []) :
    ∃ s', x.done s = some s' ∧ s'.intervals = (x.cut s).intervals
      ∧ s'.shards = (x.cut s).shards ∧ s'.shardnum = s.shardnum + 1 := by
  obtain ⟨hintervals, hshards, hnum, hsharded⟩ := x.rebudget_eq (x.cut s)
  have hcount : x.shoveledEdges = (x.rebudget (x.cut s)).shardedEdges :=
    h.sharded.symm.trans hsharded.symm
  have hle : (x.rebudget (x.cut s)).shardnum ≤ x.nshards := hnum.trans_le h.bound
  refine ⟨x.rebudget (x.cut s), ?_, hintervals, hshards, hnum⟩
  unfold Setup.done Setup.createnextshard
  rw [if_pos h.bound, Option.bind_some, if_pos ⟨hcount, hle⟩]

end Counting

/-! ## The run, in the order of the destinations -/

/-- **What the sharding is given**: a number of shards and the edges in the
order of their destinations. -/
structure Job (V : Type) where
  /-- `nshards`. -/
  nshards : ℕ
  /-- There is a shard at least. -/
  nshards_pos : 0 < nshards
  /-- The edges that the merge hands on. -/
  edges : List (EdgeWithValue V)
  /-- There is an edge at least. -/
  edges_ne : edges ≠ []
  /-- They come in the order of their destinations. -/
  sorted : edges.Pairwise fun a b => a.dst ≤ b.dst
  /-- Ids fit a `vid_t`. -/
  vid : ∀ e ∈ edges, e.dst < 2 ^ 32

namespace Job

variable (x : Job V)

/-- `max_vertex_id`. -/
def maxVertexId : ℕ := Shovel.maxId x.edges

/-- All edges have been shoveled. -/
def setup : Setup := ⟨x.nshards, x.edges.length, x.maxVertexId⟩

/-- How many shards are made. -/
def shardsMade : ℕ := shardsOf x.nshards (x.edges.map EdgeWithValue.dst)

/-- The last destination. -/
def lastId : ℕ := (x.edges.getLast x.edges_ne).dst

/-- How far the intervals reach: the last of the shards that are asked for
reaches the largest id. -/
def reach : ℕ := if x.shardsMade = x.nshards then x.maxVertexId else x.lastId

end Job

/-- **The sharding of a job under way**: where the shards and their intervals
stand when some of the edges are still to come. -/
structure Cutting (x : Job V) (s : Sink V) (rest : List (EdgeWithValue V)) : Prop
    extends Counting x.setup s rest where
  /-- The finished shards, the one under way and the rest are the edges. -/
  account : s.shards.flatten ++ s.sinkbuffer ++ rest = x.edges
  /-- The shard under way has an edge, the last of which is remembered. -/
  prevvid : ∃ init e, s.sinkbuffer = init ++ [e] ∧ e.dst = s.prevvid
  /-- Each finished shard has an interval. -/
  shardnum : s.intervals.length = s.shardnum
  /-- The intervals tile the ids below the shard under way. -/
  tiles : Tiles 0 s.intervals s.thisIntervalStart
  /-- Its edges lie above them. -/
  above : ∀ e ∈ s.sinkbuffer, s.thisIntervalStart ≤ e.dst
  /-- The finished shards have edges of their intervals only. -/
  holds : List.Forall₂ (fun shard iv => ∀ e ∈ shard, Within iv e.dst) s.shards
    s.intervals
  /-- None of them is empty. -/
  nonempty : ∀ l ∈ s.shards, l ≠ []

section Run

variable {x : Job V} {s : Sink V} {rest : List (EdgeWithValue V)} {e : EdgeWithValue V}

/-- The edges so far do not lie above those to come. -/
theorem Cutting.le {e' : EdgeWithValue V} (h : Cutting x s rest)
    (he : e ∈ s.sinkbuffer) (he' : e' ∈ rest) : e.dst ≤ e'.dst := by
  have hsorted := x.sorted
  rw [← h.account] at hsorted
  exact (List.pairwise_append.mp hsorted).2.2 e (List.mem_append_right _ he) e' he'

/-- Nor above the last one. -/
theorem Cutting.le_prevvid (h : Cutting x s rest) (he : e ∈ s.sinkbuffer) :
    e.dst ≤ s.prevvid := by
  obtain ⟨init, last, hsink, hlast⟩ := h.prevvid
  have hsorted := x.sorted
  rw [← h.account, hsink] at hsorted
  have hsink' := (List.pairwise_append.mp (List.pairwise_append.mp hsorted).1).2.1
  rw [hsink] at he
  rcases List.mem_append.mp he with he | he
  · exact hlast ▸ (List.pairwise_append.mp hsink').2.2 e he last
      (List.mem_singleton.mpr rfl)
  · rw [List.mem_singleton.mp he]
    exact hlast.le

/-- The last destination is that of an edge of the shard under way. -/
theorem Cutting.exists_last (h : Cutting x s rest) :
    ∃ last ∈ s.sinkbuffer, last.dst = s.prevvid := by
  obtain ⟨init, last, hsink, hlast⟩ := h.prevvid
  refine ⟨last, ?_, hlast⟩
  rw [hsink]
  exact List.mem_append_right _ (List.mem_singleton.mpr rfl)

theorem Cutting.start_le (h : Cutting x s rest) : s.thisIntervalStart ≤ s.prevvid := by
  obtain ⟨last, hmem, hlast⟩ := h.exists_last
  exact hlast ▸ h.above last hmem

/-- The edge goes to the shard under way. -/
theorem Cutting.stay (h : Cutting x s (e :: rest)) : Cutting x (s.put e) rest where
  toCounting := h.toCounting.stay
  account := by
    rw [← h.account]
    show s.shards.flatten ++ (s.sinkbuffer ++ [e]) ++ rest = _
    rw [List.append_assoc, List.append_assoc, List.append_assoc]
    rfl
  prevvid := ⟨s.sinkbuffer, e, rfl, rfl⟩
  shardnum := h.shardnum
  tiles := h.tiles
  above e' he' := by
    rcases List.mem_append.mp he' with he' | he'
    · exact h.above e' he'
    · rw [List.mem_singleton.mp he']
      obtain ⟨last, hmem, -⟩ := h.exists_last
      exact (h.above last hmem).trans (h.le hmem List.mem_cons_self)
  holds := h.holds
  nonempty := h.nonempty

/-- **The shard is cut off**, and the edge starts the next one. The interval
ends at the last destination, and the new one begins behind it. -/
theorem Cutting.cut (h : Cutting x s (e :: rest))
    (hfull : s.edgesPerShard ≤ s.sinkbuffer.length) (hne : e.dst ≠ s.prevvid) :
    Cutting x ((x.setup.afterCut s (rest.length + 1)).put e) rest := by
  have hnext : s.shardnum + 1 < x.nshards := h.toCounting.not_last hfull
  obtain ⟨last, hmem, hlast⟩ := h.exists_last
  -- the destination is larger than the last one, which therefore is no maximum
  have hlt : s.prevvid < e.dst :=
    lt_of_le_of_ne (hlast ▸ h.le hmem List.mem_cons_self) (Ne.symm hne)
  have hvid : e.dst < 2 ^ 32 := by
    refine x.vid e ?_
    rw [← h.account]
    exact List.mem_append_right _ List.mem_cons_self
  have hstart : (s.prevvid + 1) % 2 ^ 32 = s.prevvid + 1 :=
    Nat.mod_eq_of_lt (by omega)
  have hinterval : (if s.shardnum = x.nshards - 1 then x.maxVertexId else s.prevvid)
      = s.prevvid := if_neg (by omega)
  refine ⟨(h.toCounting.cut hfull).2, ?_, ⟨[], e, rfl, rfl⟩, ?_, ?_, ?_, ?_, ?_⟩
  · show (s.shards ++ [s.sinkbuffer]).flatten ++ ([] ++ [e]) ++ rest = x.edges
    rw [← h.account, List.flatten_append, List.flatten_singleton, List.nil_append,
      List.append_assoc]
    rfl
  · show (s.intervals ++ [_]).length = s.shardnum + 1
    rw [List.length_append, h.shardnum]
    rfl
  · show Tiles 0 (s.intervals ++ [(s.thisIntervalStart,
        if s.shardnum = x.nshards - 1 then x.maxVertexId else s.prevvid)])
      ((s.prevvid + 1) % 2 ^ 32)
    rw [hinterval, hstart]
    exact h.tiles.append (h.start_le.trans (Nat.le_succ _))
  · intro e' he'
    rw [List.mem_singleton.mp he']
    show (s.prevvid + 1) % 2 ^ 32 ≤ e.dst
    rw [hstart]
    exact hlt
  · show List.Forall₂ _ (s.shards ++ [s.sinkbuffer]) (s.intervals ++ [(_,
      if s.shardnum = x.nshards - 1 then x.maxVertexId else s.prevvid)])
    rw [hinterval]
    refine List.rel_append h.holds (List.Forall₂.cons (fun e' he' => ?_) List.Forall₂.nil)
    exact ⟨h.above e' he', h.le_prevvid he'⟩
  · intro l hl
    rcases List.mem_append.mp hl with hl | hl
    · exact h.nonempty l hl
    · rw [List.mem_singleton.mp hl]
      exact List.ne_nil_of_mem hmem

/-- **The calls of `add`** keep the order. -/
theorem Cutting.addAll (rest : List (EdgeWithValue V)) :
    ∀ {s s' : Sink V}, Cutting x s rest → x.setup.addAll s rest = some s' →
      Cutting x s' [] := by
  induction rest with
  | nil =>
    intro s s' h hs
    obtain rfl := Option.some.inj hs
    exact h
  | cons e rest ih =>
    intro s s' h hs
    rw [Setup.addAll, Setup.add] at hs
    by_cases hcut : s.edgesPerShard ≤ s.sinkbuffer.length ∧ e.dst ≠ s.prevvid
    · rw [if_pos hcut, (h.toCounting.cut hcut.1).1] at hs
      exact ih (h.cut hcut.1 hcut.2) hs
    · rw [if_neg hcut] at hs
      exact ih h.stay hs

end Run

/-- No id of an edge is larger than the largest id. -/
theorem le_maxId {E : List (EdgeWithValue V)} {e : EdgeWithValue V} (he : e ∈ E) :
    e.src ≤ Shovel.maxId E ∧ e.dst ≤ Shovel.maxId E := by
  induction E using List.reverseRecOn with
  | nil => exact absurd he List.not_mem_nil
  | append_singleton E a ih =>
    rw [Shovel.maxId_append]
    rcases List.mem_append.mp he with he | he
    · exact ⟨(ih he).1.trans (le_max_right _ _), (ih he).2.trans (le_max_right _ _)⟩
    · rw [List.mem_singleton.mp he]
      exact ⟨(le_max_left _ _).trans (le_max_left _ _),
        (le_max_right _ _).trans (le_max_left _ _)⟩

/-- The first edge of a job starts its first shard. -/
theorem Job.start_cutting (x : Job V) {e : EdgeWithValue V}
    {rest : List (EdgeWithValue V)} (he : x.edges = e :: rest) :
    Cutting x (x.setup.start.put e) rest where
  toCounting := Setup.start_counting x.nshards_pos rfl he
  account := he.symm
  prevvid := ⟨[], e, rfl, rfl⟩
  shardnum := rfl
  tiles := rfl
  above _ _ := Nat.zero_le _
  holds := List.Forall₂.nil
  nonempty _ hl := absurd hl List.not_mem_nil

/-- **The edges have been cut into shards.** There may be fewer than were asked
for, and the last may end before the largest id. -/
structure Split (x : Job V) (s : Sink V) : Prop where
  /-- The shards are the edges, in their order. -/
  edges : s.shards.flatten = x.edges
  /-- How many intervals there are. -/
  count : s.intervals.length = x.shardsMade
  /-- They tile the ids, as far as they reach. -/
  tiles : Tiles 0 s.intervals (x.reach + 1)
  /-- The edges of a shard have their destinations in its interval. -/
  holds : List.Forall₂ (fun shard iv => ∀ e ∈ shard, Within iv e.dst) s.shards s.intervals
  /-- No shard is empty. -/
  nonempty : ∀ l ∈ s.shards, l ≠ []

/-- **The last shard is finished**: all edges are in shards, and the ids in
intervals. -/
theorem Cutting.split {x : Job V} {s s' : Sink V} (h : Cutting x s [])
    (hnum : s.shardnum + 1 = x.shardsMade) (hintervals : s'.intervals = (x.setup.cut s).intervals)
    (hshards : s'.shards = (x.setup.cut s).shards) : Split x s' := by
  obtain ⟨init, last, hsink, hlast⟩ := h.prevvid
  have hmem : last ∈ s.sinkbuffer := by
    rw [hsink]
    exact List.mem_append_right _ (List.mem_singleton.mpr rfl)
  -- the last edge of the sink is the last one added
  have hlastId : x.lastId = s.prevvid := by
    have haccount := h.account
    rw [hsink, List.append_nil, ← List.append_assoc] at haccount
    unfold Job.lastId
    rw [← hlast]
    exact congrArg EdgeWithValue.dst
      ((List.getLast_congr _ (by simp) haccount.symm).trans
        (List.getLast_append_singleton _))
  -- the interval ends with the largest id if all shards are made, and else with the
  -- last destination
  have hreach : (if s.shardnum = x.nshards - 1 then x.maxVertexId else s.prevvid)
      = x.reach := by
    have := x.nshards_pos
    unfold Job.reach
    rw [← hlastId, ← hnum]
    exact if_congr (by omega) rfl rfl
  have hle : s.prevvid ≤ x.reach := by
    rw [← hreach]
    split
    · rw [← hlastId]
      exact (le_maxId (List.getLast_mem _)).2
    · exact le_rfl
  -- so that one interval is added, from where the last one ended
  have hcut : s'.intervals = s.intervals ++ [(s.thisIntervalStart, x.reach)] := by
    rw [hintervals, ← hreach]
    rfl
  refine ⟨?_, ?_, ?_, ?_, ?_⟩
  · rw [← h.account, hshards, List.append_nil]
    exact List.flatten_append.trans (congrArg _ List.flatten_singleton)
  · rw [hcut, List.length_append, h.shardnum, ← hnum]
    rfl
  · rw [hcut]
    exact h.tiles.append (h.start_le.trans (hle.trans (Nat.le_succ _)))
  · rw [hcut, hshards]
    refine List.rel_append h.holds (List.Forall₂.cons (fun e he => ?_) List.Forall₂.nil)
    exact ⟨h.above e he, (h.le_prevvid he).trans hle⟩
  · rw [hshards]
    intro l hl
    rcases List.mem_append.mp hl with hl | hl
    · exact h.nonempty l hl
    · rw [List.mem_singleton.mp hl]
      exact List.ne_nil_of_mem hmem

/-- **The sharding completes**, with an interval for each shard it makes. -/
theorem Job.shard_spec (x : Job V) : ∃ s, x.setup.shard x.edges = some s ∧ Split x s := by
  obtain ⟨e, rest, he⟩ := List.exists_cons_of_ne_nil x.edges_ne
  have hcutting := x.start_cutting he
  obtain ⟨s₁, hrun, hend, hnum⟩ := Counting.addAll rest hcutting.toCounting
  obtain ⟨s, hdone, hintervals, hshards, -⟩ := hend.done
  have hmade : s₁.shardnum + 1 = x.shardsMade := by
    rw [hnum]
    unfold Job.shardsMade
    rw [he, List.map_cons]
    show 0 + cuts (x.nshards - (0 + 1)) (x.edges.length / x.nshards + 1 - 1) e.dst _ + 1 = _
    rw [Nat.add_sub_cancel, Nat.zero_add, Nat.zero_add, he, shardsOf, List.length_cons,
      List.length_map]
  refine ⟨s, ?_, (Cutting.addAll rest hcutting hrun).split hmade hintervals hshards⟩
  unfold Setup.shard
  rw [he, Setup.addAll, x.setup.add_start, Option.bind_some, hrun, Option.bind_some, hdone]

end FirstSharding
