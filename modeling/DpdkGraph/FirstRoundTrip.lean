import Mathlib
import DpdkGraph.ShardReaders
import DpdkGraph.FinishShard
import DpdkGraph.SlidingShard
import DpdkGraph.PartitionWindows

/-!
# The shards of the first sharding are read back

The partitioner reads an adjacency file of the first sharding in two ways:
the memory shard of a window goes through the whole file and gives the
edges at the vertices of the window (`load_vertices`), and a sliding shard
streams on through its window (`read_next_vertices`). Over consecutive
windows, wherever the first one starts, each vertex should get the edges of
the shard that it has.

Gaps between sources and out-degrees are no obstacle at the borders of a
byte. The obstacle are the `int`s: the windows have to lie below the vertex
`2 ^ 31`, the sort has to bring the sources in order although it gets the
number of edges as an `int`, and a row that a sliding shard passes over
must take less than `2 ^ 31` bytes (`roundTrip_iff_fits`).
-/

namespace MemoryShard

open SparseRows
open Reshard (toInt32 readZeros encode_skip)
open PartitionWindows (LoadEvent loadRow insOf edgeEvents)

/-- The destinations of a row whose first byte is `ns`; the count is an
`int`, and counting down from the least one has no meaning. -/
def readRow (ns : UInt8) (ptr : List UInt8) : Option (List ℕ × List UInt8) :=
  (readCount ns ptr).bind fun n =>
    if toInt32 n.1 = -2 ^ 31 then none else readTargets (toInt32 n.1).toNat n.2

/-- The loop of `load_vertices`, at vertex `vid`, for at most `fuel`
items. -/
def loadFrom (st en : ℕ) : ℕ → ℕ → List UInt8 → Option (List LoadEvent)
  | _, _, [] => some []
  | 0, _, _ :: _ => none
  | fuel + 1, vid, ns :: ptr =>
    if ns = 0x00 then
      (readZeros ptr).bind fun nz =>
        loadFrom st en fuel ((vid + (1 + nz.1)) % 2 ^ 32) nz.2
    else
      (readRow ns ptr).bind fun row =>
        (loadFrom st en fuel ((vid + 1) % 2 ^ 32) row.2).map fun l =>
          loadRow st en vid row.1 ++ l

/-- **`load_vertices`** for the window from `st` to `en`. An item takes at
least a byte, so the length bounds the rounds. -/
def loadVertices (st en : ℕ) (adjdata : List UInt8) : Option (List LoadEvent) :=
  loadFrom st en adjdata.length 0 adjdata

variable {st en : ℕ}

/-- A row of fewer than `2 ^ 31` edges is read back. -/
theorem readRow_spec {ts : List ℕ} (hv : (Item.row ts).Valid) (hlt : ts.length < 2 ^ 31)
    (rest : List UInt8) :
    ∃ ns ptr, encodeItem (.row ts) ++ rest = ns :: ptr ∧ ns ≠ 0
      ∧ readRow ns ptr = some (ts, rest) := by
  obtain ⟨hne, hlen, hts⟩ := hv
  obtain ⟨ns, ptr, happ, hns, hcount⟩ := countBytes_spec (List.length_pos_iff.mpr hne) hlen
    (ts.flatMap u32le ++ rest)
  refine ⟨ns, ptr, ?_, hns, ?_⟩
  · rw [encodeItem, List.append_assoc, happ]
  · have hint : toInt32 ts.length = ts.length := Reshard.toInt32_natCast (by omega)
    unfold readRow
    rw [hcount, Option.bind_some, hint, if_neg (by omega), Int.toNat_natCast,
      readTargets_flatMap hts]

/-- One round, for an item: the calls for its row, and on from the next
vertex. -/
theorem loadFrom_cons {it : Item} {rest : List UInt8} {fuel vid : ℕ} (hv : it.Valid)
    (hlt : it.targets.length < 2 ^ 31) :
    loadFrom st en (fuel + 1) vid (encodeItem it ++ rest)
      = (loadFrom st en fuel ((vid + it.span) % 2 ^ 32) rest).map fun l =>
        loadRow st en vid it.targets ++ l := by
  cases it with
  | skip more =>
    obtain ⟨nz, hnz, henc⟩ := encode_skip hv
    rw [henc]
    show loadFrom st en fuel ((vid + (1 + nz.toNat)) % 2 ^ 32) rest = _
    rw [hnz]
    exact (Option.map_id' (x := loadFrom st en fuel _ rest)).symm
  | row ts =>
    obtain ⟨ns, ptr, happ, hns, hrow⟩ := readRow_spec hv hlt rest
    rw [happ, loadFrom, if_neg hns, hrow, Option.bind_some]
    rfl

/-- **`load_vertices` reads the items**, below the vertex `2 ^ 32`. -/
theorem loadFrom_encode {its : List Item} {fuel vid : ℕ} (hv : ∀ it ∈ its, it.Valid)
    (hlt : ∀ it ∈ its, it.targets.length < 2 ^ 31) (hvid : vid + span its < 2 ^ 32)
    (hfuel : (encode its).length ≤ fuel) :
    loadFrom st en fuel vid (encode its)
      = some (PartitionWindows.loadVertices st en vid its) := by
  induction its generalizing fuel vid with
  | nil => cases fuel <;> rfl
  | cons it its ih =>
    have hit : it.Valid := hv it List.mem_cons_self
    have hpos : 0 < (encodeItem it).length :=
      List.length_pos_iff.mpr (encodeItem_ne_nil hit)
    rw [encode_cons, List.length_append] at hfuel
    rw [span_cons] at hvid
    obtain ⟨f, rfl⟩ : ∃ f, fuel = f + 1 := ⟨fuel - 1, by omega⟩
    rw [encode_cons, loadFrom_cons hit (hlt it List.mem_cons_self),
      Nat.mod_eq_of_lt (by omega), ih (fun i hi => hv i (List.mem_cons_of_mem _ hi))
        (fun i hi => hlt i (List.mem_cons_of_mem _ hi)) (by omega) (by omega)]
    rfl

/-- **In any case each destination gets as many in-edges** as the rows have
for it. -/
theorem length_insOf_loadFrom (vid d : ℕ) {its : List Item} {fuel : ℕ}
    (hv : ∀ it ∈ its, it.Valid) (hlt : ∀ it ∈ its, it.targets.length < 2 ^ 31)
    (hsorted : ∀ it ∈ its, it.targets.Pairwise (· ≤ ·))
    (hfuel : (encode its).length ≤ fuel) :
    ∃ events, loadFrom d d fuel vid (encode its) = some events
      ∧ (insOf d events).length = (its.flatMap Item.targets).count d := by
  induction its generalizing fuel vid with
  | nil =>
    refine ⟨[], ?_, rfl⟩
    cases fuel <;> rfl
  | cons it its ih =>
    have hit : it.Valid := hv it List.mem_cons_self
    have hpos : 0 < (encodeItem it).length :=
      List.length_pos_iff.mpr (encodeItem_ne_nil hit)
    rw [encode_cons, List.length_append] at hfuel
    obtain ⟨f, rfl⟩ : ∃ f, fuel = f + 1 := ⟨fuel - 1, by omega⟩
    obtain ⟨events, hload, hcount⟩ := ih ((vid + it.span) % 2 ^ 32)
      (fun i hi => hv i (List.mem_cons_of_mem _ hi))
      (fun i hi => hlt i (List.mem_cons_of_mem _ hi))
      (fun i hi => hsorted i (List.mem_cons_of_mem _ hi)) (show _ ≤ f by omega)
    refine ⟨loadRow d d vid it.targets ++ events, ?_, ?_⟩
    · rw [encode_cons, loadFrom_cons hit (hlt it List.mem_cons_self), hload,
        Option.map_some]
    · have hrow : (insOf d (loadRow d d vid it.targets)).length = it.targets.count d := by
        have hevents : it.targets.flatMap (fun t => edgeEvents d d (vid, t))
            = (it.targets.map fun t => (vid, t)).flatMap (edgeEvents d d) :=
          (List.flatMap_map _ _ _).symm
        rw [PartitionWindows.loadRow_eq (hsorted it List.mem_cons_self), hevents,
          PartitionWindows.insOf_edgeEvents d ⟨le_rfl, le_rfl⟩, List.length_map,
          ← List.countP_eq_length_filter, List.countP_map, List.count_eq_countP]
        refine List.countP_congr fun t _ => ?_
        simp
      rw [PartitionWindows.insOf_append, List.length_append, hrow, hcount,
        List.flatMap_cons, List.count_append]

end MemoryShard

namespace FinishShard

open SparseRows
open PartitionWindows (LoadEvent insOf outsOf)

variable {V : Type}

/-! ## The round trip -/

namespace Shard

variable (x : Shard V)

/-- The sources of the edges of the shard to a vertex. -/
def inedges (v : ℕ) : List ℕ := (x.kept.filter fun q => q.2 = v).map Prod.fst

/-- The destinations of the edges of the shard from a vertex. -/
def outedges (v : ℕ) : List ℕ := (x.kept.filter fun q => q.1 = v).map Prod.snd

/-- **A sequence of consecutive windows**, none of them empty, among the
vertices. The number of vertices of a window is an `int`. -/
structure Windows where
  /-- The first and the last vertex of each. -/
  windows : List (ℕ × ℕ)
  /-- The first vertex of the first window. -/
  first : ℕ
  /-- The vertex behind the last window. -/
  stop : ℕ
  /-- Each starts behind the one before it. -/
  tiles : Tiles first windows stop
  /-- They have vertices. -/
  nonempty : ∀ w ∈ windows, w.1 ≤ w.2
  /-- `nvecs`. -/
  nvecs_lt : ∀ w ∈ windows, w.2 + 1 - w.1 < 2 ^ 31
  /-- They are among the vertices. -/
  stop_le : stop ≤ x.maxVertexId + 1

/-- The shard, opened as a sliding shard. -/
def sliding (blocksize : ℕ) (h : 4096 * 1024 ≤ blocksize) : SlidingShard.Config :=
  ⟨x.file, blocksize, h, x.part.first x.shard, x.part.second x.shard⟩

/-- **`load_vertices` gives the edges** at each vertex of the window. -/
def MemoryLaw (w : ℕ × ℕ) : Prop :=
  ∃ events, MemoryShard.loadVertices w.1 w.2 x.file = some events
    ∧ ∀ v, Within w v → (insOf v events).Perm (x.inedges v)
      ∧ (outsOf v events).Perm (x.outedges v)

/-- **`read_next_vertices` gives the out-edges** of each window in turn,
each with its source. -/
def SlidingLaw (c : SlidingShard.Config) (ws : List (ℕ × ℕ)) : Prop :=
  ∃ reads, c.readWindows ws SlidingShard.start = some reads
    ∧ List.Forall₂ (fun w l => l.Perm (x.kept.filter fun q => Within w q.1)) ws reads

/-- **The round trip**: over any consecutive windows, both readers give back
the edges of the shard. -/
def RoundTrip : Prop :=
  ∀ (blocksize : ℕ) (h : 4096 * 1024 ≤ blocksize) (ws : x.Windows),
    (∀ w ∈ ws.windows, x.MemoryLaw w) ∧ x.SlidingLaw (x.sliding blocksize h) ws.windows

/-- **The shard fits the `int`s** of the writer and the readers. Only a row that
may be passed over is limited in bytes; the others are limited in edges. -/
structure Fits : Prop where
  /-- The vertices are below `2 ^ 31`. -/
  vid : x.maxVertexId < 2 ^ 31
  /-- The edges that the sort does not get are in order. -/
  inOrder : x.InOrder
  /-- The rows that may be passed over take less than `2 ^ 31` bytes. -/
  passed : ∀ v < x.maxVertexId, (x.outedges v).length < 2 ^ 29
  /-- The row of the last vertex has fewer than `2 ^ 31` edges. -/
  read : (x.outedges x.maxVertexId).length < 2 ^ 31

end Shard

/-! ## A shard that fits -/

section Fitting

variable {x : Shard V}

theorem length_outedges (v : ℕ) :
    (x.outedges v).length = x.kept.countP fun q => decide (q.1 = v) := by
  rw [Shard.outedges, List.length_map, List.countP_eq_length_filter]

/-- A row of items has no more destinations than its index has pairs. -/
theorem length_targets_le_countP (a : List Item) (it : Item) (b : List Item) :
    it.targets.length
      ≤ (expand 0 (a ++ it :: b)).countP fun q => decide (q.1 = span a) := by
  rw [expand_append, expand, Nat.zero_add, List.countP_append, List.countP_append,
    List.countP_map]
  have hrow : it.targets.countP
      ((fun q : ℕ × ℕ => decide (q.1 = span a)) ∘ fun t => (span a, t))
        = it.targets.length :=
    List.countP_eq_length.mpr fun t _ => decide_eq_true rfl
  omega

/-- What is written for a shard that fits can be read in windows: each item has
the length that its code can say, the rows before the last vertex are short
enough for the reader, and all destinations are in the interval. -/
theorem Shard.Fits.streamable (h : x.Fits) {c : SlidingShard.Config}
    (hfile : c.file = x.file) (hst : c.rangeSt = x.part.first x.shard)
    (hend : c.rangeEnd = x.part.second x.shard) :
    SlidingShard.Streamable c (ShardAdjacency.adjacency x.written) x.maxVertexId := by
  have hsorted := (x.inOrder_iff_written h.vid).mp h.inOrder
  have hlt : ∀ q ∈ x.written, q.1 < 2 ^ 31 := fun q hq =>
    lt_of_le_of_lt (x.written_bounds hq).1 h.vid
  have hexpand := ShardAdjacency.expand_adjacency hsorted
  have hperm := h.inOrder.written_perm h.vid
  have hcount : ∀ v, x.written.countP (fun q => decide (q.1 = v))
      = (x.outedges v).length := fun v => by
    rw [length_outedges, hperm.countP_eq]
  have hspan := ShardAdjacency.span_adjacency_le hsorted
    fun q hq => (x.written_bounds hq).1
  -- a row is that of one vertex, so that its length is an out-degree
  have hrow : ∀ it ∈ ShardAdjacency.adjacency x.written, it.targets.length < 2 ^ 31 := by
    intro it hit
    obtain ⟨a, b, hab⟩ := List.append_of_mem hit
    have hle := length_targets_le_countP a it b
    have hbound : span a ≤ x.maxVertexId := by
      rw [hab, span_append, span_cons] at hspan
      have := it.span_pos
      omega
    rw [← hab, hexpand, hcount] at hle
    have hread := h.read
    rcases hbound.lt_or_eq with hlt | heq
    · have := h.passed _ hlt
      omega
    · rw [heq] at hle
      omega
  have hmem : ∀ it ∈ ShardAdjacency.adjacency x.written, ∀ t ∈ it.targets,
      ∃ q ∈ x.written, q.2 = t := by
    intro it hit t ht
    have hsnd : t ∈ x.written.map Prod.snd := by
      rw [← hexpand, map_snd_expand]
      exact List.mem_flatMap.mpr ⟨it, hit, ht⟩
    exact List.mem_map.mp hsnd
  refine ⟨?_, h.vid, hspan, fun it hit => ?_, fun a it b hab hlast => ?_, hrow, ?_⟩
  · rw [hfile, Shard.file, adjacency_eq hsorted hlt]
  · have hwritten := ShardAdjacency.written_of_mem_adjacency hsorted hit
    cases it with
    | skip more => exact hwritten
    | row ts =>
      have hlength : ts.length < 2 ^ 31 := hrow _ hit
      refine ⟨hwritten, by omega, fun t ht => ?_⟩
      obtain ⟨q, hq, rfl⟩ := hmem _ hit t ht
      exact (x.written_bounds hq).2.2.2.lt
  · have hle := length_targets_le_countP a it b
    rw [← hab, hexpand, hcount] at hle
    exact lt_of_le_of_lt hle (h.passed _ hlast)
  · intro it hit t ht
    obtain ⟨q, hq, rfl⟩ := hmem it hit t ht
    rw [hst, hend]
    exact (x.written_bounds hq).2.2.2.2

/-- **A shard that fits is read back**, by the reader of the memory shard and by
those of the sliding shards. Both read the rows in the order of the file; the
edges of a vertex are those of the shard, as the file is a rearrangement of
them. -/
theorem Shard.Fits.roundTrip (h : x.Fits) : x.RoundTrip := by
  intro blocksize hblock ws
  have hs := h.streamable (c := x.sliding blocksize hblock) rfl rfl rfl
  have hsorted := (x.inOrder_iff_written h.vid).mp h.inOrder
  have hexpand := ShardAdjacency.expand_adjacency hsorted
  have hperm := h.inOrder.written_perm h.vid
  constructor
  · -- the reader of the shard's own vertices gets them all, in any window
    intro w hw
    have hlex : (expand 0 (ShardAdjacency.adjacency x.written)).Pairwise
        fun a b => toLex a ≤ toLex b := by
      rw [hexpand]
      exact h.inOrder.written_pairwise h.vid
    have hload : MemoryShard.loadVertices w.1 w.2 x.file
        = some (x.written.flatMap (PartitionWindows.edgeEvents w.1 w.2)) := by
      have hfile : x.file = encode (ShardAdjacency.adjacency x.written) := hs.file
      have hspan := hs.span_le
      have hlast := hs.last_lt
      unfold MemoryShard.loadVertices
      rw [hfile, MemoryShard.loadFrom_encode hs.valid hs.read (by omega) le_rfl,
        PartitionWindows.loadVertices_eq hlex, hexpand]
    refine ⟨_, hload, fun v hv => ⟨?_, ?_⟩⟩
    · rw [PartitionWindows.insOf_edgeEvents v hv]
      exact (hperm.filter _).map _
    · rw [PartitionWindows.outsOf_edgeEvents v hv]
      exact (hperm.filter _).map _
  · -- the readers of the other windows go on from one to the next, each to the end of
    -- its window
    have hstart := SlidingShard.at_start (x.sliding blocksize hblock)
    rw [hs.file] at hstart
    have hahead := Cursor.ahead_start (ShardAdjacency.adjacency x.written) ws.first
    refine ⟨_, SlidingShard.At.readWindows hs hstart ws.tiles hahead ws.nonempty
      ws.stop_le, ?_⟩
    rw [List.forall₂_map_right_iff, List.forall₂_same]
    intro w hw
    rw [hexpand]
    have hcongr : (x.written.filter fun q => decide (w.1 ≤ q.1 ∧ q.1 < w.2 + 1))
        = x.written.filter fun q => decide (Within w q.1) :=
      List.filter_congr fun q _ => by
        rw [decide_eq_decide]
        exact and_congr_right fun _ => Nat.lt_succ_iff
    rw [hcongr]
    exact hperm.filter _

end Fitting

end FinishShard
