import Mathlib
import DpdkGraph.ShardReaders

/-!
# The round trip of a shard's adjacency

What the sharder writes, the engine should read back: the main file should
give the edges into the interval, and the file of another shard the edges
from the interval to that shard, each under its source and in the order of
the sources.

It does exactly when the walk does not go astray and no row of the file
comes after a run of vertices that an `int` cannot count. `mainRoundTrip_iff`
and `outRoundTrip_iff` say so for the main file and for the file of each
other shard: the main file is right unless `ZeroHead`, `Jump` or a `LongRun`
holds; the file of shard `k` is right unless the call fails, or `ZeroHead`
holds and `k` is 0, or `Jump` holds and the last out-edge goes to `k`, or the
file has a `LongRun`.
-/

namespace Reshard

open SparseRows

variable {V : Type}

/-- **The main file round-trips**: the call completes, and
`load_vertices_XG` reads from its main adjacency file the edges into the
interval, under their sources and in the order of the sources. -/
def MainRoundTrip (c : Params) (rand : ℕ → ℕ) (edges : List (EdgeWithValue V)) : Prop :=
  ∃ files, reshard c rand edges = some files
    ∧ ∃ l, loadVerticesXG (files.adj c.shard) = some l
      ∧ l.Perm ((edges.filter fun e => decide (c.intervals.Mem c.shard e.dst)).map
          EdgeWithValue.ends)
      ∧ l.Pairwise fun a b => a.1 ≤ b.1

/-- **The file of shard `k` round-trips**: the call completes, and
`read_next_vertices_XG` reads from the file the edges from the interval to
that of `k`, under their sources and in the order of the sources. -/
def OutRoundTrip (c : Params) (rand : ℕ → ℕ) (edges : List (EdgeWithValue V))
    (k : ℕ) : Prop :=
  ∃ files, reshard c rand edges = some files
    ∧ ∃ l, readNextVerticesXG (c.intervals.first k) (c.intervals.second k)
          (c.intervals.second c.shard + 1 - c.intervals.first c.shard)
          (c.intervals.first c.shard) (files.outData k).length (files.adj k) = some l
      ∧ l.Perm ((edges.filter fun e => decide (c.intervals.Mem c.shard e.src
          ∧ c.intervals.Mem k e.dst)).map EdgeWithValue.ends)
      ∧ l.Pairwise fun a b => a.1 ≤ b.1

/-! ## Logs and what is expected of a file -/

section Counting

variable {p : IntervalPartition} {log : Log V} {k : ℕ}

/-- A file with the edges into its interval, and no others, has them in
order. -/
theorem Log.rowsOf_eq (h : ∀ x ∈ log, x.1 = k ↔ p.Mem k x.2.dst) :
    log.rowsOf k = (log.map Prod.snd).filter fun e => decide (p.Mem k e.dst) := by
  unfold Log.rowsOf
  rw [List.filter_map]
  congr 1
  refine List.filter_congr fun x hx => ?_
  exact decide_eq_decide.mpr (h x hx)

/-- When as much is read of a file as is expected, no edge into its interval
is in another file. -/
theorem Log.complete_of_length {ds : List ℕ}
    (hsub : ds.Sublist ((log.rowsOf k).map EdgeWithValue.dst))
    (hall : ∀ d ∈ ds, p.Mem k d)
    (hlen : ((log.map Prod.snd).filter fun e => decide (p.Mem k e.dst)).length
      = ds.length) :
    ∀ x ∈ log, p.Mem k x.2.dst → x.1 = k := by
  have hle : ds.length ≤ ((log.filter fun x => decide (p.Mem k x.2.dst)).filter
      fun x => decide (x.1 = k)).length := by
    have hself : ds.filter (fun d => decide (p.Mem k d)) = ds :=
      List.filter_eq_self.mpr fun d hd => decide_eq_true (hall d hd)
    have hlen := (hsub.filter fun d => decide (p.Mem k d)).length_le
    unfold Log.rowsOf at hlen
    rw [hself, List.map_map, List.filter_map, List.length_map, List.filter_filter] at hlen
    rw [List.filter_filter]
    refine hlen.trans (le_of_eq ?_)
    congr 2
    funext x
    exact Bool.and_comm _ _
  rw [List.filter_map, List.length_map] at hlen
  intro x hx hdst
  have heq := List.length_filter_eq_length_iff.mp (le_antisymm
    (List.length_filter_le _ _) (hlen ▸ hle))
  exact of_decide_eq_true (heq x (List.mem_filter.mpr ⟨hx, decide_eq_true hdst⟩))

/-- So it is when what is read of a file is what is expected. -/
theorem Log.complete {ds : List ℕ}
    (hsub : ds.Sublist ((log.rowsOf k).map EdgeWithValue.dst))
    (hperm : ds.Perm (((log.map Prod.snd).filter fun e => decide (p.Mem k e.dst)).map
      EdgeWithValue.dst)) :
    ∀ x ∈ log, p.Mem k x.2.dst → x.1 = k := by
  refine Log.complete_of_length hsub (fun d hd => ?_) ?_
  · obtain ⟨e, he, rfl⟩ := List.mem_map.mp (hperm.mem_iff.mp hd)
    exact of_decide_eq_true (List.mem_filter.mp he).2
  · rw [hperm.length_eq, List.length_map]

/-- Where no edge is missing, and as much is read as is expected, no other
edge is in the file. -/
theorem Log.exact_of_length (hin : ∀ x ∈ log, p.Mem k x.2.dst → x.1 = k)
    (hlen : ((log.map Prod.snd).filter fun e => decide (p.Mem k e.dst)).length
      = (log.rowsOf k).length) :
    ∀ x ∈ log, x.1 = k → p.Mem k x.2.dst := by
  unfold Log.rowsOf at hlen
  have hfilter : (log.filter fun x => decide (p.Mem k x.2.dst))
      = (log.filter fun x => decide (x.1 = k)).filter
        fun x => decide (p.Mem k x.2.dst) := by
    rw [List.filter_filter]
    refine List.filter_congr fun x hx => ?_
    rw [eq_comm, Bool.and_eq_left_iff_imp, decide_eq_true_iff, decide_eq_true_iff]
    exact hin x hx
  rw [List.filter_map, List.length_map, List.length_map] at hlen
  intro x hx hxk
  have heq := List.length_filter_eq_length_iff.mp (hfilter ▸ hlen)
  exact of_decide_eq_true (heq x (List.mem_filter.mpr ⟨hx, decide_eq_true hxk⟩))

/-- Nor is any other edge in the file, when all of it is read. -/
theorem Log.exact
    (hperm : ((log.rowsOf k).map EdgeWithValue.dst).Perm
      (((log.map Prod.snd).filter fun e => decide (p.Mem k e.dst)).map
        EdgeWithValue.dst)) :
    ∀ x ∈ log, x.1 = k → p.Mem k x.2.dst := by
  rintro ⟨t, e⟩ hx rfl
  obtain ⟨e', he', heq⟩ := List.mem_map.mp (hperm.mem_iff.mp
    (List.mem_map_of_mem (Log.mem_rowsOf.mpr hx)))
  have hmem := of_decide_eq_true (List.mem_filter.mp he').2
  rw [heq] at hmem
  exact hmem

/-- Forgetting the sources of the expected pairs. -/
theorem perm_dst {l : List (ℕ × ℕ)} {es : List (EdgeWithValue V)}
    (h : l.Perm (es.map EdgeWithValue.ends)) :
    (l.map Prod.snd).Perm (es.map EdgeWithValue.dst) := by
  have h' := h.map Prod.snd
  rwa [List.map_map] at h'

end Counting

section RoundTrip

variable {c : Params} {rand : ℕ → ℕ} {k : ℕ}

/-- A file never carries more than the edges there are. -/
theorem length_rowsOf_le {log : Log V} {L : List (EdgeWithValue V)}
    (hsplit : log.map Prod.snd = L) (k : ℕ) : (log.rowsOf k).length ≤ L.length := by
  unfold Log.rowsOf
  rw [← hsplit, List.length_map, List.length_map]
  exact List.length_filter_le _ _

/-- The order of the edges does not matter to what is expected. -/
theorem filter_perm {L L' : List (EdgeWithValue V)} (hperm : L.Perm L')
    (P : EdgeWithValue V → Bool) :
    ((L.filter P).map EdgeWithValue.ends).Perm ((L'.filter P).map EdgeWithValue.ends) :=
  (hperm.filter P).map _

/-! ## The main file -/

/-- Whatever the main file carries is read from it, in order of the
sources. -/
theorem Leaves.exists_load {E : ShardEdges c V} (hfew : FewEdges E.edges)
    {log : Log V} {x : WriteSliding} (hsplit : log.map Prod.snd = sortEdges rand E.edges)
    (hcarries : x.Carries ((log.rowsOf k).map EdgeWithValue.dst)) :
    ∃ l, loadVerticesXG x.s.contents = some l
      ∧ l.map Prod.snd = (log.rowsOf k).map EdgeWithValue.dst
      ∧ l.Pairwise fun a b => a.1 ≤ b.1 := by
  obtain ⟨hperm, -⟩ := sortEdges_spec rand hfew
  have hlen := hperm.length_eq
  unfold FewEdges at hfew
  obtain ⟨its, hv, hbytes, htargets⟩ := hcarries
  have hdst : (expand 0 its).map Prod.snd = (log.rowsOf k).map EdgeWithValue.dst := by
    rw [map_snd_expand, htargets]
  have hshort : (expand 0 its).length < 2 ^ 31 := by
    have h := congrArg List.length hdst
    rw [List.length_map, List.length_map] at h
    have := length_rowsOf_le hsplit k
    omega
  rw [hbytes]
  exact ⟨_, loadVerticesXG_reads ⟨its, hv, rfl, rfl⟩ hshort, hdst, expand_sorted 0 its⟩

/-- **When the walk does not go astray**, each adjacency file stands for the
sorted edges to the interval of its shard, up to the runs that are cut. -/
theorem Leaves.readsUpTo {E : ShardEdges c V} (hfew : FewEdges E.edges)
    (hzero : ¬ZeroHead c E.edges) (hjump : ¬Jump c E.edges) {files : ShardFiles V}
    (h : Leaves c rand E.edges files) (k : ℕ) :
    ReadsUpTo (Passed c (sortEdges rand E.edges) k) (startOf c k)
      (((sortEdges rand E.edges).filter fun e =>
        decide (c.intervals.Mem k e.dst)).map EdgeWithValue.ends) (files.adj k) := by
  obtain ⟨hperm, -⟩ := sortEdges_spec rand hfew
  obtain ⟨log, wsl, hsplit, hadj, -, hend⟩ := h.adjacency
  cases hend with
  | right _ _ right reads =>
    have hrows : log.rowsOf k = (sortEdges rand E.edges).filter
        fun e => decide (c.intervals.Mem k e.dst) := by
      rw [← hsplit]
      refine Log.rowsOf_eq fun x hx => ⟨?_, fun h => (right x hx).unique h⟩
      rintro rfl
      exact right x hx
    have hreads := reads k
    rwa [hrows, ← hadj] at hreads
  | spoiled zeroHead => exact absurd ((ZeroHead.perm hperm).mp zeroHead) hzero
  | jumped _ jump => exact absurd ((Jump.perm hperm).mp jump) hjump

/-- The rows of a file behind a run that is too long are its `LongRun`. -/
theorem longRun_iff {L : List (EdgeWithValue V)} :
    LongRun c L k ↔ ∃ q ∈ (L.filter fun e =>
      decide (c.intervals.Mem k e.dst)).map EdgeWithValue.ends, Passed c L k q.1 := by
  constructor
  · rintro ⟨e, he, hdst, hpassed⟩
    exact ⟨e.ends, List.mem_map_of_mem (List.mem_filter.mpr ⟨he, decide_eq_true hdst⟩),
      hpassed⟩
  · rintro ⟨q, hq, hpassed⟩
    obtain ⟨e, he, rfl⟩ := List.mem_map.mp hq
    obtain ⟨hmem, hdst⟩ := List.mem_filter.mp he
    exact ⟨e, hmem, of_decide_eq_true hdst, hpassed⟩

/-- Without a long run it stands for them. -/
theorem Leaves.reads {E : ShardEdges c V} (hfew : FewEdges E.edges)
    (hzero : ¬ZeroHead c E.edges) (hjump : ¬Jump c E.edges)
    (hlong : ¬LongRun c E.edges k) {files : ShardFiles V}
    (h : Leaves c rand E.edges files) :
    Reads (startOf c k) (((sortEdges rand E.edges).filter fun e =>
      decide (c.intervals.Mem k e.dst)).map EdgeWithValue.ends) (files.adj k) := by
  obtain ⟨hperm, -⟩ := sortEdges_spec rand hfew
  rw [← LongRun.perm hperm, longRun_iff] at hlong
  push Not at hlong
  exact (h.readsUpTo hfew hzero hjump k).reads hlong

/-- Then the main file is read back. -/
theorem Leaves.load {E : ShardEdges c V} (hfew : FewEdges E.edges)
    (hzero : ¬ZeroHead c E.edges) (hjump : ¬Jump c E.edges)
    (hlong : ¬LongRun c E.edges c.shard) {files : ShardFiles V}
    (h : Leaves c rand E.edges files) :
    loadVerticesXG (files.adj c.shard) = some (((sortEdges rand E.edges).filter fun e =>
      decide (c.intervals.Mem c.shard e.dst)).map EdgeWithValue.ends) := by
  obtain ⟨hperm, -⟩ := sortEdges_spec rand hfew
  have hlen := hperm.length_eq
  have hreads := h.reads hfew hzero hjump hlong
  rw [startOf, if_pos rfl] at hreads
  refine loadVerticesXG_reads hreads ?_
  unfold FewEdges at hfew
  rw [List.length_map]
  exact lt_of_le_of_lt (List.length_filter_le _ _) (by omega)

/-- Behind a long run an edge is lost. -/
theorem ReadsUpTo.exists_lost {L L' : List (EdgeWithValue V)} (hperm : L'.Perm L)
    (hlong : LongRun c L k) {start : ℕ} {its : List Item}
    (hread : ReadAs (Passed c L' k) (expand start its) ((L'.filter fun e =>
      decide (c.intervals.Mem k e.dst)).map EdgeWithValue.ends)) :
    ∃ e ∈ L, c.intervals.Mem k e.dst ∧ e.ends ∉ expand start its := by
  rw [← LongRun.perm hperm, longRun_iff] at hlong
  obtain ⟨q, hq, hlost⟩ := hread.exists_lost Passed.mono hlong
  obtain ⟨e, he, rfl⟩ := List.mem_map.mp hq
  obtain ⟨hmem, hdst⟩ := List.mem_filter.mp he
  exact ⟨e, hperm.mem_iff.mp hmem, of_decide_eq_true hdst, hlost⟩

/-- With a long run, an edge is missing in what is read of the main file. -/
theorem Leaves.exists_lost_load {E : ShardEdges c V} (hfew : FewEdges E.edges)
    (hzero : ¬ZeroHead c E.edges) (hjump : ¬Jump c E.edges)
    (hlong : LongRun c E.edges c.shard) {files : ShardFiles V}
    (h : Leaves c rand E.edges files) {l : List (ℕ × ℕ)}
    (hload : loadVerticesXG (files.adj c.shard) = some l) :
    ∃ e ∈ E.edges, c.intervals.Mem c.shard e.dst ∧ e.ends ∉ l := by
  obtain ⟨hperm, -⟩ := sortEdges_spec rand hfew
  have hlen := hperm.length_eq
  obtain ⟨its, hv, hbytes, hread⟩ := h.readsUpTo hfew hzero hjump c.shard
  rw [startOf, if_pos rfl] at hread
  have hshort : (expand 0 its).length < 2 ^ 31 := by
    have hle := List.length_filter_le
      (fun e => decide (c.intervals.Mem c.shard e.dst)) (sortEdges rand E.edges)
    unfold FewEdges at hfew
    rw [hread.length_eq, List.length_map]
    omega
  have hexpand : loadVerticesXG (files.adj c.shard) = some (expand 0 its) := by
    rw [hbytes]
    exact loadVerticesXG_reads ⟨its, hv, rfl, rfl⟩ hshort
  obtain rfl := Option.some.inj (hload.symm.trans hexpand)
  exact ReadsUpTo.exists_lost hperm hlong hread

/-- **The main adjacency file round-trips exactly when** the walk does not go
astray and no edge of the file comes after a run of `2 ^ 31` vertices or
more, for fewer than `2 ^ 31` edges. -/
theorem mainRoundTrip_iff (E : ShardEdges c V) (rand : ℕ → ℕ) (hfew : FewEdges E.edges) :
    MainRoundTrip c rand E.edges
      ↔ ¬ZeroHead c E.edges ∧ ¬Jump c E.edges ∧ ¬LongRun c E.edges c.shard := by
  obtain ⟨hperm, -⟩ := sortEdges_spec rand hfew
  constructor
  · rintro ⟨files, hrun, l, hload, hl, -⟩
    rcases reshard_ending E rand hfew with ⟨files', hrun', hleaves⟩ | ⟨hnone, -⟩
    · obtain rfl := Option.some.inj (hrun.symm.trans hrun')
      obtain ⟨log, wsl, hsplit, hadj, hcarries, hend⟩ := id hleaves.adjacency
      -- what is read of the main file is what the log gives it
      obtain ⟨l', hread, hdst, -⟩ := Leaves.exists_load hfew hsplit (hcarries c.shard)
      rw [← hadj, hload] at hread
      obtain rfl := Option.some.inj hread
      have hexpected := perm_dst (hl.trans (filter_perm hperm.symm _))
      rw [hdst, ← hsplit] at hexpected
      have hcomplete := Log.complete (List.Sublist.refl _) hexpected
      have hexact := Log.exact hexpected
      have hastray : ¬ZeroHead c E.edges ∧ ¬Jump c E.edges := by
        rw [← ZeroHead.perm hperm, ← Jump.perm hperm]
        cases hend with
        | right noZeroHead noJump => exact ⟨noZeroHead, noJump⟩
        | spoiled zeroHead _ wrong =>
          rcases wrong with ⟨⟨x, hx, hx0, hmem⟩, -⟩ | ⟨x, hx, hxs, hmem⟩
          · exact absurd ((hcomplete x hx hmem).symm.trans hx0) zeroHead.1
          · exact absurd ((hexact x hx hxs).unique hmem) zeroHead.1
        | jumped _ _ wrong =>
          obtain ⟨l, -, hbad, hmem, -⟩ := wrong
          exact absurd (hexact _ hmem rfl) hbad
      refine ⟨hastray.1, hastray.2, fun hlong => ?_⟩
      obtain ⟨e, he, hdst, hlost⟩ :=
        hleaves.exists_lost_load hfew hastray.1 hastray.2 hlong hload
      exact hlost (hl.mem_iff.mpr (List.mem_map_of_mem
        (List.mem_filter.mpr ⟨he, decide_eq_true hdst⟩)))
    · rw [hrun] at hnone
      exact absurd hnone (by simp)
  · rintro ⟨hnoZero, hnoJump, hnoLong⟩
    rcases reshard_ending E rand hfew with ⟨files, hrun, hleaves⟩ | ⟨-, hzero, -⟩
    · refine ⟨files, hrun, _, hleaves.load hfew hnoZero hnoJump hnoLong,
        filter_perm hperm _, ?_⟩
      exact (hleaves.reads hfew hnoZero hnoJump hnoLong).sorted
    · exact absurd hzero hnoZero

/-- Three intervals of ten vertices. -/
def threeShards : IntervalPartition where
  intervals := [(0, 9), (10, 19), (20, 29)]
  start := rfl
  contiguous := by decide
  ordered := by decide
  vid := by decide

/-- A call for a shard of three, with the buffers of the sharder. -/
def callFor (shard : ℕ) : Params := ⟨threeShards, shard, 4194304, 4⟩

/-- Edges of shard 1: one each way between it and the others, and one
within. -/
def plainEdges : ShardEdges (callFor 1) ℕ where
  edges := [⟨12, 3, 5⟩, ⟨4, 11, 6⟩, ⟨12, 17, 7⟩, ⟨21, 10, 8⟩]
  legal e he := by
    simp only [List.mem_cons, List.not_mem_nil, or_false] at he
    rcases he with rfl | rfl | rfl | rfl
    · exact ⟨by decide, by decide, ⟨1, by decide⟩, ⟨0, by decide⟩⟩
    · exact ⟨by decide, by decide, ⟨0, by decide⟩, ⟨1, by decide⟩⟩
    · exact ⟨by decide, by decide, ⟨1, by decide⟩, ⟨1, by decide⟩⟩
    · exact ⟨by decide, by decide, ⟨2, by decide⟩, ⟨1, by decide⟩⟩

/-- The edges of shard 1 in `plainEdges` round-trip. -/
theorem mainRoundTrip_plainEdges :
    MainRoundTrip (callFor 1) (fun _ => 0) plainEdges.edges :=
  (mainRoundTrip_iff plainEdges (fun _ => 0) (by unfold FewEdges; decide)).mpr
    ⟨by unfold ZeroHead; decide, fun h => h.2.2 ⟨21, 10, 8⟩ (by decide) (by decide),
      not_longRun_of_lt (by decide)⟩

/-- Edges of shard 1: an in-edge from vertex 0, then an out-edge. -/
def zeroHeadEdges : ShardEdges (callFor 1) ℕ where
  edges := [⟨0, 10, 7⟩, ⟨10, 11, 8⟩]
  legal e he := by
    simp only [List.mem_cons, List.not_mem_nil, or_false] at he
    rcases he with rfl | rfl
    · exact ⟨by decide, by decide, ⟨0, by decide⟩, ⟨1, by decide⟩⟩
    · exact ⟨by decide, by decide, ⟨1, by decide⟩, ⟨1, by decide⟩⟩

/-- They fail the assertion, so nothing is written. -/
theorem not_mainRoundTrip_zeroHeadEdges :
    ¬MainRoundTrip (callFor 1) (fun _ => 0) zeroHeadEdges.edges := by
  have hnone : (reshard (callFor 1) (fun _ => 0) zeroHeadEdges.edges).isNone = true := by
    decide
  rintro ⟨files, hrun, -⟩
  rw [hrun] at hnone
  exact absurd hnone (by simp)

/-! ## The files of the other shards -/

/-- The edges to another shard are those from the interval to it. -/
theorem filter_out {L : List (EdgeWithValue V)} (hlegal : ∀ e ∈ L, Legal c e)
    (hk : k ≠ c.shard) :
    (L.filter fun e => decide (c.intervals.Mem c.shard e.src ∧ c.intervals.Mem k e.dst))
      = L.filter fun e => decide (c.intervals.Mem k e.dst) := by
  refine List.filter_congr fun e he => decide_eq_decide.mpr ⟨And.right, fun hdst => ?_⟩
  exact ⟨(hlegal e he).src_of_dst hdst hk, hdst⟩

/-- The file of another shard is read back when its bytes stand for the
edges to that shard. -/
theorem Leaves.readNext {E : ShardEdges c V} (hfew : FewEdges E.edges)
    (hk : k ≠ c.shard) {files : ShardFiles V} (hleaves : Leaves c rand E.edges files)
    (hreads : Reads (c.intervals.first c.shard)
      (((sortEdges rand E.edges).filter fun e =>
        decide (c.intervals.Mem k e.dst)).map EdgeWithValue.ends) (files.adj k)) :
    readNextVerticesXG (c.intervals.first k) (c.intervals.second k)
        (c.intervals.second c.shard + 1 - c.intervals.first c.shard)
        (c.intervals.first c.shard) (files.outData k).length (files.adj k)
      = some (((sortEdges rand E.edges).filter fun e =>
        decide (c.intervals.Mem k e.dst)).map EdgeWithValue.ends) := by
  obtain ⟨hperm, -⟩ := sortEdges_spec rand hfew
  have hlegal := (E.scan rand hfew).legal
  have hlen := hperm.length_eq
  unfold FewEdges at hfew
  have hle := List.length_filter_le (fun e => decide (c.intervals.Mem k e.dst))
    (sortEdges rand E.edges)
  refine readNextVerticesXG_reads hreads ?_ ?_ ?_ ?_
  · rw [List.length_map]
    omega
  · rw [hleaves.outData k, valuesOf, filter_out hlegal hk, List.length_map, List.length_map]
  · intro q hq
    obtain ⟨e, he, rfl⟩ := List.mem_map.mp hq
    obtain ⟨hmem, hdst⟩ := List.mem_filter.mp he
    have hsrc := (hlegal e hmem).src_of_dst (of_decide_eq_true hdst) hk
    show e.src < _
    have := hsrc.2
    omega
  · intro q hq
    obtain ⟨e, he, rfl⟩ := List.mem_map.mp hq
    exact (of_decide_eq_true (List.mem_filter.mp he).2).2

theorem outRoundTrip_of_reads (E : ShardEdges c V) (hfew : FewEdges E.edges)
    (hk : k ≠ c.shard) {files : ShardFiles V}
    (hrun : reshard c rand E.edges = some files) (hleaves : Leaves c rand E.edges files)
    (hreads : Reads (c.intervals.first c.shard)
      (((sortEdges rand E.edges).filter fun e =>
        decide (c.intervals.Mem k e.dst)).map EdgeWithValue.ends) (files.adj k)) :
    OutRoundTrip c rand E.edges k := by
  obtain ⟨hperm, -⟩ := sortEdges_spec rand hfew
  refine ⟨files, hrun, _, hleaves.readNext hfew hk hreads, ?_, hreads.sorted⟩
  rw [filter_out E.legal hk]
  exact filter_perm hperm _

/-- A file that round-trips misses no edge to its shard. -/
theorem OutRoundTrip.complete (E : ShardEdges c V) (hfew : FewEdges E.edges)
    (hk : k ≠ c.shard) (h : OutRoundTrip c rand E.edges k) {files : ShardFiles V}
    (hrun : reshard c rand E.edges = some files) {log : Log V} {x : WriteSliding}
    (hsplit : log.map Prod.snd = sortEdges rand E.edges)
    (hadj : files.adj k = x.s.contents)
    (hcarries : x.Carries ((log.rowsOf k).map EdgeWithValue.dst)) :
    ∀ y ∈ log, c.intervals.Mem k y.2.dst → y.1 = k := by
  obtain ⟨hperm, -⟩ := sortEdges_spec rand hfew
  have hlen := hperm.length_eq
  unfold FewEdges at hfew
  obtain ⟨files', hrun', l, hread, hl, -⟩ := h
  obtain rfl := Option.some.inj (hrun.symm.trans hrun')
  obtain ⟨its, hv, hbytes, htargets⟩ := hcarries
  have hshort : (its.flatMap Item.targets).length < 2 ^ 31 := by
    have := length_rowsOf_le hsplit k
    rw [htargets, List.length_map]
    omega
  rw [hadj, hbytes] at hread
  have hsub := (readNextFrom_sublist hv hshort hread).map Prod.snd
  rw [map_snd_expand, htargets] at hsub
  rw [filter_out E.legal hk] at hl
  have hexpected := perm_dst (hl.trans (filter_perm hperm.symm _))
  rw [← hsplit] at hexpected
  exact Log.complete hsub hexpected

/-- A file that starts with held edges is refused. -/
theorem readNextVerticesXG_heldRow (hshard : c.shard < c.intervals.nshards)
    (hk : c.shard ≠ 0) {x : WriteSliding} (hrow : HeldRow c x) (slots : ℕ) :
    readNextVerticesXG (c.intervals.first 0) (c.intervals.second 0)
      (c.intervals.second c.shard + 1 - c.intervals.first c.shard)
      (c.intervals.first c.shard) slots x.s.contents = none := by
  obtain ⟨ts, hv, hlt, hbytes, t, ht, hmem⟩ := hrow
  have hsize := hmem.2
  have hn : 0 < c.intervals.nshards := Nat.zero_lt_of_lt hshard
  rw [hbytes]
  exact readNextVerticesXG_row hv hlt (by omega)
    ⟨t, ht, fun hrange => hk (hmem.unique ⟨hn, hrange⟩)⟩

/-- So it does not round-trip. -/
theorem not_outRoundTrip_of_row {edges : List (EdgeWithValue V)} {files : ShardFiles V}
    (hrun : reshard c rand edges = some files) (hk : 0 ≠ c.shard) {x : WriteSliding}
    (hadj : files.adj 0 = x.s.contents) (hrow : HeldRow c x) :
    ¬OutRoundTrip c rand edges 0 := by
  rintro ⟨files', hrun', l, hread, -⟩
  obtain rfl := Option.some.inj (hrun.symm.trans hrun')
  obtain ⟨ts, -, -, -, t, -, hmem⟩ := id hrow
  rw [hadj, readNextVerticesXG_heldRow hmem.1 hk.symm hrow] at hread
  exact absurd hread (by simp)

/-- With a long run, an edge is missing in what is read of the file of another
shard. -/
theorem exists_lost_readNext (E : ShardEdges c V) (hfew : FewEdges E.edges) {start : ℕ}
    {bytes : List UInt8}
    (hreads : ReadsUpTo (Passed c (sortEdges rand E.edges) k) start
      (((sortEdges rand E.edges).filter fun e =>
        decide (c.intervals.Mem k e.dst)).map EdgeWithValue.ends) bytes)
    (hlong : LongRun c E.edges k) {rangeSt rangeEnd nvecs slots : ℕ} {l : List (ℕ × ℕ)}
    (hread : readNextVerticesXG rangeSt rangeEnd nvecs start slots bytes = some l) :
    ∃ e ∈ E.edges, c.intervals.Mem k e.dst ∧ e.ends ∉ l := by
  obtain ⟨hperm, -⟩ := sortEdges_spec rand hfew
  have hlen := hperm.length_eq
  obtain ⟨its, hv, hbytes, has⟩ := hreads
  have hshort : (its.flatMap Item.targets).length < 2 ^ 31 := by
    have hle := List.length_filter_le
      (fun e => decide (c.intervals.Mem k e.dst)) (sortEdges rand E.edges)
    unfold FewEdges at hfew
    rw [← map_snd_expand start, List.length_map, has.length_eq, List.length_map]
    omega
  rw [hbytes] at hread
  obtain ⟨e, he, hdst, hlost⟩ := ReadsUpTo.exists_lost hperm hlong has
  exact ⟨e, he, hdst, fun hmem => hlost ((readNextFrom_sublist hv hshort hread).mem hmem)⟩

/-- With a long run in front of its rows, a file does not round-trip. -/
theorem not_outRoundTrip_of_longRun (E : ShardEdges c V) (hfew : FewEdges E.edges)
    (hk : k ≠ c.shard) {files : ShardFiles V} (hrun : reshard c rand E.edges = some files)
    (hreads : ReadsUpTo (Passed c (sortEdges rand E.edges) k) (c.intervals.first c.shard)
      (((sortEdges rand E.edges).filter fun e =>
        decide (c.intervals.Mem k e.dst)).map EdgeWithValue.ends) (files.adj k))
    (hlong : LongRun c E.edges k) : ¬OutRoundTrip c rand E.edges k := by
  rintro ⟨files', hrun', l, hread, hl, -⟩
  obtain rfl := Option.some.inj (hrun.symm.trans hrun')
  obtain ⟨e, he, hdst, hlost⟩ := exists_lost_readNext E hfew hreads hlong hread
  rw [filter_out E.legal hk] at hl
  exact hlost (hl.mem_iff.mpr (List.mem_map_of_mem
    (List.mem_filter.mpr ⟨he, decide_eq_true hdst⟩)))

/-- **The file of another shard round-trips exactly when** the call does not
fail, nothing but its edges is held for it, the last out-edges are not lost
to it, and no row of it comes after a run of `2 ^ 31` vertices or more. -/
theorem outRoundTrip_iff (E : ShardEdges c V) (rand : ℕ → ℕ) (k : ℕ) (hk : k ≠ c.shard)
    (hfew : FewEdges E.edges) :
    OutRoundTrip c rand E.edges k
      ↔ ¬(ZeroHead c E.edges ∧ (k = 0 ∨ OtherOut c E.edges))
        ∧ ¬(Jump c E.edges ∧ ∃ l, LastOut c E.edges l ∧ c.intervals.Mem k l.dst)
        ∧ ¬LongRun c E.edges k := by
  obtain ⟨hperm, -⟩ := sortEdges_spec rand hfew
  have hscan := E.scan rand hfew
  have hstart : startOf c k = c.intervals.first c.shard := if_neg hk
  rcases reshard_ending E rand hfew with ⟨files, hrun, hleaves⟩ | ⟨hnone, hzero, hother⟩
  · obtain ⟨log, wsl, hsplit, hadj, hcarries, hend⟩ := hleaves.adjacency
    rw [← ZeroHead.perm hperm, ← OtherOut.perm hperm, ← Jump.perm hperm]
    simp only [← LastOut.perm hperm]
    -- where the file has its edges, the runs decide
    have hright : (∀ x ∈ log, x.1 = k ↔ c.intervals.Mem k x.2.dst) →
        ReadsUpTo (Passed c (sortEdges rand E.edges) k) (startOf c k)
          ((log.rowsOf k).map EdgeWithValue.ends) (wsl k).s.contents →
        (OutRoundTrip c rand E.edges k ↔ ¬LongRun c E.edges k) := by
      intro hx hreads
      rw [Log.rowsOf_eq hx, hsplit, ← hadj, hstart] at hreads
      refine ⟨fun h hlong => not_outRoundTrip_of_longRun E hfew hk hrun hreads hlong h,
        fun hlong => outRoundTrip_of_reads E hfew hk hrun hleaves (hreads.reads ?_)⟩
      rw [← LongRun.perm hperm, longRun_iff] at hlong
      push Not at hlong
      exact hlong
    cases hend with
    | right noZeroHead noJump right reads =>
      rw [hright (fun x hx => ⟨?_, fun h => (right x hx).unique h⟩) (reads k)]
      · exact ⟨fun h => ⟨fun h => noZeroHead h.1, fun h => noJump h.1, h⟩, fun h => h.2.2⟩
      · rintro rfl
        exact right x hx
    | spoiled zeroHead noOther wrong files' empty =>
      -- an out-edge goes to shard 0, so only the file of shard 0 is wrong
      have hout : ∀ e ∈ sortEdges rand E.edges, c.intervals.Mem c.shard e.src →
          c.intervals.Mem 0 e.dst := by
        intro e he hsrc
        by_contra hdst
        exact noOther ⟨e, he, hsrc, fun h => hdst h.2⟩
      have hnone : k ≠ 0 → ∀ e ∈ sortEdges rand E.edges, ¬c.intervals.Mem k e.dst :=
        fun hk0 e he hdst =>
          hk0 (hdst.unique (hout e he ((hscan.legal e he).src_of_dst hdst hk)))
      constructor
      · intro h
        have hk0 : k ≠ 0 := by
          rintro rfl
          rcases wrong with ⟨-, hrow⟩ | ⟨x, hx, hxs, hmem⟩
          · exact not_outRoundTrip_of_row hrun hk (hadj 0) hrow h
          · exact zeroHead.1 (hxs.symm.trans
              (h.complete E hfew hk hrun hsplit (hadj 0) (hcarries 0) x hx hmem))
        refine ⟨fun ⟨_, hcase⟩ => hcase.elim hk0 noOther, fun ⟨_, l, hl, hkl⟩ => ?_,
          fun ⟨e, he, hdst, _⟩ => ?_⟩
        · exact hk0 (hkl.unique (hout l hl.1 hl.2.1))
        · exact hnone hk0 e (hperm.mem_iff.mpr he) hdst
      · rintro ⟨hzero, -, hlong⟩
        have hk0 : k ≠ 0 := fun h => hzero ⟨zeroHead, Or.inl h⟩
        have hfile : ∀ x ∈ log, x.1 ≠ k := by
          rintro x hx rfl
          exact (files' x hx).elim hk0 hk
        refine (hright (fun x hx => ⟨fun h => absurd h (hfile x hx), fun h => ?_⟩) ?_).mpr
          hlong
        · have hmem : x.2 ∈ sortEdges rand E.edges := by
            rw [← hsplit]
            exact List.mem_map_of_mem hx
          exact absurd h (hnone hk0 x.2 hmem)
        · have hnil : log.rowsOf k = [] :=
            List.eq_nil_iff_forall_not_mem.mpr fun e he => hfile _ (Log.mem_rowsOf.mp he) rfl
          rw [hnil, empty k hk0 hk]
          exact ⟨[], by simp, rfl, .nil⟩
    | jumped noZeroHead jump wrong reads =>
      obtain ⟨l, hl, -, hmem, hothers⟩ := wrong
      by_cases hlast : ∃ l, LastOut c (sortEdges rand E.edges) l ∧ c.intervals.Mem k l.dst
      · -- the last out-edges are missing
        refine ⟨fun h => ?_, fun h => absurd ⟨jump, hlast⟩ h.2.1⟩
        obtain ⟨l', hl', hkl'⟩ := hlast
        have hkey : l'.sortKey = l.sortKey :=
          le_antisymm (hl.2.2 l' hl'.1 hl'.2.1) (hl'.2.2 l hl.1 hl.2.1)
        have hdst : l'.dst = l.dst := congrArg Prod.snd (toLex.injective hkey)
        rw [hdst] at hkl'
        exact absurd (h.complete E hfew hk hrun hsplit (hadj k) (hcarries k) _ hmem hkl').symm
          hk
      · rw [hright (fun x hx => ⟨?_, fun h => ?_⟩) (reads k hk)]
        · exact ⟨fun h => ⟨fun hz => noZeroHead hz.1, fun h => hlast h.2, h⟩, fun h => h.2.2⟩
        · rintro rfl
          exact (hothers x hx).elim id fun h => absurd h.1 hk
        · rcases hothers x hx with hx' | ⟨-, hx'⟩
          · exact hx'.unique h
          · exact absurd ⟨l, hl, hx' k h⟩ hlast
  · constructor
    · rintro ⟨files, hrun, -⟩
      rw [hrun] at hnone
      exact absurd hnone (by simp)
    · rintro ⟨h, -⟩
      exact absurd ⟨hzero, Or.inr hother⟩ h

/-- The file of shard 0 of the edges of shard 1 in `plainEdges`
round-trips. -/
theorem outRoundTrip_plainEdges :
    OutRoundTrip (callFor 1) (fun _ => 0) plainEdges.edges 0 :=
  (outRoundTrip_iff plainEdges (fun _ => 0) 0 (by decide)
    (by unfold FewEdges; decide)).mpr
    ⟨fun h => absurd h.1 (by unfold ZeroHead; decide),
      fun h => h.1.2.2 ⟨21, 10, 8⟩ (by decide) (by decide),
      not_longRun_of_lt (by decide)⟩

/-- Edges of shard 0: an out-edge to shard 1, and an in-edge from shard
2. -/
def jumpEdges : ShardEdges (callFor 0) ℕ where
  edges := [⟨1, 10, 7⟩, ⟨20, 0, 8⟩]
  legal e he := by
    simp only [List.mem_cons, List.not_mem_nil, or_false] at he
    rcases he with rfl | rfl
    · exact ⟨by decide, by decide, ⟨0, by decide⟩, ⟨1, by decide⟩⟩
    · exact ⟨by decide, by decide, ⟨2, by decide⟩, ⟨0, by decide⟩⟩

/-- The out-edge is lost: nothing is read from the file of shard 1. -/
theorem not_outRoundTrip_jumpEdges :
    ¬OutRoundTrip (callFor 0) (fun _ => 0) jumpEdges.edges 1 := by
  have hread : (reshard (callFor 0) (fun _ => 0) jumpEdges.edges).map (fun files =>
      readNextVerticesXG 10 19 10 0 (files.outData 1).length (files.adj 1))
    = some (some []) := by decide
  rintro ⟨files, hrun, l, hl, hperm, -⟩
  rw [hrun, Option.map_some] at hread
  obtain rfl : l = [] := Option.some.inj (hl.symm.trans (Option.some.inj hread))
  exact absurd hperm.length_eq (by decide)

end RoundTrip

end Reshard
