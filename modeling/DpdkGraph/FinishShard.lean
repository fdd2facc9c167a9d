import Mathlib
import DpdkGraph.Intervals
import DpdkGraph.Reshard
import DpdkGraph.RadixSort
import DpdkGraph.ShardAdjacency

/-!
# `finish_shard`

The merge of the first sharding collects the edges of a shard, in the order
of their destinations, and hands them to `finish_shard`. There they are
sorted by source, equal edges that come to stand side by side are merged if
a duplicate filter is set, and the adjacency file is written.

The sort gets the number of edges and the largest vertex id as `int`s, and
the loop that skips sources without edges counts them in an `int`. For
sources below `2 ^ 31` that come in order, the writer is that of
`ShardAdjacency` (`add_eq`), so that its invariant holds.
-/

namespace FinishShard

open SparseRows
open Reshard (toInt32)
open ShardAdjacency (Writer Writes)

variable {V : Type}

/-! ## The edges -/

/-- **A shard of the first sharding** as the merge has collected it, with what
the memory for its sort holds before. -/
structure Shard (V : Type) where
  /-- `intervals`. -/
  part : IntervalPartition
  /-- The shard. -/
  shard : ℕ
  /-- `shovelbuf`. -/
  edges : List (EdgeWithValue V)
  /-- The merge gives the edges by destination. -/
  sorted : edges.Pairwise fun a b => a.dst ≤ b.dst
  /-- The destinations are in the interval. -/
  dst_mem : ∀ e ∈ edges, part.Mem shard e.dst
  /-- The sources are in some interval. -/
  src_mem : ∀ e ∈ edges, ∃ k, part.Mem k e.src
  /-- `preprocessing_add_edge` drops the others. -/
  noLoop : ∀ e ∈ edges, e.src ≠ e.dst
  /-- `duplicate_edge_filter`: its `acceptFirst`, if one is set. -/
  duplicateEdgeFilter : Option (V → V → Bool)
  /-- What the memory holds that the sort allocates. -/
  mem : ℕ → EdgeWithValue V

/-- The loop that merges equal edges; `prev` is the last edge of `tmpbuf`. -/
def removeDuplicatesFrom (acceptFirst : V → V → Bool) :
    EdgeWithValue V → List (EdgeWithValue V) → List (EdgeWithValue V)
  | prev, [] => [prev]
  | prev, cur :: es =>
    if prev.src = cur.src ∧ prev.dst = cur.dst then
      removeDuplicatesFrom acceptFirst
        (if acceptFirst cur.value prev.value then cur else prev) es
    else prev :: removeDuplicatesFrom acceptFirst cur es

/-- Equal edges side by side become one. -/
def removeDuplicates (acceptFirst : V → V → Bool) :
    List (EdgeWithValue V) → List (EdgeWithValue V)
  | [] => []
  | e :: es => removeDuplicatesFrom acceptFirst e es

namespace Shard

variable (x : Shard V)

/-- `max_vertex_id`: the last interval ends there. -/
def maxVertexId : ℕ := x.part.second (x.part.nshards - 1)

/-- `(int) numedges`: how many edges the sort gets. -/
def sortCount : ℕ := (toInt32 x.edges.length).toNat

/-- The edges when `iSort` is through. Those behind its number stay where
they are. -/
def sortedEdges : List (EdgeWithValue V) :=
  RadixSort.iSort x.mem (x.edges.take x.sortCount) (toInt32 x.maxVertexId)
      EdgeWithValue.src ++ x.edges.drop x.sortCount

/-- The edges that are written. -/
def writtenEdges : List (EdgeWithValue V) :=
  match x.duplicateEdgeFilter with
  | none => x.sortedEdges
  | some acceptFirst => removeDuplicates acceptFirst x.sortedEdges

end Shard

/-! ## The writer -/

/-- The difference of two `vid_t`s. -/
def vidSub (a b : ℕ) : ℕ := (a + (2 ^ 32 - b)) % 2 ^ 32

/-- The `do … while` loop that skips sources: `nz` is an `int`, and the
number of further sources is written as a byte. -/
def zeroItems : ℕ → ℤ → List Item
  | 0, _ => []
  | fuel + 1, nz =>
    .skip (min 254 (toInt32 (nz - 1)) % 256).toNat ::
      if 0 < toInt32 (nz - 1) - min 254 (toInt32 (nz - 1)) then
        zeroItems fuel (toInt32 (nz - 1) - min 254 (toInt32 (nz - 1)))
      else []

/-- The sources skipped before `src`. -/
def zeros (w : Writer) (first : Bool) (src : ℕ) : List Item :=
  if first = true ∧ 0 < src then zeroItems src (toInt32 src)
  else if 1 < vidSub src w.curvid then
    zeroItems (vidSub src w.curvid - 1) (toInt32 ((vidSub src w.curvid - 1 : ℕ) : ℤ))
  else []

/-- One round of the loop over the edges; none of them is the stopper. -/
def add (first : Bool) (w : Writer) (e : ℕ × ℕ) : Writer :=
  if e.1 = w.curvid then { w with pending := w.pending ++ [e.2] }
  else ⟨e.1, [e.2], w.items ++ w.row ++ zeros w first e.1⟩

/-- The items that are written for the edges. -/
def adjacency : List (ℕ × ℕ) → List Item
  | [] => Writer.stop ⟨0, [], []⟩
  | e :: es => (es.foldl (add false) (add true ⟨0, [], []⟩ e)).stop

/-- The endpoints of the edges that are written. -/
def Shard.written (x : Shard V) : List (ℕ × ℕ) := x.writtenEdges.map EdgeWithValue.ends

/-- **`finish_shard`**: the bytes of the adjacency file. -/
def Shard.file (x : Shard V) : List UInt8 := encode (adjacency x.written)

/-- `finish_shard`, on any edges that the sink may hand it. -/
def finishShard (duplicateEdgeFilter : Option (V → V → Bool)) (mem : ℕ → EdgeWithValue V)
    (maxVertexId : ℕ) (edges : List (EdgeWithValue V)) : List UInt8 :=
  let n := (toInt32 edges.length).toNat
  let sorted := RadixSort.iSort mem (edges.take n) (toInt32 maxVertexId) EdgeWithValue.src
    ++ edges.drop n
  let written := duplicateEdgeFilter.elim sorted fun acceptFirst =>
    removeDuplicates acceptFirst sorted
  encode (adjacency (written.map EdgeWithValue.ends))

/-- On the edges of a shard it writes the file of the shard. -/
theorem Shard.file_eq (x : Shard V) :
    x.file = finishShard x.duplicateEdgeFilter x.mem x.maxVertexId x.edges := by
  unfold file written writtenEdges finishShard
  dsimp only
  rw [← sortCount, ← sortedEdges]
  cases x.duplicateEdgeFilter with
  | none => rw [Option.elim_none]
  | some acceptFirst => rw [Option.elim_some]

/-- **The edges of the shard**; of equal ones there is one left if a
duplicate filter is set. -/
def Shard.kept (x : Shard V) : List (ℕ × ℕ) :=
  if x.duplicateEdgeFilter.isSome then (x.edges.map EdgeWithValue.ends).dedup
  else x.edges.map EdgeWithValue.ends

/-! ## What is sorted -/

section Sorted

/-- The endpoints that are left when equal edges side by side are merged. -/
theorem map_ends_removeDuplicates (acceptFirst : V → V → Bool)
    (l : List (EdgeWithValue V)) :
    (removeDuplicates acceptFirst l).map EdgeWithValue.ends
      = (l.map EdgeWithValue.ends).destutter (· ≠ ·) := by
  have hfrom : ∀ (l : List (EdgeWithValue V)) (prev : EdgeWithValue V),
      (removeDuplicatesFrom acceptFirst prev l).map EdgeWithValue.ends
        = (l.map EdgeWithValue.ends).destutter' (· ≠ ·) prev.ends := by
    intro l
    induction l with
    | nil => exact fun prev => rfl
    | cons cur l ih =>
      intro prev
      have hends : (prev.src = cur.src ∧ prev.dst = cur.dst) ↔ prev.ends = cur.ends :=
        Prod.mk_inj.symm
      rw [removeDuplicatesFrom, List.map_cons, List.destutter'_cons]
      by_cases h : prev.ends = cur.ends
      · rw [if_pos (hends.mpr h), if_neg (not_not.mpr h), ih]
        congr 1
        split
        · exact h.symm
        · rfl
      · rw [if_neg fun hc => h (hends.mp hc), if_pos h, List.map_cons, ih]
  cases l with
  | nil => rfl
  | cons e l => exact hfrom l e

namespace Shard

variable (x : Shard V)

theorem le_maxVertexId {k v : ℕ} (h : x.part.Mem k v) : v ≤ x.maxVertexId := by
  have hk := h.1
  rcases Nat.lt_or_ge k (x.part.nshards - 1) with hlt | hge
  · have hlast := IntervalPartition.second_lt_first (p := x.part) hlt (by omega)
    have hfirst := IntervalPartition.first_le (p := x.part) (k := x.part.nshards - 1) (by omega)
    have hv := h.2.2
    show v ≤ x.part.second (x.part.nshards - 1)
    omega
  · obtain rfl : k = x.part.nshards - 1 := by omega
    exact h.2.2

theorem src_le {e : EdgeWithValue V} (he : e ∈ x.edges) : e.src ≤ x.maxVertexId :=
  (x.src_mem e he).elim fun _ h => x.le_maxVertexId h

theorem dst_le {e : EdgeWithValue V} (he : e ∈ x.edges) : e.dst ≤ x.maxVertexId :=
  x.le_maxVertexId (x.dst_mem e he)

/-- The sort loses no edge. -/
theorem sortedEdges_perm : x.sortedEdges.Perm x.edges := by
  have h := (RadixSort.iSort_perm x.mem (x.edges.take x.sortCount)
    (toInt32 x.maxVertexId) EdgeWithValue.src).append_right (x.edges.drop x.sortCount)
  rwa [List.take_append_drop] at h

/-- An edge that the sort gets and one that it does not. -/
theorem dst_le_of_mem_take {e e' : EdgeWithValue V} (he : e ∈ x.edges.take x.sortCount)
    (he' : e' ∈ x.edges.drop x.sortCount) : e.dst ≤ e'.dst := by
  have hsorted := x.sorted
  rw [← List.take_append_drop x.sortCount x.edges, List.pairwise_append] at hsorted
  exact hsorted.2.2 e he e' he'

/-- The edges that the sort gets come out by source, and for one source by
destination. -/
theorem pairwise_iSort (hid : x.maxVertexId < 2 ^ 31) :
    (RadixSort.iSort x.mem (x.edges.take x.sortCount) (toInt32 x.maxVertexId)
      EdgeWithValue.src).Pairwise fun a b => a.sortKey ≤ b.sortKey := by
  have hmax : toInt32 x.maxVertexId = x.maxVertexId :=
    Reshard.toInt32_natCast (by omega)
  have hmod : ∀ e ∈ x.edges.take x.sortCount,
      e.src % 2 ^ RadixSort.log2Up (toInt32 x.maxVertexId) = e.src := by
    intro e he
    refine Nat.mod_eq_of_lt (lt_of_le_of_lt (x.src_le (List.mem_of_mem_take he)) ?_)
    rw [hmax]
    exact RadixSort.log2UpFrom_spec _ 0
  rw [RadixSort.iSort_eq, RadixSort.pairwise_buckets_iff
    fun e _ => Nat.mod_lt _ (Nat.two_pow_pos _)]
  refine (x.sorted.sublist (List.take_sublist _ _)).imp_of_mem fun {a b} ha hb hdst => ?_
  show (a.src % _ ≤ b.src % _ → _) ∧ (b.src % _ < a.src % _ → _)
  rw [hmod a ha, hmod b hb]
  constructor
  · intro hsrc
    rcases hsrc.lt_or_eq with hlt | heq
    · exact Prod.Lex.toLex_le_toLex.mpr (.inl hlt)
    · exact Prod.Lex.toLex_le_toLex.mpr (.inr ⟨heq, hdst⟩)
  · exact fun hsrc => Prod.Lex.toLex_le_toLex.mpr (.inl hsrc)

/-- **The edges that the sort does not get are in order**, behind the
others. There are none of them in a shard with fewer than `2 ^ 31` edges. -/
structure InOrder : Prop where
  /-- They are in order. -/
  rest : (x.edges.drop x.sortCount).Pairwise fun a b => a.src ≤ b.src
  /-- They come behind the others. -/
  behind : ∀ e ∈ x.edges.take x.sortCount, ∀ e' ∈ x.edges.drop x.sortCount,
    e.src ≤ e'.src

/-- A shard of ordinary size is in order. -/
theorem inOrder_of_length_lt (h : x.edges.length < 2 ^ 31) : x.InOrder := by
  have hcount : x.sortCount = x.edges.length := by
    unfold sortCount
    rw [Reshard.toInt32_natCast h]
    rfl
  have hnil : x.edges.drop x.sortCount = [] := by
    rw [hcount]
    exact List.drop_length
  constructor
  · rw [hnil]
    exact List.Pairwise.nil
  · rw [hnil]
    exact fun e _ e' he' => absurd he' List.not_mem_nil

/-- **When the sources are in order**, the destinations of each are too. -/
theorem InOrder.pairwise {x : Shard V} (h : x.InOrder) (hid : x.maxVertexId < 2 ^ 31) :
    x.sortedEdges.Pairwise fun a b => a.sortKey ≤ b.sortKey := by
  have hkey : ∀ {a b : EdgeWithValue V}, a.src ≤ b.src → a.dst ≤ b.dst →
      a.sortKey ≤ b.sortKey := fun hsrc hdst =>
    Prod.Lex.toLex_le_toLex.mpr (hsrc.lt_or_eq.imp id fun heq => ⟨heq, hdst⟩)
  have hiSort := RadixSort.iSort_perm x.mem (x.edges.take x.sortCount)
    (toInt32 x.maxVertexId) EdgeWithValue.src
  refine List.pairwise_append.mpr ⟨x.pairwise_iSort hid, ?_, fun a ha b hb => ?_⟩
  · have hdst := x.sorted.sublist (List.drop_sublist x.sortCount x.edges)
    exact (h.rest.and hdst).imp fun hab => hkey hab.1 hab.2
  · have ha' := hiSort.mem_iff.mp ha
    exact hkey (h.behind a ha' b hb) (x.dst_le_of_mem_take ha' hb)

/-- **The sort brings the sources in order** exactly then. -/
theorem inOrder_iff (hid : x.maxVertexId < 2 ^ 31) :
    x.InOrder ↔ x.sortedEdges.Pairwise fun a b => a.src ≤ b.src := by
  constructor
  · exact fun h => (h.pairwise hid).imp EdgeWithValue.src_le_of_sortKey_le
  · intro h
    obtain ⟨-, hrest, hbehind⟩ := List.pairwise_append.mp h
    refine ⟨hrest, fun e he => hbehind e ?_⟩
    exact (RadixSort.iSort_perm x.mem _ (toInt32 x.maxVertexId)
      EdgeWithValue.src).mem_iff.mpr he

/-- In any case the destinations of edges side by side of one source are in
order. -/
theorem isChain_sortedEdges (hid : x.maxVertexId < 2 ^ 31) :
    x.sortedEdges.IsChain fun a b => a.src = b.src → a.dst ≤ b.dst := by
  refine List.isChain_append.mpr ⟨?_, ?_, fun a ha b hb hsrc => ?_⟩
  · exact ((x.pairwise_iSort hid).imp fun hab hsrc =>
      EdgeWithValue.dst_le_of_sortKey_le hab hsrc).isChain
  · have hdst := x.sorted.sublist (List.drop_sublist x.sortCount x.edges)
    exact hdst.isChain.imp fun _ _ hab _ => hab
  · refine x.dst_le_of_mem_take ?_ (List.mem_of_mem_head? hb)
    exact (RadixSort.iSort_perm x.mem _ (toInt32 x.maxVertexId)
      EdgeWithValue.src).mem_iff.mp (List.mem_of_mem_getLast? ha)

/-- The endpoints written are those of the sorted edges, without those that
repeat the ones before them if a filter is set. -/
theorem written_eq : x.written
    = if x.duplicateEdgeFilter.isSome then
        (x.sortedEdges.map EdgeWithValue.ends).destutter (· ≠ ·)
      else x.sortedEdges.map EdgeWithValue.ends := by
  unfold written writtenEdges
  cases x.duplicateEdgeFilter with
  | none =>
    rw [if_neg (by simp)]
  | some acceptFirst =>
    rw [if_pos (Option.isSome_some)]
    exact map_ends_removeDuplicates acceptFirst _

/-- Edges with the same endpoints as an edge are not lost. -/
theorem mem_destutter {l : List (ℕ × ℕ)} {q : ℕ × ℕ} :
    q ∈ l.destutter (· ≠ ·) ↔ q ∈ l := by
  have hfrom : ∀ (l : List (ℕ × ℕ)) (p : ℕ × ℕ),
      q ∈ l.destutter' (· ≠ ·) p ↔ q ∈ p :: l := by
    intro l
    induction l with
    | nil => exact fun p => Iff.rfl
    | cons p' l ih =>
      intro p
      rw [List.destutter'_cons]
      by_cases h : p = p'
      · subst h
        rw [if_neg (not_not.mpr rfl), ih]
        simp
      · rw [if_pos h, List.mem_cons, ih, List.mem_cons (a := q) (b := p)]
  cases l with
  | nil => exact Iff.rfl
  | cons p l => exact hfrom l p

/-- An edge is written exactly if it is in the shard. -/
theorem mem_written {q : ℕ × ℕ} :
    q ∈ x.written ↔ q ∈ x.edges.map EdgeWithValue.ends := by
  have hperm := x.sortedEdges_perm.map EdgeWithValue.ends
  rw [written_eq]
  split
  · exact mem_destutter.trans hperm.mem_iff
  · exact hperm.mem_iff

/-- What is written lies among the vertices, without self loops, and in the
interval of the shard. -/
theorem written_bounds {q : ℕ × ℕ} (hq : q ∈ x.written) :
    q.1 ≤ x.maxVertexId ∧ q.2 ≤ x.maxVertexId ∧ q.1 ≠ q.2
      ∧ x.part.Mem x.shard q.2 := by
  obtain ⟨e, he, rfl⟩ := List.mem_map.mp (x.mem_written.mp hq)
  exact ⟨x.src_le he, x.dst_le he, x.noLoop e he, x.dst_mem e he⟩

/-- Merging does not bring the sources in order. -/
theorem pairwise_destutter_iff {l : List (ℕ × ℕ)} :
    (l.destutter (· ≠ ·)).Pairwise (fun a b => a.1 ≤ b.1)
      ↔ l.Pairwise fun a b => a.1 ≤ b.1 := by
  constructor
  · have hfrom : ∀ (l : List (ℕ × ℕ)) (p : ℕ × ℕ),
        (l.destutter' (· ≠ ·) p).Pairwise (fun a b => a.1 ≤ b.1) →
          (p :: l).Pairwise fun a b => a.1 ≤ b.1 := by
      intro l
      induction l with
      | nil => exact fun p h => h
      | cons p' l ih =>
        intro p h
        rw [List.destutter'_cons] at h
        by_cases heq : p = p'
        · subst heq
          rw [if_neg (not_not.mpr rfl)] at h
          have hl := ih p h
          refine List.pairwise_cons.mpr ⟨fun q hq => ?_, hl⟩
          rcases List.mem_cons.mp hq with rfl | hq
          · exact le_rfl
          · exact (List.pairwise_cons.mp hl).1 q hq
        · rw [if_pos heq] at h
          obtain ⟨hfirst, h⟩ := List.pairwise_cons.mp h
          have hl := ih p' h
          have hp := hfirst p' (List.mem_destutter' _ _ _)
          refine List.pairwise_cons.mpr ⟨fun q hq => ?_, hl⟩
          rcases List.mem_cons.mp hq with rfl | hq
          · exact hp
          · exact hp.trans ((List.pairwise_cons.mp hl).1 q hq)
    cases l with
    | nil => exact id
    | cons p l => exact hfrom l p
  · exact fun h => h.sublist (List.destutter_sublist _ _)

/-- **What is written is in order** exactly if the sort brings it in
order. -/
theorem inOrder_iff_written (hid : x.maxVertexId < 2 ^ 31) :
    x.InOrder ↔ x.written.Pairwise fun a b => a.1 ≤ b.1 := by
  have hmap : x.sortedEdges.Pairwise (fun a b => a.src ≤ b.src)
      ↔ (x.sortedEdges.map EdgeWithValue.ends).Pairwise fun a b => a.1 ≤ b.1 := by
    rw [List.pairwise_map]
    exact Iff.rfl
  rw [x.inOrder_iff hid, hmap, written_eq]
  split
  · exact pairwise_destutter_iff.symm
  · exact Iff.rfl

/-- **In order, what is written are the edges of the shard.** -/
theorem InOrder.written_perm {x : Shard V} (h : x.InOrder)
    (hid : x.maxVertexId < 2 ^ 31) : x.written.Perm x.kept := by
  have hperm := x.sortedEdges_perm.map EdgeWithValue.ends
  have hkeys := List.pairwise_map.mpr (h.pairwise hid)
  rw [written_eq]
  unfold kept
  split
  · have hsorted : (x.sortedEdges.map EdgeWithValue.ends).Pairwise
        fun a b => toLex a ≤ toLex b := List.pairwise_map.mpr (h.pairwise hid)
    have : Std.Antisymm fun a b : ℕ × ℕ => toLex a ≤ toLex b :=
      ⟨fun a b hab hba => toLex.injective (le_antisymm hab hba)⟩
    rw [hsorted.destutter_eq_dedup]
    exact hperm.dedup
  · exact hperm

/-- Then also the destinations of each source are in order. -/
theorem InOrder.written_pairwise {x : Shard V} (h : x.InOrder)
    (hid : x.maxVertexId < 2 ^ 31) :
    x.written.Pairwise fun a b => toLex a ≤ toLex b := by
  have hsorted : (x.sortedEdges.map EdgeWithValue.ends).Pairwise
      fun a b => toLex a ≤ toLex b := List.pairwise_map.mpr (h.pairwise hid)
  rw [written_eq]
  split
  · exact hsorted.sublist (List.destutter_sublist _ _)
  · exact hsorted

end Shard

end Sorted

/-! ## What is written -/

section Writing

/-- A number of sources that an `int` holds is skipped as it should. -/
theorem zeroItems_eq {fuel nz : ℕ} (hpos : 0 < nz) (hlt : nz < 2 ^ 31) :
    zeroItems fuel nz = ShardAdjacency.zeroItems fuel nz := by
  induction fuel generalizing nz with
  | zero => rfl
  | succ fuel ih =>
    have hint : toInt32 ((nz : ℤ) - 1) = ((nz - 1 : ℕ) : ℤ) := by
      unfold toInt32
      rw [Int.bmod_eq_of_le (by omega) (by omega)]
      omega
    have hmin : min 254 (((nz - 1 : ℕ) : ℤ)) = ((min 254 (nz - 1) : ℕ) : ℤ) := by
      omega
    have hbyte : ((min 254 (nz - 1) : ℕ) : ℤ) % 256 = ((min 254 (nz - 1) : ℕ) : ℤ) := by
      omega
    have hrest : ((nz - 1 : ℕ) : ℤ) - ((min 254 (nz - 1) : ℕ) : ℤ)
        = ((nz - 1 - min 254 (nz - 1) : ℕ) : ℤ) := by
      omega
    unfold zeroItems ShardAdjacency.zeroItems
    rw [hint, hmin, hbyte, hrest, Int.toNat_natCast]
    by_cases hmore : 0 < nz - 1 - min 254 (nz - 1)
    · rw [if_pos hmore, if_pos (by omega), ih hmore (by omega)]
    · rw [if_neg hmore, if_neg (by omega)]

/-- The difference to a smaller `vid_t`. -/
theorem vidSub_eq {a b : ℕ} (hba : b ≤ a) (ha : a < 2 ^ 32) : vidSub a b = a - b := by
  unfold vidSub
  omega

/-- **Up to sources below `2 ^ 31`** the writer goes on as it should. -/
theorem add_eq {first : Bool} {w : Writer} {e : ℕ × ℕ} (hle : w.curvid ≤ e.1)
    (hlt : e.1 < 2 ^ 31) : add first w e = Writer.add first w e := by
  have hzeros : zeros w first e.1 = w.zeros first e.1 := by
    have hint : ∀ n : ℕ, n < 2 ^ 31 → toInt32 n = n := fun n hn =>
      Reshard.toInt32_natCast hn
    unfold zeros Writer.zeros
    rw [vidSub_eq hle (by omega)]
    by_cases hfirst : first = true ∧ 0 < e.1
    · rw [if_pos hfirst, if_pos hfirst, hint _ hlt, zeroItems_eq hfirst.2 hlt]
    · rw [if_neg hfirst, if_neg hfirst]
      by_cases hgap : 1 < e.1 - w.curvid
      · rw [if_pos hgap, if_pos hgap, hint _ (by omega),
          zeroItems_eq (by omega) (by omega)]
      · rw [if_neg hgap, if_neg hgap]
  unfold add Writer.add
  rw [hzeros]

/-- The writer of edges in order. -/
theorem foldl_add_eq {es : List (ℕ × ℕ)} {w : Writer}
    (hsorted : es.Pairwise fun a b => a.1 ≤ b.1) (hcur : ∀ e ∈ es, w.curvid ≤ e.1)
    (hlt : ∀ e ∈ es, e.1 < 2 ^ 31) :
    es.foldl (add false) w = es.foldl (Writer.add false) w := by
  induction es generalizing w with
  | nil => rfl
  | cons e es ih =>
    obtain ⟨hfirst, hsorted⟩ := List.pairwise_cons.mp hsorted
    rw [List.foldl_cons, List.foldl_cons,
      add_eq (hcur e List.mem_cons_self) (hlt e List.mem_cons_self)]
    refine ih hsorted (fun e' he' => ?_) fun e' he' => hlt e' (List.mem_cons_of_mem _ he')
    rw [ShardAdjacency.curvid_add]
    exact hfirst e' he'

/-- What has been written stays. -/
theorem stop_foldl (es : List (ℕ × ℕ)) (w : Writer) :
    ∃ tail, (es.foldl (add false) w).stop = w.items ++ tail := by
  induction es generalizing w with
  | nil => exact ⟨w.row, rfl⟩
  | cons e es ih =>
    obtain ⟨tail, htail⟩ := ih (add false w e)
    rw [List.foldl_cons, htail]
    unfold add
    split
    · exact ⟨tail, rfl⟩
    · refine ⟨w.row ++ zeros w false e.1 ++ tail, ?_⟩
      simp only [List.append_assoc]

/-- With the next source, the row under way is written too. -/
theorem stop_foldl_row (es : List (ℕ × ℕ)) (w : Writer)
    (h : ∀ e ∈ es.head?, e.1 ≠ w.curvid) :
    ∃ tail, (es.foldl (add false) w).stop = w.items ++ w.row ++ tail
      ∧ (es = [] → tail = []) := by
  cases es with
  | nil => exact ⟨[], (List.append_nil _).symm, fun _ => rfl⟩
  | cons e es =>
    have hne : e.1 ≠ w.curvid := h e rfl
    obtain ⟨tail, htail⟩ := stop_foldl es (add false w e)
    refine ⟨zeros w false e.1 ++ tail, ?_, fun hnil => absurd hnil (List.cons_ne_nil _ _)⟩
    rw [List.foldl_cons, htail]
    unfold add
    rw [if_neg hne, List.append_assoc, List.append_assoc]

/-- **Where the file has come to with the row of a source**, as long as the
sources are in order up to there. The row is complete when an edge with another
source comes, or the end; whatever is written later does not change what is
before it. -/
theorem adjacency_append {l es : List (ℕ × ℕ)} {e : ℕ × ℕ}
    (hsorted : (l ++ [e]).Pairwise fun a b => a.1 ≤ b.1)
    (hlt : ∀ q ∈ l ++ [e], q.1 < 2 ^ 31) (hnext : ∀ q ∈ es.head?, q.1 ≠ e.1) :
    ∃ w : Writer, Writes w (l ++ [e]) ∧ w.curvid = e.1 ∧ ∃ tail,
      adjacency (l ++ [e] ++ es) = w.items ++ .row w.pending :: tail
        ∧ (es = [] → tail = []) := by
  obtain ⟨q, l', hl⟩ : ∃ q l', l ++ [e] = q :: l' :=
    List.exists_cons_of_ne_nil (List.append_ne_nil_of_right_ne_nil _ (List.cons_ne_nil _ _))
  have hcurvid : ∀ (l : List (ℕ × ℕ)) (w : Writer) (q : ℕ × ℕ),
      ((l ++ [q]).foldl (Writer.add false) w).curvid = q.1 := by
    intro l w q
    rw [List.foldl_append, List.foldl_cons, List.foldl_nil]
    exact ShardAdjacency.curvid_add _ _ _
  rw [hl] at hsorted hlt ⊢
  obtain ⟨hfirst, hrest⟩ := List.pairwise_cons.mp hsorted
  -- up to here the counter of vertices does not wrap around, so that the C walk is
  -- the one on natural numbers
  have hadd : add true ⟨0, [], []⟩ q = Writer.add true ⟨0, [], []⟩ q :=
    add_eq (Nat.zero_le _) (hlt q List.mem_cons_self)
  have hfold := foldl_add_eq (w := Writer.add true ⟨0, [], []⟩ q) hrest
    (fun q' hq' => by
      rw [ShardAdjacency.curvid_add]
      exact hfirst q' hq')
    fun q' hq' => hlt q' (List.mem_cons_of_mem _ hq')
  have hwrites := ShardAdjacency.adjacency_writes hsorted
  have hcur : (l'.foldl (Writer.add false) (Writer.add true ⟨0, [], []⟩ q)).curvid
      = e.1 := by
    cases l with
    | nil =>
      obtain ⟨rfl, rfl⟩ := List.cons.inj hl
      exact ShardAdjacency.curvid_add _ _ _
    | cons p l =>
      obtain ⟨rfl, rfl⟩ := List.cons.inj hl
      exact hcurvid _ _ _
  refine ⟨_, hwrites, hcur, ?_⟩
  -- the edges behind have other sources, so that they only add items behind this row
  obtain ⟨tail, htail, hnil⟩ := stop_foldl_row es
    (l'.foldl (Writer.add false) (Writer.add true ⟨0, [], []⟩ q))
    fun q' hq' => hcur.symm ▸ hnext q' hq'
  refine ⟨tail, ?_, hnil⟩
  rw [List.cons_append]
  show ((l' ++ es).foldl (add false) (add true ⟨0, [], []⟩ q)).stop = _
  rw [List.foldl_append, hadd, hfold, htail]
  unfold Writer.row
  rw [if_neg hwrites.pending, List.append_assoc]
  rfl

/-- **The items of edges in order** are those of `ShardAdjacency`. -/
theorem adjacency_eq {l : List (ℕ × ℕ)} (hsorted : l.Pairwise fun a b => a.1 ≤ b.1)
    (hlt : ∀ q ∈ l, q.1 < 2 ^ 31) : adjacency l = ShardAdjacency.adjacency l := by
  cases l with
  | nil => rfl
  | cons q l =>
    obtain ⟨hfirst, hrest⟩ := List.pairwise_cons.mp hsorted
    show (l.foldl (add false) (add true ⟨0, [], []⟩ q)).stop
      = (l.foldl (Writer.add false) (Writer.add true ⟨0, [], []⟩ q)).stop
    have hadd : add true ⟨0, [], []⟩ q = Writer.add true ⟨0, [], []⟩ q :=
      add_eq (Nat.zero_le _) (hlt q List.mem_cons_self)
    rw [hadd, foldl_add_eq hrest]
    · intro q' hq'
      rw [ShardAdjacency.curvid_add]
      exact hfirst q' hq'
    · exact fun q' hq' => hlt q' (List.mem_cons_of_mem _ hq')

end Writing

end FinishShard
