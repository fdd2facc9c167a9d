import Mathlib
import DpdkGraph.ShovelFiles

/-!
# What the merge of the shovels hands on

The merge hands the edges of all shovel files to `sharder::add`. It is meant
to hand on every edge that was added, once, and all of them in the order of
their destinations.

It does neither always. A shovel is sorted on the bits of the largest id
known when it is flushed, which leaves out the edge that filled it
(`nonDecreasing_iff`). A source is asked for a first edge without being
asked whether it has one, and the last shovel has none when the number of
edges is a multiple of the shovel size; and a file that an earlier run left
behind is not truncated (`separate_of_handsOn`). What the sink does with the
edges that it is handed is the subject of `MergeSink`.
-/

namespace Shovel

variable {V : Type}

/-- What fresh memory holds at the allocations of a run: the second buffer
of the radix sort, the buffers of the sources and the cells of the heap. -/
structure Memory (V : Type) where
  /-- In the sorts. -/
  sort : ℕ → EdgeWithValue V
  /-- In the sources. -/
  buffers : ℕ → ℕ → EdgeWithValue V
  /-- In the heap. -/
  heap : ℕ → KWayMerge.ValueSource (EdgeWithValue V)

/-- `bufsize_edges` of the sources of a merge: half of the memory budget is
divided among them, and each share rounded up to whole edges. -/
def bufsizeEdges (c : Config) (numshovels : ℕ) : ℕ :=
  (c.membudget / 2 / numshovels + c.edgeSize - 1) / c.edgeSize

/-- The sources have a buffer as long as there is a byte for each. -/
theorem bufsizeEdges_pos (c : Config) {numshovels : ℕ} (h : 0 < numshovels) :
    0 < bufsizeEdges c numshovels ↔ numshovels ≤ c.membudget / 2 := by
  have hsize := c.edgeSize_pos
  rw [← Nat.div_pos_iff.trans (and_iff_right h)]
  unfold bufsizeEdges
  rw [Nat.div_pos_iff]
  omega

/-- **`write_shards`, the merge** of the files of a session: the edges that
`add` gets, if `fuel` rounds are enough and no assertion fails. -/
def mergeShovels (c : Config) (m : Memory V) (s : Session V) (fuel : ℕ) :
    Option (List (EdgeWithValue V)) :=
  (KWayMerge.merge (ShovelMergeSource.source V) EdgeWithValue.dst s.numshovels m.heap
    (fun i => ShovelMergeSource.openFile (bufsizeEdges c s.numshovels) (m.buffers i)
      (s.files i)) fuel).map (List.map KWayMerge.ValueSource.value)

/-- The edges that `add` gets after the calls. -/
def handed (c : Config) (m : Memory V) (disk : ℕ → List (EdgeWithValue V))
    (calls : List (EdgeWithValue V)) (fuel : ℕ) : Option (List (EdgeWithValue V)) :=
  mergeShovels c m (Session.session c m.sort disk calls) fuel

/-- The merge does not depend on how many rounds it may take. -/
theorem handed_mono {c : Config} {m : Memory V} {disk : ℕ → List (EdgeWithValue V)}
    {calls out : List (EdgeWithValue V)} {fuel fuel' : ℕ} (hle : fuel ≤ fuel')
    (h : handed c m disk calls fuel = some out) : handed c m disk calls fuel' = some out := by
  obtain ⟨sunk, hrun, rfl⟩ := Option.map_eq_some_iff.mp h
  exact congrArg (Option.map _) (KWayMerge.merge_mono hle hrun)

/-- **The merge hands the edges on in the order of their destinations**,
whatever fresh memory holds. -/
def NonDecreasing (c : Config) (disk : ℕ → List (EdgeWithValue V))
    (calls : List (EdgeWithValue V)) : Prop :=
  ∀ m : Memory V, ∃ bound, ∀ fuel, bound < fuel →
    ∃ out, handed c m disk calls fuel = some out
      ∧ out.Pairwise fun a b => a.dst ≤ b.dst

/-- **The merge hands on each edge that was added once**, whatever fresh
memory holds, and as many as have been counted. -/
def HandsOn (c : Config) (disk : ℕ → List (EdgeWithValue V))
    (calls : List (EdgeWithValue V)) : Prop :=
  ∀ m : Memory V, ∃ bound, ∀ fuel, bound < fuel →
    ∃ out, handed c m disk calls fuel = some out
      ∧ (Session.session c m.sort disk calls).shoveledEdges = out.length
      ∧ out.Perm (kept calls)

/-! ## The merge of a session -/

/-- How many shovel files a session makes. -/
def files (c : Config) (calls : List (EdgeWithValue V)) : ℕ :=
  (kept calls).length / c.shovelsize + 1

/-- What source `i` gives to the merge. -/
def given (c : Config) (m : Memory V) (disk : ℕ → List (EdgeWithValue V))
    (calls : List (EdgeWithValue V)) (i : ℕ) : List (EdgeWithValue V) :=
  ShovelMergeSource.delivered (bufsizeEdges c (files c calls)) (m.buffers i)
    (fileOf c m.sort disk (kept calls) i)

/-- **The merge ends**, and hands on what its sources give, in the order of the
destinations exactly if each source gives its edges so. -/
theorem handed_of_sources (c : Config) (m : Memory V) (disk : ℕ → List (EdgeWithValue V))
    (calls : List (EdgeWithValue V)) :
    ∃ bound, ∀ fuel, bound < fuel → ∃ out, handed c m disk calls fuel = some out
      ∧ out.Perm ((List.range (files c calls)).flatMap (given c m disk calls))
      ∧ ((out.Pairwise fun a b => a.dst ≤ b.dst) ↔ ∀ i, i < files c calls →
        (given c m disk calls i).Pairwise fun a b => a.dst ≤ b.dst) := by
  obtain ⟨hnum, -, hfiles⟩ := session_files c m.sort disk calls
  refine ⟨KWayMerge.left (files c calls) (given c m disk calls), fun fuel hfuel => ?_⟩
  have hdel : ∀ i, i < files c calls → KWayMerge.Delivers (ShovelMergeSource.source V)
      (ShovelMergeSource.openFile (bufsizeEdges c (files c calls)) (m.buffers i)
        ((Session.session c m.sort disk calls).files i))
      (given c m disk calls i) := by
    intro i hi
    rw [hfiles i hi]
    exact ShovelMergeSource.delivers _ _ _
  obtain ⟨sunk, hrun, hproj, hindex, hsorted⟩ :=
    KWayMerge.merge_spec EdgeWithValue.dst m.heap hdel hfuel
  refine ⟨sunk.map KWayMerge.ValueSource.value, ?_, KWayMerge.sunk_perm hproj hindex, ?_⟩
  · unfold handed mergeShovels
    rw [hnum]
    exact congrArg (Option.map (List.map KWayMerge.ValueSource.value)) hrun
  · rw [List.pairwise_map]
    exact ⟨fun h i hi => KWayMerge.pairwise_of_sunk hproj h i hi, hsorted⟩

/-! ## The shovels -/

theorem length_shovelOf (S : ℕ) (E : List (EdgeWithValue V)) (i : ℕ) :
    (shovelOf S E i).length = min S (E.length - i * S) := by
  unfold shovelOf
  rw [List.length_take, List.length_drop]

/-- The first shovels are the first edges. -/
theorem flatMap_shovelOf (S : ℕ) (E : List (EdgeWithValue V)) (k : ℕ) :
    (List.range k).flatMap (shovelOf S E) = E.take (k * S) := by
  induction k with
  | zero => rw [Nat.zero_mul]; rfl
  | succ k ih =>
    rw [List.range_succ, List.flatMap_append, List.flatMap_singleton, ih, Nat.succ_mul,
      List.take_add]
    rfl

/-- All shovels are all edges. -/
theorem flatMap_shovelOf_files (c : Config) (calls : List (EdgeWithValue V)) :
    (List.range (files c calls)).flatMap (shovelOf c.shovelsize (kept calls))
      = kept calls := by
  rw [flatMap_shovelOf]
  refine List.take_of_length_le ?_
  have hdiv := Nat.div_add_mod' (kept calls).length c.shovelsize
  have hmod := Nat.mod_lt (kept calls).length c.shovelsize_pos
  unfold files
  rw [Nat.succ_mul]
  omega

/-- The sort rearranges a shovel. -/
theorem sortShovel_perm (mem : ℕ → EdgeWithValue V) (maxVertex : ℕ)
    (buffer : List (EdgeWithValue V)) :
    (sortShovel mem maxVertex buffer).Perm buffer := by
  refine ((RadixSort.iSort_perm _ _ _ _).append_right _).trans ?_
  rw [List.take_append_drop]

theorem length_fileOf (c : Config) (mem : ℕ → EdgeWithValue V)
    (disk : ℕ → List (EdgeWithValue V)) (E : List (EdgeWithValue V)) (i : ℕ) :
    (fileOf c mem disk E i).length
      = max (shovelOf c.shovelsize E i).length (disk i).length := by
  unfold fileOf overwrite
  rw [List.length_append, List.length_drop, (sortShovel_perm _ _ _).length_eq]
  omega

/-! ## In the order of the destinations -/

/-- How many edges of a shovel the sort reaches. -/
def reach (c : Config) (E : List (EdgeWithValue V)) (i : ℕ) : ℕ :=
  (intT (shovelOf c.shovelsize E i).length).toNat

/-- What the sort of a shovel does not reach: edges past the number of edges
as it gets it, and what is left of an older, longer file. -/
def unreached (c : Config) (disk : ℕ → List (EdgeWithValue V))
    (E : List (EdgeWithValue V)) (i : ℕ) : List (EdgeWithValue V) :=
  (shovelOf c.shovelsize E i).drop (reach c E i)
    ++ (disk i).drop (shovelOf c.shovelsize E i).length

/-- **The conditions for shovel `i` to be read in order.** The sort is called
with a number of items and of bits that may be too small, and the buffer through
which the file is read may have no room. -/
structure ShovelInOrder (c : Config) (disk : ℕ → List (EdgeWithValue V))
    (calls : List (EdgeWithValue V)) (i : ℕ) : Prop where
  /-- On the edges that the sort reaches, the order of the bits it looks at
  is the order of the destinations. -/
  bits : ((shovelOf c.shovelsize (kept calls) i).take (reach c (kept calls) i)).Pairwise
    (RadixSort.InOrder
      (fun e => e.dst % 2 ^ RadixSort.log2Up (intT (hintOf c.shovelsize (kept calls) i)))
      fun a b => a.dst ≤ b.dst)
  /-- What it does not reach is in order … -/
  unreached : (unreached c disk (kept calls) i).Pairwise fun a b => a.dst ≤ b.dst
  /-- … and belongs behind. -/
  behind : ∀ a ∈ (shovelOf c.shovelsize (kept calls) i).take (reach c (kept calls) i),
    ∀ b ∈ Shovel.unreached c disk (kept calls) i, a.dst ≤ b.dst
  /-- The file is read through a buffer, or has one edge at most. -/
  buffered : files c calls ≤ c.membudget / 2
    ∨ max (shovelOf c.shovelsize (kept calls) i).length (disk i).length ≤ 1

/-- When a shovel file is in order. -/
theorem pairwise_fileOf_iff (c : Config) (mem : ℕ → EdgeWithValue V)
    (disk : ℕ → List (EdgeWithValue V)) (E : List (EdgeWithValue V)) (i : ℕ) :
    ((fileOf c mem disk E i).Pairwise fun a b => a.dst ≤ b.dst)
      ↔ ((shovelOf c.shovelsize E i).take (reach c E i)).Pairwise
          (RadixSort.InOrder
            (fun e => e.dst % 2 ^ RadixSort.log2Up (intT (hintOf c.shovelsize E i)))
            fun a b => a.dst ≤ b.dst)
        ∧ ((unreached c disk E i).Pairwise fun a b => a.dst ≤ b.dst)
        ∧ ∀ a ∈ (shovelOf c.shovelsize E i).take (reach c E i),
          ∀ b ∈ unreached c disk E i, a.dst ≤ b.dst := by
  have hfile : fileOf c mem disk E i
      = RadixSort.iSort mem ((shovelOf c.shovelsize E i).take (reach c E i))
          (intT (hintOf c.shovelsize E i)) EdgeWithValue.dst
        ++ unreached c disk E i := by
    unfold fileOf overwrite
    rw [(sortShovel_perm _ _ _).length_eq]
    unfold sortShovel unreached
    rw [← List.append_assoc]
    rfl
  rw [hfile, List.pairwise_append, RadixSort.pairwise_iSort_iff]
  refine and_congr_right fun _ => and_congr_right fun _ => ?_
  exact ⟨fun h a ha => h a ((RadixSort.iSort_perm _ _ _ _).mem_iff.mpr ha),
    fun h a ha => h a ((RadixSort.iSort_perm _ _ _ _).mem_iff.mp ha)⟩

/-- What the merge gets of a shovel that is read in order is in order. -/
theorem ShovelInOrder.pairwise_given {c : Config} {disk : ℕ → List (EdgeWithValue V)}
    {calls : List (EdgeWithValue V)} {i : ℕ} (h : ShovelInOrder c disk calls i)
    (m : Memory V) : (given c m disk calls i).Pairwise fun a b => a.dst ≤ b.dst := by
  have hfile := (pairwise_fileOf_iff c m.sort disk (kept calls) i).mpr
    ⟨h.bits, h.unreached, h.behind⟩
  unfold given ShovelMergeSource.delivered
  split
  · exact hfile
  · next hb =>
    -- a source without a file or a buffer gives one edge at most
    have hone : max 1 (fileOf c m.sort disk (kept calls) i).length = 1 := by
      refine max_eq_left ?_
      rcases h.buffered with hbuf | hle
      · by_contra hgt
        refine hb ⟨(bufsizeEdges_pos c (Nat.succ_pos _)).mpr hbuf, fun hnil => hgt ?_⟩
        rw [hnil]
        exact Nat.zero_le 1
      · rw [length_fileOf]
        exact hle
    rw [hone]
    exact List.pairwise_singleton _ _

section Order

variable [Inhabited V]

/-- Memory whose first cell has a larger destination than the others. -/
def fallingMemory (V : Type) [Inhabited V] : Memory V where
  sort := fun _ => ⟨0, 0, default⟩
  buffers := fun _ j => ⟨0, if j = 0 then 1 else 0, default⟩
  heap := fun _ => ⟨0, ⟨0, 0, default⟩⟩

/-- Only shovels that are read in order give an ordered merge. -/
theorem shovelInOrder_of_nonDecreasing {c : Config}
    {disk : ℕ → List (EdgeWithValue V)} {calls : List (EdgeWithValue V)}
    (h : NonDecreasing c disk calls) (i : ℕ) (hi : i < files c calls) :
    ShovelInOrder c disk calls i := by
  obtain ⟨bound, hbound⟩ := h (fallingMemory V)
  obtain ⟨bound', hspec⟩ := handed_of_sources c (fallingMemory V) disk calls
  obtain ⟨out, hout, hsorted⟩ := hbound (max bound bound' + 1) (by omega)
  obtain ⟨out', hout', -, hiff⟩ := hspec (max bound bound' + 1) (by omega)
  rw [hout, Option.some.injEq] at hout'
  rw [hout'] at hsorted
  have hgiven := hiff.mp hsorted i hi
  -- either the file has one edge at most, or the source gives it
  have hsplit : (files c calls ≤ c.membudget / 2
        ∨ max (shovelOf c.shovelsize (kept calls) i).length (disk i).length ≤ 1)
      ∧ (fileOf c (fallingMemory V).sort disk (kept calls) i).Pairwise
        fun a b => a.dst ≤ b.dst := by
    have hlength := length_fileOf c (fallingMemory V).sort disk (kept calls) i
    have hone : ∀ l : List (EdgeWithValue V), l.length ≤ 1 →
        l.Pairwise fun a b => a.dst ≤ b.dst := by
      intro l hl
      match l, hl with
      | [], _ => exact List.Pairwise.nil
      | [e], _ => exact List.pairwise_singleton _ e
    by_cases hle : (fileOf c (fallingMemory V).sort disk (kept calls) i).length ≤ 1
    · exact ⟨Or.inr (hlength ▸ hle), hone _ hle⟩
    · have hne : fileOf c (fallingMemory V).sort disk (kept calls) i ≠ [] := by
        intro hnil
        rw [hnil] at hle
        exact hle (Nat.zero_le 1)
      unfold given ShovelMergeSource.delivered at hgiven
      split at hgiven
      · next hb =>
        exact ⟨Or.inl ((bufsizeEdges_pos c (Nat.succ_pos _)).mp hb.1), hgiven⟩
      · -- memory of falling destinations is given instead
        exfalso
        rw [List.pairwise_map, List.pairwise_iff_getElem] at hgiven
        have h01 := hgiven 0 1 (by rw [List.length_range]; omega)
          (by rw [List.length_range]; omega) Nat.zero_lt_one
        rw [List.getElem_range, List.getElem_range] at h01
        exact Nat.not_succ_le_zero 0 h01
  obtain ⟨hbits, hun, hbehind⟩ := (pairwise_fileOf_iff _ _ _ _ _).mp hsplit.2
  exact ⟨hbits, hun, hbehind, hsplit.1⟩

/-- **When the merge hands the edges on in the order of their
destinations**: exactly when every shovel is read in order. -/
theorem nonDecreasing_iff (c : Config) (disk : ℕ → List (EdgeWithValue V))
    (calls : List (EdgeWithValue V)) :
    NonDecreasing c disk calls
      ↔ ∀ i, i < files c calls → ShovelInOrder c disk calls i := by
  refine ⟨shovelInOrder_of_nonDecreasing, fun h m => ?_⟩
  obtain ⟨bound, hspec⟩ := handed_of_sources c m disk calls
  refine ⟨bound, fun fuel hfuel => ?_⟩
  obtain ⟨out, hout, -, hiff⟩ := hspec fuel hfuel
  exact ⟨out, hout, hiff.mpr fun i hi => (h i hi).pairwise_given m⟩

end Order

/-- A shovel is read in order if every destination in it is at most the
largest id known at its flush, all fit an `intT`, and its file replaces an
older one. -/
theorem ShovelInOrder.of_bounds {c : Config} {disk : ℕ → List (EdgeWithValue V)}
    {calls : List (EdgeWithValue V)} {i : ℕ}
    (hbuf : files c calls ≤ c.membudget / 2)
    (hold : (disk i).length ≤ (shovelOf c.shovelsize (kept calls) i).length)
    (hlen : (shovelOf c.shovelsize (kept calls) i).length < 2 ^ 31)
    (hhint : hintOf c.shovelsize (kept calls) i < 2 ^ 31)
    (hle : ∀ e ∈ shovelOf c.shovelsize (kept calls) i,
      e.dst ≤ hintOf c.shovelsize (kept calls) i) :
    ShovelInOrder c disk calls i := by
  have hint : ∀ n : ℕ, n < 2 ^ 31 → intT n = n := by
    intro n hn
    unfold intT
    exact Int.bmod_eq_of_le (by omega) (by omega)
  have hnone : Shovel.unreached c disk (kept calls) i = [] := by
    unfold Shovel.unreached reach
    rw [hint _ hlen, Int.toNat_natCast, List.drop_length, List.drop_eq_nil_of_le hold]
    rfl
  refine ⟨RadixSort.inOrder_of_le fun e he => ?_, ?_, ?_, Or.inl hbuf⟩
  · rw [hint _ hhint]
    exact Int.ofNat_le.mpr (hle e (List.mem_of_mem_take he))
  · rw [hnone]
    exact List.Pairwise.nil
  · rw [hnone]
    exact fun _ _ _ hb => absurd hb List.not_mem_nil

/-- Shovels of two edges, read back through a buffer of a megabyte. -/
def smallShovels : Config := ⟨2, Nat.two_pos, 2 ^ 20, 12, by decide⟩

/-- The edge that fills the shovel has the largest id so far. -/
def lastLargest : List (EdgeWithValue Unit) := [⟨0, 1, ()⟩, ⟨0, 2, ()⟩]

/-- **The merge of a shovel filled by the edge of the largest id is not in
order**: the shovel is sorted on one bit, and `2` comes before `1`. -/
theorem not_nonDecreasing_lastLargest :
    ¬NonDecreasing smallShovels (fun _ => []) lastLargest := by
  intro h
  have hbits := (shovelInOrder_of_nonDecreasing h 0 (Nat.succ_pos _)).bits
  have hhint : intT (hintOf smallShovels.shovelsize (kept lastLargest) 0) = 1 := by
    decide
  have hone : RadixSort.log2Up 1 = 1 := by
    show RadixSort.log2UpFrom 1 0 = 1
    rw [RadixSort.log2UpFrom, if_pos (by decide), RadixSort.log2UpFrom,
      if_neg (by decide)]
  have htake : (shovelOf smallShovels.shovelsize (kept lastLargest) 0).take
      (reach smallShovels (kept lastLargest) 0) = lastLargest := by
    decide
  rw [hhint, hone, htake] at hbits
  have hpair := (List.pairwise_cons.mp hbits).1 ⟨0, 2, ()⟩ (List.mem_singleton.mpr rfl)
  exact absurd (hpair.2 (by decide)) (by decide)

/-! ## Each edge once -/

/-- Memory of self loops, which no shovel holds. -/
def loopMemory (V : Type) [Inhabited V] : Memory V where
  sort := fun _ => ⟨0, 0, default⟩
  buffers := fun _ _ => ⟨0, 0, default⟩
  heap := fun _ => ⟨0, ⟨0, 0, default⟩⟩

/-- How many edges the sources give. -/
theorem length_given (c : Config) (m : Memory V) (disk : ℕ → List (EdgeWithValue V))
    (calls : List (EdgeWithValue V)) (i : ℕ) :
    (given c m disk calls i).length
      = max 1 (max (shovelOf c.shovelsize (kept calls) i).length (disk i).length) := by
  unfold given
  rw [ShovelMergeSource.length_delivered, length_fileOf]

/-- **The conditions for each edge to be handed on once**: no source is empty
when it is asked for its first edge, each can hold one, and none has more than
was added. -/
structure Separate (c : Config) (disk : ℕ → List (EdgeWithValue V))
    (calls : List (EdgeWithValue V)) : Prop where
  /-- The last shovel is not empty. -/
  remainder : (kept calls).length % c.shovelsize ≠ 0
  /-- There is a byte of buffer for each source. -/
  buffered : files c calls ≤ c.membudget / 2
  /-- No shovel file is shorter than one that an earlier run left. -/
  replaced : ∀ i, i < files c calls →
    (disk i).length ≤ (shovelOf c.shovelsize (kept calls) i).length

/-- Only then. -/
theorem separate_of_handsOn [Inhabited V] {c : Config}
    {disk : ℕ → List (EdgeWithValue V)} {calls : List (EdgeWithValue V)}
    (h : HandsOn c disk calls) : Separate c disk calls := by
  obtain ⟨bound, hbound⟩ := h (loopMemory V)
  obtain ⟨bound', hspec⟩ := handed_of_sources c (loopMemory V) disk calls
  obtain ⟨out, hout, -, hperm⟩ := hbound (max bound bound' + 1) (by omega)
  obtain ⟨out', hout', hgiven, -⟩ := hspec (max bound bound' + 1) (by omega)
  rw [hout, Option.some.injEq] at hout'
  subst hout'
  have hall := hgiven.symm.trans hperm
  -- each source gives as many edges as its shovel has
  have hlengths : ∀ i ∈ Finset.range (files c calls),
      (shovelOf c.shovelsize (kept calls) i).length
        = (given c (loopMemory V) disk calls i).length := by
    refine (Finset.sum_eq_sum_iff_of_le fun i _ => ?_).mp ?_
    · rw [length_given]
      omega
    · have h₁ := congrArg List.length (flatMap_shovelOf_files c calls)
      have h₂ := hall.length_eq
      rw [List.length_flatMap] at h₁ h₂
      calc (Finset.range (files c calls)).sum
            (fun i => (shovelOf c.shovelsize (kept calls) i).length)
          = (kept calls).length := h₁
        _ = _ := h₂.symm
  have hlength : ∀ i, i < files c calls →
      1 ≤ (shovelOf c.shovelsize (kept calls) i).length
        ∧ (disk i).length ≤ (shovelOf c.shovelsize (kept calls) i).length := by
    intro i hi
    have := hlengths i (Finset.mem_range.mpr hi)
    rw [length_given] at this
    omega
  refine ⟨fun hmod => ?_, ?_, fun i hi => (hlength i hi).2⟩
  · have hlast := (hlength ((kept calls).length / c.shovelsize) (Nat.lt_succ_self _)).1
    have hdiv := Nat.div_add_mod' (kept calls).length c.shovelsize
    rw [length_shovelOf] at hlast
    omega
  · by_contra hbuf
    -- a source without a buffer gives a self loop
    have hmem : (⟨0, 0, default⟩ : EdgeWithValue V)
        ∈ (List.range (files c calls)).flatMap (given c (loopMemory V) disk calls) := by
      refine List.mem_flatMap.mpr ⟨0, List.mem_range.mpr (Nat.succ_pos _), ?_⟩
      unfold given ShovelMergeSource.delivered
      rw [if_neg fun hb => hbuf ((bufsizeEdges_pos c (Nat.succ_pos _)).mp hb.1)]
      exact List.mem_map.mpr ⟨0, List.mem_range.mpr (lt_max_of_lt_left Nat.one_pos), rfl⟩
    have hkept := (List.mem_filter.mp (hall.mem_iff.mp hmem)).2
    exact absurd rfl (of_decide_eq_true hkept)

/-- Then each edge is handed on once. -/
theorem Separate.handsOn {c : Config} {disk : ℕ → List (EdgeWithValue V)}
    {calls : List (EdgeWithValue V)} (h : Separate c disk calls) :
    HandsOn c disk calls := by
  intro m
  obtain ⟨bound, hspec⟩ := handed_of_sources c m disk calls
  refine ⟨bound, fun fuel hfuel => ?_⟩
  obtain ⟨out, hout, hperm, -⟩ := hspec fuel hfuel
  have hdiv := Nat.div_add_mod' (kept calls).length c.shovelsize
  have hmod := Nat.mod_lt (kept calls).length c.shovelsize_pos
  have hgiven : ∀ i, i < files c calls →
      (given c m disk calls i).Perm (shovelOf c.shovelsize (kept calls) i) := by
    intro i hi
    have hpos : 0 < (shovelOf c.shovelsize (kept calls) i).length := by
      have hle : i * c.shovelsize
          ≤ (kept calls).length / c.shovelsize * c.shovelsize :=
        Nat.mul_le_mul_right _ (Nat.lt_succ_iff.mp hi)
      have := h.remainder
      have := c.shovelsize_pos
      rw [length_shovelOf]
      omega
    have hne : fileOf c m.sort disk (kept calls) i ≠ [] := by
      rw [← List.length_pos_iff, length_fileOf]
      exact lt_max_of_lt_left hpos
    unfold given ShovelMergeSource.delivered
    rw [if_pos ⟨(bufsizeEdges_pos c (Nat.succ_pos _)).mpr h.buffered, hne⟩]
    unfold fileOf overwrite
    rw [(sortShovel_perm _ _ _).length_eq, List.drop_eq_nil_of_le (h.replaced i hi),
      List.append_nil]
    exact sortShovel_perm _ _ _
  have hkept : out.Perm (kept calls) := by
    refine hperm.trans (List.Perm.trans ?_
      (List.Perm.of_eq (flatMap_shovelOf_files c calls)))
    exact List.Perm.flatMap_left _ fun i hi => hgiven i (List.mem_range.mp hi)
  refine ⟨out, hout, ?_, hkept⟩
  rw [(session_files c m.sort disk calls).2.1, hkept.length_eq]

end Shovel
