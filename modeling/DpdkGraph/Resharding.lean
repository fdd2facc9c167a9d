import Mathlib
import DpdkGraph.Redistribution
import DpdkGraph.SortedBlocks

/-!
# What the engine loads of the edges that are handed out

`reshovel` hands the edges of the shovel files to the shards, `reshard` makes
the files of each shard, and the engine reads them back: the endpoints from
the adjacency files, and the values from the block files beside them. Here
these steps are one, from the shovel files to the edges that are loaded
(`mainEdges_eq`, `outEdges_eq`).

None of them looks for equal edges. So each pair of vertices is loaded once
only if it is in the shovel files once; and it is loaded at all only if no
walk of `reshard` goes astray, and no run of vertices is too long for an
`int` (`loadsOnce_iff`).
-/

/-- **One edge of each pair**, with one of the values of the pair. -/
def OnePerPair {V : Type} (input l : List (EdgeWithValue V)) : Prop :=
  ∀ e ∈ input, (l.countP fun e' => decide (e'.ends = e.ends)) = 1
    ∧ ∀ e' ∈ l, e'.ends = e.ends → e' ∈ input

section OnePerPair

variable {V : Type} {input l : List (EdgeWithValue V)}

/-- How often a pair is there. -/
theorem countP_ends (l : List (EdgeWithValue V)) (q : ℕ × ℕ) :
    (l.countP fun e => decide (e.ends = q)) = (l.map EdgeWithValue.ends).count q := by
  rw [List.count, List.countP_map]
  refine List.countP_congr fun e _ => ?_
  simp

/-- It is enough that no pair is there twice. -/
theorem OnePerPair.of_nodup (hnodup : (l.map EdgeWithValue.ends).Nodup)
    (hends : ∀ e ∈ input, e.ends ∈ l.map EdgeWithValue.ends)
    (hsub : ∀ e ∈ l, e ∈ input) : OnePerPair input l := by
  refine fun e he => ⟨?_, fun e' he' _ => hsub e' he'⟩
  rw [countP_ends]
  exact List.count_eq_one_of_mem hnodup (hends e he)

/-- **Where all edges of the input are there**, no pair of it is twice in
the input. -/
theorem OnePerPair.nodup_of_perm (h : OnePerPair input l) (hperm : l.Perm input) :
    (input.map EdgeWithValue.ends).Nodup := by
  refine List.nodup_iff_count_le_one.mpr fun q => ?_
  by_cases hq : q ∈ input.map EdgeWithValue.ends
  · obtain ⟨e, he, rfl⟩ := List.mem_map.mp hq
    rw [← (hperm.map _).count_eq, ← countP_ends, (h e he).1]
  · rw [List.count_eq_zero_of_not_mem hq]
    exact Nat.zero_le 1

/-- A pair that is there once is there. -/
theorem OnePerPair.mem (h : OnePerPair input l) {e : EdgeWithValue V} (he : e ∈ input) :
    e.ends ∈ l.map EdgeWithValue.ends := by
  refine List.count_pos_iff.mp ?_
  rw [← countP_ends, (h e he).1]
  exact Nat.one_pos

end OnePerPair

namespace DuplicateFilter

open Reshard (FewEdges Jump Leaves LongRun Params ShardEdges ShardFiles ZeroHead
  loadVerticesXG readNextVerticesXG reshard reshard_ending sortEdges sortEdges_spec
  touching)

variable {V : Type}

/-! ## The second phase -/

/-- **The edges are handed out and resharded.** A shard of another machine
gets its edges in packets; `SubNode` is about what becomes of them there. -/
structure Second (V : Type) where
  /-- What is handed out. -/
  job : Redistribution.Job V
  /-- `compressed_block_size`. -/
  compressedBlockSize : ℕ
  /-- `sizeof(FinalEdgeDataType)`. -/
  valueSize : ℕ
  /-- What `rand()` returns in the call of `reshard` for a shard. -/
  rand : ℕ → ℕ → ℕ

namespace Second

variable (x : Second V)

/-- What `reshard` reads for shard `k`. -/
def params (k : ℕ) : Params := ⟨x.job.part, k, x.compressedBlockSize, x.valueSize⟩

/-- **The files of shard `k`** that the engine loads. -/
def shardFiles (k : ℕ) : Option (ShardFiles V) :=
  x.job.reshovel.bind fun s =>
    reshard (x.params k) (x.rand k) (s.shards k).delivered

end Second

/-- Pairs and values side by side; there must be as many of them. -/
def pairUp (pairs : List (ℕ × ℕ)) (values : List V) :
    Option (List (EdgeWithValue V)) :=
  if pairs.length = values.length then
    some (List.zipWith (fun q value => ⟨q.1, q.2, value⟩) pairs values)
  else none

namespace Second

variable (x : Second V)

/-- **The edges in the main file** of shard `k`, with the values of the
`.in` files one after the other. -/
def mainEdges (k : ℕ) : Option (List (EdgeWithValue V)) :=
  (x.shardFiles k).bind fun files =>
    (loadVerticesXG (files.adj k)).bind fun pairs =>
      pairUp pairs ((List.range x.job.part.nshards).flatMap files.inData)

/-- **The edges in the file** of shard `a` for shard `b`, with the values of
its `.out` file. -/
def outEdges (a b : ℕ) : Option (List (EdgeWithValue V)) :=
  (x.shardFiles a).bind fun files =>
    (readNextVerticesXG (x.job.part.first b) (x.job.part.second b)
        (x.job.part.second a + 1 - x.job.part.first a) (x.job.part.first a)
        (files.outData b).length (files.adj b)).bind fun pairs =>
      pairUp pairs (files.outData b)

/-- **Each pair is loaded once**: of each pair of `input`, the files where it
belongs have one edge, with one of its values. -/
structure LoadsOnce (input : List (EdgeWithValue V)) : Prop where
  /-- The main files. -/
  main : ∀ k < x.job.part.nshards, ∃ l, x.mainEdges k = some l
    ∧ OnePerPair (input.filter fun e => decide (x.job.part.Mem k e.dst)) l
  /-- The files for other shards. -/
  out : ∀ a < x.job.part.nshards, ∀ b < x.job.part.nshards, a ≠ b →
    ∃ l, x.outEdges a b = some l ∧ OnePerPair
      (input.filter fun e => decide (x.job.part.Mem a e.src ∧ x.job.part.Mem b e.dst)) l

end Second

/-- No walk of `reshard` over the edges goes astray, and no file passes over
`2 ^ 31` vertices in one run. -/
def Second.Straight (x : Second V) (input : List (EdgeWithValue V)) : Prop :=
  ∀ k < x.job.part.nshards,
    ¬ZeroHead (x.params k) (touching x.job.part k input)
      ∧ ¬Jump (x.params k) (touching x.job.part k input)
      ∧ ∀ b < x.job.part.nshards, ¬LongRun (x.params k) (touching x.job.part k input) b

/-- The sorts and the writers count with `int`s: each shard has fewer than
`2 ^ 31` edges. -/
def Second.Few (x : Second V) (input : List (EdgeWithValue V)) : Prop :=
  ∀ k < x.job.part.nshards, FewEdges (touching x.job.part k input)

/-- **The shovel files have what was added.** -/
structure Resharding (V : Type) extends Second V where
  /-- The edges that were added and are not self loops. -/
  added : List (EdgeWithValue V)
  /-- The shovel files have these. -/
  perm : job.shovels.flatten.Perm added

namespace Resharding

variable (x : Resharding V)

/-- The edges that were added, with the new ids. -/
def input : List (EdgeWithValue V) := x.added.map x.job.renumber

/-- Those into the interval of `k`. -/
def inputTo (k : ℕ) : List (EdgeWithValue V) :=
  x.input.filter fun e => decide (x.job.part.Mem k e.dst)

/-- Those from the interval of `a` into that of `b`. -/
def inputBetween (a b : ℕ) : List (EdgeWithValue V) :=
  x.input.filter fun e => decide (x.job.part.Mem a e.src ∧ x.job.part.Mem b e.dst)

/-- No pair of vertices was added twice. -/
def OncePerPair : Prop := (x.added.map EdgeWithValue.ends).Nodup

/-- No walk of `reshard` goes astray. -/
def Straight : Prop := x.toSecond.Straight x.input

/-- The numbers fit. -/
def Small : Prop := x.Few x.input

/-! ## What a shard gets -/

theorem edges_perm : x.job.edges.Perm x.input := x.perm.map _

theorem touching_perm (k : ℕ) :
    (touching x.job.part k x.job.edges).Perm (touching x.job.part k x.input) :=
  x.edges_perm.filter _

/-- The edges with their new ids. -/
def graph : Reshard.Graph x.job.part V where
  edges := x.job.edges
  noloop e he := by
    obtain ⟨e', he', rfl⟩ := List.mem_map.mp he
    exact Redistribution.Job.renumber_noloop he'
  covered e he := by
    obtain ⟨e', he', rfl⟩ := List.mem_map.mp he
    obtain ⟨a, b, -, -, ha, hb⟩ := Redistribution.Job.exists_shards he'
    exact ⟨⟨a, ha⟩, b, hb⟩

/-- What shard `k` gets of it. -/
def shardEdges (k : ℕ) : ShardEdges (x.params k) V :=
  x.graph.shardEdges k x.compressedBlockSize x.valueSize

/-- The edges of shard `k` as `reshard` sorts them. -/
def sorted (k : ℕ) : List (EdgeWithValue V) :=
  sortEdges (x.rand k) (x.shardEdges k).edges

variable {x} {k a b : ℕ}

theorem Small.fewEdges (h : x.Small) (hk : k < x.job.part.nshards) :
    FewEdges (x.shardEdges k).edges := by
  unfold FewEdges
  exact (x.touching_perm k).length_eq.trans_lt (h k hk)

/-- **The numbers of `reshovel` fit**: the edges of a vertex, and those in a
buffer, are edges of one shard. -/
theorem Small.numbersFit (h : x.Small) : x.job.NumbersFit where
  buffer := by
    rcases Nat.lt_or_ge x.job.edgesMaxInBuffer (2 ^ 31) with hlt | hge
    · exact Or.inl hlt
    · exact Or.inr fun k hk => lt_of_lt_of_le (h.fewEdges hk) hge
  degrees v := by
    -- the edges of a vertex all touch its shard
    have hcount : ∀ P : EdgeWithValue V → Bool,
        (∀ e, P e = true → e.src = v ∨ e.dst = v) →
          x.job.edges.countP P < 2 ^ 31 := by
      intro P hP
      by_cases hv : ∃ k, x.job.part.Mem k v
      · obtain ⟨k, hk⟩ := hv
        refine lt_of_le_of_lt ?_ (h.fewEdges hk.1)
        rw [List.countP_eq_length_filter]
        refine List.Sublist.length_le ?_
        refine List.monotone_filter_right _ fun e he => ?_
        rcases hP e he with rfl | rfl
        · exact decide_eq_true (Or.inl hk)
        · exact decide_eq_true (Or.inr hk)
      · rw [List.countP_eq_zero.mpr fun e he hPe => ?_]
        · norm_num
        · obtain ⟨hsrc, hdst⟩ := x.graph.covered e he
          rcases hP e hPe with rfl | rfl
          · exact hv hsrc
          · exact hv hdst
    exact ⟨hcount _ fun e he => Or.inr (of_decide_eq_true he),
      hcount _ fun e he => Or.inl (of_decide_eq_true he)⟩

/-- **Each shard is made of the edges that were added**, as often as they
were. -/
theorem shardFiles_eq (h : x.Small) (hk : k < x.job.part.nshards) :
    x.shardFiles k = reshard (x.params k) (x.rand k) (x.shardEdges k).edges := by
  obtain ⟨s, hs, hlaw⟩ := Redistribution.Job.conserves_of_numbersFit h.numbersFit
  unfold Second.shardFiles
  rw [hs, Option.bind_some, hlaw.delivered k hk]
  rfl

/-- A shard that is made has its files. -/
theorem exists_leaves (h : x.Small) (hk : k < x.job.part.nshards) {files : ShardFiles V}
    (hfiles : x.shardFiles k = some files) :
    Leaves (x.params k) (x.rand k) (x.shardEdges k).edges files := by
  rw [shardFiles_eq h hk] at hfiles
  rcases reshard_ending (x.shardEdges k) (x.rand k) (h.fewEdges hk) with
    ⟨files', hrun, hleaves⟩ | ⟨hnone, -⟩
  · obtain rfl := Option.some.inj (hfiles.symm.trans hrun)
    exact hleaves
  · exact absurd (hfiles.symm.trans hnone) (by simp)

theorem sorted_perm (h : x.Small) (hk : k < x.job.part.nshards) :
    (x.sorted k).Perm (touching x.job.part k x.input) :=
  (sortEdges_spec (x.rand k) (h.fewEdges hk)).1.trans (x.touching_perm k)

theorem sorted_pairwise (h : x.Small) (hk : k < x.job.part.nshards) :
    (x.sorted k).Pairwise fun a b => a.src ≤ b.src :=
  (sortEdges_spec (x.rand k) (h.fewEdges hk)).2.imp EdgeWithValue.src_le_of_sortKey_le

theorem sorted_legal (h : x.Small) (hk : k < x.job.part.nshards) :
    ∀ e ∈ x.sorted k, Reshard.Legal (x.params k) e :=
  ((x.shardEdges k).scan (x.rand k) (h.fewEdges hk)).legal

/-- The edges into an interval are all there. -/
theorem filter_sorted_to (h : x.Small) (hk : k < x.job.part.nshards) :
    ((x.sorted k).filter fun e => decide (x.job.part.Mem k e.dst)).Perm (x.inputTo k) := by
  refine ((sorted_perm h hk).filter _).trans (.of_eq ?_)
  unfold touching inputTo
  rw [List.filter_filter]
  refine List.filter_congr fun e _ => ?_
  rw [Bool.and_eq_left_iff_imp, decide_eq_true_iff, decide_eq_true_iff]
  exact Or.inr

/-- So are those from one interval to another. -/
theorem filter_sorted_between (h : x.Small) (ha : a < x.job.part.nshards) (hab : a ≠ b) :
    ((x.sorted a).filter fun e => decide (x.job.part.Mem b e.dst)).Perm
      (x.inputBetween a b) := by
  have hout := Reshard.filter_out (c := x.params a) (sorted_legal h ha) hab.symm
  refine (List.Perm.of_eq hout.symm).trans (((sorted_perm h ha).filter _).trans ?_)
  exact List.Perm.of_eq (Reshard.filter_touching x.input (Or.inl rfl))

/-- **The values of the main file**: those of the edges into the interval,
in the order of the edges. -/
theorem mainValues (h : x.Small) (hk : k < x.job.part.nshards) {files : ShardFiles V}
    (hleaves : Leaves (x.params k) (x.rand k) (x.shardEdges k).edges files) :
    (List.range x.job.part.nshards).flatMap files.inData
      = ((x.sorted k).filter fun e => decide (x.job.part.Mem k e.dst)).map
          EdgeWithValue.value := by
  have hlegal := sorted_legal h hk
  -- the shard of the source
  let home : EdgeWithValue V → ℕ := fun e => (x.job.part.shardOf e.src).getD 0
  have hhome : ∀ {e q}, x.job.part.Mem q e.src → home e = q := fun hq => by
    show (x.job.part.shardOf _).getD 0 = _
    rw [IntervalPartition.shardOf_eq_some hq]
    rfl
  have hmem : ∀ e ∈ x.sorted k, x.job.part.Mem (home e) e.src := by
    intro e he
    obtain ⟨q, hq⟩ := (hlegal e he).src
    exact (hhome hq).symm ▸ hq
  have hblock : ∀ q, files.inData q = (((x.sorted k).filter fun e =>
      decide (x.job.part.Mem k e.dst)).filter fun e => decide (home e = q)).map
        EdgeWithValue.value := by
    intro q
    have hfilter : ((x.sorted k).filter fun e =>
        decide (x.job.part.Mem q e.src ∧ x.job.part.Mem k e.dst))
          = ((x.sorted k).filter fun e => decide (x.job.part.Mem k e.dst)).filter
            fun e => decide (home e = q) := by
      rw [List.filter_filter]
      refine List.filter_congr fun e he => ?_
      rw [← Bool.decide_and, decide_eq_decide]
      exact ⟨fun hq => ⟨hhome hq.1, hq.2⟩, fun hq => ⟨hq.1 ▸ hmem e he, hq.2⟩⟩
    rw [← hfilter]
    by_cases hqk : q = k
    · subst hqk
      exact hleaves.mainData.trans (hleaves.outData q)
    · refine (hleaves.inData q hqk).trans (congrArg (List.map EdgeWithValue.value) ?_)
      exact Reshard.filter_in hlegal hqk
  have hsorted : ((x.sorted k).filter fun e => decide (x.job.part.Mem k e.dst)).Pairwise
      fun a b => home a ≤ home b := by
    refine ((sorted_pairwise h hk).filter _).imp_of_mem fun ha hb hle => ?_
    exact (hmem _ (List.mem_of_mem_filter ha)).mono
      (hmem _ (List.mem_of_mem_filter hb)) hle
  conv_rhs => rw [← SortedBlocks.flatMap_eq hsorted x.job.part.nshards fun e he =>
    (hmem e (List.mem_of_mem_filter he)).1]
  rw [List.map_flatMap]
  exact List.flatMap_congr fun q _ => hblock q

/-- **The values of the file for another shard**: those of the edges to it. -/
theorem outValues (h : x.Small) (ha : a < x.job.part.nshards) (hab : a ≠ b)
    {files : ShardFiles V}
    (hleaves : Leaves (x.params a) (x.rand a) (x.shardEdges a).edges files) :
    files.outData b = ((x.sorted a).filter fun e => decide (x.job.part.Mem b e.dst)).map
      EdgeWithValue.value := by
  refine (hleaves.outData b).trans (congrArg (List.map EdgeWithValue.value) ?_)
  exact Reshard.filter_out (c := x.params a) (sorted_legal h ha) hab.symm

end Resharding

/-! ## What the engine finds -/

/-- The endpoints and the values of edges are the edges. -/
theorem pairUp_map (l : List (EdgeWithValue V)) :
    pairUp (l.map EdgeWithValue.ends) (l.map EdgeWithValue.value) = some l := by
  unfold pairUp
  rw [if_pos (by rw [List.length_map, List.length_map]), List.zipWith_map,
    List.zipWith_self]
  congr 1
  exact List.map_id l

/-- Nothing is paired up that differs in length. -/
theorem length_of_pairUp {pairs : List (ℕ × ℕ)} {values : List V}
    {l : List (EdgeWithValue V)} (h : pairUp pairs values = some l) :
    pairs.length = values.length := by
  by_contra hne
  rw [pairUp, if_neg hne] at h
  exact absurd h (by simp)

/-- Where they can be paired up, the endpoints are those of the edges. -/
theorem ends_of_pairUp {pairs : List (ℕ × ℕ)} {values : List V}
    {l : List (EdgeWithValue V)} (h : pairUp pairs values = some l) :
    l.map EdgeWithValue.ends = pairs := by
  have hlen := length_of_pairUp h
  rw [pairUp, if_pos hlen, Option.some.injEq] at h
  subst h
  rw [List.map_zipWith]
  refine List.ext_getElem (by simp [hlen]) fun i hi hi' => ?_
  rw [List.getElem_zipWith]
  rfl

namespace Resharding

variable {x : Resharding V} {k a b : ℕ}

/-- The walks see the edges in another order. -/
theorem Straight.shardEdges (h : x.Straight) (hk : k < x.job.part.nshards) :
    ¬ZeroHead (x.params k) (x.shardEdges k).edges
      ∧ ¬Jump (x.params k) (x.shardEdges k).edges
      ∧ ∀ b < x.job.part.nshards, ¬LongRun (x.params k) (x.shardEdges k).edges b := by
  have hperm : (x.shardEdges k).edges.Perm (touching x.job.part k x.input) :=
    x.touching_perm k
  rw [Reshard.ZeroHead.perm hperm, Reshard.Jump.perm hperm]
  simp only [Reshard.LongRun.perm hperm]
  exact h k hk

/-- Then every shard is made. -/
theorem Straight.exists_files (h : x.Straight) (hsmall : x.Small)
    (hk : k < x.job.part.nshards) : ∃ files, x.shardFiles k = some files := by
  rw [shardFiles_eq hsmall hk]
  rcases reshard_ending (x.shardEdges k) (x.rand k) (hsmall.fewEdges hk) with
    ⟨files, hrun, -⟩ | ⟨-, hzero, -⟩
  · exact ⟨files, hrun⟩
  · exact absurd hzero (h.shardEdges hk).1

/-- **The main file has the edges into the interval**, as often as they were
added. -/
theorem mainEdges_eq (h : x.Straight) (hsmall : x.Small) (hk : k < x.job.part.nshards) :
    x.mainEdges k
      = some ((x.sorted k).filter fun e => decide (x.job.part.Mem k e.dst)) := by
  obtain ⟨files, hfiles⟩ := h.exists_files hsmall hk
  have hleaves := exists_leaves hsmall hk hfiles
  have hload := hleaves.load (hsmall.fewEdges hk) (h.shardEdges hk).1 (h.shardEdges hk).2.1
    ((h.shardEdges hk).2.2 k hk)
  have hload : loadVerticesXG (files.adj k) = some (((x.sorted k).filter fun e =>
      decide (x.job.part.Mem k e.dst)).map EdgeWithValue.ends) := hload
  unfold Second.mainEdges
  rw [hfiles, Option.bind_some, hload, Option.bind_some, mainValues hsmall hk hleaves,
    pairUp_map]

/-- **The file for another shard has the edges to it**, as often as they were
added. -/
theorem outEdges_eq (h : x.Straight) (hsmall : x.Small) (ha : a < x.job.part.nshards)
    (hb : b < x.job.part.nshards) (hab : a ≠ b) :
    x.outEdges a b
      = some ((x.sorted a).filter fun e => decide (x.job.part.Mem b e.dst)) := by
  obtain ⟨files, hfiles⟩ := h.exists_files hsmall ha
  have hleaves := exists_leaves hsmall ha hfiles
  have hreads := hleaves.reads (hsmall.fewEdges ha) (h.shardEdges ha).1 (h.shardEdges ha).2.1
    ((h.shardEdges ha).2.2 b hb)
  rw [Reshard.startOf, if_neg (show b ≠ (x.params a).shard from hab.symm)] at hreads
  have hread : readNextVerticesXG (x.job.part.first b) (x.job.part.second b)
      (x.job.part.second a + 1 - x.job.part.first a) (x.job.part.first a)
      (files.outData b).length (files.adj b)
        = some (((x.sorted a).filter fun e =>
          decide (x.job.part.Mem b e.dst)).map EdgeWithValue.ends) :=
    hleaves.readNext (hsmall.fewEdges ha)
      (show b ≠ (x.params a).shard from hab.symm) hreads
  unfold Second.outEdges
  rw [hfiles, Option.bind_some, hread, Option.bind_some,
    outValues hsmall ha hab hleaves, pairUp_map]

/-! ## When the law holds -/

/-- The new ids tell the pairs apart as the old ones do. -/
theorem nodup_input_iff : (x.input.map EdgeWithValue.ends).Nodup ↔ x.OncePerPair := by
  have hmap : x.input.map EdgeWithValue.ends
      = (x.added.map EdgeWithValue.ends).map
        (Prod.map x.job.number x.job.number) := by
    unfold input
    rw [List.map_map, List.map_map]
    rfl
  rw [hmap]
  refine ⟨List.Nodup.of_map _, fun h => h.map_on ?_⟩
  intro p hp q hq heq
  obtain ⟨e, he, rfl⟩ := List.mem_map.mp hp
  obtain ⟨e', he', rfl⟩ := List.mem_map.mp hq
  obtain ⟨hsrc, hdst⟩ := x.job.vid e (x.perm.mem_iff.mpr he)
  obtain ⟨hsrc', hdst'⟩ := x.job.vid e' (x.perm.mem_iff.mpr he')
  obtain ⟨h₁, h₂⟩ := Prod.mk.inj heq
  exact Prod.ext (x.job.injOn hsrc hsrc' h₁) (x.job.injOn hdst hdst' h₂)

/-- Edges of the input, each once, in any order. -/
theorem onePerPair_of_perm {P : EdgeWithValue V → Bool} {l : List (EdgeWithValue V)}
    (h : x.OncePerPair) (hperm : l.Perm (x.input.filter P)) :
    OnePerPair (x.input.filter P) l := by
  have hnodup : ((x.input.filter P).map EdgeWithValue.ends).Nodup :=
    (nodup_input_iff.mpr h).sublist (List.filter_sublist.map _)
  refine .of_nodup ((hperm.map _).nodup_iff.mpr hnodup) (fun e he => ?_) fun e he => ?_
  · exact List.mem_map_of_mem (hperm.mem_iff.mpr he)
  · exact hperm.mem_iff.mp he

/-- **Each pair is loaded once** where no pair was added twice and no walk goes
astray. -/
theorem loadsOnce_of_once (hsmall : x.Small) (honce : x.OncePerPair)
    (hstraight : x.Straight) : x.LoadsOnce x.input where
  main _ hk := ⟨_, mainEdges_eq hstraight hsmall hk,
    onePerPair_of_perm honce (filter_sorted_to hsmall hk)⟩
  out _ ha _ hb hab := ⟨_, outEdges_eq hstraight hsmall ha hb hab,
    onePerPair_of_perm honce (filter_sorted_between hsmall ha hab)⟩

/-- Where edges and values can be paired up, no walk goes astray. -/
theorem not_astray_of_some (hsmall : x.Small) (hk : k < x.job.part.nshards)
    (hmain : ∃ l, x.mainEdges k = some l)
    (hout : ∀ b < x.job.part.nshards, k ≠ b → ∃ l, x.outEdges k b = some l) :
    ¬ZeroHead (x.params k) (x.shardEdges k).edges
      ∧ ¬Jump (x.params k) (x.shardEdges k).edges := by
  obtain ⟨hsort, -⟩ := sortEdges_spec (x.rand k) (hsmall.fewEdges hk)
  obtain ⟨l, hl⟩ := hmain
  obtain ⟨files, hfiles, hl⟩ := Option.bind_eq_some_iff.mp hl
  obtain ⟨pairs, hload, hl⟩ := Option.bind_eq_some_iff.mp hl
  have hleaves := exists_leaves hsmall hk hfiles
  obtain ⟨log, wsl, hsplit, hadj, hcarries, hend⟩ := hleaves.adjacency
  rw [← Reshard.ZeroHead.perm hsort, ← Reshard.Jump.perm hsort]
  cases hend with
  | right noZeroHead noJump => exact ⟨noZeroHead, noJump⟩
  | jumped noZeroHead jump wrong =>
    -- the main file has more edges than there are values
    obtain ⟨l', -, hbad, hmem, hothers⟩ := wrong
    obtain ⟨pairs', hload', hdst, -⟩ :=
      Leaves.exists_load (hsmall.fewEdges hk) hsplit (hcarries k)
    obtain rfl := Option.some.inj (hload'.symm.trans ((hadj k) ▸ hload))
    have hlen := length_of_pairUp hl
    rw [mainValues hsmall hk hleaves, List.length_map] at hlen
    have hdst := congrArg List.length hdst
    rw [List.length_map, List.length_map] at hdst
    have hexact : ∀ y ∈ log, y.1 = k → x.job.part.Mem k y.2.dst := Reshard.Log.exact_of_length
      (fun y hy hyk => (hothers y hy).elim (fun h => h.unique hyk) fun h => h.1)
      ((congrArg List.length (congrArg (List.filter _) hsplit)).trans
        (hlen.symm.trans hdst))
    exact absurd (hexact _ hmem rfl) hbad
  | spoiled zeroHead _ wrong =>
    -- the file for shard 0 is refused, or has fewer edges than values
    have hk0 : k ≠ 0 := zeroHead.1
    obtain ⟨l', hl'⟩ := hout 0 (Nat.zero_lt_of_lt hk) hk0
    obtain ⟨files', hfiles', hl'⟩ := Option.bind_eq_some_iff.mp hl'
    obtain ⟨pairs', hread, hl'⟩ := Option.bind_eq_some_iff.mp hl'
    obtain rfl := Option.some.inj (hfiles.symm.trans hfiles')
    rcases wrong with ⟨-, hrow⟩ | ⟨y, hy, hyk, hmem⟩
    · have hnone := Reshard.readNextVerticesXG_heldRow hk hk0 hrow
        (files.outData 0).length
      rw [← hadj 0] at hnone
      exact absurd (hread.symm.trans hnone) (by simp)
    · obtain ⟨its, hv, hbytes, htargets⟩ := hcarries 0
      have hshort : (its.flatMap SparseRows.Item.targets).length < 2 ^ 31 := by
        have hle := Reshard.length_rowsOf_le hsplit 0
        rw [hsort.length_eq] at hle
        rw [htargets, List.length_map]
        exact hle.trans_lt (hsmall.fewEdges hk)
      have hlen := length_of_pairUp hl'
      have hvalues : ((log.map Prod.snd).filter fun e =>
          decide (x.job.part.Mem 0 e.dst)).length = (files.outData 0).length := by
        rw [outValues hsmall hk hk0 hleaves, List.length_map, hsplit]
        rfl
      have hsub := (Reshard.readNextFrom_sublist hv hshort
        (hbytes ▸ hadj 0 ▸ hread)).map Prod.snd
      rw [SparseRows.map_snd_expand, htargets] at hsub
      have hcomplete := Reshard.Log.complete_of_length (p := x.job.part) hsub
        (fun d hd => ⟨Nat.zero_lt_of_lt hk, Reshard.readNextFrom_range hread d hd⟩)
        (by rw [List.length_map, hlen, hvalues])
      exact absurd ((hcomplete y hy hmem).symm.trans hyk) hk0.symm

/-- An edge that is loaded once is in the file, so no run is too long. -/
theorem not_longRun_of_loadsOnce (hsmall : x.Small) (h : x.LoadsOnce x.input)
    (hk : k < x.job.part.nshards) (hb : b < x.job.part.nshards)
    (hastray : ¬ZeroHead (x.params k) (x.shardEdges k).edges
      ∧ ¬Jump (x.params k) (x.shardEdges k).edges) :
    ¬LongRun (x.params k) (x.shardEdges k).edges b := by
  intro hlong
  have hinput : ∀ e ∈ (x.shardEdges k).edges, e ∈ x.input := fun e he =>
    List.mem_of_mem_filter ((x.touching_perm k).mem_iff.mp he)
  by_cases hbk : b = k
  · subst hbk
    obtain ⟨l, hl, hone⟩ := h.main b hb
    obtain ⟨files, hfiles, hl⟩ := Option.bind_eq_some_iff.mp hl
    obtain ⟨pairs, hload, hl⟩ := Option.bind_eq_some_iff.mp hl
    obtain ⟨e, he, hdst, hlost⟩ := (exists_leaves hsmall hb hfiles).exists_lost_load
      (hsmall.fewEdges hb) hastray.1 hastray.2 hlong hload
    refine hlost (ends_of_pairUp hl ▸ hone.mem (List.mem_filter.mpr ⟨hinput e he, ?_⟩))
    exact decide_eq_true hdst
  · obtain ⟨l, hl, hone⟩ := h.out k hk b hb (Ne.symm hbk)
    obtain ⟨files, hfiles, hl⟩ := Option.bind_eq_some_iff.mp hl
    obtain ⟨pairs, hread, hl⟩ := Option.bind_eq_some_iff.mp hl
    obtain ⟨e, he, hdst, hlost⟩ := Reshard.exists_lost_readNext (x.shardEdges k)
      (hsmall.fewEdges hk) ((exists_leaves hsmall hk hfiles).readsUpTo (hsmall.fewEdges hk)
        hastray.1 hastray.2 b) hlong (by
          rw [Reshard.startOf, if_neg (show b ≠ (x.params k).shard from hbk)]
          exact hread)
    have hsrc := ((x.shardEdges k).legal e he).src_of_dst hdst hbk
    refine hlost (ends_of_pairUp hl ▸ hone.mem (List.mem_filter.mpr ⟨hinput e he, ?_⟩))
    exact decide_eq_true ⟨hsrc, hdst⟩

/-- Where each pair is loaded once, no walk goes astray. -/
theorem straight_of_loadsOnce (hsmall : x.Small) (h : x.LoadsOnce x.input) : x.Straight := by
  intro k hk
  have hastray := not_astray_of_some hsmall hk ((h.main k hk).imp fun _ hl => hl.1)
    fun b hb hkb => (h.out k hk b hb hkb).imp fun _ hl => hl.1
  have hperm : (x.shardEdges k).edges.Perm (touching x.job.part k x.input) :=
    x.touching_perm k
  rw [← Reshard.ZeroHead.perm hperm, ← Reshard.Jump.perm hperm]
  simp only [← Reshard.LongRun.perm hperm]
  exact ⟨hastray.1, hastray.2, fun b hb =>
    not_longRun_of_loadsOnce hsmall h hk hb hastray⟩

/-- **Only then**: what is there of a shard is all that was added, so that a
pair that was added twice is there twice. -/
theorem once_of_loadsOnce (hsmall : x.Small) (h : x.LoadsOnce x.input) :
    x.OncePerPair ∧ x.Straight := by
  have hstraight := straight_of_loadsOnce hsmall h
  refine ⟨nodup_input_iff.mp ?_, hstraight⟩
  refine List.nodup_iff_count_le_one.mpr fun q => ?_
  by_cases hq : q ∈ x.input.map EdgeWithValue.ends
  · obtain ⟨e, he, rfl⟩ := List.mem_map.mp hq
    obtain ⟨-, k, hk⟩ := x.graph.covered e (x.edges_perm.mem_iff.mpr he)
    obtain ⟨l, hl, hone⟩ := h.main k hk.1
    rw [mainEdges_eq hstraight hsmall hk.1, Option.some.injEq] at hl
    rw [← hl] at hone
    have hnodup := hone.nodup_of_perm (filter_sorted_to hsmall hk.1)
    -- the shard of the destination has all edges of the pair
    have hall : x.input.countP (fun e' => decide (e'.ends = e.ends))
        = (x.inputTo k).countP fun e' => decide (e'.ends = e.ends) := by
      unfold inputTo
      rw [List.countP_filter]
      refine List.countP_congr fun e' _ => ?_
      rw [Bool.and_eq_true, decide_eq_true_iff, decide_eq_true_iff]
      refine ⟨fun heq => ⟨heq, ?_⟩, And.left⟩
      have hdst : e'.dst = e.dst := congrArg Prod.snd heq
      exact hdst.symm ▸ hk
    rw [← countP_ends, hall, countP_ends]
    exact List.nodup_iff_count_le_one.mp hnodup _
  · rw [List.count_eq_zero_of_not_mem hq]
    exact Nat.zero_le 1

/-- **When each pair is loaded once**: exactly when no pair was added twice
and no walk goes astray. -/
theorem loadsOnce_iff (hsmall : x.Small) :
    x.LoadsOnce x.input ↔ x.OncePerPair ∧ x.Straight :=
  ⟨once_of_loadsOnce hsmall, fun h => loadsOnce_of_once hsmall h.1 h.2⟩

end Resharding

end DuplicateFilter
