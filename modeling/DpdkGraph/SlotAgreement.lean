import Mathlib
import DpdkGraph.RoundTrip

/-!
# The slots of two shards agree

`reshovel` hands every edge to the shard of its destination and, when that
is another one, to the shard of its source. Two shards then sort and write
what they got on their own. The values of the edges from the one to the
other end up in two files – the `.out` file of the source shard and the
`.in` file of the destination shard – and the engine copies the bytes of the
first over the second.

Both files list the values in the order of the sorted edges, so their slots
belong to edges with the same endpoints whenever both calls complete
(`slotAgreement_iff`).
-/

namespace Reshard

variable {V : Type}

/-! ## Handing the edges out -/

/-- The edges that the sharder keeps, with their endpoints in the
partition; `preprocessing_add_edge` drops self loops. -/
structure Graph (p : IntervalPartition) (V : Type) where
  /-- The edges, in the order of the shovel files. -/
  edges : List (EdgeWithValue V)
  /-- There is no self loop. -/
  noloop : ∀ e ∈ edges, e.src ≠ e.dst
  /-- The intervals cover the vertices. -/
  covered : ∀ e ∈ edges, (∃ k, p.Mem k e.src) ∧ ∃ k, p.Mem k e.dst

/-- One round of `reshovel`: the edge goes to the buffer of its
destination's shard, and to that of its source's shard if it is another
one; a vertex without a shard fails an assertion. -/
def reshovelStep (p : IntervalPartition) (edgesMaxInBuffer : ℕ)
    (buff : ℕ → BufferedFile (EdgeWithValue V)) (e : EdgeWithValue V) :
    Option (ℕ → BufferedFile (EdgeWithValue V)) :=
  (p.shardOf e.src).bind fun srcInterval =>
    (p.shardOf e.dst).map fun dstInterval =>
      let buff := Function.update buff dstInterval
        ((buff dstInterval).push edgesMaxInBuffer e)
      if srcInterval ≠ dstInterval then
        Function.update buff srcInterval ((buff srcInterval).push edgesMaxInBuffer e)
      else buff

/-- The loop of `reshovel`. -/
def reshovelFrom (p : IntervalPartition) (edgesMaxInBuffer : ℕ) :
    (ℕ → BufferedFile (EdgeWithValue V)) → List (EdgeWithValue V) →
      Option (ℕ → BufferedFile (EdgeWithValue V))
  | buff, [] => some buff
  | buff, e :: es =>
    (reshovelStep p edgesMaxInBuffer buff e).bind fun buff =>
      reshovelFrom p edgesMaxInBuffer buff es

/-- **`reshovel`**: the edges that each shard gets. -/
def reshovel (p : IntervalPartition) (edgesMaxInBuffer : ℕ)
    (edges : List (EdgeWithValue V)) : Option (ℕ → List (EdgeWithValue V)) :=
  (reshovelFrom p edgesMaxInBuffer (fun _ => .empty) edges).map fun buff k =>
    (buff k).flush.file

/-- The edges that touch the interval of shard `k`. -/
def touching (p : IntervalPartition) (k : ℕ) (edges : List (EdgeWithValue V)) :
    List (EdgeWithValue V) :=
  edges.filter fun e => decide (p.Mem k e.src ∨ p.Mem k e.dst)

section Reshovel

variable {p : IntervalPartition}

theorem touching_singleton {e : EdgeWithValue V} {a b : ℕ} (ha : p.Mem a e.src)
    (hb : p.Mem b e.dst) (k : ℕ) :
    touching p k [e] = if k = a ∨ k = b then [e] else [] := by
  have hiff : (p.Mem k e.src ∨ p.Mem k e.dst) ↔ (k = a ∨ k = b) :=
    or_congr ⟨fun h => h.unique ha, fun h => h ▸ ha⟩ ⟨fun h => h.unique hb, fun h => h ▸ hb⟩
  unfold touching
  rw [List.filter_singleton, decide_eq_decide.mpr hiff]
  by_cases h : k = a ∨ k = b
  · rw [if_pos h, decide_eq_true h]
    rfl
  · rw [if_neg h, decide_eq_false h]
    rfl

/-- An edge goes to the shards it touches, once to each. -/
theorem reshovelStep_spec (edgesMaxInBuffer : ℕ) {e : EdgeWithValue V} (hsrc : ∃ k, p.Mem k e.src)
    (hdst : ∃ k, p.Mem k e.dst) (buff : ℕ → BufferedFile (EdgeWithValue V)) :
    ∃ buff', reshovelStep p edgesMaxInBuffer buff e = some buff'
      ∧ ∀ k, (buff' k).contents = (buff k).contents ++ touching p k [e] := by
  obtain ⟨a, ha⟩ := hsrc
  obtain ⟨b, hb⟩ := hdst
  unfold reshovelStep
  rw [IntervalPartition.shardOf_eq_some ha, IntervalPartition.shardOf_eq_some hb]
  refine ⟨_, rfl, fun k => ?_⟩
  rw [touching_singleton ha hb]
  by_cases hab : a = b
  · subst hab
    simp only [ne_eq, not_true_eq_false, ↓reduceIte, or_self]
    by_cases hk : k = a
    · subst hk
      simp
    · simp [hk]
  · simp only [ne_eq, hab, not_false_eq_true, ↓reduceIte]
    by_cases hk : k = a
    · subst hk
      simp [Function.update_of_ne hab]
    · rw [Function.update_of_ne hk]
      by_cases hk' : k = b
      · subst hk'
        simp
      · simp [hk, hk']

theorem reshovelFrom_spec (edgesMaxInBuffer : ℕ) {edges : List (EdgeWithValue V)}
    (hcov : ∀ e ∈ edges, (∃ k, p.Mem k e.src) ∧ ∃ k, p.Mem k e.dst)
    (buff : ℕ → BufferedFile (EdgeWithValue V)) :
    ∃ buff', reshovelFrom p edgesMaxInBuffer buff edges = some buff'
      ∧ ∀ k, (buff' k).contents = (buff k).contents ++ touching p k edges := by
  induction edges generalizing buff with
  | nil => exact ⟨buff, rfl, fun k => (List.append_nil _).symm⟩
  | cons e edges ih =>
    obtain ⟨hsrc, hdst⟩ := hcov e List.mem_cons_self
    obtain ⟨buff₁, hstep, hcont₁⟩ :=
      reshovelStep_spec edgesMaxInBuffer hsrc hdst buff
    obtain ⟨buff₂, hrest, hcont₂⟩ :=
      ih (fun e he => hcov e (List.mem_cons_of_mem _ he)) buff₁
    refine ⟨buff₂, ?_, fun k => ?_⟩
    · rw [reshovelFrom, hstep, Option.bind_some, hrest]
    · rw [hcont₂, hcont₁, List.append_assoc]
      congr 1
      exact (List.filter_append (p := fun e => decide (p.Mem k e.src ∨ p.Mem k e.dst))
        [e] edges).symm

/-- **Each shard gets the edges that touch its interval**, once each and in
order. -/
theorem reshovel_spec (G : Graph p V) (edgesMaxInBuffer : ℕ) :
    reshovel p edgesMaxInBuffer G.edges = some fun k => touching p k G.edges := by
  obtain ⟨buff, hrun, hcont⟩ :=
    reshovelFrom_spec edgesMaxInBuffer G.covered fun _ => .empty
  unfold reshovel
  rw [hrun, Option.map_some]
  congr 1
  funext k
  rw [BufferedFile.file_flush, hcont k]
  exact List.nil_append _

/-- What shard `k` gets from a graph. -/
def Graph.shardEdges (G : Graph p V) (k blockSize valueSize : ℕ) :
    ShardEdges ⟨p, k, blockSize, valueSize⟩ V where
  edges := touching p k G.edges
  legal e he := by
    obtain ⟨hmem, htouch⟩ := List.mem_filter.mp he
    exact ⟨G.noloop e hmem, of_decide_eq_true htouch, (G.covered e hmem).1,
      (G.covered e hmem).2⟩

end Reshovel

/-! ## Two shards -/

/-- **The slots agree**: the values that shard `a` writes for shard `b`, and
those that `b` writes for `a`, are each the values of the edges from the
interval of `a` to that of `b`, listed in one order of their endpoints. -/
def SlotsAgree (p : IntervalPartition) (edges : List (EdgeWithValue V)) (a b : ℕ)
    (filesA filesB : ShardFiles V) : Prop :=
  ∃ outEdges inEdges : List (EdgeWithValue V),
    outEdges.Perm (edges.filter fun e => decide (p.Mem a e.src ∧ p.Mem b e.dst))
      ∧ inEdges.Perm (edges.filter fun e => decide (p.Mem a e.src ∧ p.Mem b e.dst))
      ∧ filesA.outData b = outEdges.map EdgeWithValue.value
      ∧ filesB.inData a = inEdges.map EdgeWithValue.value
      ∧ outEdges.map EdgeWithValue.ends = inEdges.map EdgeWithValue.ends

/-- **Slot agreement**: the graph is handed out, the calls for both shards
complete, and their slots agree. -/
def SlotAgreement (p : IntervalPartition) (edgesMaxInBuffer blockSize valueSize : ℕ)
    (edges : List (EdgeWithValue V)) (a b : ℕ) (randA randB : ℕ → ℕ) : Prop :=
  ∃ shovel filesA filesB, reshovel p edgesMaxInBuffer edges = some shovel
    ∧ reshard ⟨p, a, blockSize, valueSize⟩ randA (shovel a) = some filesA
    ∧ reshard ⟨p, b, blockSize, valueSize⟩ randB (shovel b) = some filesB
    ∧ SlotsAgree p edges a b filesA filesB

/-- Sorted edges with the same endpoints have them in the same order. -/
theorem map_ends_eq {L L' : List (EdgeWithValue V)} (hperm : L.Perm L')
    (hL : L.Pairwise fun a b => a.sortKey ≤ b.sortKey)
    (hL' : L'.Pairwise fun a b => a.sortKey ≤ b.sortKey) :
    L.map EdgeWithValue.ends = L'.map EdgeWithValue.ends := by
  have hkeys : L.map EdgeWithValue.sortKey = L'.map EdgeWithValue.sortKey :=
    (hperm.map _).eq_of_pairwise' (List.pairwise_map.mpr hL) (List.pairwise_map.mpr hL')
  have hofLex := congrArg (List.map ofLex) hkeys
  rw [List.map_map, List.map_map] at hofLex
  exact hofLex

/-- An assertion of the call fails. -/
def AssertFails (c : Params) (edges : List (EdgeWithValue V)) : Prop :=
  ZeroHead c edges ∧ OtherOut c edges

section Agreement

variable {p : IntervalPartition} {blockSize valueSize a b : ℕ}

/-- A call that completes has not failed an assertion. -/
theorem Leaves.not_assertFails {c : Params} {rand : ℕ → ℕ} {E : ShardEdges c V}
    (hfew : FewEdges E.edges) {files : ShardFiles V} (h : Leaves c rand E.edges files) :
    ¬AssertFails c E.edges := by
  obtain ⟨hperm, -⟩ := sortEdges_spec rand hfew
  obtain ⟨log, wsl, -, -, -, hend⟩ := h.adjacency
  rintro ⟨hzero, hother⟩
  rw [← ZeroHead.perm hperm] at hzero
  rw [← OtherOut.perm hperm] at hother
  cases hend with
  | right noZeroHead => exact noZeroHead hzero
  | spoiled _ noOther => exact noOther hother
  | jumped noZeroHead => exact noZeroHead hzero

/-- The edges from `a` to `b` among those that one of the two gets. -/
theorem filter_touching (edges : List (EdgeWithValue V)) {k : ℕ} (hk : k = a ∨ k = b) :
    ((touching p k edges).filter fun e => decide (p.Mem a e.src ∧ p.Mem b e.dst))
      = edges.filter fun e => decide (p.Mem a e.src ∧ p.Mem b e.dst) := by
  unfold touching
  rw [List.filter_filter]
  refine List.filter_congr fun e _ => ?_
  rw [Bool.and_eq_left_iff_imp, decide_eq_true_iff, decide_eq_true_iff]
  rintro ⟨hsrc, hdst⟩
  rcases hk with rfl | rfl
  · exact Or.inl hsrc
  · exact Or.inr hdst

/-- In shard `b`, the edges from `a` are those from `a` to `b`. -/
theorem filter_in {L : List (EdgeWithValue V)}
    (hlegal : ∀ e ∈ L, Legal ⟨p, b, blockSize, valueSize⟩ e) (hab : a ≠ b) :
    (L.filter fun e => decide (p.Mem a e.src))
      = L.filter fun e => decide (p.Mem a e.src ∧ p.Mem b e.dst) :=
  List.filter_congr fun e he => decide_eq_decide.mpr
    ⟨fun hsrc => ⟨hsrc, (hlegal e he).dst_of_src hsrc hab⟩, And.left⟩

/-- The files that both calls leave agree. -/
theorem slotsAgree_of_leaves (G : Graph p V) (hab : a ≠ b) {randA randB : ℕ → ℕ}
    (hfewA : FewEdges (touching p a G.edges)) (hfewB : FewEdges (touching p b G.edges))
    {filesA filesB : ShardFiles V}
    (hA : Leaves ⟨p, a, blockSize, valueSize⟩ randA (touching p a G.edges) filesA)
    (hB : Leaves ⟨p, b, blockSize, valueSize⟩ randB (touching p b G.edges) filesB) :
    SlotsAgree p G.edges a b filesA filesB := by
  obtain ⟨hpermA, hsortedA⟩ := sortEdges_spec randA hfewA
  obtain ⟨hpermB, hsortedB⟩ := sortEdges_spec randB hfewB
  have hlegalB := ((G.shardEdges b blockSize valueSize).scan randB hfewB).legal
  have hout := hpermA.filter fun e => decide (p.Mem a e.src ∧ p.Mem b e.dst)
  have hin := hpermB.filter fun e => decide (p.Mem a e.src ∧ p.Mem b e.dst)
  rw [filter_touching G.edges (Or.inl rfl)] at hout
  rw [filter_touching G.edges (Or.inr rfl)] at hin
  refine ⟨_, _, hout, hin, hA.outData b, ?_, ?_⟩
  · exact (hB.inData a hab).trans
      (congrArg (List.map EdgeWithValue.value) (filter_in hlegalB hab))
  · exact map_ends_eq (hout.trans hin.symm) (hsortedA.filter _) (hsortedB.filter _)

/-- **The slots of two shards agree exactly when neither call fails**, for
shards of fewer than `2 ^ 31` edges. -/
theorem slotAgreement_iff (G : Graph p V) (edgesMaxInBuffer blockSize valueSize a b : ℕ)
    (hab : a ≠ b) (randA randB : ℕ → ℕ) (hfewA : FewEdges (touching p a G.edges))
    (hfewB : FewEdges (touching p b G.edges)) :
    SlotAgreement p edgesMaxInBuffer blockSize valueSize G.edges a b randA randB
      ↔ ¬AssertFails ⟨p, a, blockSize, valueSize⟩ (touching p a G.edges)
        ∧ ¬AssertFails ⟨p, b, blockSize, valueSize⟩ (touching p b G.edges) := by
  have hA := reshard_ending (G.shardEdges a blockSize valueSize) randA hfewA
  have hB := reshard_ending (G.shardEdges b blockSize valueSize) randB hfewB
  have hshovel := reshovel_spec G edgesMaxInBuffer
  constructor
  · rintro ⟨shovel, filesA, filesB, hs, hrunA, hrunB, -⟩
    obtain rfl := Option.some.inj (hs.symm.trans hshovel)
    constructor
    · rcases hA with ⟨_, _, hleaves⟩ | ⟨hnone, -⟩
      · exact hleaves.not_assertFails hfewA
      · exact absurd (hrunA.symm.trans hnone) (by simp)
    · rcases hB with ⟨_, _, hleaves⟩ | ⟨hnone, -⟩
      · exact hleaves.not_assertFails hfewB
      · exact absurd (hrunB.symm.trans hnone) (by simp)
  · rintro ⟨hokA, hokB⟩
    rcases hA with ⟨filesA, hrunA, hleavesA⟩ | ⟨-, hfail⟩
    · rcases hB with ⟨filesB, hrunB, hleavesB⟩ | ⟨-, hfail⟩
      · exact ⟨_, filesA, filesB, hshovel, hrunA, hrunB,
          slotsAgree_of_leaves G hab hfewA hfewB hleavesA hleavesB⟩
      · exact absurd hfail hokB
    · exact absurd hfail hokA

/-- A graph of two edges between shards 0 and 1 of three. -/
def plainGraph : Graph threeShards ℕ where
  edges := [⟨3, 12, 5⟩, ⟨11, 4, 6⟩]
  noloop := by decide
  covered e he := by
    simp only [List.mem_cons, List.not_mem_nil, or_false] at he
    rcases he with rfl | rfl
    · exact ⟨⟨0, by decide⟩, ⟨1, by decide⟩⟩
    · exact ⟨⟨1, by decide⟩, ⟨0, by decide⟩⟩

/-- The slots from shard 0 to shard 1 agree in `plainGraph`. -/
theorem slotAgreement_plainGraph :
    SlotAgreement threeShards 1000 4194304 4 plainGraph.edges 0 1 id id :=
  (slotAgreement_iff plainGraph 1000 4194304 4 0 1 (by decide) id id
    (by unfold FewEdges; decide) (by unfold FewEdges; decide)).mpr
    ⟨fun h => h.1.1 rfl, fun h => absurd h.1.2.1 (by decide)⟩

/-- A graph with an edge from vertex 0 to shard 1, and one within shard
1. -/
def zeroHeadGraph : Graph threeShards ℕ where
  edges := [⟨0, 10, 7⟩, ⟨10, 11, 8⟩]
  noloop := by decide
  covered e he := by
    simp only [List.mem_cons, List.not_mem_nil, or_false] at he
    rcases he with rfl | rfl
    · exact ⟨⟨0, by decide⟩, ⟨1, by decide⟩⟩
    · exact ⟨⟨1, by decide⟩, ⟨1, by decide⟩⟩

/-- The call for shard 1 fails on what it gets of `zeroHeadGraph`, so there
are no slots to agree. -/
theorem not_slotAgreement_zeroHeadGraph :
    ¬SlotAgreement threeShards 1000 4194304 4 zeroHeadGraph.edges 0 1 id id := by
  have hnone : ((reshovel threeShards 1000 zeroHeadGraph.edges).bind fun shovel =>
      reshard ⟨threeShards, 1, 4194304, 4⟩ id (shovel 1)).isNone = true := by decide
  rintro ⟨shovel, filesA, filesB, hs, -, hrunB, -⟩
  rw [hs, Option.bind_some, hrunB] at hnone
  exact absurd hnone (by simp)

end Agreement

end Reshard
