import DpdkGraph.PartitionWindows
import DpdkGraph.Renumbering

/-!
# Counting the edges to each bucket

In its first pass the partitioner takes the vertices one after the other.
It counts how many neighbours of the vertex each bucket has, and with these
counts it chooses the bucket of the vertex. Only neighbours with a smaller
id have a bucket yet, so both counting loops end at the first neighbour that
is larger.

The in-edges come from the shard in memory, in the order of their sources,
and nothing is missed. The out-edges come from all shards, which several
threads read: one shard may have given a larger neighbour before another
gives a smaller one, and then the smaller one is not counted
(`crossLaw_iff`).

How the bucket is chosen from the counts is a matter of scores that are not
modelled: `toBuck` is any function.
-/

namespace CrossCounts

open PartitionWindows Renumbering SparseRows

/-! ## The pass -/

/-- One of the counting loops of vertex `cur`. -/
def countLoop (bucket : ℕ → ℕ) (cur : ℕ) : (ℕ → ℕ) → List ℕ → ℕ → ℕ
  | cross, [] => cross
  | cross, other :: others =>
    if other > cur then cross
    else
      countLoop bucket cur
        (Function.update cross (bucket other) (cross (bucket other) + 1)) others

/-- **`cross_in_bucks`** of a vertex, after both loops. -/
def crossInBucks (bucket : ℕ → ℕ) (cur : ℕ) (x : Vertex) : ℕ → ℕ :=
  countLoop bucket cur (countLoop bucket cur (fun _ => 0) x.inedges) x.outedges

/-- The sub-windows of the first pass; the sliding shards are at their
start. -/
def steps (g : ShardedGraph) (split : ℕ → List (ℕ × ℕ)) : List Step :=
  (pass g split (fun p => ⟨0, g.file p⟩) g.part.nshards).1

/-- **The first pass over a graph**, with the edges that the vertices have
been given. -/
structure AssignmentPass where
  /-- The graph. -/
  graph : ShardedGraph
  /-- `preprocessing_add_edge` drops the others. -/
  noLoop : ∀ e ∈ graph.edges, e.1 ≠ e.2
  /-- How the windows are split. -/
  split : ℕ → List (ℕ × ℕ)
  /-- They are gone over. -/
  splits : Splits graph split
  /-- The vertices with their edges. -/
  vertices : ℕ → Vertex
  /-- The calls of the readers come in any order, but the in-edges, which
  one thread adds, in theirs. -/
  loaded : ∀ t ∈ steps graph split, ∃ order given, order.Perm t.events
    ∧ (∀ v, insOf v order = insOf v t.events) ∧ t.vertices order = some given
    ∧ ∀ v, Within t.sub v → vertices v = given v
  /-- How the bucket is chosen. -/
  toBuck : Buckets → (ℕ → ℕ) → ℕ → ℕ

namespace AssignmentPass

variable (x : AssignmentPass)

/-- A vertex is assigned. -/
def assignVertex (s : Buckets) (v : ℕ) : Buckets :=
  assign (x.toBuck s (crossInBucks s.vertexToBucks v (x.vertices v))) s v

/-- The buckets when the vertices below `v` have been assigned. -/
def before (v : ℕ) : Buckets :=
  (List.range v).foldl x.assignVertex ⟨fun _ => 0, fun _ => 0⟩

/-- The counts of a vertex. -/
def cross (v : ℕ) : ℕ → ℕ := crossInBucks (x.before v).vertexToBucks v (x.vertices v)

/-- `vertex_to_bucks` at the end of the pass. -/
def bucket : ℕ → ℕ := (x.before (x.graph.maxVertexId + 1)).vertexToBucks

/-- **The law of the counts**: each vertex has counted, for each bucket, its
in- and out-edges to smaller vertices in the bucket. -/
def CrossLaw : Prop :=
  ∀ v ≤ x.graph.maxVertexId, ∀ k, x.cross v k
    = (x.graph.inedges v).countP (fun u => u < v ∧ x.bucket u = k)
      + (x.graph.outedges v).countP (fun u => u < v ∧ x.bucket u = k)

end AssignmentPass

/-- No smaller neighbour comes behind a larger one. -/
def SmallerFirst (v : ℕ) (l : List ℕ) : Prop := l.Pairwise fun a b => v < a → v < b

/-! ## The loops -/

/-- **A loop counts the neighbours before the first larger one.** -/
theorem countLoop_eq (bucket : ℕ → ℕ) (cur : ℕ) (cross : ℕ → ℕ) (l : List ℕ) (k : ℕ) :
    countLoop bucket cur cross l k
      = cross k + (l.takeWhile fun u => u ≤ cur).countP fun u => bucket u = k := by
  induction l generalizing cross with
  | nil => rfl
  | cons u l ih =>
    unfold countLoop
    by_cases hu : u ≤ cur
    · rw [if_neg (Nat.not_lt_of_le hu), ih]
      by_cases hk : bucket u = k
      · simp [hu, hk, Nat.add_assoc, Nat.add_comm 1]
      · simp [hu, hk, Function.update_of_ne (Ne.symm hk)]
    · simp [hu, Nat.lt_of_not_le hu]

theorem takeWhile_eq_filter_iff {v : ℕ} {l : List ℕ} :
    (l.takeWhile fun u => u ≤ v) = (l.filter fun u => u ≤ v) ↔ SmallerFirst v l := by
  induction l with
  | nil => exact iff_of_true rfl List.Pairwise.nil
  | cons a l ih =>
    unfold SmallerFirst
    rw [List.pairwise_cons]
    by_cases ha : a ≤ v
    · have htake : ((a :: l).takeWhile fun u => u ≤ v)
          = a :: l.takeWhile fun u => u ≤ v := by simp [ha]
      have hfilter : ((a :: l).filter fun u => u ≤ v)
          = a :: l.filter fun u => u ≤ v := by simp [ha]
      rw [htake, hfilter, List.cons.injEq, ih]
      have hfree : ∀ b ∈ l, v < a → v < b := fun _ _ h => absurd ha (Nat.not_le_of_gt h)
      exact ⟨fun h => ⟨hfree, h.2⟩, fun h => ⟨rfl, h.2⟩⟩
    · have htake : ((a :: l).takeWhile fun u => u ≤ v) = [] := by simp [ha]
      have hfilter : ((a :: l).filter fun u => u ≤ v) = l.filter fun u => u ≤ v := by
        simp [ha]
      rw [htake, hfilter, eq_comm, List.filter_eq_nil_iff]
      have hlarge : (∀ b ∈ l, ¬decide (b ≤ v) = true) ↔ ∀ b ∈ l, v < a → v < b := by
        simp [Nat.lt_of_not_le ha]
      rw [hlarge]
      refine ⟨fun h => ⟨h, ?_⟩, And.left⟩
      exact List.pairwise_of_forall_mem_list fun _ _ b hb _ => h b hb (Nat.lt_of_not_le ha)

/-- Where each bucket has as many of a part as of the whole, the part is the
whole. -/
theorem eq_of_countP_eq {bucket : ℕ → ℕ} {l l' : List ℕ} (hsub : l.Sublist l')
    (h : ∀ k, (l.countP fun u => bucket u = k) = l'.countP fun u => bucket u = k) :
    l = l' := by
  obtain ⟨rest, hperm⟩ := hsub.exists_perm_append
  cases rest with
  | nil =>
    refine hsub.eq_of_length ?_
    rw [hperm.length_eq, List.append_nil]
  | cons u rest =>
    have hcount := h (bucket u)
    rw [hperm.countP_eq, List.countP_append, List.countP_cons_of_pos (by simp)] at hcount
    omega

/-- **When a loop counts all smaller neighbours.** -/
theorem forall_countP_eq_iff {bucket : ℕ → ℕ} {v : ℕ} {l : List ℕ} :
    (∀ k, ((l.takeWhile fun u => u ≤ v).countP fun u => bucket u = k)
      = (l.filter fun u => u ≤ v).countP fun u => bucket u = k) ↔ SmallerFirst v l := by
  rw [← takeWhile_eq_filter_iff]
  refine ⟨eq_of_countP_eq ?_, fun h k => by rw [h]⟩
  have hall : (l.takeWhile fun u => u ≤ v).filter (fun u => u ≤ v)
      = l.takeWhile fun u => u ≤ v :=
    List.filter_eq_self.mpr fun u hu =>
      List.mem_takeWhile_imp (p := fun u => decide (u ≤ v)) hu
  rw [← hall]
  exact (List.takeWhile_sublist _).filter _

/-! ## What the vertices have been given -/

section Given

variable {g : ShardedGraph} {split : ℕ → List (ℕ × ℕ)}

/-- A step of a pass is a sub-window of some window. -/
theorem exists_of_mem_pass {cursors : ℕ → Cursor} {k : ℕ} {t : Step}
    (h : t ∈ (pass g split cursors k).1) :
    ∃ w cursors' sub, t = (subWindow g w cursors' sub).1 := by
  have hwindow : ∀ (w : ℕ) (subs : List (ℕ × ℕ)) (cursors : ℕ → Cursor),
      t ∈ (window g w subs cursors).1 →
        ∃ w cursors' sub, t = (subWindow g w cursors' sub).1 := by
    intro w subs
    induction subs with
    | nil => exact fun _ h => absurd h List.not_mem_nil
    | cons sub subs ih =>
      intro cursors h
      rcases List.mem_cons.mp h with rfl | h
      · exact ⟨w, cursors, sub, rfl⟩
      · exact ih _ h
  induction k with
  | zero => exact absurd h List.not_mem_nil
  | succ k ih => exact (List.mem_append.mp h).elim ih (hwindow k (split k) _)

/-- **The in-edges are added in the order of their sources.** -/
theorem insOf_pairwise {t : Step} {v : ℕ} (h : t ∈ steps g split) (hv : Within t.sub v) :
    (insOf v t.events).Pairwise (· ≤ ·) := by
  obtain ⟨w, cursors, sub, rfl⟩ := exists_of_mem_pass h
  have hv : sub.1 ≤ v ∧ v ≤ sub.2 := hv
  have hslide : insOf v (((List.range g.part.nshards).filter fun p => p ≠ w).flatMap
      fun p => (readNextVertices (cursors p) sub.1 sub.2).1) = [] := by
    unfold insOf
    rw [List.filterMap_flatMap]
    exact List.flatMap_eq_nil_iff.mpr fun p _ => insOf_outedges v _
  show (insOf v (loadVertices sub.1 sub.2 0 (g.file w) ++ _)).Pairwise _
  rw [insOf_append, hslide, List.append_nil,
    loadVertices_eq (by rw [g.expand_file]; exact g.sorted w), g.expand_file,
    insOf_edgeEvents v hv, List.pairwise_map]
  exact (g.src_sorted w).filter _

/-- A vertex lies in a sub-window of the pass, whose calls give it its
edges. -/
theorem exists_step_within (hsplit : Splits g split) {v : ℕ} (hv : v ≤ g.maxVertexId) :
    ∃ t ∈ steps g split, Within t.sub v ∧ Exact g t := by
  obtain ⟨a, ha⟩ := g.exists_mem hv
  obtain ⟨sub, hsub, hwithin⟩ := exists_sub hsplit ha
  have hexact := ((fit_start g).pass hsplit le_rfl).1
  have hmem : ∀ (subs : List (ℕ × ℕ)) (cursors : ℕ → Cursor), sub ∈ subs →
      ∃ t ∈ (window g a subs cursors).1, t.sub = sub := by
    intro subs
    induction subs with
    | nil => exact fun _ h => absurd h List.not_mem_nil
    | cons sub' subs ih =>
      intro cursors h
      rcases List.mem_cons.mp h with rfl | h
      · exact ⟨_, List.mem_cons_self, rfl⟩
      · obtain ⟨t, ht, heq⟩ := ih (subWindow g a cursors sub').2 h
        exact ⟨t, List.mem_cons_of_mem _ ht, heq⟩
  obtain ⟨t, ht, rfl⟩ := hmem (split a) (pass g split (fun p => ⟨0, g.file p⟩) a).2 hsub
  have ht := window_subset_pass ha.1 ht
  exact ⟨t, ht, hwithin, hexact t ht⟩

variable (x : AssignmentPass)

/-- **What a vertex has been given**: its edges, the in-edges by source. -/
theorem AssignmentPass.given {v : ℕ} (hv : v ≤ x.graph.maxVertexId) :
    (x.vertices v).inedges.Perm (x.graph.inedges v)
      ∧ (x.vertices v).outedges.Perm (x.graph.outedges v)
      ∧ (x.vertices v).inedges.Pairwise (· ≤ ·) := by
  obtain ⟨t, ht, hwithin, hexact⟩ := exists_step_within x.splits hv
  obtain ⟨order, given, hperm, hins, hgiven, hsame⟩ := x.loaded t ht
  unfold Step.vertices at hgiven
  split at hgiven
  · obtain ⟨hin, hout⟩ := foldlM_apply_spec hgiven v
    have hin : (given v).inedges = insOf v order := hin
    have hout : (given v).outedges = outsOf v order := hout
    rw [hsame v hwithin, hin, hout]
    refine ⟨(insOf_perm v hperm).trans (hexact.edges v hwithin).1,
      (outsOf_perm v hperm).trans (hexact.edges v hwithin).2, ?_⟩
    rw [hins]
    exact insOf_pairwise ht hwithin
  · cases hgiven

/-- No vertex is its own neighbour. -/
theorem AssignmentPass.not_mem_self (v : ℕ) :
    v ∉ x.graph.inedges v ∧ v ∉ x.graph.outedges v := by
  constructor
  · intro h
    obtain ⟨e, he, hsrc⟩ := List.mem_map.mp h
    have hdst := of_decide_eq_true (List.mem_filter.mp he).2
    exact x.noLoop e (List.mem_of_mem_filter he) (hsrc.trans hdst.symm)
  · intro h
    obtain ⟨e, he, hdst⟩ := List.mem_map.mp h
    have hsrc := of_decide_eq_true (List.mem_filter.mp he).2
    exact x.noLoop e (List.mem_of_mem_filter he) (hsrc.trans hdst.symm)

end Given

/-! ## The law -/

namespace AssignmentPass

variable (x : AssignmentPass)

/-- A vertex keeps its bucket. -/
theorem bucket_before {u n m : ℕ} (hu : u < n) (hnm : n ≤ m) :
    (x.before m).vertexToBucks u = (x.before n).vertexToBucks u := by
  induction hnm with
  | refl => rfl
  | step hle ih =>
    rename_i m
    rw [← ih]
    unfold before
    rw [List.range_succ, List.foldl_append]
    exact Function.update_of_ne (hu.trans_le hle).ne _ _

/-- The smaller neighbours in a bucket, in the order in which they have been
given. -/
theorem countP_bucket {v : ℕ} (hv : v ≤ x.graph.maxVertexId) {l l' : List ℕ}
    (hperm : l.Perm l') (hself : v ∉ l') (k : ℕ) :
    (l'.countP fun u => u < v ∧ x.bucket u = k)
      = (l.filter fun u => u ≤ v).countP fun u => (x.before v).vertexToBucks u = k := by
  rw [← hperm.countP_eq, List.countP_filter]
  refine List.countP_congr fun u hu => ?_
  have hne : u ≠ v := fun h => hself (h ▸ hperm.subset hu)
  have hbucket : u < v → x.bucket u = (x.before v).vertexToBucks u := fun hlt =>
    x.bucket_before hlt (Nat.le_succ_of_le hv)
  rw [Bool.and_eq_true, decide_eq_true_iff, decide_eq_true_iff, decide_eq_true_iff]
  constructor
  · rintro ⟨hlt, hk⟩
    exact ⟨(hbucket hlt).symm.trans hk, hlt.le⟩
  · rintro ⟨hk, hle⟩
    have hlt := lt_of_le_of_ne hle hne
    exact ⟨hlt, (hbucket hlt).trans hk⟩

/-- **The counts are right exactly when no smaller out-neighbour has been
given behind a larger one.** -/
theorem crossLaw_iff :
    x.CrossLaw ↔ ∀ v ≤ x.graph.maxVertexId, SmallerFirst v (x.vertices v).outedges := by
  refine forall₂_congr fun v hv => ?_
  obtain ⟨hin, hout, hsorted⟩ := x.given hv
  obtain ⟨hselfIn, hselfOut⟩ := x.not_mem_self v
  have hfirst : SmallerFirst v (x.vertices v).inedges :=
    hsorted.imp fun hle hlt => hlt.trans_le hle
  rw [← @forall_countP_eq_iff (x.before v).vertexToBucks]
  refine forall_congr' fun k => ?_
  rw [x.countP_bucket hv hin hselfIn, x.countP_bucket hv hout hselfOut,
    ← takeWhile_eq_filter_iff.mpr hfirst]
  unfold cross crossInBucks
  rw [countLoop_eq, countLoop_eq, Nat.zero_add]
  exact Nat.add_left_cancel_iff

end AssignmentPass

/-- Three intervals, and two edges from the vertex of the second one: to
vertex 0 and to vertex 3. -/
def betweenGraph : ShardedGraph where
  part := ⟨[(0, 1), (2, 2), (3, 3)], rfl, by decide, by decide, by decide⟩
  nshards_pos := by decide
  full := by decide
  shards := fun p => [[(2, 0)], [], [(2, 3)]].getD p []
  sorted := by
    intro p
    match p with
    | 0 => exact List.pairwise_singleton _ _
    | 1 => exact List.Pairwise.nil
    | 2 => exact List.pairwise_singleton _ _
    | p + 3 => exact List.Pairwise.nil
  dst_mem := by decide
  src_mem := by
    intro p hp
    match p, hp with
    | 0, _ => exact fun e he => ⟨1, by rw [List.mem_singleton.mp he]; decide⟩
    | 1, _ => exact fun e he => absurd he List.not_mem_nil
    | 2, _ => exact fun e he => ⟨1, by rw [List.mem_singleton.mp he]; decide⟩

/-- A window is one sub-window. -/
def betweenSplit (w : ℕ) : List (ℕ × ℕ) := [if w = 0 then (0, 1) else (w + 1, w + 1)]

/-- The calls of the readers. -/
theorem steps_betweenGraph : steps betweenGraph betweenSplit
    = [⟨(0, 1), [.inedge 0 2]⟩, ⟨(2, 2), [.outedge 2 0, .outedge 2 3]⟩,
      ⟨(3, 3), [.inedge 3 2]⟩] := rfl

theorem length_nil_lt : ([] : List ℕ).length < 2 ^ 31 := by decide

/-- **The shard of vertex 3 is read before the shard of vertex 0.** -/
def betweenPass : AssignmentPass where
  graph := betweenGraph
  noLoop := by decide
  split := betweenSplit
  splits := by
    intro w hw
    match w, hw with
    | 0, _ => exact ⟨⟨rfl, by decide, rfl⟩, by decide⟩
    | 1, _ => exact ⟨⟨rfl, by decide, rfl⟩, by decide⟩
    | 2, _ => exact ⟨⟨rfl, by decide, rfl⟩, by decide⟩
  vertices := fun v => match v with
    | 1 => ⟨[], [], length_nil_lt, length_nil_lt⟩
    | 2 => ⟨[], [3, 0], length_nil_lt, by decide⟩
    | _ => ⟨[2], [], by decide, length_nil_lt⟩
  loaded := by
    rw [steps_betweenGraph]
    simp only [List.forall_mem_cons]
    refine ⟨⟨_, _, List.Perm.refl _, fun _ => rfl, rfl, ?_⟩,
      ⟨[.outedge 2 3, .outedge 2 0], _, List.Perm.swap _ _ _, fun _ => rfl, rfl, ?_⟩,
      ⟨_, _, List.Perm.refl _, fun _ => rfl, rfl, ?_⟩, fun t ht => absurd ht List.not_mem_nil⟩
    · intro v hv
      match v, hv with
      | 0, _ => rfl
      | 1, _ => rfl
      | v + 2, hv => exact absurd hv.2 (by simp)
    · intro v hv
      obtain rfl : v = 2 := le_antisymm hv.2 hv.1
      rfl
    · intro v hv
      obtain rfl : v = 3 := le_antisymm hv.2 hv.1
      rfl
  toBuck := fun _ _ v => v

/-- Vertex 2 has counted none of its neighbours. -/
example : betweenPass.cross 2 0 = 0 := by decide +kernel

/-- **Vertex 2 does not count vertex 0.** -/
theorem not_crossLaw_betweenPass : ¬betweenPass.CrossLaw := by
  intro h
  have hcount := h 2 (by decide) 0
  exact absurd hcount (by decide +kernel)

end CrossCounts
