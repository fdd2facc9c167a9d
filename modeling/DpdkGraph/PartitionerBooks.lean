import DpdkGraph.Partitioner

/-!
# What the books say

After each pass the partitioner's books of the vertices are right, and the
books of the edges together have each edge twice. In a later pass each
vertex goes to a bucket that is best for it, up to a millionth, by the books
of that moment.

With no later pass, vertex 0 stays in the first bucket: it has no neighbour
that has been assigned before it, so that all buckets are alike to it. Then
the renumbering behind the partitioner is right (`lawful_of_single`); an
empty first bucket, which breaks it, takes a later pass.
-/

namespace Partitioner

open PartitionWindows Renumbering CrossCounts

variable {F : Type} {x : Partitioner F} {k : ℕ}

/-! ## The edges of the buckets -/

section Transfer

variable {e : ℕ → ℤ} {n a b : ℕ}

/-- More for one bucket is more for all. -/
theorem sum_update_add (e : ℕ → ℤ) (hb : b < n) (z : ℤ) :
    ∑ i ∈ Finset.range n, Function.update e b (e b + z) i = ∑ i ∈ Finset.range n, e i + z := by
  have hmem := Finset.mem_range.mpr hb
  rw [Finset.sum_update_of_mem hmem, ← Finset.add_sum_erase _ e hmem,
    Finset.sdiff_singleton_eq_erase]
  ring

/-- **What one bucket loses the other one gets.** -/
theorem sum_transfer (ha : a < n) (hb : b < n) (z : ℤ) :
    ∑ i ∈ Finset.range n, transfer e a b z i = ∑ i ∈ Finset.range n, e i := by
  unfold transfer
  rw [sum_update_add _ hb, Int.sub_eq_add_neg, sum_update_add _ ha]
  ring

/-- A bucket after a transfer. -/
theorem transfer_apply (hab : a ≠ b) (z : ℤ) (q : ℕ) :
    transfer e a b z q = e q - (if a = q then z else 0) + if b = q then z else 0 := by
  unfold transfer
  rw [Function.update_of_ne hab.symm]
  by_cases hb : q = b
  · subst hb
    rw [Function.update_self, if_neg hab, if_pos rfl, sub_zero]
  · rw [Function.update_of_ne hb, if_neg (Ne.symm hb)]
    by_cases ha : q = a
    · subst ha
      rw [Function.update_self, if_pos rfl, add_zero]
    · rw [Function.update_of_ne ha, if_neg (Ne.symm ha), sub_zero, add_zero]

end Transfer

theorem held_succ (holder : ℕ → ℕ) (weight : ℕ → ℤ) (m b : ℕ) :
    held holder weight (m + 1) b
      = held holder weight m b + if holder m = b then weight m else 0 :=
  Finset.sum_range_succ _ _

/-- **After the first pass each bucket has the edges of its vertices.** -/
theorem edgesInBucks_first (b : ℕ) : (x.after 0).edgesInBucks b
    = held (x.after 0).vertexToBucks x.degree (x.maxVertexId + 1) b := by
  rw [after_zero]
  refine before_induction
    (P := fun m s => ∀ b, s.edgesInBucks b = held s.vertexToBucks x.degree m b)
    (fun _ => rfl) (fun m hm s h b => ?_) _ le_rfl b
  have hbucket : (x.assignVertex s m).vertexToBucks
      = Function.update s.vertexToBucks m (x.firstChoice s m) := rfl
  rw [hbucket, held_succ, held_update_of_le le_rfl, Function.update_self, ← h b]
  show Function.update s.edgesInBucks (x.firstChoice s m) _ b = _
  rw [(given_first hm).edgesOf]
  by_cases hb : b = x.firstChoice s m
  · rw [hb, Function.update_self, if_pos rfl]
  · rw [Function.update_of_ne hb, if_neg (Ne.symm hb), add_zero]

/-- **No edge is lost in the books.** -/
theorem sum_edgesInBucks (hk : k ≤ x.later) :
    ∑ b ∈ Finset.range x.nshards, (x.after k).edgesInBucks b = 2 * x.run.graph.edges.length := by
  refine (after_induction (P := fun s => (∀ v, s.vertexToBucks v < x.nshards)
      ∧ ∑ b ∈ Finset.range x.nshards, s.edgesInBucks b = 2 * x.run.graph.edges.length)
    hk ⟨bucket_lt (Nat.zero_le _), ?_⟩ fun j _ v hv s h => ?_).2
  · rw [Finset.sum_congr rfl fun b _ => edgesInBucks_first b,
      sum_held fun v _ => bucket_lt (Nat.zero_le _) v]
    exact x.sum_degree
  · obtain ⟨hlt, hsum⟩ := h
    refine ⟨fun u => ?_, ?_⟩
    · by_cases hu : u = v
      · rw [hu]
        exact (reassign_self _ s.toBuckets).trans_lt (choose_lt x.nshards_pos)
      · exact (reassign_of_ne _ s.toBuckets hu).trans_lt (hlt u)
    · rw [← hsum]
      unfold optimizeVertex Books.move
      dsimp only
      split
      · exact sum_transfer (hlt v) (choose_lt x.nshards_pos) _
      · rfl

/-- **In a complete run each bucket has the edges of its vertices.** -/
theorem edgesInBucks_eq (hcomplete : x.run.Complete) (hk : k ≤ x.later) (b : ℕ) :
    (x.after k).edgesInBucks b
      = held (x.after k).vertexToBucks x.degree (x.maxVertexId + 1) b := by
  refine after_induction
    (P := fun s => ∀ b, s.edgesInBucks b
      = held s.vertexToBucks x.degree (x.maxVertexId + 1) b)
    hk edgesInBucks_first (fun j hj v hv s h b => ?_) b
  unfold optimizeVertex Books.move reassign
  dsimp only
  split
  · next hne =>
    show transfer _ _ _ _ b = held (Function.update s.vertexToBucks v _) _ _ b
    rw [transfer_apply (Ne.symm hne), held_update (Nat.lt_succ_of_le hv), ← h b,
      (given_complete hcomplete (Nat.succ_le_of_lt (hj.trans_le hk)) hv).edgesOf]
  · exact h b

/-- **The books after every pass.** The vertices are always counted right; the
edges are so in each bucket if a pass is given all edges of a vertex. -/
structure BooksLaw (x : Partitioner F) (k : ℕ) : Prop where
  /-- Every vertex has a bucket. -/
  bucket : ∀ v, (x.after k).vertexToBucks v < x.nshards
  /-- `vertexs_in_bucks` counts the vertices. -/
  vertexs : ∀ b, (x.after k).vertexsInBucks b
    = (((Finset.range (x.maxVertexId + 1)).filter
        fun v => (x.after k).vertexToBucks v = b).card : ℤ)
  /-- Together the buckets have each edge twice. -/
  edges : ∑ b ∈ Finset.range x.nshards, (x.after k).edgesInBucks b
    = 2 * x.run.graph.edges.length
  /-- In the first pass, and if every pass is given the whole graph,
  `edges_in_bucks` counts the edges of the vertices. -/
  each : k = 0 ∨ x.run.Complete → ∀ b, (x.after k).edgesInBucks b
    = ∑ v ∈ (Finset.range (x.maxVertexId + 1)).filter
        fun v => (x.after k).vertexToBucks v = b, x.degree v

theorem books_kept (x : Partitioner F) (hk : k ≤ x.later) : x.BooksLaw k where
  bucket := bucket_lt hk
  vertexs b := by
    have hcounted := (x.toPartition.counted k).1 b
    rw [after_toPartition hk] at hcounted
    rw [hcounted, card_filter_eq_members]
    rfl
  edges := sum_edgesInBucks hk
  each h b := by
    rw [Finset.sum_filter]
    rcases h with rfl | h
    · exact edgesInBucks_first b
    · exact edgesInBucks_eq h hk b

theorem books_kept_pairs : pairs.BooksLaw 1 := books_kept pairs le_rfl

/-! ## The bucket is the best one -/

/-- **Vertex 0 is put in the first bucket**: in the first pass the smaller
neighbours count, of which it has none, so that all buckets have the same score,
and the first is kept. -/
theorem firstChoice_zero (hd : x.doubles.Lawful)
    (hloop : ∀ e ∈ x.run.graph.edges, e.1 ≠ e.2) : x.firstChoice Books.empty 0 = 0 := by
  have hself : ∀ l : List ℕ, 0 ∉ l → ∀ cross : ℕ → ℕ,
      countLoop (fun _ => 0) 0 cross l = cross := by
    intro l hl cross
    cases l with
    | nil => rfl
    | cons u l =>
      refine if_pos (Nat.pos_of_ne_zero fun hu => hl ?_)
      rw [hu]
      exact List.mem_cons_self
  obtain ⟨hin, hout⟩ := @given_first F x 0 (Nat.zero_le _)
  have hcross : crossInBucks (fun _ => 0) 0 (x.vertices 0 0) = fun _ => 0 := by
    unfold crossInBucks
    rw [hself, hself]
    · intro h
      obtain ⟨e, he, hsrc⟩ := List.mem_map.mp (hin.subset h)
      have hdst := of_decide_eq_true (List.mem_filter.mp he).2
      exact hloop e (List.mem_of_mem_filter he) (hsrc.trans hdst.symm)
    · intro h
      obtain ⟨e, he, hdst⟩ := List.mem_map.mp (hout.subset h)
      have hsrc := of_decide_eq_true (List.mem_filter.mp he).2
      exact hloop e (List.mem_of_mem_filter he) (hsrc.trans hdst.symm)
  unfold firstChoice
  refine choose_eq_zero (t := x.tempRatio x.capacity Books.empty (fun _ => 0) 0) hd
    (fun i => ?_) fun c i b => ?_
  · show x.tempRatio x.capacity Books.empty (crossInBucks (fun _ => 0) 0 _) i = _
    rw [hcross]
    rfl
  · have hzero := hd.times_zero (x.doubles.mul (x.doubles.ofInt 0) x.baseR)
    show (_ || (_ && x.doubles.lt (x.doubles.ofInt 0) (x.doubles.mul
      (x.doubles.mul (x.doubles.ofInt 0) x.baseR) (x.doubles.ofInt 0)))) = _
    rw [hzero, Bool.and_false, Bool.or_false]

/-- The first pass leaves it there. -/
theorem bucket_zero (hd : x.doubles.Lawful) (hloop : ∀ e ∈ x.run.graph.edges, e.1 ≠ e.2) :
    (x.after 0).vertexToBucks 0 = 0 := by
  rw [after_zero]
  refine before_induction (P := fun m s => (m = 0 → s = Books.empty)
      ∧ (0 < m → s.vertexToBucks 0 = 0)) ⟨fun _ => rfl, fun h => absurd h (lt_irrefl 0)⟩
    (fun m _ s h => ⟨fun h => absurd h (Nat.succ_ne_zero m), fun _ => ?_⟩) _ le_rfl
    |>.2 (Nat.succ_pos _)
  rcases Nat.eq_zero_or_pos m with rfl | hm
  · rw [h.1 rfl]
    exact (assign_self _ _).trans (firstChoice_zero hd hloop)
  · exact (assign_of_ne _ s.toBuckets hm.ne).trans (h.2 hm)

/-- The renumbering sees the buckets of the last pass. -/
theorem buckets_toPartition (x : Partitioner F) :
    x.toPartition.buckets = (x.after x.later).toBuckets := by
  have hlength : x.toPartition.reassignments.length = x.later := by
    show ((List.range x.later).map _).length = x.later
    rw [List.length_map, List.length_range]
  unfold Renumbering.Partition.buckets
  rw [hlength, after_toPartition le_rfl]

/-- **With no later pass the renumbering is right**, as long as an `int`
counts the vertices. -/
theorem lawful_of_single (hd : x.doubles.Lawful)
    (hloop : ∀ e ∈ x.run.graph.edges, e.1 ≠ e.2) (hsingle : x.later = 0)
    (hint : x.maxVertexId + 1 < 2 ^ 31) : x.toPartition.Lawful := by
  refine Renumbering.Partition.lawful_of_first ⟨0, Nat.zero_le _, ?_⟩ hint
  rw [buckets_toPartition, hsingle]
  exact bucket_zero hd hloop

theorem lawful_of_single_pairs : pairsOnce.toPartition.Lawful :=
  lawful_of_single Doubles.lawful_rational (show ∀ e ∈ pairsGraph.edges, e.1 ≠ e.2 by decide)
    rfl (show 3 + 1 < 2 ^ 31 by norm_num)

end Partitioner
