import DpdkGraph.SlotAgreement

/-!
# The order in which a shard gets its edges

The edges of a shard come in the order in which the shovels were filled and
the packets arrived, and the sort draws its pivots at random. `reshard`
should write the same files whatever the order and the numbers.

The comparison of the sort ignores the values, so parallel edges are ties,
and the sort is not stable: where two of them stand in the sorted list is
decided by where they were before. `quickSort_map` says that the sort moves
edges that compare the same the same way, so two parallel edges that change
places in the input change places in the output, and with different values
one of the value files is another one (`inputOrderLaw_iff`).
-/

namespace Reshard

variable {V : Type}

/-- **The law of the input order**: whatever the order of the edges and the
random numbers, the call ends the same way and writes the same files. -/
def InputOrderLaw (c : Params) (edges : List (EdgeWithValue V)) : Prop :=
  ∀ edges₁ edges₂, edges₁.Perm edges → edges₂.Perm edges →
    ∀ rand₁ rand₂, reshard c rand₁ edges₁ = reshard c rand₂ edges₂

/-- Parallel edges have the same value. -/
def SameValues (edges : List (EdgeWithValue V)) : Prop :=
  ∀ a ∈ edges, ∀ b ∈ edges, a.ends = b.ends → a.value = b.value

/-- The comparison does not see the values. -/
theorem edgeTSrcLess_congr {a a' b b' : EdgeWithValue V} (ha : a.ends = a'.ends)
    (hb : b.ends = b'.ends) : a.edgeTSrcLess b = a'.edgeTSrcLess b' := by
  obtain ⟨hsrc, hdst⟩ := Prod.mk.inj ha
  obtain ⟨hsrc', hdst'⟩ := Prod.mk.inj hb
  unfold EdgeWithValue.edgeTSrcLess
  rw [hsrc, hdst, hsrc', hdst']

/-! ## Edges without ties -/

/-- **Without ties the sorted edges are always the same.** -/
theorem SameValues.sortEdges_eq {edges edges₁ edges₂ : List (EdgeWithValue V)}
    (h : SameValues edges) (hfew : FewEdges edges) (h₁ : edges₁.Perm edges)
    (h₂ : edges₂.Perm edges) (rand₁ rand₂ : ℕ → ℕ) :
    sortEdges rand₁ edges₁ = sortEdges rand₂ edges₂ := by
  have hfew₁ : FewEdges edges₁ := h₁.length_eq.trans_lt hfew
  have hfew₂ : FewEdges edges₂ := h₂.length_eq.trans_lt hfew
  obtain ⟨hperm₁, hsorted₁⟩ := sortEdges_spec rand₁ hfew₁
  obtain ⟨hperm₂, hsorted₂⟩ := sortEdges_spec rand₂ hfew₂
  have hperm₁ := hperm₁.trans h₁
  have hperm₂ := hperm₂.trans h₂
  refine List.Perm.eq_of_pairwise (fun a b ha hb hab hba => ?_) hsorted₁ hsorted₂
    (hperm₁.trans hperm₂.symm)
  have hends : a.ends = b.ends := congrArg ofLex (le_antisymm hab hba)
  have hvalue := h a (hperm₁.subset ha) b (hperm₂.subset hb) hends
  obtain ⟨hsrc, hdst⟩ := Prod.mk.inj hends
  cases a
  cases b
  congr

/-! ## Ties -/

/-- The place of an element when two have been swapped. -/
theorem swap_lt_iff {i j k n : ℕ} (hi : i < n) (hj : j < n) :
    Equiv.swap i j k < n ↔ k < n := by
  rw [Equiv.swap_apply_def]
  split
  · next h => exact iff_of_true hj (h ▸ hi)
  · split
    · next h => exact iff_of_true hi (h ▸ hj)
    · exact Iff.rfl

/-- A list, read by position. -/
theorem map_getD_range {α : Type} (l : List α) (d : α) :
    (List.range l.length).map (fun k => l.getD k d) = l := by
  refine List.ext_getElem (by simp) fun k hk hk' => ?_
  rw [List.getElem_map, List.getElem_range, List.getD_eq_getElem l d hk']

/-- The places of a list, with two of them swapped. -/
theorem swap_range_perm {i j n : ℕ} (hi : i < n) (hj : j < n) :
    ((List.range n).map (Equiv.swap i j)).Perm (List.range n) := by
  refine (List.perm_ext_iff_of_nodup (List.nodup_range.map (Equiv.injective _))
    List.nodup_range).mpr fun k => ?_
  rw [List.mem_map, List.mem_range]
  constructor
  · rintro ⟨m, hm, rfl⟩
    exact (swap_lt_iff hi hj).mpr (List.mem_range.mp hm)
  · intro hk
    exact ⟨Equiv.swap i j k, List.mem_range.mpr ((swap_lt_iff hi hj).mpr hk),
      Equiv.swap_apply_self i j k⟩

/-- **Edges with the same ends are sorted the same way.** -/
theorem sortEdges_map (rand : ℕ → ℕ) {n : ℕ} (hn : n < 2 ^ 31)
    {g₁ g₂ : ℕ → EdgeWithValue V} (hends : ∀ k, (g₁ k).ends = (g₂ k).ends) :
    ∃ order : List ℕ, order.Perm (List.range n)
      ∧ sortEdges rand ((List.range n).map g₁) = order.map g₁
      ∧ sortEdges rand ((List.range n).map g₂) = order.map g₂ := by
  have hlen : ∀ g : ℕ → EdgeWithValue V, ((List.range n).map g).length = n := by
    intro g
    rw [List.length_map, List.length_range]
  have hfew : ∀ g : ℕ → EdgeWithValue V, FewEdges ((List.range n).map g) := fun g =>
    (hlen g).trans_lt hn
  let less : ℕ → ℕ → Bool := fun k m => (g₁ k).edgeTSrcLess (g₁ m)
  refine ⟨(Qsort.quickSort less rand n 0 (List.range n)).1, ?_, ?_, ?_⟩
  · exact (Qsort.quickSort_spec
      (fun k m => EdgeWithValue.edgeTSrcLess_iff (g₁ k) (g₁ m)) rand n 0 _
      (List.length_range).le).1
  · rw [sortEdges_eq rand (hfew g₁), hlen, Qsort.quickSort_map fun _ _ => rfl]
  · rw [sortEdges_eq rand (hfew g₂), hlen,
      Qsort.quickSort_map fun k m => (edgeTSrcLess_congr (hends k) (hends m)).symm]

/-- If the values of two lists of edges with the same ends agree, each of
them does. -/
theorem value_eq_of_valuesOf {P : EdgeWithValue V → Prop} [DecidablePred P]
    {order : List ℕ} {g₁ g₂ : ℕ → EdgeWithValue V} (hP : ∀ k, P (g₁ k) ↔ P (g₂ k))
    (h : valuesOf P (order.map g₁) = valuesOf P (order.map g₂)) {k : ℕ} (hk : k ∈ order)
    (hPk : P (g₁ k)) : (g₁ k).value = (g₂ k).value := by
  unfold valuesOf at h
  rw [List.filter_map, List.filter_map, List.map_map, List.map_map] at h
  have hfilter : order.filter ((fun e => decide (P e)) ∘ g₂)
      = order.filter ((fun e => decide (P e)) ∘ g₁) :=
    List.filter_congr fun m _ => decide_eq_decide.mpr (hP m).symm
  rw [hfilter, List.map_inj_left] at h
  exact h k (List.mem_filter.mpr ⟨hk, decide_eq_true hPk⟩)

section Law

variable {c : Params} {E : ShardEdges c V}

/-- The edges of the shard in another order. -/
def ShardEdges.reorder (E : ShardEdges c V) {edges : List (EdgeWithValue V)}
    (hperm : edges.Perm E.edges) : ShardEdges c V :=
  ⟨edges, fun e he => E.legal e (hperm.subset he)⟩

theorem AssertFails.perm {L L' : List (EdgeWithValue V)} (hperm : L.Perm L') :
    AssertFails c L ↔ AssertFails c L' :=
  and_congr (ZeroHead.perm hperm) (OtherOut.perm hperm)

/-- A call that fails an assertion fails it in any order. -/
theorem AssertFails.reshard_eq_none (h : AssertFails c E.edges) (hfew : FewEdges E.edges)
    {edges : List (EdgeWithValue V)} (hperm : edges.Perm E.edges) (rand : ℕ → ℕ) :
    reshard c rand edges = none := by
  have hfew' : FewEdges (E.reorder hperm).edges := hperm.length_eq.trans_lt hfew
  rcases reshard_ending (E.reorder hperm) rand hfew' with ⟨files, -, hleaves⟩ | ⟨hnone, -⟩
  · exact absurd ((AssertFails.perm hperm).mpr h) (hleaves.not_assertFails hfew')
  · exact hnone

/-- A call that does not fail leaves its files. -/
theorem exists_leaves (h : ¬AssertFails c E.edges) (hfew : FewEdges E.edges)
    {edges : List (EdgeWithValue V)} (hperm : edges.Perm E.edges) (rand : ℕ → ℕ) :
    ∃ files, reshard c rand edges = some files ∧ Leaves c rand edges files := by
  have hfew' : FewEdges (E.reorder hperm).edges := hperm.length_eq.trans_lt hfew
  rcases reshard_ending (E.reorder hperm) rand hfew' with hfiles | ⟨-, hfail⟩
  · exact hfiles
  · exact absurd ((AssertFails.perm hperm).mp hfail) h

/-- **If the order does not matter, parallel edges have the same value**: one
of two runs has them at each other's places. -/
theorem InputOrderLaw.sameValues (h : InputOrderLaw c E.edges) (hfew : FewEdges E.edges)
    (hok : ¬AssertFails c E.edges) : SameValues E.edges := by
  intro a ha b hb hends
  obtain ⟨i, hi, rfl⟩ := List.getElem_of_mem ha
  obtain ⟨j, hj, rfl⟩ := List.getElem_of_mem hb
  let g₁ : ℕ → EdgeWithValue V := fun k => E.edges.getD k E.edges[i]
  let g₂ : ℕ → EdgeWithValue V := fun k => g₁ (Equiv.swap i j k)
  have hg₁i : g₁ i = E.edges[i] := List.getD_eq_getElem _ _ hi
  have hg₁j : g₁ j = E.edges[j] := List.getD_eq_getElem _ _ hj
  have hg₂i : g₂ i = E.edges[j] := by
    show g₁ (Equiv.swap i j i) = _
    rw [Equiv.swap_apply_left, hg₁j]
  have hsame : ∀ k, (g₁ k).ends = (g₂ k).ends := by
    intro k
    show (g₁ k).ends = (g₁ (Equiv.swap i j k)).ends
    rw [Equiv.swap_apply_def]
    split
    · next hk => rw [hk, hg₁i, hg₁j, hends]
    · split
      · next hk => rw [hk, hg₁i, hg₁j, hends]
      · rfl
  have hlist : (List.range E.edges.length).map g₁ = E.edges := map_getD_range _ _
  have hperm : ((List.range E.edges.length).map g₂).Perm E.edges := by
    have := (swap_range_perm hi hj).map g₁
    rwa [List.map_map, hlist] at this
  obtain ⟨order, horder, hsort₁, hsort₂⟩ := sortEdges_map (fun _ => 0) hfew hsame
  rw [hlist] at hsort₁
  obtain ⟨files₁, hrun₁, hleaves₁⟩ := exists_leaves hok hfew (List.Perm.refl _) fun _ => 0
  obtain ⟨files₂, hrun₂, hleaves₂⟩ := exists_leaves hok hfew hperm fun _ => 0
  have hfiles := h _ _ (List.Perm.refl _) hperm (fun _ => 0) fun _ => 0
  rw [hrun₁, hrun₂, Option.some.injEq] at hfiles
  subst hfiles
  have hi' : i ∈ order := horder.mem_iff.mpr (List.mem_range.mpr hi)
  rw [← hg₂i, ← hg₁i]
  obtain ⟨q, hq⟩ := (E.legal _ ha).src
  obtain ⟨r, hr⟩ := (E.legal _ ha).dst
  have hsrc : ∀ k, (g₁ k).src = (g₂ k).src := fun k => (Prod.mk.inj (hsame k)).1
  have hdst : ∀ k, (g₁ k).dst = (g₂ k).dst := fun k => (Prod.mk.inj (hsame k)).2
  by_cases hown : q = c.shard
  · -- the values of the edges to shard `r`
    have hvalues := (hleaves₁.outData r).symm.trans (hleaves₂.outData r)
    rw [hsort₁, hsort₂] at hvalues
    refine value_eq_of_valuesOf (fun k => ?_) hvalues hi' ?_
    · rw [hsrc, hdst]
    · rw [hg₁i]
      exact ⟨hown ▸ hq, hr⟩
  · -- the values of the edges from shard `q`
    have hvalues := (hleaves₁.inData q hown).symm.trans (hleaves₂.inData q hown)
    rw [hsort₁, hsort₂] at hvalues
    refine value_eq_of_valuesOf (fun k => ?_) hvalues hi' ?_
    · rw [hsrc]
    · rw [hg₁i]
      exact hq

end Law

/-- **The order does not matter exactly when parallel edges have the same
value**, or the call fails an assertion anyway, for shards of fewer than
`2 ^ 31` edges. -/
theorem inputOrderLaw_iff {c : Params} (E : ShardEdges c V) (hfew : FewEdges E.edges) :
    InputOrderLaw c E.edges ↔ AssertFails c E.edges ∨ SameValues E.edges := by
  constructor
  · intro h
    exact or_iff_not_imp_left.mpr fun hok => h.sameValues hfew hok
  · rintro (hfail | hsame)
    · intro edges₁ edges₂ h₁ h₂ rand₁ rand₂
      rw [hfail.reshard_eq_none hfew h₁, hfail.reshard_eq_none hfew h₂]
    · intro edges₁ edges₂ h₁ h₂ rand₁ rand₂
      unfold reshard
      rw [hsame.sortEdges_eq hfew h₁ h₂ rand₁ rand₂]

/-- Shard 0 of three. -/
def shardZero : Params := ⟨threeShards, 0, 4194304, 4⟩

/-- Two edges of shard 0 from vertex 3 to vertex 12, with the values `x` and
`y`. -/
def parallelEdges (x y : ℕ) : ShardEdges shardZero ℕ where
  edges := [⟨3, 12, x⟩, ⟨3, 12, y⟩]
  legal e he := by
    have hends : e.src = 3 ∧ e.dst = 12 := by
      rcases List.mem_pair.mp he with rfl | rfl <;> exact ⟨rfl, rfl⟩
    obtain ⟨hsrc, hdst⟩ := hends
    constructor
    · rw [hsrc, hdst]
      decide
    · rw [hsrc]
      exact Or.inl (by decide)
    · rw [hsrc]
      exact ⟨0, by decide⟩
    · rw [hdst]
      exact ⟨1, by decide⟩

theorem fewEdges_parallelEdges (x y : ℕ) : FewEdges (parallelEdges x y).edges :=
  show 2 < 2 ^ 31 by decide

/-- With one value the order does not matter. -/
theorem inputOrderLaw_parallelEdges : InputOrderLaw shardZero (parallelEdges 5 5).edges :=
  (inputOrderLaw_iff (parallelEdges 5 5) (fewEdges_parallelEdges 5 5)).mpr
    (Or.inr fun a ha b hb _ => by
      rcases List.mem_pair.mp ha with rfl | rfl <;>
        rcases List.mem_pair.mp hb with rfl | rfl <;> rfl)

/-- **With two values it does.** -/
theorem not_inputOrderLaw_parallelEdges :
    ¬InputOrderLaw shardZero (parallelEdges 5 6).edges := by
  intro h
  have hok : ¬AssertFails shardZero (parallelEdges 5 6).edges :=
    fun hfail => hfail.1.1 rfl
  have hsame := h.sameValues (fewEdges_parallelEdges 5 6) hok ⟨3, 12, 5⟩
    (List.mem_pair.mpr (Or.inl rfl)) ⟨3, 12, 6⟩ (List.mem_pair.mpr (Or.inr rfl)) rfl
  exact absurd hsame (by decide)

end Reshard
