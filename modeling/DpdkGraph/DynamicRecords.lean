import Mathlib
import DpdkGraph.DynamicSteps

/-!
# The records of edges with several values

`preprocessing_add_edge_multival` adds a record for each value of an edge and
numbers them from 0; an edge without a value of a vector is one record. The
sort puts the records of an edge together again, in the order of their
numbers, so that the first one is followed by the others.

What is behind the last record is not known, and the look-ahead at the last
edge may take it for a further value. Before that the records jumped over
are those of the edge.
-/

namespace DynamicReshard

open Reshard (Params Legal Scan toInt32)

variable {V : Type}

/-- An edge with what is added for it: whether it has a vector, and its
values. -/
abbrev MultiEdge (V : Type) := EdgeWithValue (Bool × List V)

/-- The records of an edge. -/
def records (e : MultiEdge V) : List (ChivecEdge V) :=
  e.value.2.zipIdx.map fun x => ⟨⟨e.src, e.dst, x.1⟩, e.value.1, UInt16.ofNat x.2⟩

/-- There is a record, their numbers fit a `valindex`, and several values
are of a vector. -/
structure Recordable (e : MultiEdge V) : Prop where
  ne : e.value.2 ≠ []
  le : e.value.2.length ≤ 2 ^ 16
  single : e.value.1 = false → e.value.2.length = 1

/-- **The records of a shard**: those of distinct edges that reach it, in
any order. -/
structure MultiShard (c : Params) (V : Type) where
  multi : List (MultiEdge V)
  edges : List (ChivecEdge V)
  perm : edges.Perm (multi.flatMap records)
  distinct : (multi.map EdgeWithValue.ends).Nodup
  recordable : ∀ e ∈ multi, Recordable e
  legal : ∀ e ∈ multi, Legal c e

/-! ## The sorted records -/

namespace ChivecEdge

/-- What the sort compares. -/
def sortKey (a : ChivecEdge V) : ℕ ×ₗ (ℕ ×ₗ ℕ) :=
  toLex (a.src, toLex (a.dst, a.valindex.toNat))

theorem edgeTSrcLess_iff (a b : ChivecEdge V) :
    edgeTSrcLess a b = true ↔ a.sortKey < b.sortKey := by
  unfold edgeTSrcLess sortKey
  rw [Prod.Lex.toLex_lt_toLex, Prod.Lex.toLex_lt_toLex]
  split_ifs with hsrc hdst
  · simp [hsrc, hdst, UInt16.lt_iff_toNat_lt]
  · simp [hsrc, hdst]
  · simp [hsrc]

end ChivecEdge

theorem length_records (e : MultiEdge V) : (records e).length = e.value.2.length := by
  simp [records]

/-- The record number `n` of an edge. -/
theorem getElem?_records (e : MultiEdge V) (n : ℕ) :
    (records e)[n]? = e.value.2[n]?.map fun v =>
      ⟨⟨e.src, e.dst, v⟩, e.value.1, UInt16.ofNat n⟩ := by
  unfold records
  rw [List.getElem?_map, List.getElem?_zipIdx, Option.map_map, Nat.zero_add]
  rfl

theorem ends_of_mem_records {e : MultiEdge V} {a : ChivecEdge V} (ha : a ∈ records e) :
    a.src = e.src ∧ a.dst = e.dst := by
  obtain ⟨x, -, rfl⟩ := List.mem_map.mp ha
  exact ⟨rfl, rfl⟩

/-- The records of an edge are in the order of the sort. -/
theorem records_sorted {e : MultiEdge V} (h : Recordable e) :
    (records e).Pairwise fun a b => a.sortKey < b.sortKey := by
  unfold records
  rw [List.pairwise_map, List.pairwise_iff_getElem]
  intro i j hi hj hij
  rw [List.length_zipIdx] at hi hj
  have hle := h.le
  simp only [List.getElem_zipIdx, ChivecEdge.sortKey, Nat.zero_add]
  rw [Prod.Lex.toLex_lt_toLex]
  refine Or.inr ⟨rfl, ?_⟩
  rw [Prod.Lex.toLex_lt_toLex]
  refine Or.inr ⟨rfl, ?_⟩
  rw [UInt16.toNat_ofNat', UInt16.toNat_ofNat', Nat.mod_eq_of_lt (by omega),
    Nat.mod_eq_of_lt (by omega)]
  exact hij

/-- Records of edges in order. -/
theorem flatMap_records_sorted {H : List (MultiEdge V)}
    (hsorted : H.Pairwise fun a b => a.sortKey < b.sortKey)
    (hrec : ∀ e ∈ H, Recordable e) :
    (H.flatMap records).Pairwise fun a b => a.sortKey < b.sortKey := by
  rw [List.pairwise_flatMap]
  refine ⟨fun e he => records_sorted (hrec e he), hsorted.imp fun {a b} hab x hx y hy => ?_⟩
  obtain ⟨hxs, hxd⟩ := ends_of_mem_records hx
  obtain ⟨hys, hyd⟩ := ends_of_mem_records hy
  unfold ChivecEdge.sortKey
  rw [Prod.Lex.toLex_lt_toLex, Prod.Lex.toLex_lt_toLex, hxs, hxd, hys, hyd]
  rcases Prod.Lex.toLex_lt_toLex.mp hab with h | h
  · exact Or.inl h
  · exact Or.inr ⟨h.1, Or.inl h.2⟩

/-- The edges of a shard by source, then destination. -/
def sortedMulti (multi : List (MultiEdge V)) : List (MultiEdge V) :=
  multi.mergeSort fun a b => decide (a.sortKey ≤ b.sortKey)

theorem sortedMulti_perm (multi : List (MultiEdge V)) : (sortedMulti multi).Perm multi :=
  List.mergeSort_perm _ _

theorem sortedMulti_sorted {multi : List (MultiEdge V)}
    (hdistinct : (multi.map EdgeWithValue.ends).Nodup) :
    (sortedMulti multi).Pairwise fun a b => a.sortKey < b.sortKey := by
  have hle : (sortedMulti multi).Pairwise fun a b => a.sortKey ≤ b.sortKey := by
    have hsort : (sortedMulti multi).Pairwise
        fun a b => decide (a.sortKey ≤ b.sortKey) = true := by
      refine List.pairwise_mergeSort (fun a b d hab hbd => ?_) (fun a b => ?_) multi
      · simp only [decide_eq_true_eq] at hab hbd ⊢
        exact hab.trans hbd
      · simp only [Bool.or_eq_true, decide_eq_true_eq]
        exact le_total _ _
    exact hsort.imp fun {a b} hab => of_decide_eq_true hab
  have hne : ((sortedMulti multi).map EdgeWithValue.ends).Nodup :=
    ((sortedMulti_perm multi).map _).nodup_iff.mpr hdistinct
  rw [List.Nodup, List.pairwise_map] at hne
  refine hle.imp₂ (fun a b hab hne => lt_of_le_of_ne hab fun heq => hne ?_) hne
  exact toLex.injective heq

/-- **The sort puts the records of each edge together**, whatever the random
numbers by which the pivots are chosen. -/
theorem sortEdges_eq {c : Params} (x : MultiShard c V) (rand : ℕ → ℕ)
    (hfew : x.edges.length < 2 ^ 31) :
    sortEdges rand x.edges = (sortedMulti x.multi).flatMap records := by
  have hn : (toInt32 x.edges.length).toNat = x.edges.length := by
    rw [Reshard.toInt32_natCast (by omega)]
    rfl
  have hsorted := flatMap_records_sorted (sortedMulti_sorted x.distinct) fun e he =>
    x.recordable e ((sortedMulti_perm x.multi).mem_iff.mp he)
  obtain ⟨hperm, hle⟩ := Qsort.quickSort_spec ChivecEdge.edgeTSrcLess_iff rand
    x.edges.length 0 x.edges le_rfl
  unfold sortEdges
  rw [hn, List.take_length, List.drop_length, List.append_nil]
  have hperm' : (Qsort.quickSort ChivecEdge.edgeTSrcLess rand x.edges.length 0
      x.edges).1.Perm ((sortedMulti x.multi).flatMap records) :=
    (hperm.trans x.perm).trans ((sortedMulti_perm x.multi).symm.flatMap_right records)
  refine List.Perm.eq_of_pairwise (fun a b ha hb hab hba => ?_) hle
    (hsorted.imp fun {a b} hab => hab.le) hperm'
  -- a record is known by its key
  have hkeys : (((sortedMulti x.multi).flatMap records).map ChivecEdge.sortKey).Nodup :=
    List.pairwise_map.mpr (hsorted.imp fun {a b} hab => hab.ne)
  exact List.inj_on_of_nodup_map hkeys (hperm'.mem_iff.mp ha) hb (le_antisymm hab hba)

/-! ## Where the records are -/

/-- **The buffer has the records of these edges.** -/
structure Layout (s : Shovel V) (H : List (MultiEdge V)) : Prop where
  edges : s.edges = H.flatMap records
  recordable : ∀ e ∈ H, Recordable e

/-- Where the records behind those of `done` start. -/
def offset (done : List (MultiEdge V)) : ℕ := (done.flatMap records).length

theorem offset_append (done : List (MultiEdge V)) (e : MultiEdge V) :
    offset (done ++ [e]) = offset done + e.value.2.length := by
  unfold offset
  rw [List.flatMap_append, List.length_append, List.flatMap_singleton, length_records]

namespace Layout

variable {s : Shovel V} {done rest : List (MultiEdge V)} {e : MultiEdge V}

theorem here (h : Layout s (done ++ e :: rest)) : Recordable e :=
  h.recordable e (by simp)

theorem pos (h : Layout s (done ++ e :: rest)) : 0 < e.value.2.length :=
  List.length_pos_iff.mpr h.here.ne

theorem numedges (h : Layout s (done ++ e :: rest)) :
    s.numedges = offset done + e.value.2.length + (rest.flatMap records).length := by
  unfold Shovel.numedges offset
  rw [h.edges, List.flatMap_append, List.flatMap_cons, List.length_append,
    List.length_append, length_records, Nat.add_assoc]

theorem offset_lt (h : Layout s (done ++ e :: rest)) : offset done < s.numedges := by
  have hpos := h.pos
  rw [h.numedges]
  omega

/-- A record of the edge that comes next. -/
theorem get (h : Layout s (done ++ e :: rest)) {n : ℕ} (hn : n < e.value.2.length) :
    s.get (offset done + n)
      = ⟨⟨e.src, e.dst, e.value.2[n]⟩, e.value.1, UInt16.ofNat n⟩ := by
  have hsome : s.edges[offset done + n]?
      = some ⟨⟨e.src, e.dst, e.value.2[n]⟩, e.value.1, UInt16.ofNat n⟩ := by
    rw [h.edges, List.flatMap_append, List.flatMap_cons, offset,
      List.getElem?_append_right (Nat.le_add_right _ _), Nat.add_sub_cancel_left,
      List.getElem?_append_left (by rwa [length_records]), getElem?_records,
      List.getElem?_eq_getElem hn]
    rfl
  unfold Shovel.get
  rw [List.getD_eq_getElem?_getD, hsome, Option.getD_some]

/-- The first record behind those of the edge has the number 0. -/
theorem get_next (h : Layout s (done ++ e :: rest)) (hrest : rest ≠ []) :
    (s.get (offset done + e.value.2.length)).valindex.toNat = 0 := by
  obtain ⟨e', more, rfl⟩ := List.exists_cons_of_ne_nil hrest
  have h' : Layout s ((done ++ [e]) ++ e' :: more) := by
    rw [List.append_assoc]
    exact h
  have hget := h'.get h'.pos
  rw [offset_append, Nat.add_zero] at hget
  rw [hget]
  rfl

/-- **The look-ahead** passes all records of the edge, so that the next round
begins at another one. -/
theorem le_countFrom (h : Layout s (done ++ e :: rest)) {fuel count : ℕ}
    (hcount : count ≤ e.value.2.length) (hfuel : e.value.2.length ≤ fuel + count) :
    e.value.2.length ≤ s.countFrom (offset done) fuel count := by
  have hle := h.here.le
  induction fuel generalizing count with
  | zero =>
    rw [Shovel.countFrom]
    omega
  | succ fuel ih =>
    rw [Shovel.countFrom]
    split
    · next hidx =>
      by_cases hlt : count < e.value.2.length
      · exact ih hlt (by omega)
      · have hmono : ∀ f n, n ≤ s.countFrom (offset done) f n := by
          intro f
          induction f with
          | zero => exact fun n => le_rfl
          | succ f ihf =>
            intro n
            rw [Shovel.countFrom]
            split
            · exact (Nat.le_succ n).trans (ihf (n + 1))
            · exact le_rfl
        exact (not_lt.mp hlt).trans ((Nat.le_succ _).trans (hmono fuel _))
    · next hidx =>
      by_contra hlt
      refine hidx ?_
      rw [h.get (by omega)]
      show (UInt16.ofNat count).toNat = count
      rw [UInt16.toNat_ofNat', Nat.mod_eq_of_lt (by omega)]

/-- Before the last edge it stops there. -/
theorem countFrom_eq (h : Layout s (done ++ e :: rest)) (hrest : rest ≠ [])
    {fuel count : ℕ} (hcount : count ≤ e.value.2.length)
    (hfuel : e.value.2.length ≤ fuel + count) :
    s.countFrom (offset done) fuel count = e.value.2.length := by
  have hle := h.here.le
  have hpos := h.pos
  induction fuel generalizing count with
  | zero =>
    rw [Shovel.countFrom]
    omega
  | succ fuel ih =>
    rw [Shovel.countFrom]
    rcases Nat.lt_or_ge count e.value.2.length with hlt | hge
    · rw [if_pos, ih hlt (by omega)]
      rw [h.get hlt]
      show (UInt16.ofNat count).toNat = count
      rw [UInt16.toNat_ofNat', Nat.mod_eq_of_lt (by omega)]
    · obtain rfl : count = e.value.2.length := by omega
      rw [if_neg]
      rw [h.get_next hrest]
      omega

/-- **The records jumped over**: all but the first one of the edge. -/
theorem edgeValues_eq (h : Layout s (done ++ e :: rest)) (hrest : rest ≠ []) :
    s.edgeValues (offset done) - 1 = e.value.2.length - 1 := by
  have hle := h.here.le
  have hpos := h.pos
  unfold Shovel.edgeValues
  rw [show (s.get (offset done)).isChivecValue = e.value.1 from by
    rw [← Nat.add_zero (offset done), h.get hpos]]
  split
  · rw [h.countFrom_eq hrest hpos (by omega)]
  · next hone => rw [h.here.single (by simpa using hone)]

theorem le_edgeValues (h : Layout s (done ++ e :: rest)) :
    e.value.2.length - 1 ≤ s.edgeValues (offset done) - 1 := by
  have hle := h.here.le
  have hpos := h.pos
  unfold Shovel.edgeValues
  rw [show (s.get (offset done)).isChivecValue = e.value.1 from by
    rw [← Nat.add_zero (offset done), h.get hpos]]
  split
  · have hcount : e.value.2.length ≤ s.countFrom (offset done) (2 ^ 16) 1 :=
      h.le_countFrom hpos (by omega)
    omega
  · next hone => rw [h.here.single (by simpa using hone)]

end Layout

end DynamicReshard
