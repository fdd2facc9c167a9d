import Mathlib
import DpdkGraph.FirstRoundTrip

/-!
# The limits of the round trip

A shard that does not fit the `int`s is not read back. The window that shows
it depends on what does not fit: behind the vertex `2 ^ 31` a sliding shard
does not find its place; a row of `2 ^ 29` edges or more cannot be passed
over, or, from `2 ^ 31` edges on, not be read; and where a source is smaller
than the one before it, the window of that source is left before its row is
reached.

Only where a duplicate filter is set may the row that is not reached repeat
an edge that has been. Then the memory shard gives the edge twice, whatever
the sources (`nodup_written`).
-/

namespace FinishShard

open SparseRows
open Reshard (toInt32)
open ShardAdjacency (Writer Writes)

variable {V : Type}

/-! ## What is written, in any order -/

section Runs

/-- What the loop has written and has under way, whatever the order of the
sources. -/
structure Runs (w : Writer) (done : List (ℕ × ℕ)) : Prop where
  /-- The destinations of the edges so far. -/
  targets : w.items.flatMap Item.targets ++ w.pending = done.map Prod.snd
  /-- The row under way has an edge. -/
  pending : w.pending ≠ []
  /-- The items are as the loop writes them. -/
  written : ∀ it ∈ w.items, ShardAdjacency.Written it
  /-- A row is a run of edges side by side of one source. -/
  rows : ∀ it ∈ w.items, ∃ v, it.targets.map (fun t => (v, t)) <:+: done
  /-- So is the row under way. -/
  last : w.pending.map (fun t => (w.curvid, t)) <:+ done

/-- The skips of a run fit their bytes. -/
theorem written_of_mem_zeroItems {fuel : ℕ} {nz : ℤ} {it : Item}
    (h : it ∈ zeroItems fuel nz) : ShardAdjacency.Written it ∧ it.targets = [] := by
  induction fuel generalizing nz with
  | zero => exact absurd h List.not_mem_nil
  | succ fuel ih =>
    rw [zeroItems, List.mem_cons] at h
    rcases h with rfl | h
    · refine ⟨?_, rfl⟩
      show (_ % 256 : ℤ).toNat < 256
      omega
    · split at h
      · exact ih h
      · exact absurd h List.not_mem_nil

theorem written_of_mem_zeros {w : Writer} {first : Bool} {src : ℕ} {it : Item}
    (h : it ∈ zeros w first src) : ShardAdjacency.Written it ∧ it.targets = [] := by
  unfold zeros at h
  split at h
  · exact written_of_mem_zeroItems h
  · split at h
    · exact written_of_mem_zeroItems h
    · exact absurd h List.not_mem_nil

/-- A further edge of the same row, or of another one: then the row that was
pending is written, and the items for vertices without edges have no targets. -/
theorem Runs.add {w : Writer} {done : List (ℕ × ℕ)} (h : Runs w done) (e : ℕ × ℕ) :
    Runs (add false w e) (done ++ [e]) := by
  have hgrow : ∀ it ∈ w.items, ∃ v, it.targets.map (fun t => (v, t)) <:+: done ++ [e] :=
    fun it hit => (h.rows it hit).imp fun v hv => hv.trans (List.prefix_append _ _).isInfix
  obtain ⟨src, dst⟩ := e
  unfold FinishShard.add
  split
  · next hsrc =>
    have hsrc : src = w.curvid := hsrc
    refine ⟨?_, List.append_ne_nil_of_right_ne_nil _ (List.cons_ne_nil _ _), h.written,
      hgrow, ?_⟩
    · show w.items.flatMap _ ++ (w.pending ++ [dst]) = _
      rw [← List.append_assoc, h.targets, List.map_append]
      rfl
    · show (w.pending ++ [dst]).map _ <:+ _
      rw [List.map_append, hsrc]
      obtain ⟨front, hfront⟩ := h.last
      refine ⟨front, ?_⟩
      rw [← List.append_assoc, hfront]
      rfl
  · -- another source: the pending row becomes an item
    have hrow : w.row = [.row w.pending] := if_neg h.pending
    have hzeros : (zeros w false src).flatMap Item.targets = [] :=
      List.flatMap_eq_nil_iff.mpr fun it hit => (written_of_mem_zeros hit).2
    refine ⟨?_, List.cons_ne_nil _ _, fun it hit => ?_, fun it hit => ?_, ?_⟩
    · show (w.items ++ w.row ++ zeros w false src).flatMap Item.targets ++ [dst] = _
      rw [List.flatMap_append, List.flatMap_append, hzeros, hrow, List.append_nil,
        List.map_append, ← h.targets]
      simp [Item.targets]
    · rcases List.mem_append.mp hit with hit | hit
      · rcases List.mem_append.mp hit with hit | hit
        · exact h.written it hit
        · rw [hrow, List.mem_singleton] at hit
          exact hit ▸ h.pending
      · exact (written_of_mem_zeros hit).1
    · rcases List.mem_append.mp hit with hit | hit
      · rcases List.mem_append.mp hit with hit | hit
        · exact hgrow it hit
        · -- the new item is the row that was pending
          rw [hrow, List.mem_singleton] at hit
          subst hit
          exact ⟨w.curvid, h.last.isInfix.trans (List.prefix_append _ _).isInfix⟩
      · refine ⟨0, ?_⟩
        rw [(written_of_mem_zeros hit).2]
        exact List.nil_infix
    · exact ⟨done, rfl⟩

/-- The first edge. -/
theorem runs_first (e : ℕ × ℕ) : Runs (add true ⟨0, [], []⟩ e) [e] := by
  obtain ⟨src, dst⟩ := e
  unfold FinishShard.add
  split
  · next hsrc =>
    have hsrc : src = 0 := hsrc
    subst hsrc
    exact ⟨rfl, List.cons_ne_nil _ _, fun it hit => absurd hit List.not_mem_nil,
      fun it hit => absurd hit List.not_mem_nil, List.suffix_rfl⟩
  · have hitems : ∀ it ∈ ([] : List Item) ++ [] ++ zeros ⟨0, [], []⟩ true src,
        ShardAdjacency.Written it ∧ it.targets = [] := fun it hit => by
      rw [List.append_nil, List.nil_append] at hit
      exact written_of_mem_zeros hit
    refine ⟨?_, List.cons_ne_nil _ _, fun it hit => (hitems it hit).1,
      fun it hit => ⟨0, ?_⟩, List.suffix_rfl⟩
    · show ([] ++ [] ++ zeros ⟨0, [], []⟩ true src).flatMap Item.targets ++ [dst] = [dst]
      rw [List.flatMap_eq_nil_iff.mpr fun it hit => (hitems it hit).2]
      rfl
    · rw [(hitems it hit).2]
      exact List.nil_infix

/-- **The items of any edges**: the destinations in the order of the edges,
row by row for edges side by side of one source. -/
theorem adjacency_runs (l : List (ℕ × ℕ)) :
    (adjacency l).flatMap Item.targets = l.map Prod.snd
      ∧ ∀ it ∈ adjacency l, ShardAdjacency.Written it
        ∧ ∃ v, it.targets.map (fun t => (v, t)) <:+: l := by
  cases l with
  | nil => exact ⟨rfl, fun it hit => absurd hit List.not_mem_nil⟩
  | cons e es =>
    -- edge by edge, from the first one on
    have hfold : ∀ (es : List (ℕ × ℕ)) (w : Writer) (done : List (ℕ × ℕ)), Runs w done →
        Runs (es.foldl (add false) w) (done ++ es) := by
      intro es
      induction es with
      | nil =>
        intro w done h
        rw [List.append_nil]
        exact h
      | cons e es ih =>
        intro w done h
        rw [List.foldl_cons, ← List.singleton_append, ← List.append_assoc]
        exact ih _ _ (h.add e)
    have h := hfold es _ _ (runs_first e)
    rw [List.singleton_append] at h
    have hrow : (es.foldl (add false) (add true ⟨0, [], []⟩ e)).row
        = [.row (es.foldl (add false) (add true ⟨0, [], []⟩ e)).pending] :=
      if_neg h.pending
    have hadj : adjacency (e :: es)
        = (es.foldl (add false) (add true ⟨0, [], []⟩ e)).items
          ++ [.row (es.foldl (add false) (add true ⟨0, [], []⟩ e)).pending] := by
      rw [← hrow]
      rfl
    rw [hadj]
    refine ⟨?_, fun it hit => ?_⟩
    · rw [List.flatMap_append, ← h.targets]
      simp [Item.targets]
    · rcases List.mem_append.mp hit with hit | hit
      · -- the rows that have been written, and the one that is pending in the end
        exact ⟨h.written it hit, h.rows it hit⟩
      · rw [List.mem_singleton] at hit
        subst hit
        exact ⟨h.pending, _, h.last.isInfix⟩

end Runs

/-! ## With a duplicate filter -/

section Filtered

variable {x : Shard V}

/-- Merging keeps what holds of edges side by side, and they differ. -/
theorem isChain_destutter {R : ℕ × ℕ → ℕ × ℕ → Prop} {l : List (ℕ × ℕ)}
    (h : l.IsChain R) : (l.destutter (· ≠ ·)).IsChain fun a b => R a b ∧ a ≠ b := by
  have hfrom : ∀ (l : List (ℕ × ℕ)) (p : ℕ × ℕ), (p :: l).IsChain R →
      (l.destutter' (· ≠ ·) p).IsChain (fun a b => R a b ∧ a ≠ b)
        ∧ (l.destutter' (· ≠ ·) p).head? = some p := by
    intro l
    induction l with
    | nil => exact fun p _ => ⟨List.IsChain.singleton p, rfl⟩
    | cons p' l ih =>
      intro p hp
      obtain ⟨hR, hl⟩ := List.isChain_cons_cons.mp hp
      rw [List.destutter'_cons]
      by_cases heq : p = p'
      · subst heq
        rw [if_neg (not_not.mpr rfl)]
        exact ih p hl
      · rw [if_pos heq]
        obtain ⟨hchain, hhead⟩ := ih p' hl
        refine ⟨List.isChain_cons.mpr ⟨fun q hq => ?_, hchain⟩, rfl⟩
        rw [hhead] at hq
        obtain rfl := Option.mem_some.mp hq
        exact ⟨hR, heq⟩
  cases l with
  | nil => exact List.IsChain.nil
  | cons p l => exact (hfrom l p h).1

/-- With a filter, the destinations of edges side by side of one source
increase. -/
theorem isChain_written (hid : x.maxVertexId < 2 ^ 31)
    (hfilter : x.duplicateEdgeFilter.isSome = true) :
    x.written.IsChain fun a b => a.1 = b.1 → a.2 < b.2 := by
  have hsorted : (x.sortedEdges.map EdgeWithValue.ends).IsChain
      fun a b => a.1 = b.1 → a.2 ≤ b.2 := by
    rw [List.isChain_map]
    exact x.isChain_sortedEdges hid
  rw [x.written_eq, if_pos hfilter]
  refine (isChain_destutter hsorted).imp fun a b hab hsrc => ?_
  exact lt_of_le_of_ne (hab.1 hsrc) fun hdst => hab.2 (Prod.ext hsrc hdst)

/-- So a row has each destination once, and fewer than `2 ^ 31` of them. -/
theorem row_of_filtered (hid : x.maxVertexId < 2 ^ 31)
    (hfilter : x.duplicateEdgeFilter.isSome = true) {v : ℕ} {ts : List ℕ}
    (h : ts.map (fun t => (v, t)) <:+: x.written) :
    ts.Pairwise (· < ·) ∧ ts.length < 2 ^ 31 := by
  obtain ⟨before, after, hall⟩ := id h
  have hwritten := isChain_written hid hfilter
  rw [← hall] at hwritten
  have hchain := hwritten.left_of_append.right_of_append
  rw [List.isChain_map] at hchain
  have hlt : ts.Pairwise (· < ·) :=
    List.isChain_iff_pairwise.mp (hchain.imp fun _ _ hab => hab rfl)
  refine ⟨hlt, ?_⟩
  have hbounds : ∀ t ∈ ts, v ≤ x.maxVertexId ∧ t ≤ x.maxVertexId ∧ v ≠ t := by
    intro t ht
    obtain ⟨hsrc, hdst, hne, -⟩ := x.written_bounds (h.subset (List.mem_map_of_mem ht))
    exact ⟨hsrc, hdst, hne⟩
  cases ts with
  | nil => exact Nat.two_pow_pos 31
  | cons t ts =>
    have hv := (hbounds t List.mem_cons_self).1
    have hsub : (t :: ts) ⊆ (List.range (x.maxVertexId + 1)).erase v := by
      intro u hu
      obtain ⟨-, hle, hne⟩ := hbounds u hu
      exact (List.mem_erase_of_ne (Ne.symm hne)).mpr (List.mem_range.mpr (by omega))
    have hnodup : (t :: ts).Nodup := hlt.imp ne_of_lt
    have hle := (hnodup.subperm hsub).length_le
    rw [List.length_erase_of_mem (List.mem_range.mpr (by omega)), List.length_range] at hle
    omega

/-- **With a filter, no edge is written twice**, or the memory shard gives
it twice. -/
theorem nodup_written (hid : x.maxVertexId < 2 ^ 31)
    (hfilter : x.duplicateEdgeFilter.isSome = true)
    (hmemory : ∀ d ≤ x.maxVertexId, x.MemoryLaw (d, d)) : x.written.Nodup := by
  obtain ⟨htargets, hrows⟩ := adjacency_runs x.written
  have hrow : ∀ it ∈ adjacency x.written,
      it.targets.Pairwise (· < ·) ∧ it.targets.length < 2 ^ 31 := by
    intro it hit
    obtain ⟨v, hv⟩ := (hrows it hit).2
    exact row_of_filtered hid hfilter hv
  have hvalid : ∀ it ∈ adjacency x.written, it.Valid := by
    intro it hit
    have hwritten := (hrows it hit).1
    have hlength := (hrow it hit).2
    cases it with
    | skip more => exact hwritten
    | row ts =>
      have hlength : ts.length < 2 ^ 31 := hlength
      refine ⟨hwritten, by omega, fun t ht => ?_⟩
      have hsnd : t ∈ x.written.map Prod.snd := by
        rw [← htargets]
        exact List.mem_flatMap.mpr ⟨_, hit, ht⟩
      obtain ⟨q, hq, rfl⟩ := List.mem_map.mp hsnd
      exact (x.written_bounds hq).2.2.2.lt
  have hkept : x.kept = (x.edges.map EdgeWithValue.ends).dedup := if_pos hfilter
  -- each destination is written as often as it is kept
  have hcount : ∀ d ≤ x.maxVertexId,
      x.written.countP (fun q => decide (q.2 = d))
        = x.kept.countP fun q => decide (q.2 = d) := by
    intro d hd
    obtain ⟨events, hload, hlaw⟩ := hmemory d hd
    obtain ⟨events', hload', hlength⟩ := MemoryShard.length_insOf_loadFrom 0 d hvalid
      (fun it hit => (hrow it hit).2) (fun it hit => (hrow it hit).1.imp le_of_lt) le_rfl
    obtain rfl : events' = events := Option.some.inj (hload'.symm.trans hload)
    have hperm := (hlaw d ⟨le_rfl, le_rfl⟩).1.length_eq
    rw [hlength, htargets, Shard.inedges, List.length_map,
      ← List.countP_eq_length_filter, List.count_eq_countP, List.countP_map] at hperm
    rw [← hperm]
    refine List.countP_congr fun q _ => ?_
    simp
  -- so the edges to one destination are written once
  rw [List.nodup_iff_count_le_one]
  intro q
  by_cases hq : q ∈ x.written
  · have hd := (x.written_bounds hq).2.1
    have hsub : (x.kept.filter fun p => decide (p.2 = q.2)).Subperm
        (x.written.filter fun p => decide (p.2 = q.2)) := by
      refine ((hkept ▸ List.nodup_dedup _).filter _).subperm fun p hp => ?_
      obtain ⟨hp, hpd⟩ := List.mem_filter.mp hp
      rw [hkept, List.mem_dedup] at hp
      exact List.mem_filter.mpr ⟨x.mem_written.mpr hp, hpd⟩
    have hperm := hsub.perm_of_length_le (by
      rw [← List.countP_eq_length_filter, ← List.countP_eq_length_filter,
        hcount _ hd])
    have hnodup : (x.written.filter fun p => decide (p.2 = q.2)).Nodup :=
      hperm.nodup_iff.mp ((hkept ▸ List.nodup_dedup _).filter _)
    have hle := List.nodup_iff_count_le_one.mp hnodup q
    rwa [List.count_filter (by simp)] at hle
  · rw [List.count_eq_zero_of_not_mem hq]
    exact Nat.zero_le 1

end Filtered

/-! ## The windows that fail -/

section Failing

variable {x : Shard V}

/-- A window alone. -/
def Shard.window (w : ℕ × ℕ) (hle : w.1 ≤ w.2) (hlt : w.2 + 1 - w.1 < 2 ^ 31)
    (hmax : w.2 ≤ x.maxVertexId) : x.Windows where
  windows := [w]
  first := w.1
  stop := w.2 + 1
  tiles := ⟨rfl, by omega, rfl⟩
  nonempty := fun w' hw' => by
    obtain rfl := List.mem_singleton.mp hw'
    exact hle
  nvecs_lt := fun w' hw' => by
    obtain rfl := List.mem_singleton.mp hw'
    exact hlt
  stop_le := Nat.succ_le_succ hmax

/-- What a shard that is read back gives in the window of one vertex. -/
theorem Shard.RoundTrip.read_vertex (h : x.RoundTrip) {v : ℕ} (hv : v ≤ x.maxVertexId) :
    ∃ r, (x.sliding (4096 * 1024) le_rfl).readNextVertices 1 v SlidingShard.start = some r
      ∧ r.1.length = (x.outedges v).length := by
  obtain ⟨-, reads, hreads, hlaw⟩ :=
    h (4096 * 1024) le_rfl (Shard.window (v, v) le_rfl (by omega) hv)
  have hone : v + 1 - v = 1 := by omega
  rw [Shard.window, SlidingShard.Config.readWindows, hone] at hreads
  obtain ⟨r, hr, hrest⟩ := Option.bind_eq_some_iff.mp hreads
  refine ⟨r, hr, ?_⟩
  rw [SlidingShard.Config.readWindows, Option.map_some, Option.some.injEq] at hrest
  rw [← hrest] at hlaw
  obtain ⟨hperm, -⟩ := List.forall₂_cons.mp hlaw
  rw [hperm.length_eq, Shard.outedges, List.length_map]
  refine congrArg List.length (List.filter_congr fun q _ => ?_)
  rw [decide_eq_decide]
  exact ⟨fun hq => le_antisymm hq.2 hq.1, fun hq => ⟨hq.ge, hq.le⟩⟩

/-- **The vertices lie below `2 ^ 31`.** -/
theorem Shard.RoundTrip.vid (h : x.RoundTrip) : x.maxVertexId < 2 ^ 31 := by
  by_contra hge
  obtain ⟨r, hr, -⟩ := h.read_vertex (Nat.not_lt.mp hge)
  unfold SlidingShard.Config.readNextVertices at hr
  rw [SlidingShard.moveCloseTo_eq_none (Nat.le_refl _) (by omega) (Nat.two_pow_pos 31)] at hr
  exact absurd hr (by simp)

/-- Edges in order, cut behind a source. -/
theorem filter_append_filter {l : List (ℕ × ℕ)} (h : l.Pairwise fun a b => a.1 ≤ b.1)
    (v : ℕ) : (l.filter fun q => decide (q.1 ≤ v)) ++ (l.filter fun q => decide (v < q.1))
      = l := by
  induction l with
  | nil => rfl
  | cons q l ih =>
    obtain ⟨hfirst, hl⟩ := List.pairwise_cons.mp h
    by_cases hq : q.1 ≤ v
    · have hlt : ¬v < q.1 := Nat.not_lt.mpr hq
      rw [List.filter_cons, List.filter_cons, decide_eq_true hq, decide_eq_false hlt]
      exact congrArg (q :: ·) (ih hl)
    · have hnone : (l.filter fun q => decide (q.1 ≤ v)) = [] :=
        List.filter_eq_nil_iff.mpr fun p hp => by
          have := hfirst p hp
          simp only [decide_eq_true_eq]
          omega
      have hall : (l.filter fun q => decide (v < q.1)) = l :=
        List.filter_eq_self.mpr fun p hp => by
          have := hfirst p hp
          simp only [decide_eq_true_eq]
          omega
      have hlt : v < q.1 := Nat.not_le.mp hq
      rw [List.filter_cons, List.filter_cons, decide_eq_true hlt, decide_eq_false hq, hnone,
        hall]
      rfl

/-- Where the sources are first out of order. -/
theorem exists_descent {l : List (ℕ × ℕ)} (h : ¬l.Pairwise fun a b => a.1 ≤ b.1) :
    ∃ l' p e es, l = l' ++ [p] ++ e :: es
      ∧ (l' ++ [p]).Pairwise (fun a b => a.1 ≤ b.1) ∧ e.1 < p.1 := by
  induction l using List.reverseRecOn with
  | nil => exact absurd List.Pairwise.nil h
  | append_singleton l e ih =>
    by_cases hl : l.Pairwise fun a b => a.1 ≤ b.1
    · rcases List.eq_nil_or_concat' l with rfl | ⟨l', p, rfl⟩
      · exact absurd (List.pairwise_singleton _ _) h
      · refine ⟨l', p, e, [], rfl, hl, ?_⟩
        by_contra hge
        refine h (List.pairwise_append.mpr ⟨hl, List.pairwise_singleton _ _, ?_⟩)
        intro q hq e' he'
        obtain rfl := List.mem_singleton.mp he'
        rcases List.mem_append.mp hq with hq | hq
        · have := (List.pairwise_append.mp hl).2.2 q hq p (List.mem_singleton_self p)
          omega
        · obtain rfl := List.mem_singleton.mp hq
          omega
    · obtain ⟨l', p, e', es, rfl, hsorted, hlt⟩ := ih hl
      exact ⟨l', p, e', es ++ [e], by simp, hsorted, hlt⟩

/-- **What is written in order has been kept.** -/
theorem subperm_kept {l es : List (ℕ × ℕ)} (hwritten : x.written = l ++ es)
    (hnodup : x.duplicateEdgeFilter.isSome = true → l.Nodup) : l.Subperm x.kept := by
  by_cases hfilter : x.duplicateEdgeFilter.isSome = true
  · refine (hnodup hfilter).subperm fun q hq => ?_
    have hmem := x.mem_written.mp (hwritten ▸ List.mem_append_left es hq)
    rw [show x.kept = (x.edges.map EdgeWithValue.ends).dedup from if_pos hfilter]
    exact List.mem_dedup.mpr hmem
  · have heq := x.written_eq
    rw [if_neg hfilter] at heq
    rw [show x.kept = x.edges.map EdgeWithValue.ends from if_neg hfilter]
    have hsub : l.Sublist (x.sortedEdges.map EdgeWithValue.ends) := by
      rw [← heq, hwritten]
      exact List.sublist_append_left l es
    exact hsub.subperm.trans (x.sortedEdges_perm.map _).subperm

/-- With a filter, edges in order are written once. -/
theorem nodup_of_pairwise (hid : x.maxVertexId < 2 ^ 31)
    (hfilter : x.duplicateEdgeFilter.isSome = true) {l es : List (ℕ × ℕ)}
    (hwritten : x.written = l ++ es) (hsorted : l.Pairwise fun a b => a.1 ≤ b.1) :
    l.Nodup := by
  have hchain := isChain_written hid hfilter
  rw [hwritten] at hchain
  have hl := List.isChain_iff_getElem.mp hchain.left_of_append
  have hle := List.isChain_iff_getElem.mp hsorted.isChain
  have hlex : l.IsChain fun a b => toLex a < toLex b :=
    List.isChain_iff_getElem.mpr fun i hi => Prod.Lex.toLex_lt_toLex.mpr
      ((hle i hi).lt_or_eq.imp id fun heq => ⟨heq, hl i hi heq⟩)
  have hpairwise : l.Pairwise fun a b => toLex a < toLex b := by
    have : IsTrans (ℕ × ℕ) fun a b => toLex a < toLex b := ⟨fun _ _ _ => lt_trans⟩
    exact List.isChain_iff_pairwise.mp hlex
  exact hpairwise.imp fun hab heq => absurd hab (by rw [heq]; exact lt_irrefl _)

/-- The rows that the readers can take on their way. -/
def RowsFit (x : Shard V) (l : List (ℕ × ℕ)) (v : ℕ) : Prop :=
  l.countP (fun q => decide (q.1 = v)) < 2 ^ 31
    ∧ (v < x.maxVertexId → l.countP (fun q => decide (q.1 = v)) < 2 ^ 29)

/-- What the writer has written for edges in order can be read up to a vertex,
as long as the rows fit: an item has no more targets than its vertex has edges,
and these are ids of the shard. -/
theorem Writes.readable {w : Writer} {l es : List (ℕ × ℕ)} (hw : Writes w l)
    (hid : x.maxVertexId < 2 ^ 31) (hwritten : x.written = l ++ es) {start : ℕ}
    (hstart : start ≤ x.maxVertexId) {its : List Item}
    (hits : its = w.items ∨ its = w.items ++ [.row w.pending])
    (hrows : ∀ v, (∃ a it b, its = a ++ it :: b ∧ span a = v) → RowsFit x l v) :
    SlidingShard.Readable (x.sliding (4096 * 1024) le_rfl) start 0 its := by
  have hexpand : expand 0 (w.items ++ [.row w.pending]) = l := by
    rw [expand_append, hw.ends, Nat.zero_add, ← hw.edges]
    show _ ++ (w.pending.map _ ++ []) = _
    rw [List.append_nil]
  -- with or without the row that is pending
  have hprefix : ∃ more, l = expand 0 its ++ more := by
    rcases hits with rfl | rfl
    · exact ⟨_, hw.edges.symm⟩
    · exact ⟨[], by rw [hexpand, List.append_nil]⟩
  obtain ⟨more, hl⟩ := hprefix
  have hbounds : ∀ q ∈ l, q.1 ≤ x.maxVertexId ∧ x.part.Mem x.shard q.2 := fun q hq => by
    obtain ⟨hsrc, -, -, hdst⟩ := x.written_bounds (hwritten ▸ List.mem_append_left es hq)
    exact ⟨hsrc, hdst⟩
  have hcur : w.curvid ≤ x.maxVertexId := by
    obtain ⟨t, ts, hpending⟩ := List.exists_cons_of_ne_nil hw.pending
    refine (hbounds (w.curvid, t) ?_).1
    rw [← hw.edges, hpending]
    exact List.mem_append_right _ List.mem_cons_self
  have hspan : span its ≤ x.maxVertexId + 1 := by
    have hends := hw.ends
    rcases hits with rfl | rfl
    · omega
    · rw [span_append, hends]
      show w.curvid + 1 ≤ _
      omega
  have hcount : ∀ a it b, its = a ++ it :: b → it.targets.length
      ≤ l.countP fun q => decide (q.1 = span a) := by
    intro a it b hab
    have hle := length_targets_le_countP a it b
    rw [← hab] at hle
    rw [hl, List.countP_append]
    omega
  -- so the limits on the rows of the input are limits on the items
  have hfit : ∀ a it b, its = a ++ it :: b → it.targets.length < 2 ^ 31
      ∧ (span a < x.maxVertexId → it.targets.length < 2 ^ 29) := by
    intro a it b hab
    obtain ⟨hlt, hpassed⟩ := hrows (span a) ⟨a, it, b, hab, rfl⟩
    have hle := hcount a it b hab
    exact ⟨by omega, fun hspan => lt_of_le_of_lt hle (hpassed hspan)⟩
  have htargets : ∀ it ∈ its, ∀ t ∈ it.targets, x.part.Mem x.shard t := by
    intro it hit t ht
    have hsnd : t ∈ l.map Prod.snd := by
      rw [hl, List.map_append, map_snd_expand]
      exact List.mem_append_left _ (List.mem_flatMap.mpr ⟨it, hit, ht⟩)
    obtain ⟨q, hq, rfl⟩ := List.mem_map.mp hsnd
    exact (hbounds q hq).2
  refine ⟨fun it hit => ?_, by omega, fun a it b hab hlt => ?_, fun it hit => ?_,
    fun it hit t ht => (htargets it hit t ht).2⟩
  · have hwrit : ShardAdjacency.Written it := by
      rcases hits with rfl | rfl
      · exact hw.written it hit
      · rcases List.mem_append.mp hit with hit | hit
        · exact hw.written it hit
        · rw [List.mem_singleton] at hit
          exact hit ▸ hw.pending
    obtain ⟨a, b, hab⟩ := List.append_of_mem hit
    have hlength := (hfit a it b hab).1
    cases it with
    | skip more => exact hwrit
    | row ts =>
      have hlength : ts.length < 2 ^ 31 := hlength
      exact ⟨hwrit, by omega, fun t ht => (htargets _ hit t ht).lt⟩
  · refine (hfit a it b hab).2 ?_
    omega
  · obtain ⟨a, b, hab⟩ := List.append_of_mem hit
    exact (hfit a it b hab).1

/-- The reader that passes over what the writer has written for edges in
order comes to the row under way. -/
theorem Writes.passOver {w : Writer} {l es : List (ℕ × ℕ)} {tail : List Item}
    (hw : Writes w l) (hid : x.maxVertexId < 2 ^ 31) (hwritten : x.written = l ++ es)
    (hfile : adjacency x.written = w.items ++ .row w.pending :: tail)
    (hrows : ∀ v < w.curvid, RowsFit x l v) {start : ℕ} (hle : w.curvid ≤ start)
    (hstart : start ≤ x.maxVertexId) :
    ∃ s f, SlidingShard.At (x.sliding (4096 * 1024) le_rfl) s w.curvid
        (encodeItem (.row w.pending) ++ encode tail)
      ∧ (x.sliding (4096 * 1024) le_rfl).readNextVertices 1 start SlidingShard.start
        = (x.sliding (4096 * 1024) le_rfl).readFrom 1 start (f + 1)
          ((w.curvid : ℤ) - start) s := by
  have hread := Writes.readable hw hid hwritten hstart (.inl rfl) fun v hv => by
    obtain ⟨a, it, b, hab, rfl⟩ := hv
    refine hrows _ ?_
    rw [← hw.ends, hab, span_append, span_cons]
    have := it.span_pos
    omega
  have hat := SlidingShard.at_start (x.sliding (4096 * 1024) le_rfl)
  have hbytes : (x.sliding (4096 * 1024) le_rfl).file
      = encode w.items ++ (encodeItem (.row w.pending) ++ encode tail) := by
    show encode (adjacency x.written) = _
    rw [hfile, encode_append, encode_cons]
  rw [hbytes] at hat
  have hint : toInt32 start = start := Reshard.toInt32_natCast (by omega)
  have hfuel := Int.self_le_toNat (((1 : ℕ) : ℤ) - (0 - (start : ℤ)))
  obtain ⟨s, f, hat', hfrom, hf⟩ := hat.readFrom_over (i := 0 - (start : ℤ)) hread
    (by rw [Nat.zero_add, hw.ends]; exact hle) (by omega) hfuel
  rw [Nat.zero_add, hw.ends] at hat' hfrom hf
  obtain ⟨f, rfl⟩ : ∃ f', f = f' + 1 := ⟨f - 1, by omega⟩
  refine ⟨s, f, hat', ?_⟩
  unfold SlidingShard.Config.readNextVertices
  have hzero : toInt32 (SlidingShard.start.curvid : ℤ) = 0 := Int.zero_bmod
  rw [SlidingShard.moveCloseTo_eq (by omega), Option.bind_some, hint, hzero]
  exact hfrom

/-- The edges in order up to a source. -/
theorem exists_writes {l es : List (ℕ × ℕ)} {v : ℕ} (hid : x.maxVertexId < 2 ^ 31)
    (hwritten : x.written = l ++ es) (hsorted : l.Pairwise fun a b => a.1 ≤ b.1)
    (hnext : ∀ q ∈ es.head?, ∀ p ∈ l.getLast?, q.1 ≠ p.1) (hv : ∃ q ∈ l, q.1 = v) :
    ∃ w : Writer, Writes w (l.filter fun q => decide (q.1 ≤ v)) ∧ w.curvid = v
      ∧ ∃ tail, adjacency x.written = w.items ++ .row w.pending :: tail := by
  have hcut := filter_append_filter hsorted v
  have hpairwise := hsorted.filter fun q => decide (q.1 ≤ v)
  rcases List.eq_nil_or_concat' (l.filter fun q => decide (q.1 ≤ v))
    with hnil | ⟨l', e, hle⟩
  · obtain ⟨q, hq, rfl⟩ := hv
    exact absurd (List.filter_eq_nil_iff.mp hnil q hq) (by simp)
  · -- the last of them has the source
    have he : e.1 = v := by
      have hemem : e ∈ l.filter fun q => decide (q.1 ≤ v) := by
        rw [hle]
        exact List.mem_append_right _ (List.mem_singleton_self e)
      have hev : e.1 ≤ v := of_decide_eq_true (List.mem_filter.mp hemem).2
      obtain ⟨q, hq, hqv⟩ := hv
      have hqmem : q ∈ l.filter fun q => decide (q.1 ≤ v) :=
        List.mem_filter.mpr ⟨hq, decide_eq_true hqv.le⟩
      rw [hle] at hqmem hpairwise
      rcases List.mem_append.mp hqmem with hq' | hq'
      · have := (List.pairwise_append.mp hpairwise).2.2 q hq' e (List.mem_singleton_self e)
        omega
      · obtain rfl := List.mem_singleton.mp hq'
        exact hqv
    have hhead : ∀ q ∈ ((l.filter fun q => decide (v < q.1)) ++ es).head?, q.1 ≠ e.1 := by
      intro q hq
      cases hafter : l.filter fun q => decide (v < q.1) with
      | nil =>
        rw [hafter, List.nil_append] at hq
        refine hnext q hq e ?_
        rw [hafter, List.append_nil, hle] at hcut
        rw [← hcut, List.getLast?_concat]
        rfl
      | cons p more =>
        rw [hafter] at hq
        obtain rfl := Option.some.inj hq
        have hp : p ∈ l.filter fun q => decide (v < q.1) := by
          rw [hafter]
          exact List.mem_cons_self
        have : v < p.1 := of_decide_eq_true (List.mem_filter.mp hp).2
        omega
    have hlt : ∀ q ∈ l' ++ [e], q.1 < 2 ^ 31 := by
      intro q hq
      rw [← hle] at hq
      have hmem : q ∈ x.written :=
        hwritten ▸ List.mem_append_left es (List.mem_of_mem_filter hq)
      exact lt_of_le_of_lt (x.written_bounds hmem).1 hid
    obtain ⟨w, hw, hcur, tail, htail, -⟩ := adjacency_append (hle ▸ hpairwise) hlt hhead
    rw [← hle] at hw htail
    rw [← List.append_assoc, hcut, ← hwritten] at htail
    exact ⟨w, hw, hcur.trans he, tail, htail⟩

/-- **The rows fit**, up to where the sources are in order: a row of `2 ^ 29`
edges that is passed over, or of `2 ^ 31` that is read, would stop the reader or
lead it astray. -/
theorem Shard.RoundTrip.rowsFit (h : x.RoundTrip) {l es : List (ℕ × ℕ)}
    (hwritten : x.written = l ++ es) (hsorted : l.Pairwise fun a b => a.1 ≤ b.1)
    (hnext : ∀ q ∈ es.head?, ∀ p ∈ l.getLast?, q.1 ≠ p.1) (v : ℕ) : RowsFit x l v := by
  have hid := h.vid
  induction v using Nat.strongRecOn with
  | ind v ih =>
    by_contra hbad
    have hv : ∃ q ∈ l, q.1 = v := by
      by_contra hnone
      have hzero : l.countP (fun q => decide (q.1 = v)) = 0 :=
        List.countP_eq_zero.mpr fun q hq hqv => hnone ⟨q, hq, of_decide_eq_true hqv⟩
      refine hbad ?_
      unfold RowsFit
      rw [hzero]
      exact ⟨Nat.two_pow_pos _, fun _ => Nat.two_pow_pos _⟩
    obtain ⟨w, hw, hcur, tail, htail⟩ := exists_writes hid hwritten hsorted hnext hv
    have hcut := filter_append_filter hsorted v
    have hfront : x.written = (l.filter fun q => decide (q.1 ≤ v))
        ++ ((l.filter fun q => decide (v < q.1)) ++ es) := by
      rw [← List.append_assoc, hcut, hwritten]
    -- up to the source, the edges are those of the front
    have hcount : ∀ u ≤ v, (l.filter fun q => decide (q.1 ≤ v)).countP
        (fun q => decide (q.1 = u)) = l.countP fun q => decide (q.1 = u) := by
      intro u hu
      rw [List.countP_filter]
      refine List.countP_congr fun q _ => ?_
      simp only [Bool.and_eq_true, decide_eq_true_eq]
      omega
    have hrows : ∀ u < w.curvid, RowsFit x (l.filter fun q => decide (q.1 ≤ v)) u := by
      intro u hu
      rw [hcur] at hu
      have hfit := ih u hu
      unfold RowsFit at hfit ⊢
      rwa [hcount u hu.le]
    have hlength : l.countP (fun q => decide (q.1 = v)) = w.pending.length := by
      rw [← hcount v le_rfl, ← hw.edges, List.countP_append, List.countP_map]
      have hbefore : (expand 0 w.items).countP (fun q => decide (q.1 = v)) = 0 := by
        refine List.countP_eq_zero.mpr fun q hq hqv => ?_
        have hlt := (mem_expand_bounds hq).2
        rw [hw.ends, hcur] at hlt
        have := of_decide_eq_true hqv
        omega
      rw [hbefore, Nat.zero_add]
      exact List.countP_eq_length.mpr fun t _ => decide_eq_true hcur
    have hmax : v ≤ x.maxVertexId := by
      obtain ⟨q, hq, rfl⟩ := hv
      exact (x.written_bounds (hwritten ▸ List.mem_append_left es hq)).1
    unfold RowsFit at hbad
    rw [hlength] at hbad
    by_cases hread : w.pending.length < 2 ^ 31
    · -- the row cannot be passed over
      have hpass : v < x.maxVertexId ∧ 2 ^ 29 ≤ w.pending.length := by
        by_contra hno
        exact hbad ⟨hread, fun hlast => by omega⟩
      obtain ⟨s, f, hat, hfrom⟩ := Writes.passOver hw hid hfront htail hrows
        (show w.curvid ≤ v + 1 by omega) hpass.1
      obtain ⟨r, hr, -⟩ := h.read_vertex hpass.1
      have hbefore : (w.curvid : ℤ) - ((v + 1 : ℕ) : ℤ) < 0 := by omega
      rw [Nat.succ_eq_add_one, hfrom,
        hat.readFrom_pass_eq_none _ _ _ hpass.2 hread hbefore] at hr
      exact absurd hr (by simp)
    · -- the row is not read as a whole
      obtain ⟨s, f, hat, hfrom⟩ := Writes.passOver hw hid hfront htail hrows
        (show w.curvid ≤ v by omega) hmax
      obtain ⟨r, hr, hsize⟩ := h.read_vertex hmax
      rw [hfrom, hcur, Int.sub_self] at hr
      rw [hcur] at hat
      have hless := hat.length_readFrom_row f (Nat.not_lt.mp hread) hr
      have hsub := (subperm_kept hwritten fun hfilter =>
        nodup_of_pairwise hid hfilter hwritten hsorted).countP_le fun q => decide (q.1 = v)
      rw [length_outedges] at hsize
      omega

/-- **The sources are in order.** The readers go through the file by the ids of
the vertices, and a row that comes too late is not there when its vertex is
read. -/
theorem Shard.RoundTrip.pairwise (h : x.RoundTrip) :
    x.written.Pairwise fun a b => a.1 ≤ b.1 := by
  by_contra hnot
  have hid := h.vid
  obtain ⟨l', p, e, es, hwritten, hsorted, hlt⟩ := exists_descent hnot
  have hnext : ∀ q ∈ (e :: es).head?, ∀ p' ∈ (l' ++ [p]).getLast?, q.1 ≠ p'.1 := by
    intro q hq p' hp'
    obtain rfl := Option.some.inj hq
    rw [List.getLast?_concat] at hp'
    obtain rfl := Option.some.inj hp'
    exact hlt.ne
  have hrows := h.rowsFit hwritten hsorted hnext
  have hp : p ∈ x.written := by
    rw [hwritten]
    simp
  have hmax := (x.written_bounds hp).1
  obtain ⟨w, hw, hcur, tail, htail, -⟩ := adjacency_append hsorted
    (fun q hq => lt_of_le_of_lt (x.written_bounds
      (hwritten ▸ List.mem_append_left (e :: es) hq)).1 hid)
    fun q hq => hnext q hq p (by rw [List.getLast?_concat]; rfl)
  rw [← hwritten] at htail
  -- the window of the source that comes too late
  have hread := Writes.readable hw hid hwritten (show e.1 ≤ x.maxVertexId by omega)
    (.inr rfl) fun v _ => hrows v
  have hat := SlidingShard.at_start (x.sliding (4096 * 1024) le_rfl)
  have hbytes : (x.sliding (4096 * 1024) le_rfl).file
      = encode (w.items ++ [.row w.pending]) ++ encode tail := by
    show encode (adjacency x.written) = _
    rw [htail, encode_append, encode_append, encode_singleton, encode_cons,
      List.append_assoc]
  rw [hbytes] at hat
  have hint : toInt32 e.1 = e.1 := Reshard.toInt32_natCast (by omega)
  have hzero : toInt32 (SlidingShard.start.curvid : ℤ) = 0 := Int.zero_bmod
  have hfuel := Int.self_le_toNat (((1 : ℕ) : ℤ) - (0 - (e.1 : ℤ)))
  have hend : e.1 + 1 ≤ 0 + span (w.items ++ [.row w.pending]) := by
    rw [span_append, hw.ends, hcur]
    show e.1 + 1 ≤ 0 + (p.1 + 1)
    omega
  obtain ⟨s', hfrom, -⟩ := hat.readFrom_encode (i := 0 - (e.1 : ℤ)) hread (.inr hend)
    (by omega) hfuel
  obtain ⟨r, hr, hsize⟩ := h.read_vertex (show e.1 ≤ x.maxVertexId by omega)
  have hnext' : (x.sliding (4096 * 1024) le_rfl).readNextVertices 1 e.1 SlidingShard.start
      = some ((readRows e.1 (e.1 + 1) 0 (w.items ++ [.row w.pending])).1, s') := by
    unfold SlidingShard.Config.readNextVertices
    rw [SlidingShard.moveCloseTo_eq (by omega), Option.bind_some, hint, hzero]
    exact hfrom
  rw [hnext', Option.some.injEq] at hr
  have hexpand : expand 0 (w.items ++ [.row w.pending]) = l' ++ [p] := by
    rw [expand_append, hw.ends, Nat.zero_add, ← hw.edges]
    show _ ++ (w.pending.map _ ++ []) = _
    rw [List.append_nil]
  have hgiven : r.1.length = (l' ++ [p]).countP fun q => decide (q.1 = e.1) := by
    rw [← hr]
    show (readRows e.1 (e.1 + 1) 0 _).1.length = _
    rw [readRows_fst, hexpand, ← List.countP_eq_length_filter]
    refine List.countP_congr fun q _ => ?_
    simp only [decide_eq_true_eq]
    omega
  -- one of its edges is still to come
  have hwritten' : x.written = (l' ++ [p] ++ [e]) ++ es := by
    rw [hwritten]
    simp
  have hsub := (subperm_kept hwritten' fun hfilter => ?_).countP_le
    fun q => decide (q.1 = e.1)
  · rw [List.countP_append, List.countP_singleton, decide_eq_true rfl, if_pos rfl,
      ← hgiven, hsize, length_outedges] at hsub
    omega
  · have hnodup := nodup_written hid hfilter fun d hd =>
      (h (4096 * 1024) le_rfl (Shard.window (d, d) le_rfl (by omega) hd)).1 (d, d)
        (List.mem_singleton_self _)
    rw [hwritten'] at hnodup
    exact (List.nodup_append.mp hnodup).1

/-- **The shards that are read back**: the round trip of the first sharding
succeeds exactly for a shard that fits the `int`s. -/
theorem Shard.roundTrip_iff_fits (x : Shard V) : x.RoundTrip ↔ x.Fits := by
  constructor
  · intro h
    have hid := h.vid
    have hsorted := h.pairwise
    have hinOrder := (x.inOrder_iff_written hid).mpr hsorted
    have hrows := h.rowsFit (List.append_nil x.written).symm hsorted
      fun q hq => absurd hq (by simp)
    have hcount : ∀ v, (x.outedges v).length
        = x.written.countP fun q => decide (q.1 = v) := fun v => by
      rw [length_outedges, (hinOrder.written_perm hid).countP_eq]
    exact ⟨hid, hinOrder, fun v hv => by rw [hcount]; exact (hrows v).2 hv,
      by rw [hcount]; exact (hrows _).1⟩
  · exact Shard.Fits.roundTrip

end Failing

/-! ## A gap that an `int` does not hold -/

/-- One edge, from vertex `2 ^ 31 + 1` to vertex 0. -/
def gapShard : Shard Unit where
  part := ⟨[(0, 2 ^ 31 + 1)], rfl, List.IsChain.singleton _, by simp, by simp⟩
  shard := 0
  edges := [⟨2 ^ 31 + 1, 0, ()⟩]
  sorted := List.pairwise_singleton _ _
  dst_mem := by decide
  src_mem := fun e he => ⟨0, by
    obtain rfl := List.mem_singleton.mp he
    decide⟩
  noLoop := by simp
  duplicateEdgeFilter := none
  mem := fun _ => ⟨0, 0, ()⟩

/-- The `2 ^ 31 + 1` vertices before its source are skipped as one. -/
theorem file_gapShard : gapShard.file = [0, 0, 1, 0, 0, 0, 0] := by
  have hsorted : gapShard.sortedEdges = [⟨2 ^ 31 + 1, 0, ()⟩] :=
    List.perm_singleton.mp gapShard.sortedEdges_perm
  have hwritten : gapShard.written = [(2 ^ 31 + 1, 0)] := by
    rw [gapShard.written_eq, hsorted]
    rfl
  unfold Shard.file
  rw [hwritten]
  decide +kernel

/-- **The memory shard gives the edge to vertex 0 from vertex 1.** -/
theorem not_roundTrip_gapShard : ¬gapShard.RoundTrip := by
  intro h
  obtain ⟨hmemory, -⟩ := h (4096 * 1024) le_rfl
    (Shard.window (0, 0) le_rfl (by norm_num) (Nat.zero_le _))
  obtain ⟨events, hload, hlaw⟩ := hmemory (0, 0) (List.mem_singleton_self _)
  have hevents : MemoryShard.loadVertices 0 0 gapShard.file = some [.inedge 0 1] := by
    rw [file_gapShard]
    decide +kernel
  obtain rfl := Option.some.inj (hevents.symm.trans hload)
  have hperm := (hlaw 0 ⟨le_rfl, le_rfl⟩).1
  have hgiven : PartitionWindows.insOf 0 [.inedge 0 1] = [1] := rfl
  have hshould : gapShard.inedges 0 = [2 ^ 31 + 1] := rfl
  rw [hgiven, hshould, List.perm_singleton] at hperm
  exact absurd hperm (by decide)

end FinishShard
