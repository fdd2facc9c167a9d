import Mathlib
import DpdkGraph.MainShard

/-!
# Which blocks are looked at

Behind an edge the cursor goes on when the block under it ends there. Behind
the very last edge that leads out of the vector of the blocks, unless the
cursor has fallen behind: behind an edge it passes one block only, so that
it needs an edge for each empty one. `safe_iff` says when it has fallen
behind for good – some of the blocks from some place on have fewer edges
than there are of them.

A row that is left early lets the cursor catch up. Only the blocks from the
last such row on count then; when that row is the last one with edges, the
cursor leads out of the vector at once.
-/

namespace MainShard

open SparseRows
open LaggingCursor (At time time_le_iff ends_le_time)

namespace Shard

variable (x : Shard)

/-- **No block is looked at that there is not**, and the function returns. -/
def Safe : Prop :=
  ∃ l, x.load = some l ∧ l.cursor.isSome = true ∧
    ∀ r ∈ l.records, r.dataPtr.1 < x.P

/-- The end of the last row that is left early and the block there, for the
rows of `items`; `m` is what it was for the rows before. -/
def lastLeft : ℕ → ℕ → ℕ × ℕ → List Item → ℕ × ℕ
  | _, _, m, [] => m
  | vid, e, m, it :: its =>
    lastLeft (vid + it.span) (e + it.targets.length)
      (if it.targets.any (x.loader.leaves vid) then
        (e + it.targets.length, x.blockOf (e + it.targets.length))
      else m) its

/-- How many edges there are up to the end of the last row that is left
early, and the block there; none and the first one if there is no such
row. -/
def mark : ℕ × ℕ := x.lastLeft 0 0 (0, 0) x.items

/-! ## The loop that catches up -/

variable {x}

/-- **`while(edgeptr >= brange)`** finds the block of the edge, if there is one;
otherwise it runs behind the last block. -/
theorem skip_spec {e : ℕ} (fuel : ℕ) :
    ∀ c : Cursor, c.edgeptr = x.loader.edgeSize * e →
      c.brange = x.loader.edgeSize * x.ends (c.bid + 1) → c.bid < x.P →
      x.ends c.bid ≤ e → x.P < c.bid + fuel →
      (x.loader.skip fuel c = none ∧ x.blockOf e = x.P) ∨
        ∃ c', x.loader.skip fuel c = some c' ∧ x.Tracks e c' ∧
          c'.bid = x.blockOf e := by
  induction fuel with
  | zero => exact fun c _ _ hbid _ hfuel => absurd hfuel (by omega)
  | succ fuel ih =>
    intro c hptr hbrange hbid habove hfuel
    have hcmp : c.brange ≤ c.edgeptr ↔ x.ends (c.bid + 1) ≤ e := by
      rw [hbrange, hptr]
      exact Nat.mul_le_mul_left_iff x.edgeSize_pos
    unfold Loader.skip
    by_cases hend : x.ends (c.bid + 1) ≤ e
    · rw [if_pos (hcmp.mpr hend), x.nextBlock_eq hbrange]
      by_cases hlast : c.bid + 1 < x.P
      · rw [if_pos hlast]
        exact ih _ hptr rfl hlast hend (by dsimp only; omega)
      · have hP : c.bid + 1 = x.P := by omega
        rw [if_neg hlast]
        refine Or.inl ⟨rfl, x.blockOf_eq le_rfl ?_ fun h => absurd h (by omega)⟩
        rwa [← hP]
    · rw [if_neg fun hle => hend (hcmp.mp hle)]
      refine Or.inr ⟨c, rfl, ⟨hptr, hbrange, hbid, habove⟩, ?_⟩
      exact (x.blockOf_eq hbid.le habove fun _ => not_le.mp hend).symm

/-! ## One row -/

theorem fst_dataPtr_of_mem {vid target : ℕ} {c : Cursor} {r : Record}
    (hr : r ∈ x.loader.outRecord vid target c ++
      x.loader.inRecord vid target c) : r.dataPtr.1 = c.bid := by
  unfold Loader.outRecord Loader.inRecord at hr
  rcases List.mem_append.mp hr with hr | hr
  · split at hr
    · rw [List.mem_singleton.mp hr]
      rfl
    · exact absurd hr List.not_mem_nil
  · split at hr
    · rw [List.mem_singleton.mp hr]
      rfl
    · exact absurd hr List.not_mem_nil

/-- The edge objects of a row point into the vector. -/
theorem loadRow_records {vid : ℕ} (ts : List ℕ) :
    ∀ (e : ℕ) (c : Cursor), x.Tracks e c →
      ∀ r ∈ (x.loader.loadRow vid c ts).records, r.dataPtr.1 < x.P := by
  induction ts with
  | nil => exact fun e c _ r hr => absurd hr List.not_mem_nil
  | cons target more ih =>
    intro e c hc r hr
    unfold Loader.loadRow at hr
    split at hr
    · exact absurd hr List.not_mem_nil
    · split at hr
      · rw [fst_dataPtr_of_mem hr]
        exact hc.bid_lt
      · next c' hadv =>
        rcases List.mem_append.mp hr with hr | hr
        · rw [fst_dataPtr_of_mem hr]
          exact hc.bid_lt
        · exact ih (e + 1) c' (hc.next x vid hadv).1 r hr

/-- A row that is gone through: the cursor lags as before, or it was time to
leave the last block. -/
theorem loadRow_through {vid i b : ℕ} (ts : List ℕ) :
    ∀ (e : ℕ) (c : Cursor), x.Tracks e c → At x.ends i b e c.bid →
      (∀ t ∈ ts, x.loader.leaves vid t = false) →
      ((x.loader.loadRow vid c ts).cursor = none ∧
          time x.ends i b (x.P - b) ≤ e + ts.length) ∨
        ∃ c', (x.loader.loadRow vid c ts).cursor = some c' ∧
          x.Tracks (e + ts.length) c' ∧
            At x.ends i b (e + ts.length) c'.bid := by
  induction ts with
  | nil => exact fun e c hc hat _ => Or.inr ⟨c, rfl, hc, hat⟩
  | cons target more ih =>
    intro e c hc hat hstay
    have htarget := hstay target List.mem_cons_self
    have hnext := hat.next
    have hb := hat.base_le
    have hbid := hc.bid_lt
    have hlen : e + (target :: more).length = e + 1 + more.length := by
      rw [List.length_cons]
      omega
    rw [hlen]
    unfold Loader.loadRow
    rw [if_neg (by rw [htarget]; decide)]
    cases hadv : x.loader.advance vid c with
    | none =>
      -- the last block ends behind this edge
      rw [x.advance_eq vid hc] at hadv
      split at hadv
      · next hlost =>
        rw [if_pos hlost.1, hlost.2] at hnext
        have htime := (hnext.le_iff (x.P - b)).mp (by omega)
        exact Or.inl ⟨rfl, by omega⟩
      · exact absurd hadv (by simp)
    | some c' =>
      obtain ⟨hc', hbid'⟩ := hc.next x vid hadv
      rw [← hbid'] at hnext
      exact ih (e + 1) c' hc' hnext
        fun t ht => hstay t (List.mem_cons_of_mem target ht)

/-- A row that is left early: the cursor has caught up behind it, or there is
no block any more. -/
theorem loadRow_left {vid : ℕ} (ts : List ℕ) :
    ∀ (e : ℕ) (c : Cursor), x.Tracks e c → e + ts.length ≤ x.edges →
      (∃ t ∈ ts, x.loader.leaves vid t = true) →
      ((x.loader.loadRow vid c ts).cursor = none ∧
          x.blockOf (e + ts.length) = x.P) ∨
        ∃ c', (x.loader.loadRow vid c ts).cursor = some c' ∧
          x.Tracks (e + ts.length) c' ∧ c'.bid = x.blockOf (e + ts.length) := by
  induction ts with
  | nil =>
    rintro e c hc hle ⟨t, ht, -⟩
    exact absurd ht List.not_mem_nil
  | cons target more ih =>
    rintro e c hc hle ⟨t, ht, hleaves⟩
    unfold Loader.loadRow
    by_cases htarget : x.loader.leaves vid target = true
    · rw [if_pos htarget]
      have hP : x.loader.blocksizes.length = x.P := by
        rw [x.blocksizes, List.length_map]
        rfl
      have hptr : c.edgeptr + (more.length + 1) * x.loader.edgeSize =
          x.loader.edgeSize * (e + (target :: more).length) := by
        rw [hc.edgeptr, List.length_cons, Nat.mul_add,
          Nat.mul_comm x.loader.edgeSize (more.length + 1)]
      exact skip_spec _ _ hptr hc.brange hc.bid_lt
        (hc.above.trans (Nat.le_add_right _ _)) (by rw [hP]; dsimp only; omega)
    · rw [if_neg htarget]
      have hmore : ∃ t ∈ more, x.loader.leaves vid t = true := by
        rcases List.mem_cons.mp ht with rfl | ht
        · exact absurd hleaves htarget
        · exact ⟨t, ht, hleaves⟩
      have hpos : 0 < more.length :=
        List.length_pos_of_mem hmore.choose_spec.1
      have hlen : e + (target :: more).length = e + 1 + more.length := by
        rw [List.length_cons]
        omega
      rw [hlen] at hle ⊢
      cases hadv : x.loader.advance vid c with
      | none =>
        -- there are edges left, so this is not the last block
        rw [x.advance_eq vid hc] at hadv
        split at hadv
        · next hlost =>
          have hends := hlost.1
          rw [hlost.2, x.ends_P] at hends
          exact absurd hends (by omega)
        · exact absurd hadv (by simp)
      | some c' => exact ih (e + 1) c' (hc.next x vid hadv).1 hle hmore

/-! ## The whole file -/

theorem lastLeft_of_no_edges {its : List Item}
    (h : its.flatMap Item.targets = []) (vid e : ℕ) (m : ℕ × ℕ) :
    x.lastLeft vid e m its = m := by
  induction its generalizing vid e with
  | nil => rfl
  | cons it its ih =>
    rw [List.flatMap_cons, List.append_eq_nil_iff] at h
    unfold lastLeft
    rw [h.1]
    exact ih h.2 _ _

/-- The edge objects point into the vector, as long as there are as many slots
as edges. The cursor may run out of blocks, but then nothing is added any
more. -/
theorem loadItems_records (its : List Item) :
    ∀ (vid e : ℕ) (c : Cursor), x.Tracks e c →
      e + (its.flatMap Item.targets).length ≤ x.edges →
      ∀ r ∈ (x.loader.loadItems vid c its).records, r.dataPtr.1 < x.P := by
  induction its with
  | nil => exact fun vid e c _ _ r hr => absurd hr List.not_mem_nil
  | cons it its ih =>
    intro vid e c hc hle r hr
    rw [List.flatMap_cons, List.length_append] at hle
    unfold Loader.loadItems at hr
    cases hcursor : (x.loader.loadRow vid c it.targets).cursor with
    | none =>
      rw [hcursor] at hr
      exact loadRow_records it.targets e c hc r hr
    | some c' =>
      rw [hcursor] at hr
      -- the rows behind are read with the cursor that this row leaves, where it
      -- leaves one
      rcases List.mem_append.mp hr with hr | hr
      · exact loadRow_records it.targets e c hc r hr
      · by_cases hleft : ∃ t ∈ it.targets, x.loader.leaves vid t = true
        · rcases loadRow_left it.targets e c hc (by omega) hleft with h | h
          · rw [hcursor] at h
            exact absurd h.1 (by simp)
          · obtain ⟨c'', hc'', htracks, -⟩ := h
            rw [hcursor, Option.some.injEq] at hc''
            subst hc''
            exact ih _ _ c' htracks (by omega) r hr
        · have hstay : ∀ t ∈ it.targets, x.loader.leaves vid t = false :=
            fun t ht => by
              rw [← Bool.not_eq_true]
              exact fun h => hleft ⟨t, ht, h⟩
          rcases loadRow_through it.targets e c hc
            (At.start x.ends e c.bid) hstay with h | h
          · rw [hcursor] at h
            exact absurd h.1 (by simp)
          · obtain ⟨c'', hc'', htracks, -⟩ := h
            rw [hcursor, Option.some.injEq] at hc''
            subst hc''
            exact ih _ _ c' htracks (by omega) r hr

/-- **The cursor is lost when it was time to leave the last block**: from then
on the loop asks for the size of a block that does not exist. It leaves one
block behind an edge at most, so that `time` tells how many edges it takes. -/
theorem loadItems_cursor (its : List Item) :
    ∀ (vid e : ℕ) (m : ℕ × ℕ) (c : Cursor), x.Tracks e c →
      At x.ends m.1 m.2 e c.bid →
      e + (its.flatMap Item.targets).length = x.edges →
      ((x.loader.loadItems vid c its).cursor.isSome = true ↔
        x.edges < time x.ends (x.lastLeft vid e m its).1
          (x.lastLeft vid e m its).2 (x.P - (x.lastLeft vid e m its).2)) := by
  induction its with
  | nil =>
    intro vid e m c hc hat hsum
    have hb := hat.base_le
    have hbid := hc.bid_lt
    have htime := (hat.le_iff (x.P - m.2)).not.mp (by omega)
    have he : e = x.edges := hsum
    rw [he] at htime
    exact ⟨fun _ => not_le.mp htime, fun _ => rfl⟩
  | cons it its ih =>
    intro vid e m c hc hat hsum
    have hb := hat.base_le
    have hbid := hc.bid_lt
    rw [List.flatMap_cons, List.length_append] at hsum
    -- behind the last edge nothing changes
    have hend : x.edges ≤ e + it.targets.length →
        its.flatMap Item.targets = [] := fun h =>
      List.eq_nil_of_length_eq_zero (by omega)
    unfold Loader.loadItems lastLeft
    by_cases hleft : it.targets.any (x.loader.leaves vid) = true
    · rw [if_pos hleft]
      rcases loadRow_left it.targets e c hc (by omega)
        (List.any_eq_true.mp hleft) with ⟨hnone, hblock⟩ | h
      · have hall : x.edges ≤ e + it.targets.length := by
          by_contra hlt
          have := (x.blockOf_spec (not_le.mp hlt)).1
          omega
        rw [hnone, lastLeft_of_no_edges (hend hall), hblock, Nat.sub_self]
        refine ⟨fun h => absurd h (by rw [hnone]; simp), fun h => ?_⟩
        have h : x.edges < e + it.targets.length := h
        omega
      · obtain ⟨c', hc', htracks, hbid'⟩ := h
        rw [hc']
        refine ih _ _ _ c' htracks ?_ (by omega)
        rw [hbid']
        exact At.start _ _ _
    · rw [if_neg hleft]
      have hstay : ∀ t ∈ it.targets, x.loader.leaves vid t = false :=
        fun t ht => by
          rw [← Bool.not_eq_true]
          exact fun h => hleft (List.any_eq_true.mpr ⟨t, ht, h⟩)
      rcases loadRow_through it.targets e c hc hat hstay with ⟨hnone, htime⟩ | h
      · have hall : x.edges ≤ e + it.targets.length := by
          have hP : m.2 + (x.P - m.2 - 1) + 1 = x.P := by omega
          have hsub : x.P - m.2 - 1 + 1 = x.P - m.2 := by omega
          have hlast := ends_le_time x.ends m.1 m.2 (x.P - m.2 - 1)
          rw [hP, hsub, x.ends_P] at hlast
          exact hlast.trans htime
        rw [hnone, lastLeft_of_no_edges (hend hall)]
        refine ⟨fun h => absurd h (by rw [hnone]; simp), fun h => ?_⟩
        exact absurd h (by omega)
      · obtain ⟨c', hc', htracks, hat'⟩ := h
        rw [hc']
        exact ih _ _ _ c' htracks hat' (by omega)

/-! ## The law -/

/-- Safety is a matter of the last cursor. -/
theorem safe_iff_lt_time (x : Shard) :
    x.Safe ↔ x.edges < time x.ends x.mark.1 x.mark.2 (x.P - x.mark.2) := by
  obtain ⟨c, -, hc, rfl⟩ := x.tracks_start
  have hsum : 0 + (x.items.flatMap Item.targets).length = x.edges :=
    Nat.zero_add _
  have hat := At.start x.ends 0 0
  have hcursor := loadItems_cursor x.items 0 0 (0, 0) _ hc hat hsum
  have hrecords := loadItems_records x.items 0 0 _ hc hsum.le
  unfold Safe mark
  rw [x.load_eq, ← hcursor]
  constructor
  · rintro ⟨l, hl, hsome, -⟩
    rw [Option.some.injEq] at hl
    rwa [hl]
  · exact fun hsome => ⟨_, rfl, hsome, hrecords⟩

/-- **When no block is looked at that there is not**: fewer edges follow the
last row left early than there are blocks from there on, or some later
blocks have fewer edges than there are of them. -/
theorem safe_iff (x : Shard) :
    x.Safe ↔ x.edges < x.mark.1 + (x.P - x.mark.2) ∨
      ∃ k, x.mark.2 < k ∧ k < x.P ∧ x.edges < x.ends k + (x.P - k) := by
  rw [safe_iff_lt_time, ← not_le, time_le_iff, not_and_or, not_le]
  refine or_congr_right ?_
  constructor
  · intro h
    simp only [not_forall, not_le] at h
    obtain ⟨k, hk, hle, hlt⟩ := h
    have hends := x.ends_le_edges (x.mark.2 + k)
    refine ⟨x.mark.2 + k, by omega, ?_, ?_⟩
    · rcases hle.eq_or_lt with rfl | hlt'
      · omega
      · omega
    · have : x.P - x.mark.2 - k = x.P - (x.mark.2 + k) := by omega
      rwa [this] at hlt
  · rintro ⟨k, hb, hP, hlt⟩ h
    have hk := h (k - x.mark.2) (by omega) (by omega)
    have : x.mark.2 + (k - x.mark.2) = k := by omega
    rw [this] at hk
    omega

/-- One worker whose one edge value fills its one block. -/
theorem not_safe_oneEdge : ¬∀ x : Shard, x.Safe := by
  intro h
  have hlt := (safe_iff_lt_time
    { loader := ⟨0, 1, fun _ => true, true, true, true, 4, [4]⟩
      edgeSize_pos := by decide
      items := [.row [1]]
      valid := by simp [Item.Valid]
      short := by simp [Item.targets]
      blocks := [1]
      blocks_ne_nil := by decide
      blocksizes := by decide
      sum_blocks := by decide }).mp (h _)
  exact absurd hlt (by decide)

end Shard

end MainShard
