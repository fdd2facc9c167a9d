import DpdkGraph.SparseRows

/-!
# Reading sparse rows window by window

A reader of a sequence of items that only moves forward keeps a **cursor**:
the index it has come to, and the items from there on. Told to read the
window from `start` up to `stop`, it goes on until its index reaches `stop`
or the items run out, passes over the rows before `start` and gives the
others.

What such a reader gives is right as long as it has not passed a row of the
window (`Cursor.Ahead`); and then it has not passed a row behind the window
either when it is through (`Cursor.Ahead.read`). A reader that is behind
the last row gives nothing from then on.

`seek` looks for the place to go on behind a given index.
-/

namespace SparseRows

/-- A place in a sequence of items: the index under it, and the items from
there on. -/
structure Cursor where
  /-- The index. -/
  curvid : ℕ
  /-- The items that come next. -/
  rest : List Item
deriving Repr, DecidableEq

/-- Reads up to the index `stop`; gives the pairs of the rows from `start`
on, and the place that it has come to. Items are taken whole, so that a
skip may lead beyond `stop`. -/
def readRows (start stop : ℕ) : ℕ → List Item → List (ℕ × ℕ) × Cursor
  | v, [] => ([], ⟨v, []⟩)
  | v, it :: its =>
    if stop ≤ v then ([], ⟨v, it :: its⟩)
    else
      ((if v < start then [] else it.targets.map fun t => (v, t)) ++
          (readRows start stop (v + it.span) its).1,
        (readRows start stop (v + it.span) its).2)

/-- The first place whose index is beyond `last`. -/
def seek (last : ℕ) : ℕ → List Item → Option Cursor
  | _, [] => none
  | v, it :: its =>
    if last < v then some ⟨v, it :: its⟩ else seek last (v + it.span) its

theorem Item.span_pos (it : Item) : 0 < it.span := by
  cases it with
  | skip more =>
    show 0 < 1 + more
    omega
  | row ts => exact Nat.one_pos

/-- **A read gives the pairs of its window** that are still to come: those
before the window are passed, and those behind it stay. -/
theorem readRows_fst (start stop v : ℕ) (its : List Item) :
    (readRows start stop v its).1
      = (expand v its).filter fun q => decide (start ≤ q.1 ∧ q.1 < stop) := by
  induction its generalizing v with
  | nil => rfl
  | cons it its ih =>
    unfold readRows
    split
    · next hstop =>
      symm
      rw [List.filter_eq_nil_iff]
      intro q hq
      have := (mem_expand_bounds hq).1
      rw [decide_eq_true_eq]
      omega
    · next hstop =>
      show _ ++ (readRows start stop (v + it.span) its).1 = _
      rw [ih, expand, List.filter_append]
      congr 1
      split
      · next hlt =>
        symm
        rw [List.filter_eq_nil_iff]
        intro q hq
        obtain ⟨t, _, rfl⟩ := List.mem_map.mp hq
        rw [decide_eq_true_eq]
        exact fun h => absurd h.1 (Nat.not_le.mpr hlt)
      · next hlt =>
        symm
        rw [List.filter_eq_self]
        intro q hq
        obtain ⟨t, _, rfl⟩ := List.mem_map.mp hq
        rw [decide_eq_true_eq]
        exact ⟨Nat.not_lt.mp hlt, Nat.not_le.mp hstop⟩

/-- What a read passes over lies before its end. -/
theorem readRows_snd (start stop v : ℕ) (its : List Item) :
    ∃ done, its = done ++ (readRows start stop v its).2.rest
      ∧ (readRows start stop v its).2.curvid = v + span done
      ∧ ∀ q ∈ expand v done, q.1 < stop := by
  induction its generalizing v with
  | nil => exact ⟨[], rfl, rfl, fun q hq => absurd hq List.not_mem_nil⟩
  | cons it its ih =>
    unfold readRows
    split
    · exact ⟨[], rfl, rfl, fun q hq => absurd hq List.not_mem_nil⟩
    · next hstop =>
      obtain ⟨done, hits, hvid, hlt⟩ := ih (v + it.span)
      refine ⟨it :: done, ?_, ?_, fun q hq => ?_⟩
      · show it :: its = it :: (done ++ _)
        rw [← hits]
      · show (readRows start stop (v + it.span) its).2.curvid = _
        rw [hvid, span_cons, Nat.add_assoc]
      · rw [expand, List.mem_append, List.mem_map] at hq
        rcases hq with ⟨t, _, rfl⟩ | hq
        · exact Nat.not_le.mp hstop
        · exact hlt q hq

/-- A read that ends behind the last item leaves none. -/
theorem rest_readRows_of_span_le {start stop v : ℕ} {its : List Item}
    (h : v + span its ≤ stop) : (readRows start stop v its).2.rest = [] := by
  induction its generalizing v with
  | nil => rfl
  | cons it its ih =>
    have hpos := it.span_pos
    rw [span_cons] at h
    unfold readRows
    rw [if_neg (by omega)]
    exact ih (by omega)

/-- What `seek` passes over ends at `last`. -/
theorem seek_eq_some {last v : ℕ} {its : List Item} {c : Cursor}
    (h : seek last v its = some c) :
    ∃ done, its = done ++ c.rest ∧ c.curvid = v + span done
      ∧ ∀ q ∈ expand v done, q.1 ≤ last := by
  induction its generalizing v with
  | nil => exact absurd h (Option.some_ne_none c).symm
  | cons it its ih =>
    unfold seek at h
    split at h
    · rw [Option.some.injEq] at h
      subst h
      exact ⟨[], rfl, rfl, fun q hq => absurd hq List.not_mem_nil⟩
    · next hlast =>
      obtain ⟨done, hits, hvid, hle⟩ := ih h
      refine ⟨it :: done, ?_, ?_, fun q hq => ?_⟩
      · rw [List.cons_append, ← hits]
      · rw [hvid, span_cons, Nat.add_assoc]
      · rw [expand, List.mem_append, List.mem_map] at hq
        rcases hq with ⟨t, _, rfl⟩ | hq
        · exact Nat.not_lt.mp hlast
        · exact hle q hq

/-- There is no place beyond the last item. -/
theorem seek_eq_none {last v : ℕ} {its : List Item}
    (h : v + span its ≤ last + 1) : seek last v its = none := by
  induction its generalizing v with
  | nil => rfl
  | cons it its ih =>
    have hpos := it.span_pos
    rw [span_cons] at h
    unfold seek
    rw [if_neg (by omega)]
    exact ih (by omega)

namespace Cursor

/-- `read`: the window from `start` up to `stop`. -/
def read (c : Cursor) (start stop : ℕ) : List (ℕ × ℕ) × Cursor :=
  readRows start stop c.curvid c.rest

/-- The cursor is a place in the sequence. -/
def In (its : List Item) (c : Cursor) : Prop :=
  ∃ done, its = done ++ c.rest ∧ c.curvid = span done

/-- **No row from `s` on has been passed.** -/
def Ahead (its : List Item) (s : ℕ) (c : Cursor) : Prop :=
  ∃ done, its = done ++ c.rest ∧ c.curvid = span done
    ∧ ∀ q ∈ expand 0 done, q.1 < s

variable {its : List Item} {s stop : ℕ} {c : Cursor}

theorem Ahead.place (h : c.Ahead its s) : c.In its := by
  obtain ⟨done, hits, hvid, -⟩ := h
  exact ⟨done, hits, hvid⟩

theorem Ahead.mono {t : ℕ} (h : c.Ahead its s) (hst : s ≤ t) : c.Ahead its t := by
  obtain ⟨done, hits, hvid, hlt⟩ := h
  exact ⟨done, hits, hvid, fun q hq => (hlt q hq).trans_le hst⟩

/-- The start of the sequence is ahead of everything. -/
theorem ahead_start (its : List Item) (s : ℕ) : (Cursor.mk 0 its).Ahead its s :=
  ⟨[], rfl, rfl, fun _ hq => absurd hq List.not_mem_nil⟩

/-- **A reader that has passed no row of its window gives all of them.** -/
theorem Ahead.read_fst (h : c.Ahead its s) :
    (c.read s stop).1
      = (expand 0 its).filter fun q => decide (s ≤ q.1 ∧ q.1 < stop) := by
  obtain ⟨done, hits, hvid, hlt⟩ := h
  have hdone : ((expand 0 done).filter
      fun q => decide (s ≤ q.1 ∧ q.1 < stop)) = [] := by
    rw [List.filter_eq_nil_iff]
    intro q hq
    have := hlt q hq
    rw [decide_eq_true_eq]
    omega
  unfold read
  rw [readRows_fst, hits, expand_append, List.filter_append, hdone, hvid, Nat.zero_add]
  rfl

/-- A reader gives nothing but rows of its window. -/
theorem In.read_fst (h : c.In its) :
    (c.read s stop).1.Sublist
      ((expand 0 its).filter fun q => decide (s ≤ q.1 ∧ q.1 < stop)) := by
  obtain ⟨done, hits, hvid⟩ := h
  unfold read
  rw [readRows_fst, hits, expand_append, List.filter_append, hvid, Nat.zero_add]
  exact List.sublist_append_right _ _

/-- Nor has it passed a row behind its window. -/
theorem Ahead.read_snd (h : c.Ahead its s) (hst : s ≤ stop) :
    (c.read s stop).2.Ahead its stop := by
  obtain ⟨done, hits, hvid, hlt⟩ := h
  obtain ⟨done', hrest, hvid', hlt'⟩ := readRows_snd s stop c.curvid c.rest
  refine ⟨done ++ done', ?_, ?_, fun q hq => ?_⟩
  · unfold read
    rw [List.append_assoc, ← hrest, hits]
  · unfold read
    rw [hvid', hvid, span_append]
  · rw [expand_append, List.mem_append, Nat.zero_add, ← hvid] at hq
    rcases hq with hq | hq
    · exact (hlt q hq).trans_le hst
    · exact hlt' q hq

theorem In.read_snd (h : c.In its) : (c.read s stop).2.In its := by
  obtain ⟨done, hits, hvid⟩ := h
  obtain ⟨done', hrest, hvid', -⟩ := readRows_snd s stop c.curvid c.rest
  refine ⟨done ++ done', ?_, ?_⟩
  · unfold read
    rw [List.append_assoc, ← hrest, hits]
  · unfold read
    rw [hvid', hvid, span_append]

/-- Behind the last item a reader has none left. -/
theorem In.read_rest (h : c.In its) (hspan : span its ≤ stop) :
    (c.read s stop).2.rest = [] := by
  obtain ⟨done, hits, hvid⟩ := h
  refine rest_readRows_of_span_le ?_
  rw [hvid, ← span_append, ← hits]
  exact hspan

/-- **A reader with no items left** gives nothing and stays where it is. -/
theorem read_of_rest_nil (h : c.rest = []) : c.read s stop = ([], c) := by
  unfold read
  obtain ⟨v, rest⟩ := c
  rw [show rest = [] from h]
  rfl

/-- The place to go on behind `last`; where there is none, the start. -/
def goOn (its : List Item) (last : ℕ) : Cursor := (seek last 0 its).getD ⟨0, its⟩

/-- **Going on behind `last`** passes no row from there on. -/
theorem ahead_goOn (its : List Item) (last : ℕ) :
    (goOn its last).Ahead its (last + 1) := by
  unfold goOn
  cases h : seek last 0 its with
  | none => exact ahead_start its _
  | some c =>
    obtain ⟨done, hits, hvid, hle⟩ := seek_eq_some h
    exact ⟨done, hits, by rw [← Nat.zero_add (span done)]; exact hvid,
      fun q hq => Nat.lt_succ_of_le (hle q hq)⟩

/-- Where nothing lies behind `last`, going on is starting anew. -/
theorem goOn_of_span_le {last : ℕ} (h : span its ≤ last + 1) :
    goOn its last = ⟨0, its⟩ := by
  unfold goOn
  rw [seek_eq_none (by rw [Nat.zero_add]; exact h)]
  rfl

end Cursor

end SparseRows
