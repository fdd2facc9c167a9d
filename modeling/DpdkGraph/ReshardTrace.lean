import Mathlib
import DpdkGraph.ReshardSteps

/-!
# Which rows a walk has written

Every edge that a walk has taken is either pending or has been written to
one adjacency file. The **log** of a walk records where: it lists the
written edges in order, each with its file. `Walk.At` ties the log to the
state – the log and the pending edges are the edges taken, and each file
carries the destinations that the log gives it – and each kind of step
keeps it, whether or not the edges go to the right file.

An edge is in the right file when the file is that of its destination's
shard: that covers the in-edges and the edges within the interval, which
belong to the main file, and the out-edges.
-/

namespace Reshard

variable {V : Type}

/-! ## Logs -/

/-- The written edges, in order, each with its file. -/
abbrev Log (V : Type) := List (ℕ × EdgeWithValue V)

namespace Log

/-- The edges written to file `k`. -/
def rowsOf (k : ℕ) (log : Log V) : List (EdgeWithValue V) :=
  (log.filter fun x => x.1 = k).map Prod.snd

/-- Edges written to file `t` together. -/
def writes (t : ℕ) (es : List (EdgeWithValue V)) : Log V := es.map fun e => (t, e)

@[simp] theorem rowsOf_nil (k : ℕ) : rowsOf k ([] : Log V) = [] := rfl

@[simp] theorem writes_nil (t : ℕ) : writes t ([] : List (EdgeWithValue V)) = [] := rfl

@[simp] theorem map_snd_writes (t : ℕ) (es : List (EdgeWithValue V)) :
    (writes t es).map Prod.snd = es := by
  simp [writes]

@[simp] theorem mem_writes {t : ℕ} {es : List (EdgeWithValue V)}
    {x : ℕ × EdgeWithValue V} : x ∈ writes t es ↔ x.1 = t ∧ x.2 ∈ es := by
  unfold writes
  rw [List.mem_map]
  constructor
  · rintro ⟨e, he, rfl⟩
    exact ⟨rfl, he⟩
  · rintro ⟨rfl, he⟩
    exact ⟨x.2, he, rfl⟩

theorem rowsOf_append (k : ℕ) (log log' : Log V) :
    rowsOf k (log ++ log') = rowsOf k log ++ rowsOf k log' := by
  simp [rowsOf]

theorem rowsOf_writes (k t : ℕ) (es : List (EdgeWithValue V)) :
    rowsOf k (writes t es) = if t = k then es else [] := by
  unfold rowsOf writes
  rw [List.filter_map]
  split
  · next h => simp [Function.comp_def, h]
  · next h => simp [Function.comp_def, h]

@[simp] theorem rowsOf_append_writes_self (t : ℕ) (log : Log V)
    (es : List (EdgeWithValue V)) :
    rowsOf t (log ++ writes t es) = rowsOf t log ++ es := by
  rw [rowsOf_append, rowsOf_writes, if_pos rfl]

theorem rowsOf_append_writes_of_ne {k t : ℕ} (h : k ≠ t) (log : Log V)
    (es : List (EdgeWithValue V)) : rowsOf k (log ++ writes t es) = rowsOf k log := by
  rw [rowsOf_append, rowsOf_writes, if_neg h.symm, List.append_nil]

theorem mem_rowsOf {k : ℕ} {log : Log V} {e : EdgeWithValue V} :
    e ∈ rowsOf k log ↔ (k, e) ∈ log := by
  unfold rowsOf
  constructor
  · intro he
    obtain ⟨x, hx, rfl⟩ := List.mem_map.mp he
    obtain ⟨hmem, hxk⟩ := List.mem_filter.mp hx
    obtain rfl : x.1 = k := by simpa using hxk
    exact hmem
  · intro he
    exact List.mem_map.mpr ⟨(k, e), List.mem_filter.mpr ⟨he, by simp⟩, rfl⟩

end Log

/-! ## The edges that reach a shard -/

/-- An edge that the sharder hands to the shard: not a loop, with an
endpoint in the shard's interval and both in the partition. -/
structure Legal (c : Params) (e : EdgeWithValue V) : Prop where
  /-- Self loops are dropped before. -/
  noloop : e.src ≠ e.dst
  /-- The edge touches the interval. -/
  touches : c.intervals.Mem c.shard e.src ∨ c.intervals.Mem c.shard e.dst
  /-- The source has a shard. -/
  src : ∃ k, c.intervals.Mem k e.src
  /-- The destination has a shard. -/
  dst : ∃ k, c.intervals.Mem k e.dst

theorem Legal.stopper {c : Params} {e : EdgeWithValue V} (h : Legal c e) :
    e.stopper = false :=
  EdgeWithValue.stopper_eq_false h.noloop

/-- An edge to another shard comes from the own one. -/
theorem Legal.src_of_dst {c : Params} {e : EdgeWithValue V} (h : Legal c e) {k : ℕ}
    (hdst : c.intervals.Mem k e.dst) (hk : k ≠ c.shard) :
    c.intervals.Mem c.shard e.src := by
  rcases h.touches with hs | hs
  · exact hs
  · exact absurd (hdst.unique hs) hk

/-- An edge from another shard goes to the own one. -/
theorem Legal.dst_of_src {c : Params} {e : EdgeWithValue V} (h : Legal c e) {k : ℕ}
    (hsrc : c.intervals.Mem k e.src) (hk : k ≠ c.shard) :
    c.intervals.Mem c.shard e.dst := by
  rcases h.touches with hs | hs
  · exact absurd (hsrc.unique hs) hk
  · exact hs

/-- Sorted edges of a shard, few enough for an `int` to count. -/
structure Scan (c : Params) (L : List (EdgeWithValue V)) : Prop where
  /-- The edges are sorted by source, then destination. -/
  sorted : L.Pairwise fun a b => a.sortKey ≤ b.sortKey
  /-- Each of them reaches the shard. -/
  legal : ∀ e ∈ L, Legal c e
  /-- Their number is an `int`. -/
  short : L.length < 2 ^ 31

section Scan

variable {c : Params} {done rest : List (EdgeWithValue V)} {e : EdgeWithValue V}

theorem Scan.here (h : Scan c (done ++ e :: rest)) : Legal c e :=
  h.legal e (by simp)

/-- The next edge is not below one taken before. -/
theorem Scan.le (h : Scan c (done ++ e :: rest)) {a : EdgeWithValue V}
    (ha : a ∈ done) : a.sortKey ≤ e.sortKey :=
  (List.pairwise_append.mp h.sorted).2.2 a ha e List.mem_cons_self

/-- Nor is a later edge below it. -/
theorem Scan.ge (h : Scan c (done ++ e :: rest)) {a : EdgeWithValue V}
    (ha : a ∈ rest) : e.sortKey ≤ a.sortKey :=
  (List.pairwise_cons.mp (List.pairwise_append.mp h.sorted).2.1).1 a ha

/-- The edges taken are in order. -/
theorem Scan.sorted_done (h : Scan c (done ++ e :: rest)) :
    done.Pairwise fun a b => a.sortKey ≤ b.sortKey :=
  (List.pairwise_append.mp h.sorted).1

/-- In sorted edges, the last one is the greatest. -/
theorem le_getLast {L : List (EdgeWithValue V)}
    (hsorted : L.Pairwise fun a b => a.sortKey ≤ b.sortKey) {a b : EdgeWithValue V}
    (hlast : L.getLast? = some a) (hb : b ∈ L) : b.sortKey ≤ a.sortKey := by
  obtain ⟨ys, rfl⟩ := List.getLast?_eq_some_iff.mp hlast
  rcases List.mem_append.mp hb with hb | hb
  · exact (List.pairwise_append.mp hsorted).2.2 b hb a List.mem_cons_self
  · rw [List.mem_singleton.mp hb]

end Scan

/-! ## The state and the log -/

/-- Where the adjacency file `k` starts. -/
def startOf (c : Params) (k : ℕ) : ℕ :=
  if k = c.shard then 0 else c.intervals.first c.shard

/-- **A state after the edges `done`, with the log of its rows.** -/
structure Walk.At (c : Params) (done : List (EdgeWithValue V)) (log : Log V)
    (w : Walk V) : Prop where
  /-- The position counts the edges taken. -/
  pos : w.i = done.length
  /-- Each edge taken has been written, or is pending. -/
  split : log.map Prod.snd ++ w.pending = done
  /-- The files carry what the log says. -/
  carries : ∀ k, (w.wsl k).Carries ((log.rowsOf k).map EdgeWithValue.dst)
  /-- Before the first edge nothing has happened. -/
  fresh : done = [] → w = .init c ∧ log = []
  /-- The last edge taken is pending, and its source is where the walk is. -/
  last : ∀ a, done.getLast? = some a → a ∈ w.pending ∧ w.curvid = a.src
    ∧ ∃ k, w.currentSlidingShard = some k ∧ c.intervals.Mem k a.src
  /-- The last out-edge's destination lies in the shard `index`. -/
  aim : ∀ a, done.getLast? = some a → w.currentSlidingShard = some c.shard →
    c.intervals.Mem w.index a.dst
  /-- In the own interval, out-edges have been seen. -/
  outward : w.currentSlidingShard = some c.shard → w.willout = true
  /-- They are forgotten on the shard after it, unless it is passed over. -/
  past : w.willout = true → ∃ k, w.currentSlidingShard = some k
    ∧ (k = c.shard ∨ c.shard + 1 < k)

namespace Walk.At

variable {c : Params} {done rest : List (EdgeWithValue V)} {log : Log V} {w : Walk V}
  {e : EdgeWithValue V} {k j : ℕ}

/-- The walk starts with nothing taken. -/
theorem init : At c [] [] (Walk.init c : Walk V) where
  pos := rfl
  split := rfl
  carries k := WriteSliding.carries_empty _
  fresh _ := ⟨rfl, rfl⟩
  last a h := by simp at h
  aim a h := by simp at h
  outward h := by simp [Walk.init] at h
  past h := by simp [Walk.init] at h

/-- The sliding shard finds the shard of the next source. -/
theorem advance (h : At c done log w) (hscan : Scan c (done ++ e :: rest))
    (hk : c.intervals.Mem k e.src) :
    c.intervals.advance w.currentSlidingShard e.src = some k := by
  refine IntervalPartition.advance_eq_some hk ?_
  rcases hlast : done.getLast? with _ | a
  · obtain ⟨rfl, -⟩ := h.fresh (List.getLast?_eq_none_iff.mp hlast)
    exact Nat.zero_le _
  · obtain ⟨-, -, k', hk', hmem⟩ := h.last a hlast
    rw [hk']
    exact hmem.mono hk (EdgeWithValue.src_le_of_sortKey_le
      (hscan.le (List.mem_of_getLast? hlast)))

/-- Some edge has been taken, or nothing has happened. -/
theorem init_or_last (h : At c done log w) :
    (done = [] ∧ w = .init c ∧ log = [])
      ∨ ∃ a, done.getLast? = some a ∧ a ∈ w.pending ∧ a ∈ done ∧ w.curvid = a.src
        ∧ ∃ k, w.currentSlidingShard = some k ∧ c.intervals.Mem k a.src := by
  rcases hlast : done.getLast? with _ | a
  · have hnil := List.getLast?_eq_none_iff.mp hlast
    exact Or.inl ⟨hnil, h.fresh hnil⟩
  · obtain ⟨hpend, hcur, hshard⟩ := h.last a hlast
    exact Or.inr ⟨a, rfl, hpend, List.mem_of_getLast? hlast, hcur, hshard⟩

theorem mem_done_of_pending (h : At c done log w) {a : EdgeWithValue V}
    (ha : a ∈ w.pending) : a ∈ done := by
  rw [← h.split]
  exact List.mem_append_right _ ha

/-- The pending edges fit a row. -/
theorem fits (h : At c done log w) (hscan : Scan c (done ++ rest)) :
    WriteSliding.RowFits w.pending := by
  refine ⟨?_, ?_⟩
  · have hlen := congrArg List.length h.split
    have hshort := hscan.short
    rw [List.length_append] at hlen hshort
    omega
  · intro a ha
    obtain ⟨k, hk⟩ := (hscan.legal a
      (List.mem_append_left _ (h.mem_done_of_pending ha))).dst
    exact hk.lt

/-- Once out-edges have been seen, an in-edge of a shard other than the next
one lies beyond it. -/
theorem beyond (h : At c done log w) (hscan : Scan c (done ++ e :: rest))
    (hk : c.intervals.Mem k e.src) (hne : k ≠ c.shard)
    (hleave : ¬(k = c.shard + 1 ∧ w.willout = true)) (hw : w.willout = true) :
    c.shard + 1 < k := by
  obtain ⟨k', hk', hcase⟩ := h.past hw
  have hle : k' ≤ k := by
    rcases h.init_or_last with ⟨-, rfl, -⟩ | ⟨a, -, -, ha, -, k'', hk'', hmem⟩
    · simp [Walk.init] at hw
    · obtain rfl : k' = k'' := Option.some.inj (hk'.symm.trans hk'')
      exact hmem.mono hk (EdgeWithValue.src_le_of_sortKey_le (hscan.le ha))
  have hne' : k ≠ c.shard + 1 := fun hs => hleave ⟨hs, hw⟩
  omega

/-- The parts of a next state. -/
theorem next (h : At c done log w) {w' : Walk V} {log' : Log V}
    (hk : c.intervals.Mem k e.src) (hpos : w'.i = w.i + 1)
    (hsplit : log'.map Prod.snd ++ w'.pending = done ++ [e])
    (hcarries : ∀ k, (w'.wsl k).Carries ((log'.rowsOf k).map EdgeWithValue.dst))
    (hcur : w'.curvid = e.src) (hcss : w'.currentSlidingShard = some k)
    (hpend : e ∈ w'.pending)
    (hout : k = c.shard → w'.willout = true ∧ c.intervals.Mem w'.index e.dst)
    (hpast : w'.willout = true → k = c.shard ∨ c.shard + 1 < k) :
    At c (done ++ [e]) log' w' where
  pos := by rw [hpos, h.pos, List.length_append, List.length_singleton]
  split := hsplit
  carries := hcarries
  fresh hnil := absurd hnil (by simp)
  last a ha := by
    obtain rfl : e = a := by simpa using ha
    exact ⟨hpend, hcur, k, hcss, hk⟩
  aim a ha hs := by
    obtain rfl : e = a := by simpa using ha
    exact (hout (Option.some.inj (hcss.symm.trans hs))).2
  outward hs := (hout (Option.some.inj (hcss.symm.trans hs))).1
  past hw := ⟨k, hcss, hpast hw⟩

/-! ### What each kind of step does to the log -/

theorem forall_update {P : ℕ → WriteSliding → Prop} {wsl : ℕ → WriteSliding} {t : ℕ}
    {x : WriteSliding} (ht : P t x) (h : ∀ k, k ≠ t → P k (wsl k)) (k : ℕ) :
    P k (Function.update wsl t x k) := by
  by_cases hk : k = t
  · subst hk
    rw [Function.update_self]
    exact ht
  · rw [Function.update_of_ne hk]
    exact h k hk

/-- Writing the pending edges to file `t`, and moving its cursor. -/
theorem carries_flush (h : At c done log w) (hscan : Scan c (done ++ rest)) (t : ℕ)
    {f : WriteSliding → WriteSliding}
    (hf : ∀ (x : WriteSliding) ds, x.Carries ds → (f x).Carries ds) (k : ℕ) :
    (Function.update w.wsl t
        (f ((w.wsl t).writePending c.compressedBlockSize w.pending)) k).Carries
      ((Log.rowsOf k (log ++ Log.writes t w.pending)).map EdgeWithValue.dst) := by
  refine forall_update (P := fun k x => x.Carries
    ((Log.rowsOf k (log ++ Log.writes t w.pending)).map EdgeWithValue.dst)) ?_ ?_ k
  · rw [Log.rowsOf_append_writes_self, List.map_append]
    exact hf _ _ ((h.carries t).writePending (h.fits hscan))
  · intro k hk
    rw [Log.rowsOf_append_writes_of_ne hk]
    exact h.carries k

/-- An in-edge that stays. -/
theorem inStay (h : At c done log w) (hscan : Scan c (done ++ e :: rest))
    (hk : c.intervals.Mem k e.src) (hne : k ≠ c.shard)
    (hleave : ¬(k = c.shard + 1 ∧ w.willout = true)) (hsrc : e.src = w.curvid) :
    At c (done ++ [e]) log
      { w with
        currentSlidingShard := some k
        pending := w.pending ++ [e]
        i := w.i + 1 } := by
  refine h.next hk rfl ?_ h.carries hsrc.symm rfl (by simp) (fun hs => absurd hs hne)
    fun hw => Or.inr (h.beyond hscan hk hne hleave hw)
  rw [← List.append_assoc, h.split]

/-- An in-edge that moves the main file on. -/
theorem inMove (h : At c done log w) (hscan : Scan c (done ++ e :: rest))
    (hk : c.intervals.Mem k e.src) (hne : k ≠ c.shard)
    (hleave : ¬(k = c.shard + 1 ∧ w.willout = true)) :
    At c (done ++ [e]) (log ++ Log.writes c.shard w.pending)
      { w with
        wsl := Function.update w.wsl c.shard
          (((w.wsl c.shard).writePending c.compressedBlockSize w.pending).moveTo
            c.compressedBlockSize e.src)
        currentSlidingShard := some k
        currentMemoryShard := c.shard
        curvid := e.src
        pending := [e]
        i := w.i + 1 } := by
  refine h.next hk rfl ?_ ?_ rfl rfl (by simp) (fun hs => absurd hs hne)
    fun hw => Or.inr (h.beyond hscan hk hne hleave hw)
  · rw [List.map_append, Log.map_snd_writes, h.split]
  · exact h.carries_flush hscan c.shard fun x ds hx => hx.moveTo

/-- The in-edge that leaves the out-edges' file. -/
theorem inLeave (h : At c done log w) (hscan : Scan c (done ++ e :: rest))
    (hk : c.intervals.Mem (c.shard + 1) e.src) :
    At c (done ++ [e]) (log ++ Log.writes w.currentMemoryShard w.pending)
      { w with
        wsl :=
          let wsl := Function.update w.wsl w.currentMemoryShard
            ((w.wsl w.currentMemoryShard).writePending c.compressedBlockSize w.pending)
          Function.update wsl c.shard
            ((wsl c.shard).moveTo c.compressedBlockSize e.src)
        currentSlidingShard := some (c.shard + 1)
        currentMemoryShard := c.shard
        curvid := e.src
        willout := false
        pending := [e]
        i := w.i + 1 } := by
  have hflush := h.carries_flush hscan w.currentMemoryShard (f := id) fun x ds hx => hx
  refine h.next hk rfl ?_ ?_ rfl rfl (by simp) (fun hs => absurd hs (Nat.succ_ne_self _))
    (fun hw => absurd hw Bool.false_ne_true)
  · rw [List.map_append, Log.map_snd_writes, h.split]
  · exact forall_update (P := fun k x => x.Carries _) (hflush c.shard).moveTo
      fun k _ => hflush k

/-- An out-edge that stays. -/
theorem outStay (h : At c done log w) (hk : c.intervals.Mem c.shard e.src)
    (hj : c.intervals.Mem j e.dst) :
    At c (done ++ [e]) log
      { w with
        currentSlidingShard := some c.shard
        curvid := e.src
        willout := true
        index := j
        pending := w.pending ++ [e]
        i := w.i + 1 } := by
  refine h.next hk rfl ?_ h.carries rfl rfl (by simp) (fun _ => ⟨rfl, hj⟩)
    fun _ => Or.inl rfl
  rw [← List.append_assoc, h.split]

/-- An out-edge that switches files. -/
theorem outSwitch (h : At c done log w) (hscan : Scan c (done ++ e :: rest))
    (hk : c.intervals.Mem c.shard e.src) (hj : c.intervals.Mem j e.dst) :
    At c (done ++ [e]) (log ++ Log.writes w.currentMemoryShard w.pending)
      { w with
        wsl := w.switched c j e.src
        currentSlidingShard := some c.shard
        currentMemoryShard := j
        curvid := e.src
        willout := true
        index := j
        pending := [e]
        i := w.i + 1 } := by
  have hflush := h.carries_flush hscan w.currentMemoryShard
    (f := .switchTo c.compressedBlockSize e.src w.i) fun x ds hx => hx.switchTo
  refine h.next hk rfl ?_ ?_ rfl rfl (by simp) (fun _ => ⟨rfl, hj⟩)
    fun _ => Or.inl rfl
  · rw [List.map_append, Log.map_snd_writes, h.split]
  · unfold switched
    dsimp only
    split
    · exact hflush
    · exact forall_update (P := fun k x => x.Carries _) (hflush j).switchTo
        fun k _ => hflush k

end Walk.At

end Reshard
