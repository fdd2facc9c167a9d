import Mathlib
import DpdkGraph.BlockLoading

/-!
# The load of the in-blocks completes

What has to hold is that `load_edata_XG` and the wait behind it come to an
end without a failed assertion, in every order of the threads, and that the
buffers then have the block files.

The assertion on the number of chunks decides. A request of no bytes is
split into no chunk, and one of more than a stripe into several: the load
fails on an empty block file, and on one that is longer than a stripe. Where
every block file has at least one byte and fits a stripe, the load completes
(`completes_iff`). For this direction an invariant accounts for each request
that has been made: it is in a queue, or a thread has it, or the buffer has
the file. A measure goes down with every step, and until the wait is over
there is a step to take.
-/

namespace BlockLoading

open Reshard

variable {J : Job}

/-- **The load completes**, and leaves the block files in the buffers, one
zero byte behind each. -/
structure Completes (J : Job) : Prop where
  /-- No assertion fails. -/
  safe : ∀ as s, Reaches J as s → s.pc ≠ .failed
  /-- Before the end there is always a step. -/
  live : ∀ as s, Reaches J as s → s.pc = .done ∨ ∃ a s', step J s a = some s'
  /-- There is no endless run. -/
  bounded : ∃ n, ∀ as s, Reaches J as s → as.length ≤ n
  /-- At the end the buffers have the files. -/
  loaded : ∀ as s, Reaches J as s → s.pc = .done → ∀ k,
    s.inbuf k = J.file k ++ [0] ∧ s.inlength k = (J.file k).length

/-- The sessions can be opened, and every block file is one chunk. -/
structure Job.Fits (J : Job) : Prop where
  opens : J.opens = true
  size : ∀ k, 0 < (J.file k).length ∧ (J.file k).length ≤ J.stripesize

/-! ## The chunks of a request -/

/-- A request within the first stripe is one chunk. -/
theorem stripeOffsets_of_le (k : Fin J.P) (random : ℕ → ℕ) {n : ℕ}
    (hpos : 0 < n) (hle : n ≤ J.stripesize) :
    stripeOffsets J k random n 0 =
      [⟨mplexForOffset J k 0 * J.niothreads
        + (random 0 % J.niothreads : ℕ), 0, n⟩] := by
  have hlen : min (J.stripesize - 0 % J.stripesize) (0 + n - 0) = n := by
    rw [Nat.zero_mod, Nat.sub_zero, Nat.sub_zero, Nat.zero_add,
      min_eq_right hle]
  unfold stripeOffsets
  rw [stripesFrom, if_pos (by omega)]
  dsimp only
  rw [hlen, stripesFrom, if_neg (by omega)]

/-- **One chunk** is a request of at least one byte and at most a
stripe. -/
theorem size_of_stripeOffsets {k : Fin J.P} {random : ℕ → ℕ} {n : ℕ}
    {chunk : StripeChunk} (h : stripeOffsets J k random n 0 = [chunk]) :
    0 < n ∧ n ≤ J.stripesize := by
  have hpos := J.stripesize_pos
  have hn : 0 < n := by
    by_contra hzero
    unfold stripeOffsets at h
    rw [stripesFrom, if_neg (by omega)] at h
    exact absurd h.symm (List.cons_ne_nil _ _)
  refine ⟨hn, ?_⟩
  by_contra hlong
  have hlen : min (J.stripesize - 0 % J.stripesize) (0 + n - 0) =
      J.stripesize := by
    rw [Nat.zero_mod, Nat.sub_zero, Nat.sub_zero, Nat.zero_add,
      min_eq_left (by omega)]
  unfold stripeOffsets at h
  rw [stripesFrom, if_pos (by omega)] at h
  dsimp only at h
  rw [hlen, stripesFrom, if_pos (by omega)] at h
  exact absurd (List.cons.inj h).2 (List.cons_ne_nil _ _)

/-- The first stripe of a block file has a thread. -/
theorem toNat_mplexThread_lt (k : Fin J.P) (random : ℕ) :
    (mplexForOffset J k 0 * J.niothreads
      + (random % J.niothreads : ℕ)).toNat < J.threads := by
  have hzero : toInt32 ((0 / J.stripesize : ℕ) : ℤ) = 0 := by
    rw [Nat.zero_div]
    rfl
  have hmplex : mplexForOffset J k 0 = (J.startMplex k : ℤ) := by
    unfold mplexForOffset
    rw [hzero, zero_add]
    exact Int.tmod_eq_of_lt (Int.natCast_nonneg _)
      (Int.ofNat_lt.mpr (J.startMplex_lt k))
  have hthread := Nat.mod_lt random J.niothreads_pos
  have hstart : (J.startMplex k + 1) * J.niothreads ≤ J.threads :=
    Nat.mul_le_mul_right _ (J.startMplex_lt k)
  rw [hmplex, ← Int.natCast_mul, ← Int.natCast_add, Int.toNat_natCast]
  calc J.startMplex k * J.niothreads + random % J.niothreads
      < J.startMplex k * J.niothreads + J.niothreads := by omega
    _ = (J.startMplex k + 1) * J.niothreads := (Nat.succ_mul _ _).symm
    _ ≤ J.threads := hstart

/-- Every block is requested. -/
theorem Job.exists_block (k : Fin J.P) : ∃ n, J.block n = k := by
  have hk := k.isLt
  have he := J.exec.isLt
  refine ⟨⟨(k + (J.P - J.exec)) % J.P, Nat.mod_lt _ (Fin.pos k)⟩, Fin.ext ?_⟩
  show (J.exec + (k + (J.P - J.exec)) % J.P) % J.P = k
  rw [Nat.add_mod_mod]
  have hsum : (J.exec : ℕ) + (k + (J.P - J.exec)) = k + J.P := by omega
  rw [hsum, Nat.add_mod_right, Nat.mod_eq_of_lt hk]

/-! ## What a turn of the main thread can do -/

/-- The outcomes of a turn of the main thread. -/
inductive MainNext (J : Job) (random : ℕ → ℕ) (s : State J) : State J → Prop
  | opening (i : ℕ) (hi : i < J.P) : s.pc = .opening i →
      MainNext J random s (openBlock J ⟨i, hi⟩ s)
  | opened (i : ℕ) : s.pc = .opening i → J.P ≤ i →
      MainNext J random s { s with pc := .requesting 0 }
  | request (n : ℕ) (hn : n < J.P) : s.pc = .requesting n →
      MainNext J random s (request J ⟨n, hn⟩ random s)
  | requested (n : ℕ) : s.pc = .requesting n → J.P ≤ n →
      MainNext J random s { s with pc := .copying }
  | count (n : Fin J.P) (chunk : StripeChunk) : s.pc = .counting n chunk →
      MainNext J random s (count J n chunk s)
  | push (n : Fin J.P) (chunk : StripeChunk) : s.pc = .pushing n chunk →
      MainNext J random s (push J n chunk s)
  | copy : s.pc = .copying → MainNext J random s (copy J s)
  | wait (i : ℕ) : s.pc = .waiting i → i < J.threads → s.pendingReads i ≤ 0 →
      MainNext J random s { s with pc := .waiting (i + 1) }
  | waited (i : ℕ) : s.pc = .waiting i → J.threads ≤ i →
      MainNext J random s { s with pc := .done }

/-- **A turn has one of these outcomes.** Every invariant is derived from
this list. -/
theorem mainNext_of_step {random : ℕ → ℕ} {s s' : State J}
    (hstep : mainStep J random s = some s') : MainNext J random s s' := by
  unfold mainStep at hstep
  split at hstep
  · next i hpc =>
    split at hstep <;> obtain rfl := Option.some.inj hstep
    · next hi => exact .opening i hi hpc
    · next hi => exact .opened i hpc (Nat.not_lt.mp hi)
  · next n hpc =>
    split at hstep <;> obtain rfl := Option.some.inj hstep
    · next hn => exact .request n hn hpc
    · next hn => exact .requested n hpc (Nat.not_lt.mp hn)
  · next n chunk hpc =>
    obtain rfl := Option.some.inj hstep
    exact .count n chunk hpc
  · next n chunk hpc =>
    obtain rfl := Option.some.inj hstep
    exact .push n chunk hpc
  · next hpc =>
    obtain rfl := Option.some.inj hstep
    exact .copy hpc
  · next i hpc =>
    split at hstep
    · next hi =>
      split at hstep
      · cases hstep
      · next hpending =>
        obtain rfl := Option.some.inj hstep
        exact .wait i hpc hi (not_lt.mp hpending)
    · next hi =>
      obtain rfl := Option.some.inj hstep
      exact .waited i hpc (Nat.not_lt.mp hi)
  · cases hstep
  · cases hstep

/-! ## What a place in the program stands for -/

/-- Block `k` has a buffer. -/
def Pc.Opened : Pc J → Fin J.P → Prop
  | .opening i, k => k < i
  | _, _ => True

/-- Block `k` has been requested. -/
def Pc.Requested : Pc J → Fin J.P → Prop
  | .opening _, _ => False
  | .requesting n, k => ∃ m : Fin J.P, (m : ℕ) < n ∧ J.block m = k
  | .counting n _, k => ∃ m : Fin J.P, m < n ∧ J.block m = k
  | .pushing n _, k => ∃ m : Fin J.P, m < n ∧ J.block m = k
  | _, _ => True

/-- The reads of thread `t` that are counted, but not in its queue yet. -/
def Pc.counted : Pc J → ℕ → ℕ
  | .pushing _ chunk, t => if chunk.mplexThread.toNat = t then 1 else 0
  | _, _ => 0

theorem Pc.counted_pushing (n : Fin J.P) (chunk : StripeChunk) (t : ℕ) :
    (Pc.pushing n chunk).counted t =
      if chunk.mplexThread.toNat = t then 1 else 0 := rfl

/-- The wait has passed thread `t`. -/
def Pc.Waited : Pc J → ℕ → Prop
  | .waiting i, t => t < i
  | .done, t => t < J.threads
  | _, _ => False

/-- A chunk under way is a whole file, and has a thread; no assertion has
failed. -/
def Pc.Sound : Pc J → Prop
  | .counting n chunk | .pushing n chunk =>
    chunk.offset = 0 ∧ chunk.len = (J.file (J.block n)).length
      ∧ chunk.mplexThread.toNat < J.threads
  | .failed => False
  | _ => True

/-! ## The invariant -/

/-- A task asks for a whole file. -/
def IoTask.Whole (x : IoTask J) : Prop :=
  x.offset = 0 ∧ x.length = (J.file x.block).length

/-- The request for block `k` is in a queue, or a thread has it and has not
read yet, or the buffer has the file. -/
def State.Served (s : State J) (k : Fin J.P) : Prop :=
  (∃ t < J.threads, ∃ x ∈ s.readqueue t, x.block = k)
    ∨ (∃ t < J.threads, ∃ x, s.task t = some (x, false) ∧ x.block = k)
    ∨ s.inbuf k = J.file k ++ [0]

/-- **The invariant** of a load whose block files are one chunk each. -/
structure State.Inv (s : State J) : Prop where
  sound : s.pc.Sound
  /-- What is counted is queued, held by a thread, or about to be queued. -/
  pending : ∀ t, s.pendingReads t =
    ((s.readqueue t).length + (s.task t).toList.length + s.pc.counted t : ℕ)
  /-- A request is for a whole file … -/
  queued : ∀ t, ∀ x ∈ s.readqueue t, x.Whole
  /-- … also when a thread has taken it. -/
  tasked : ∀ t x b, s.task t = some (x, b) → x.Whole
  /-- A file that has been opened has a buffer of its length. -/
  opened : ∀ k, s.pc.Opened k → s.inlength k = (J.file k).length
    ∧ ∃ l, l.length = (J.file k).length ∧ s.inbuf k = l ++ [0]
  /-- What has been requested is queued, held or done. -/
  served : ∀ k, s.pc.Requested k → s.Served k
  /-- A thread that has been waited for has nothing left. -/
  idle : ∀ t, s.pc.Waited t → s.readqueue t = [] ∧ s.task t = none

theorem inv_init : (init J).Inv where
  sound := trivial
  pending := fun _ => rfl
  queued := fun _ _ hx => absurd hx List.not_mem_nil
  tasked := fun _ _ _ h => nomatch h
  opened := fun _ hk => absurd hk (Nat.not_lt_zero _)
  served := fun _ hk => hk.elim
  idle := fun _ ht => ht.elim

/-! ## The turns of the main thread -/

/-- A turn that changes the place in the program alone, and the copy of the
block of the interval. -/
theorem State.Inv.move {s : State J} (h : s.Inv) {pc : Pc J}
    (buf : List UInt8) (hsound : pc.Sound)
    (hcounted : ∀ t, pc.counted t = s.pc.counted t)
    (hopened : ∀ k, pc.Opened k → s.pc.Opened k)
    (hrequested : ∀ k, pc.Requested k → s.pc.Requested k)
    (hwaited : ∀ t, pc.Waited t →
      s.pc.Waited t ∨ s.readqueue t = [] ∧ s.task t = none) :
    State.Inv { s with pc := pc, mainToMainBuf := buf } where
  sound := hsound
  pending := fun t => by
    rw [h.pending t, hcounted t]
  queued := h.queued
  tasked := h.tasked
  opened := fun k hk => h.opened k (hopened k hk)
  served := fun k hk => h.served k (hrequested k hk)
  idle := fun t ht => (hwaited t ht).elim (h.idle t) id

/-- The buffer of a file as it is set up has the room of the file, and a
zero byte. -/
theorem initialBuf_eq {fsize : ℕ} (hlt : fsize < 2 ^ 31)
    (hdvd : J.edgeSize ∣ fsize) :
    initialBuf J fsize =
      (List.replicate (fsize / J.edgeSize) J.ET).flatten ++ [0] := by
  have hcount : toInt32 ((fsize / J.edgeSize : ℕ) : ℤ) =
      (fsize / J.edgeSize : ℕ) := by
    have hle := Nat.div_le_self fsize J.edgeSize
    generalize fsize / J.edgeSize = n at hle
    exact Reshard.toInt32_natCast (by omega)
  unfold initialBuf
  dsimp only
  rw [hcount, Int.toNat_natCast, Nat.div_mul_cancel hdvd,
    Nat.add_sub_cancel_left]
  rfl

theorem length_flatten_ET {fsize : ℕ} (hdvd : J.edgeSize ∣ fsize) :
    (List.replicate (fsize / J.edgeSize) J.ET).flatten.length = fsize := by
  rw [List.length_flatten, List.map_replicate, List.sum_replicate,
    J.length_ET, smul_eq_mul, Nat.div_mul_cancel hdvd]

theorem inv_openBlock (hJ : J.Fits) {s : State J} (h : s.Inv) {i : ℕ}
    (hpc : s.pc = .opening i) (hi : i < J.P) :
    (openBlock J ⟨i, hi⟩ s).Inv := by
  have hdvd := J.dvd_length ⟨i, hi⟩
  have hlt : (J.file ⟨i, hi⟩).length < 2 ^ 31 :=
    lt_of_le_of_lt (hJ.size ⟨i, hi⟩).2 J.stripesize_lt
  unfold openBlock
  dsimp only
  rw [if_pos ⟨Nat.mod_eq_zero_of_dvd hdvd, hJ.opens⟩]
  refine ⟨trivial, fun t => ?_, h.queued, h.tasked, fun k hk => ?_,
    fun k hk => hk.elim, fun t ht => ht.elim⟩
  · rw [h.pending t, hpc]
    rfl
  · by_cases hki : k = ⟨i, hi⟩
    · subst hki
      refine ⟨?_, _, length_flatten_ET hdvd, ?_⟩
      · show Function.update s.inlength _ _ _ = _
        rw [Function.update_self]
        exact Reshard.toInt32_natCast (by omega)
      · show Function.update s.inbuf _ _ _ = _
        rw [Function.update_self, initialBuf_eq hlt hdvd]
    · have hbefore : s.pc.Opened k := by
        rw [hpc]
        have hne : (k : ℕ) ≠ i := fun hv => hki (Fin.ext hv)
        exact lt_of_le_of_ne (Nat.lt_succ_iff.mp hk) hne
      show Function.update s.inlength _ _ _ = _
        ∧ ∃ l, _ ∧ Function.update s.inbuf _ _ _ = _
      rw [Function.update_of_ne hki, Function.update_of_ne hki]
      exact h.opened k hbefore

theorem inv_request (hJ : J.Fits) {s : State J} (h : s.Inv) {n : ℕ}
    (hpc : s.pc = .requesting n) (hn : n < J.P) (random : ℕ → ℕ) :
    (request J ⟨n, hn⟩ random s).Inv := by
  have hsize := hJ.size (J.block ⟨n, hn⟩)
  unfold request
  rw [stripeOffsets_of_le _ random hsize.1 hsize.2]
  refine h.move s.mainToMainBuf
    ⟨rfl, rfl, toNat_mplexThread_lt _ _⟩ ?_ ?_ ?_ ?_
  · intro t
    rw [hpc]
    rfl
  · intro k hk
    rw [hpc]
    trivial
  · intro k hk
    rw [hpc]
    exact hk
  · intro t ht
    exact ht.elim

theorem inv_count {s : State J} (h : s.Inv) {n : Fin J.P}
    {chunk : StripeChunk} (hpc : s.pc = .counting n chunk) :
    (count J n chunk s).Inv where
  sound := by
    have hsound := h.sound
    rw [hpc] at hsound
    exact hsound
  pending := fun t => by
    have hpending := h.pending t
    rw [hpc] at hpending
    show Function.update s.pendingReads _ _ t = _
    rw [show (count J n chunk s).pc.counted t = _ from
      Pc.counted_pushing n chunk t]
    by_cases ht : chunk.mplexThread.toNat = t
    · rw [ht, Function.update_self, hpending, if_pos rfl]
      rfl
    · rw [Function.update_of_ne (Ne.symm ht), hpending, if_neg ht]
      rfl
  queued := h.queued
  tasked := h.tasked
  opened := fun k _ => h.opened k (by rw [hpc]; trivial)
  served := fun k hk => h.served k (by rw [hpc]; exact hk)
  idle := fun _ ht => ht.elim

theorem inv_push {s : State J} (h : s.Inv) {n : Fin J.P}
    {chunk : StripeChunk} (hpc : s.pc = .pushing n chunk) :
    (push J n chunk s).Inv := by
  obtain ⟨hoff, hlen, hthread⟩ : chunk.offset = 0
      ∧ chunk.len = (J.file (J.block n)).length
      ∧ chunk.mplexThread.toNat < J.threads := by
    have hsound := h.sound
    rw [hpc] at hsound
    exact hsound
  have hmem : ∀ t x, x ∈ s.readqueue t →
      x ∈ (push J n chunk s).readqueue t := by
    intro t x hx
    show x ∈ Function.update s.readqueue _ _ t
    by_cases ht : t = chunk.mplexThread.toNat
    · subst ht
      rw [Function.update_self]
      exact List.mem_append_left _ hx
    · rwa [Function.update_of_ne ht]
  refine ⟨trivial, fun t => ?_, fun t x hx => ?_, h.tasked,
    fun k _ => h.opened k (by rw [hpc]; trivial), fun k hk => ?_,
    fun t ht => ht.elim⟩
  · -- the counter of the thread was raised before, for the task that is now in its
    -- queue
    have hpending := h.pending t
    rw [hpc, Pc.counted_pushing] at hpending
    show s.pendingReads t =
      (((Function.update s.readqueue _ _ t).length
        + (s.task t).toList.length + 0 : ℕ) : ℤ)
    by_cases ht : chunk.mplexThread.toNat = t
    · rw [if_pos ht] at hpending
      rw [ht, Function.update_self, hpending, List.length_append,
        List.length_singleton]
      omega
    · rw [if_neg ht] at hpending
      rw [Function.update_of_ne (Ne.symm ht), hpending]
  · have hx' : x ∈ Function.update s.readqueue chunk.mplexThread.toNat
        (s.readqueue chunk.mplexThread.toNat
          ++ [⟨J.block n, chunk.len, chunk.offset, chunk.offset, n⟩]) t := hx
    by_cases ht : t = chunk.mplexThread.toNat
    · rw [ht, Function.update_self, List.mem_append, List.mem_singleton] at hx'
      rcases hx' with hold | hnew
      · exact h.queued _ x hold
      · rw [hnew]
        exact ⟨hoff, hlen⟩
    · rw [Function.update_of_ne ht] at hx'
      exact h.queued t x hx'
  · -- the block that has just been requested is in the queue, the others are where
    -- they were
    obtain ⟨m, hm, hblock⟩ := hk
    by_cases hmn : m = n
    · refine Or.inl ⟨_, hthread,
        ⟨J.block n, chunk.len, chunk.offset, chunk.offset, n⟩, ?_, ?_⟩
      · show _ ∈ Function.update s.readqueue _ _ _
        rw [Function.update_self]
        exact List.mem_append_right _ (List.mem_singleton_self _)
      · rw [← hblock, hmn]
    · have hlt : m < n := lt_of_le_of_ne (Nat.lt_succ_iff.mp hm) hmn
      rcases h.served k (by rw [hpc]; exact ⟨m, hlt, hblock⟩) with
        ⟨t, ht, x, hx, hxk⟩ | hrest
      · exact Or.inl ⟨t, ht, x, hmem t x hx, hxk⟩
      · exact Or.inr hrest

/-- A turn of the main thread keeps the invariant. Where it only goes on to
another place, what has to be shown is that the new place says no more of the
blocks than the old one. -/
theorem inv_mainStep (hJ : J.Fits) {s s' : State J} (h : s.Inv)
    (random : ℕ → ℕ) (hstep : mainStep J random s = some s') : s'.Inv := by
  cases mainNext_of_step hstep with
  | opening i hi hpc => exact inv_openBlock hJ h hpc hi
  | opened i hpc hi =>
    refine h.move s.mainToMainBuf trivial ?_ ?_ ?_ fun t ht => ht.elim
    · intro t
      rw [hpc]
      rfl
    · intro k _
      rw [hpc]
      exact lt_of_lt_of_le k.isLt hi
    · rintro k ⟨m, hm, -⟩
      exact absurd hm (Nat.not_lt_zero _)
  | request n hn hpc => exact inv_request hJ h hpc hn random
  | requested n hpc hn =>
    refine h.move s.mainToMainBuf trivial ?_ ?_ ?_ fun t ht => ht.elim
    · intro t
      rw [hpc]
      rfl
    · intro k _
      rw [hpc]
      trivial
    · intro k _
      obtain ⟨m, hm⟩ := J.exists_block k
      rw [hpc]
      exact ⟨m, lt_of_lt_of_le m.isLt hn, hm⟩
  | count n chunk hpc => exact inv_count h hpc
  | push n chunk hpc => exact inv_push h hpc
  | copy hpc =>
    refine h.move _ trivial ?_ ?_ ?_ fun t ht => absurd ht (Nat.not_lt_zero _)
    · intro t
      rw [hpc]
      rfl
    · intro k _
      rw [hpc]
      trivial
    · intro k _
      rw [hpc]
      trivial
  | wait i hpc hi hpending =>
    refine h.move s.mainToMainBuf trivial (fun t => by rw [hpc]; rfl)
      (fun k _ => by rw [hpc]; trivial) (fun k _ => by rw [hpc]; trivial)
      fun t ht => ?_
    by_cases hti : t = i
    · -- no read of the thread is pending, so it has none
      have hzero := h.pending i
      have hqueue : (s.readqueue i).length = 0 := by omega
      have htask : (s.task i).toList.length = 0 := by omega
      rw [hti]
      refine Or.inr ⟨List.length_eq_zero_iff.mp hqueue, ?_⟩
      cases hx : s.task i with
      | none => rfl
      | some x =>
        rw [hx] at htask
        exact absurd htask (Nat.succ_ne_zero _)
    · refine Or.inl ?_
      rw [hpc]
      exact lt_of_le_of_ne (Nat.lt_succ_iff.mp ht) hti
  | waited i hpc hi =>
    refine h.move s.mainToMainBuf trivial (fun t => by rw [hpc]; rfl)
      (fun k _ => by rw [hpc]; trivial) (fun k _ => by rw [hpc]; trivial)
      fun t ht => ?_
    refine Or.inl ?_
    rw [hpc]
    exact lt_of_lt_of_le ht hi

/-! ## The turns of the I/O threads -/

/-- A block that has been requested has a buffer. -/
theorem Pc.Requested.opened {pc : Pc J} {k : Fin J.P} (h : pc.Requested k) :
    pc.Opened k := by
  cases pc with
  | opening i => exact h.elim
  | _ => trivial

theorem inv_take {s s' : State J} (h : s.Inv) {t : ℕ} (ht : t < J.threads)
    (hstep : take J t s = some s') : s'.Inv := by
  unfold take at hstep
  split at hstep
  · next x rest htask hqueue =>
    split at hstep
    · rw [Option.some.injEq] at hstep
      rw [← hstep]
      refine ⟨h.sound, fun u => ?_, fun u y hy => ?_, fun u y b hy => ?_,
        h.opened, fun k hk => ?_, fun u hu => ?_⟩
      · -- the task is now with the thread, and still counted
        have hpending := h.pending u
        show s.pendingReads u =
          (((Function.update s.readqueue t rest u).length
            + (Function.update s.task t (some (x, false)) u).toList.length
            + s.pc.counted u : ℕ) : ℤ)
        by_cases hu : u = t
        · subst hu
          rw [Function.update_self, Function.update_self, hpending, hqueue,
            htask, List.length_cons]
          rfl
        · rw [Function.update_of_ne hu, Function.update_of_ne hu, hpending]
      · have hy' : y ∈ Function.update s.readqueue t rest u := hy
        by_cases hu : u = t
        · rw [hu, Function.update_self] at hy'
          exact h.queued t y (by
            rw [hqueue]
            exact List.mem_cons_of_mem _ hy')
        · rw [Function.update_of_ne hu] at hy'
          exact h.queued u y hy'
      · have hy' : Function.update s.task t (some (x, false)) u =
            some (y, b) := hy
        by_cases hu : u = t
        · rw [hu, Function.update_self, Option.some.injEq] at hy'
          have hx := h.queued t x (by
            rw [hqueue]
            exact List.mem_cons_self)
          rwa [(Prod.mk.inj hy').1] at hx
        · rw [Function.update_of_ne hu] at hy'
          exact h.tasked u y b hy'
      · -- a block that was served by this task is served by it still
        rcases h.served k hk with
          ⟨u, hu, y, hy, hyk⟩ | ⟨u, hu, y, hy, hyk⟩ | hbuf
        · by_cases hut : u = t
          · rw [hut, hqueue, List.mem_cons] at hy
            rcases hy with hyx | hrest
            · refine Or.inr (Or.inl ⟨t, ht, x, Function.update_self _ _ _, ?_⟩)
              rw [← hyx, hyk]
            · refine Or.inl ⟨t, ht, y, ?_, hyk⟩
              show y ∈ Function.update s.readqueue t rest t
              rwa [Function.update_self]
          · refine Or.inl ⟨u, hu, y, ?_, hyk⟩
            show y ∈ Function.update s.readqueue t rest u
            rwa [Function.update_of_ne hut]
        · refine Or.inr (Or.inl ⟨u, hu, y, ?_, hyk⟩)
          have hut : u ≠ t := by
            rintro rfl
            rw [htask] at hy
            cases hy
          exact (Function.update_of_ne hut _ _).trans hy
        · exact Or.inr (Or.inr hbuf)
      · -- an idle thread has no task, so that it is not the one that takes
        have hidle := h.idle u hu
        have hut : u ≠ t := by
          rintro rfl
          rw [hqueue] at hidle
          exact absurd hidle.1 (List.cons_ne_nil _ _)
        exact ⟨(Function.update_of_ne hut _ _).trans hidle.1,
          (Function.update_of_ne hut _ _).trans hidle.2⟩
    · cases hstep
  · cases hstep

/-- What a read does: it puts the whole file to the start of the buffer. -/
theorem read_eq {s : State J} (h : s.Inv) {t : ℕ} {x : IoTask J}
    (htask : s.task t = some (x, false)) :
    read J t s = some { s with
      inbuf := Function.update s.inbuf x.block
        (J.file x.block ++ (s.inbuf x.block).drop (J.file x.block).length)
      task := Function.update s.task t (some (x, true)) } := by
  obtain ⟨hoff, hlen⟩ := h.tasked t x false htask
  have hread : readCompressed (J.file x.block) x.length =
      some (J.file x.block) := by
    unfold readCompressed preada
    rw [hlen, if_pos (Or.inr (by omega)), List.drop_zero, List.take_length]
  unfold read
  rw [htask]
  dsimp only
  rw [if_pos hoff, hread]

theorem inv_read {s s' : State J} (h : s.Inv) {t : ℕ}
    (hstep : read J t s = some s') : s'.Inv := by
  cases htask : s.task t with
  | none =>
    unfold read at hstep
    rw [htask] at hstep
    cases hstep
  | some y =>
    obtain ⟨x, b⟩ := y
    cases b with
    | true =>
      unfold read at hstep
      rw [htask] at hstep
      cases hstep
    | false =>
      rw [read_eq h htask, Option.some.injEq] at hstep
      rw [← hstep]
      -- the file is as long as the buffer but for its end
      have hbuf : s.pc.Opened x.block →
          J.file x.block ++ (s.inbuf x.block).drop (J.file x.block).length =
            J.file x.block ++ [0] := by
        intro hopened
        obtain ⟨-, l, hlen, hl⟩ := h.opened x.block hopened
        rw [hl, ← hlen, List.drop_left]
      refine ⟨h.sound, fun u => ?_, h.queued, fun u y b hy => ?_,
        fun k hk => ?_, fun k hk => ?_, fun u hu => ?_⟩
      · have hpending := h.pending u
        show s.pendingReads u = (((s.readqueue u).length
          + (Function.update s.task t (some (x, true)) u).toList.length
          + s.pc.counted u : ℕ) : ℤ)
        by_cases hu : u = t
        · subst hu
          rw [Function.update_self, hpending, htask]
          rfl
        · rw [Function.update_of_ne hu, hpending]
      · have hy' : Function.update s.task t (some (x, true)) u =
            some (y, b) := hy
        by_cases hu : u = t
        · rw [hu, Function.update_self, Option.some.injEq] at hy'
          have hx := h.tasked t x false htask
          rwa [(Prod.mk.inj hy').1] at hx
        · rw [Function.update_of_ne hu] at hy'
          exact h.tasked u y b hy'
      · refine ⟨(h.opened k hk).1, ?_⟩
        show ∃ l, _ ∧ Function.update s.inbuf x.block _ k = _
        by_cases hkx : k = x.block
        · subst hkx
          rw [Function.update_self, hbuf hk]
          exact ⟨_, rfl, rfl⟩
        · rw [Function.update_of_ne hkx]
          exact (h.opened k hk).2
      · -- from now on the block is served by what is in its buffer
        by_cases hkx : k = x.block
        · subst hkx
          refine Or.inr (Or.inr ?_)
          show Function.update s.inbuf x.block _ x.block = _
          rw [Function.update_self, hbuf hk.opened]
        · rcases h.served k hk with
            hqueue | ⟨u, hu, y, hy, hyk⟩ | hfile
          · exact Or.inl hqueue
          · have hut : u ≠ t := by
              rintro rfl
              rw [htask, Option.some.injEq] at hy
              exact hkx (hyk ▸ congrArg IoTask.block (Prod.mk.inj hy).1.symm)
            exact Or.inr (Or.inl ⟨u, hu, y,
              (Function.update_of_ne hut _ _).trans hy, hyk⟩)
          · exact Or.inr (Or.inr
              ((Function.update_of_ne hkx _ _).trans hfile))
      · have hidle := h.idle u hu
        have hut : u ≠ t := by
          rintro rfl
          rw [htask] at hidle
          cases hidle.2
        exact ⟨hidle.1, (Function.update_of_ne hut _ _).trans hidle.2⟩

theorem inv_finish {s s' : State J} (h : s.Inv) {t : ℕ}
    (hstep : finish J t s = some s') : s'.Inv := by
  unfold finish at hstep
  split at hstep
  · next x htask =>
    rw [Option.some.injEq] at hstep
    rw [← hstep]
    refine ⟨h.sound, fun u => ?_, h.queued, fun u y b hy => ?_,
      h.opened, fun k hk => ?_, fun u hu => ?_⟩
    · -- the task is over, and the counter is one less
      have hpending := h.pending u
      show Function.update s.pendingReads t _ u =
        (((s.readqueue u).length
          + (Function.update s.task t none u).toList.length
          + s.pc.counted u : ℕ) : ℤ)
      by_cases hu : u = t
      · subst hu
        rw [Function.update_self, Function.update_self, hpending, htask]
        simp only [Option.toList_some, List.length_singleton,
          Option.toList_none, List.length_nil]
        omega
      · rw [Function.update_of_ne hu, Function.update_of_ne hu, hpending]
    · have hy' : Function.update s.task t none u = some (y, b) := hy
      have hut : u ≠ t := by
        rintro rfl
        rw [Function.update_self] at hy'
        cases hy'
      rw [Function.update_of_ne hut] at hy'
      exact h.tasked u y b hy'
    · -- a task that is over has been read, so that its block is in the buffer
      rcases h.served k hk with hqueue | ⟨u, hu, y, hy, hyk⟩ | hfile
      · exact Or.inl hqueue
      · have hut : u ≠ t := by
          rintro rfl
          rw [htask] at hy
          cases hy
        exact Or.inr (Or.inl ⟨u, hu, y,
          (Function.update_of_ne hut _ _).trans hy, hyk⟩)
      · exact Or.inr (Or.inr hfile)
    · have hidle := h.idle u hu
      refine ⟨hidle.1, ?_⟩
      show Function.update s.task t none u = none
      by_cases hut : u = t
      · rw [hut, Function.update_self]
      · rw [Function.update_of_ne hut]
        exact hidle.2
  · cases hstep

/-- What a step can be. -/
theorem step_cases {s s' : State J} {a : Action}
    (h : step J s a = some s') :
    (∃ random, mainStep J random s = some s')
      ∨ ∃ t < J.threads, take J t s = some s' ∨ read J t s = some s'
        ∨ finish J t s = some s' := by
  cases a with
  | main random => exact Or.inl ⟨random, h⟩
  | take t =>
    simp only [step] at h
    split at h
    · next ht => exact Or.inr ⟨t, ht.1, Or.inl h⟩
    · cases h
  | read t =>
    simp only [step] at h
    split at h
    · next ht => exact Or.inr ⟨t, ht.1, Or.inr (Or.inl h)⟩
    · cases h
  | finish t =>
    simp only [step] at h
    split at h
    · next ht => exact Or.inr ⟨t, ht.1, Or.inr (Or.inr h)⟩
    · cases h

/-- **A step keeps the invariant.** -/
theorem inv_step (hJ : J.Fits) {s s' : State J} (h : s.Inv) {a : Action}
    (hstep : step J s a = some s') : s'.Inv := by
  rcases step_cases hstep with
    ⟨random, hmain⟩ | ⟨t, ht, htake | hread | hfinish⟩
  · exact inv_mainStep hJ h random hmain
  · exact inv_take h ht htake
  · exact inv_read h hread
  · exact inv_finish h hfinish

theorem inv_of_reaches (hJ : J.Fits) {as : List Action} {s : State J}
    (h : Reaches J as s) : s.Inv :=
  h.invariant (fun _ _ _ hs _ hstep => inv_step hJ hs hstep) inv_init

/-! ## The end is reached -/

/-- The turns of the main thread up to the end, at most. -/
def Pc.left : Pc J → ℕ
  | .opening i => (J.P - i) + 1 + (3 * J.P + 1 + (J.threads + 2))
  | .requesting n => 3 * (J.P - n) + 1 + (J.threads + 2)
  | .counting n _ => 3 * (J.P - n) + (J.threads + 2)
  | .pushing n _ => 3 * (J.P - n) - 1 + (J.threads + 2)
  | .copying => J.threads + 2
  | .waiting i => J.threads - i + 1
  | _ => 0

/-- The turns of an I/O thread for the task it has. -/
def turns : Option (IoTask J × Bool) → ℕ
  | none => 0
  | some (_, false) => 2
  | some (_, true) => 1

/-- The turns thread `t` has before it. -/
def State.load (s : State J) (t : ℕ) : ℕ :=
  3 * (s.readqueue t).length + turns (s.task t)

/-- **The measure**: a request that is made costs its thread three turns. -/
def State.work (s : State J) : ℕ :=
  4 * s.pc.left + ∑ t ∈ Finset.range J.threads, s.load t

/-- A step that touches the load of one thread alone. -/
theorem work_lt {s s' : State J} {t : ℕ} (ht : t < J.threads)
    (hne : ∀ u, u ≠ t → s'.load u = s.load u)
    (hlt : 4 * s'.pc.left + s'.load t < 4 * s.pc.left + s.load t) :
    s'.work < s.work := by
  have hsum := Transition.sum_exchange ht hne
  unfold State.work
  omega

/-- A turn of the main thread that leaves the queues alone. -/
theorem work_lt_of_left {s s' : State J} (hleft : s'.pc.left < s.pc.left)
    (hload : s'.load = s.load) : s'.work < s.work := by
  unfold State.work
  rw [hload]
  omega

theorem work_push {s : State J} (h : s.Inv) {n : Fin J.P}
    {chunk : StripeChunk} (hpc : s.pc = .pushing n chunk) :
    (push J n chunk s).work < s.work := by
  have ht : chunk.mplexThread.toNat < J.threads := by
    have hsound := h.sound
    rw [hpc] at hsound
    exact hsound.2.2
  refine work_lt ht (fun u hu => ?_) ?_
  · show 3 * (Function.update s.readqueue _ _ u).length + _ = _
    rw [Function.update_of_ne hu]
    rfl
  · have hn := n.isLt
    show 4 * (3 * (J.P - (n + 1)) + 1 + (J.threads + 2))
      + (3 * (Function.update s.readqueue _ _ _).length + turns (s.task _)) < _
    rw [hpc, Function.update_self, List.length_append, List.length_singleton]
    show _ < 4 * (3 * (J.P - n) - 1 + (J.threads + 2))
      + (3 * (s.readqueue chunk.mplexThread.toNat).length + turns (s.task _))
    omega

/-- A turn of the main thread goes on to a place that is nearer to the end;
only a push leaves the place, and takes away a task that is still to be
queued. -/
theorem work_mainStep (hJ : J.Fits) {s s' : State J} (h : s.Inv)
    (random : ℕ → ℕ) (hstep : mainStep J random s = some s') :
    s'.work < s.work := by
  cases mainNext_of_step hstep with
  | opening i hi hpc =>
    unfold openBlock
    dsimp only
    rw [if_pos ⟨Nat.mod_eq_zero_of_dvd (J.dvd_length _), hJ.opens⟩]
    refine work_lt_of_left ?_ rfl
    rw [hpc]
    simp only [Pc.left]
    omega
  | request n hn hpc =>
    unfold request
    rw [stripeOffsets_of_le _ random (hJ.size _).1 (hJ.size _).2]
    refine work_lt_of_left ?_ rfl
    rw [hpc]
    simp only [Pc.left]
    omega
  | count n chunk hpc =>
    refine work_lt_of_left ?_ rfl
    have hn := n.isLt
    rw [hpc]
    simp only [count, Pc.left]
    omega
  | push n chunk hpc => exact work_push h hpc
  | copy hpc =>
    refine work_lt_of_left ?_ rfl
    rw [hpc]
    simp only [copy, Pc.left]
    omega
  | opened _ hpc hi | requested _ hpc hi | waited _ hpc hi | wait _ hpc hi =>
    refine work_lt_of_left ?_ rfl
    rw [hpc]
    simp only [Pc.left]
    omega

theorem work_take {s s' : State J} {t : ℕ} (ht : t < J.threads)
    (hstep : take J t s = some s') : s'.work < s.work := by
  unfold take at hstep
  split at hstep
  · next x rest htask hqueue =>
    split at hstep
    · rw [Option.some.injEq] at hstep
      rw [← hstep]
      refine work_lt ht (fun u hu => ?_) ?_
      · unfold State.load
        dsimp only
        rw [Function.update_of_ne hu, Function.update_of_ne hu]
      · unfold State.load
        dsimp only
        rw [Function.update_self, Function.update_self, htask, hqueue,
          List.length_cons]
        simp only [turns]
        omega
    · cases hstep
  · cases hstep

/-- A turn that changes the task of a thread alone. -/
theorem work_lt_of_turns {s s' : State J} {t : ℕ} (ht : t < J.threads)
    {task : Option (IoTask J × Bool)} (hpc : s'.pc = s.pc)
    (hqueue : s'.readqueue = s.readqueue)
    (htask : s'.task = Function.update s.task t task)
    (hlt : turns task < turns (s.task t)) : s'.work < s.work := by
  refine work_lt ht (fun u hu => ?_) ?_
  · unfold State.load
    rw [hqueue, htask, Function.update_of_ne hu]
  · unfold State.load
    rw [hpc, hqueue, htask, Function.update_self]
    omega

theorem work_read {s s' : State J} (h : s.Inv) {t : ℕ} (ht : t < J.threads)
    (hstep : read J t s = some s') : s'.work < s.work := by
  have hread : ∃ x, s.task t = some (x, false) := by
    unfold read at hstep
    split at hstep
    · next x htask => exact ⟨x, htask⟩
    · cases hstep
  obtain ⟨x, htask⟩ := hread
  rw [read_eq h htask, Option.some.injEq] at hstep
  rw [← hstep]
  refine work_lt_of_turns ht rfl rfl rfl ?_
  rw [htask]
  exact Nat.lt_succ_self 1

theorem work_finish {s s' : State J} {t : ℕ} (ht : t < J.threads)
    (hstep : finish J t s = some s') : s'.work < s.work := by
  unfold finish at hstep
  split at hstep
  · next x htask =>
    rw [Option.some.injEq] at hstep
    rw [← hstep]
    refine work_lt_of_turns ht rfl rfl rfl ?_
    rw [htask]
    exact Nat.zero_lt_one
  · cases hstep

/-- **A step lowers the measure.** -/
theorem work_step (hJ : J.Fits) {s s' : State J} (h : s.Inv) {a : Action}
    (hstep : step J s a = some s') : s'.work < s.work := by
  rcases step_cases hstep with
    ⟨random, hmain⟩ | ⟨t, ht, htake | hread | hfinish⟩
  · exact work_mainStep hJ h random hmain
  · exact work_take ht htake
  · exact work_read h ht hread
  · exact work_finish ht hfinish

/-- A thread with pending reads, all of them in its queue, has a turn. -/
theorem exists_turn {s : State J} (h : s.Inv) {t : ℕ}
    (hcounted : s.pc.counted t = 0) (hpending : s.pendingReads t > 0) :
    ∃ s', take J t s = some s' ∨ read J t s = some s'
      ∨ finish J t s = some s' := by
  cases htask : s.task t with
  | none =>
    have hcount := h.pending t
    rw [htask, hcounted, Option.toList_none, List.length_nil] at hcount
    have hlen : 0 < (s.readqueue t).length := by omega
    obtain ⟨x, rest, hqueue⟩ := List.exists_cons_of_length_pos hlen
    unfold take
    rw [htask, hqueue]
    exact ⟨_, Or.inl (if_pos hpending)⟩
  | some y =>
    obtain ⟨x, b⟩ := y
    cases b with
    | false => exact ⟨_, Or.inr (Or.inl (read_eq h htask))⟩
    | true =>
      unfold finish
      rw [htask]
      exact ⟨_, Or.inr (Or.inr rfl)⟩

/-- **There is a step to take** until the wait is over: the main thread has one,
or it waits for a read that is queued or under way, and the I/O thread of that
read has one. -/
theorem exists_step {s : State J} (h : s.Inv) :
    s.pc = .done ∨ ∃ a s', step J s a = some s' := by
  have hmain : ∀ s', mainStep J (fun _ => 0) s = some s' →
      s.pc = .done ∨ ∃ a s', step J s a = some s' :=
    fun s' hs' => Or.inr ⟨.main fun _ => 0, s', hs'⟩
  cases hpc : s.pc with
  | opening i =>
    rw [← hpc]
    by_cases hi : i < J.P
    · exact hmain (openBlock J ⟨i, hi⟩ s) (by simp [mainStep, hpc, hi])
    · exact hmain { s with pc := .requesting 0 } (by simp [mainStep, hpc, hi])
  | requesting n =>
    rw [← hpc]
    by_cases hn : n < J.P
    · exact hmain (request J ⟨n, hn⟩ (fun _ => 0) s)
        (by simp [mainStep, hpc, hn])
    · exact hmain { s with pc := .copying } (by simp [mainStep, hpc, hn])
  | counting n chunk =>
    rw [← hpc]
    exact hmain (count J n chunk s) (by simp [mainStep, hpc])
  | pushing n chunk =>
    rw [← hpc]
    exact hmain (push J n chunk s) (by simp [mainStep, hpc])
  | copying =>
    rw [← hpc]
    exact hmain (copy J s) (by simp [mainStep, hpc])
  | waiting i =>
    rw [← hpc]
    by_cases hi : i < J.threads
    · by_cases hpending : s.pendingReads i > 0
      · -- the thread that is waited for has a turn
        have hne : s.pc ≠ .failed := by
          rw [hpc]
          exact fun hfail => nomatch hfail
        obtain ⟨s', htake | hread | hfinish⟩ := exists_turn h (by
          rw [hpc]
          rfl) hpending
        · exact Or.inr ⟨.take i, s', (if_pos ⟨hi, hne⟩).trans htake⟩
        · exact Or.inr ⟨.read i, s', (if_pos ⟨hi, hne⟩).trans hread⟩
        · exact Or.inr ⟨.finish i, s', (if_pos ⟨hi, hne⟩).trans hfinish⟩
      · exact hmain { s with pc := .waiting (i + 1) }
          (by simp [mainStep, hpc, hi, hpending])
    · exact hmain { s with pc := .done } (by simp [mainStep, hpc, hi])
  | done => exact Or.inl rfl
  | failed =>
    have hsound := h.sound
    rw [hpc] at hsound
    exact hsound.elim

/-- At the end nothing is under way, and every buffer has its file. -/
theorem loaded_of_done {s : State J} (h : s.Inv) (hpc : s.pc = .done)
    (k : Fin J.P) :
    s.inbuf k = J.file k ++ [0] ∧ s.inlength k = (J.file k).length := by
  have hidle : ∀ t < J.threads, s.readqueue t = [] ∧ s.task t = none := by
    intro t ht
    refine h.idle t ?_
    rw [hpc]
    exact ht
  refine ⟨?_, (h.opened k (by rw [hpc]; trivial)).1⟩
  rcases h.served k (by rw [hpc]; trivial) with
    ⟨t, ht, x, hx, -⟩ | ⟨t, ht, x, hx, -⟩ | hfile
  · rw [(hidle t ht).1] at hx
    exact absurd hx List.not_mem_nil
  · rw [(hidle t ht).2] at hx
    cases hx
  · exact hfile

theorem completes_of_fits (hJ : J.Fits) : Completes J where
  safe := fun _ s hrun hpc => by
    have hsound := (inv_of_reaches hJ hrun).sound
    rw [hpc] at hsound
    exact hsound
  live := fun _ _ hrun => exists_step (inv_of_reaches hJ hrun)
  bounded := ⟨(init J).work, fun _ _ hrun =>
    le_trans (Nat.le_add_right _ _) (@Transition.Run.length_le _ _ _ _
      State.Inv State.work _ _ _ hrun
      (fun _ _ _ hs _ hstep => ⟨inv_step hJ hs hstep, work_step hJ hs hstep⟩)
      inv_init)⟩
  loaded := fun _ _ hrun hpc k => loaded_of_done (inv_of_reaches hJ hrun) hpc k

/-! ## What a completed load has asserted -/

/-- The assertions on the blocks so far have held. -/
def Pc.Asserted : Pc J → Fin J.P → Prop
  | .opening _, _ => False
  | .requesting n, k => ∃ m : Fin J.P, (m : ℕ) < n ∧ J.block m = k
  | .counting n _, k => ∃ m : Fin J.P, m ≤ n ∧ J.block m = k
  | .pushing n _, k => ∃ m : Fin J.P, m ≤ n ∧ J.block m = k
  | .failed, _ => False
  | _, _ => True

/-- The sessions have been opened. -/
def Pc.Past : Pc J → Prop
  | .opening i => 0 < i
  | .failed => False
  | _ => True

/-- What the assertions that have held tell about the files. -/
structure State.Checked (s : State J) : Prop where
  opens : s.pc.Past → J.opens = true
  size : ∀ k, s.pc.Asserted k →
    0 < (J.file k).length ∧ (J.file k).length ≤ J.stripesize

/-- **What the assertions have shown so far.** Past the opening of the
sessions they can be opened, and a block that has been requested is one
chunk. -/
theorem checked_mainStep {s s' : State J} (h : s.Checked) (random : ℕ → ℕ)
    (hstep : mainStep J random s = some s') : s'.Checked := by
  cases mainNext_of_step hstep with
  | opening i hi hpc =>
    unfold openBlock
    dsimp only
    split
    · next hopens => exact ⟨fun _ => hopens.2, fun k hk => hk.elim⟩
    · exact ⟨fun hp => hp.elim, fun k hk => hk.elim⟩
  | opened i hpc hi =>
    refine ⟨fun _ => h.opens ?_, ?_⟩
    · rw [hpc]
      exact lt_of_lt_of_le (Fin.pos J.exec) hi
    · rintro k ⟨m, hm, -⟩
      exact absurd hm (Nat.not_lt_zero _)
  | request n hn hpc =>
    have hpast : J.opens = true := h.opens (by rw [hpc]; trivial)
    unfold request
    split
    · next chunk hchunk =>
      refine ⟨fun _ => hpast, ?_⟩
      rintro k ⟨m, hm, hmk⟩
      rcases lt_or_eq_of_le hm with hlt | heq
      · exact h.size k (by rw [hpc]; exact ⟨m, hlt, hmk⟩)
      · rw [← hmk, heq]
        exact size_of_stripeOffsets hchunk
    · exact ⟨fun hp => hp.elim, fun k hk => hk.elim⟩
  | requested n hpc hn =>
    refine ⟨fun _ => h.opens (by rw [hpc]; trivial), fun k _ => h.size k ?_⟩
    obtain ⟨m, hm⟩ := J.exists_block k
    rw [hpc]
    exact ⟨m, lt_of_lt_of_le m.isLt hn, hm⟩
  | count n chunk hpc =>
    exact ⟨fun _ => h.opens (by rw [hpc]; trivial),
      fun k hk => h.size k (by rw [hpc]; exact hk)⟩
  | push n chunk hpc =>
    refine ⟨fun _ => h.opens (by rw [hpc]; trivial), ?_⟩
    rintro k ⟨m, hm, hmk⟩
    exact h.size k (by rw [hpc]; exact ⟨m, Nat.lt_succ_iff.mp hm, hmk⟩)
  | copy hpc | wait _ hpc | waited _ hpc =>
    exact ⟨fun _ => h.opens (by rw [hpc]; trivial),
      fun k _ => h.size k (by rw [hpc]; trivial)⟩

/-- A turn of an I/O thread leaves the main thread where it is, or ends the
program. -/
theorem pc_of_turn {s s' : State J} {t : ℕ}
    (h : take J t s = some s' ∨ read J t s = some s'
      ∨ finish J t s = some s') : s'.pc = s.pc ∨ s'.pc = .failed := by
  rcases h with htake | hread | hfinish
  · unfold take at htake
    split at htake
    · split at htake
      · rw [Option.some.injEq] at htake
        rw [← htake]
        exact Or.inl rfl
      · cases htake
    · cases htake
  · unfold read at hread
    split at hread
    · split at hread
      · split at hread
        · rw [Option.some.injEq] at hread
          rw [← hread]
          exact Or.inl rfl
        · rw [Option.some.injEq] at hread
          rw [← hread]
          exact Or.inr rfl
      · rw [Option.some.injEq] at hread
        rw [← hread]
        exact Or.inr rfl
    · cases hread
  · unfold finish at hfinish
    split at hfinish
    · rw [Option.some.injEq] at hfinish
      rw [← hfinish]
      exact Or.inl rfl
    · cases hfinish

theorem checked_step {s s' : State J} (h : s.Checked) {a : Action}
    (hstep : step J s a = some s') : s'.Checked := by
  rcases step_cases hstep with ⟨random, hmain⟩ | ⟨t, -, hturn⟩
  · exact checked_mainStep h random hmain
  · rcases pc_of_turn hturn with hpc | hpc
    · exact ⟨fun hp => h.opens (hpc ▸ hp), fun k hk => h.size k (hpc ▸ hk)⟩
    · refine ⟨fun hp => ?_, fun k hk => ?_⟩
      · rw [hpc] at hp
        exact hp.elim
      · rw [hpc] at hk
        exact hk.elim

/-- A load that comes to its end has passed every assertion. -/
theorem fits_of_done {as : List Action} {s : State J} (hrun : Reaches J as s)
    (hpc : s.pc = .done) : J.Fits := by
  have hchecked : s.Checked := hrun.invariant
    (fun _ _ _ hs _ hstep => checked_step hs hstep)
    ⟨fun hp => absurd hp (Nat.lt_irrefl 0), fun k hk => hk.elim⟩
  exact ⟨hchecked.opens (by rw [hpc]; trivial),
    fun k => hchecked.size k (by rw [hpc]; trivial)⟩

/-- A load that completes has passed every assertion. -/
theorem fits_of_completes (h : Completes J) : J.Fits := by
  obtain ⟨n, hbound⟩ := h.bounded
  obtain ⟨as, s, hrun, hpc⟩ := Transition.Run.exists_end hbound
    fun as s hrun => (h.live as s hrun).imp id
      fun ⟨a, s', hstep⟩ => ⟨a, s', trivial, hstep⟩
  exact fits_of_done hrun hpc

/-- **The load completes exactly where every block file is one chunk.** -/
theorem completes_iff (J : Job) : Completes J ↔ J.Fits :=
  ⟨fits_of_completes, completes_of_fits⟩

/-- One interval without edges of its own: its block file is empty. -/
theorem not_completes_emptyBlock : ¬∀ J : Job, Completes J := by
  intro h
  have hfits := fits_of_completes (h {
    P := 1
    exec := 0
    edgeSize := 4
    edgeSize_pos := by decide
    ET := [0, 0, 0, 0]
    length_ET := rfl
    file := fun _ => []
    dvd_length := fun _ => dvd_zero 4
    multiplex := 1
    multiplex_pos := Nat.one_pos
    niothreads := 1
    niothreads_pos := Nat.one_pos
    ioStripesize := 4096 * 1024 / 2
    ioStripesize_pos := by decide
    ioStripesize_lt := by decide
    found := fun _ => false
    startMplex := fun _ => 0
    startMplex_lt := fun _ => Nat.one_pos })
  exact absurd (hfits.size 0).1 (Nat.lt_irrefl 0)

end BlockLoading
