import DpdkGraph.ReadQueues

/-!
# The reads are complete after the wait

What a thread has pending is what is in its queues, what it is executing, and
what is counted but not queued yet: the counter is raised before the task is
put into the queue, and lowered after the task was executed. So a counter of
zero says that all that has been queued for the thread is executed, and stays
so. The wait passes the threads one after the other; what is queued later
does not matter to the reads that were queued before.

`Inv` keeps account of each task: once it is issued it is in one place, a
queue, a thread or the record of what was executed. The chunks of a read tile
its range, and those of different reads go to different places of the memory,
so that what has been read is not touched any more.
-/

namespace ReadCompletion

open ReadQueues
open BlockLoading (StripeChunk preada)
open Reshard (toInt32)

variable {N : ℕ} (P : Program N)

/-! ## The chunks of a read -/

/-- The multiplex that has a byte of a file. -/
def mplexOf {M : IoManager} (s : Session M) (x : ℕ) : ℕ :=
  (x / M.stripesize + s.startMplex) % M.multiplex

/-- **The byte of a file**, in the multiplex that has it. -/
def byteAt {M : IoManager} (s : Session M) (x : ℕ) : UInt8 := (s.file (mplexOf s x)).getD x 0

/-- The range of a chunk. -/
def range (c : StripeChunk) : ℕ × ℕ := (c.offset, c.offset + c.len - 1)

/-- A chunk lies in one stripe, whose multiplex has the thread. -/
structure Placed {M : IoManager} (s : Session M) (off : ℕ) (c : StripeChunk) : Prop where
  /-- It has a byte. -/
  pos : 0 < c.len
  /-- Its thread exists … -/
  thread_lt : threadOf c < M.threads
  /-- … and is one of the disk that has the stripe. -/
  mplex : ∀ b, b < c.len → threadOf c / M.niothreads = mplexOf s (off + c.offset + b)

section Stripes

variable {M : IoManager} (s : Session M)

theorem mplexForOffset_eq {x : ℕ} (h : x / M.stripesize + s.startMplex < 2 ^ 31) :
    mplexForOffset s x = (mplexOf s x : ℕ) := by
  have hint : toInt32 ((x / M.stripesize : ℕ) : ℤ) = (x / M.stripesize : ℕ) := by
    generalize x / M.stripesize = q at h
    exact Reshard.toInt32_natCast (by omega)
  unfold mplexForOffset mplexOf
  rw [hint, ← Int.natCast_add, Int.tmod_eq_emod_of_nonneg (Int.natCast_nonneg _),
    ← Int.natCast_mod]

/-- The bytes from `idx` to the end of its stripe. -/
theorem div_eq_of_stripe {idx b : ℕ} (hb : b < M.stripesize - idx % M.stripesize) :
    (idx + b) / M.stripesize = idx / M.stripesize := by
  have hdiv := Nat.div_add_mod idx M.stripesize
  refine Nat.div_eq_of_lt_le ?_ ?_
  · rw [mul_comm]
    omega
  · rw [Nat.succ_mul, mul_comm]
    omega

/-- **The chunks of a read tile its range**, each in one stripe, and a chunk is
given to a thread of the disk its stripe is on. -/
theorem stripesFrom_spec (random : ℕ → ℕ) {stop off idx bufoff : ℕ} (hidx : off + bufoff = idx)
    (hle : idx ≤ stop) (hlt : stop / M.stripesize + s.startMplex < 2 ^ 31) :
    Tiles bufoff ((stripesFrom s random stop idx bufoff).map range) (stop - off)
      ∧ ∀ c ∈ stripesFrom s random stop idx bufoff, Placed s off c := by
  induction hn : stop - idx using Nat.strong_induction_on generalizing idx bufoff with
  | _ n ih =>
    subst hn
    rw [stripesFrom]
    split
    · next hmore =>
      -- the first chunk ends with its stripe or with the range
      have hmod := Nat.mod_lt idx M.stripesize_pos
      generalize hlen : min (M.stripesize - idx % M.stripesize) (stop - idx) = len
      have hpos : 0 < len := by omega
      obtain ⟨htiles, hplaced⟩ := @ih (stop - (idx + len)) (by omega) (idx + len)
        (bufoff + len) (by omega) (by omega) rfl
      have hstripe : idx / M.stripesize + s.startMplex < 2 ^ 31 :=
        lt_of_le_of_lt (Nat.add_le_add_right (Nat.div_le_div_right hle) _) hlt
      have hthread : threadOf ⟨mplexForOffset s idx * M.niothreads
            + (random idx % M.niothreads : ℕ), bufoff, len⟩
          = mplexOf s idx * M.niothreads + random idx % M.niothreads := by
        show (mplexForOffset s idx * M.niothreads + (random idx % M.niothreads : ℕ)).toNat = _
        rw [mplexForOffset_eq s hstripe, ← Int.natCast_mul, ← Int.natCast_add, Int.toNat_natCast]
      have hrandom := Nat.mod_lt (random idx) M.niothreads_pos
      have hmplex : mplexOf s idx < M.multiplex := Nat.mod_lt _ M.multiplex_pos
      refine ⟨⟨rfl, ?_, ?_⟩, List.forall_mem_cons.mpr ⟨⟨hpos, ?_, fun b hb => ?_⟩, hplaced⟩⟩
      · show bufoff ≤ bufoff + len - 1 + 1
        omega
      · show Tiles (bufoff + len - 1 + 1) _ _
        rw [show bufoff + len - 1 + 1 = bufoff + len by omega]
        exact htiles
      · rw [hthread]
        calc mplexOf s idx * M.niothreads + random idx % M.niothreads
            < mplexOf s idx * M.niothreads + M.niothreads := by omega
          _ = (mplexOf s idx + 1) * M.niothreads := (Nat.succ_mul _ _).symm
          _ ≤ M.threads := Nat.mul_le_mul_right _ hmplex
      · have hb : b < len := hb
        show _ = mplexOf s (off + bufoff + b)
        -- the number of the thread tells the disk again
        rw [hthread, Nat.add_comm, Nat.add_mul_div_right _ _ M.niothreads_pos,
          Nat.div_eq_of_lt hrandom, Nat.zero_add, hidx]
        unfold mplexOf
        rw [div_eq_of_stripe (by omega)]
    · -- nothing is left of the range
      next hend =>
      refine ⟨?_, fun c hc => absurd hc List.not_mem_nil⟩
      show bufoff = stop - off
      omega

end Stripes

/-- **A read as it is split.** -/
structure Split (i : Fin N) (l : List StripeChunk) : Prop where
  /-- The chunks cover the read, each byte once. -/
  tiles : Tiles 0 (l.map range) (P.request i).nbytes
  placed : ∀ c ∈ l, Placed (P.request i).session (P.request i).off c
  /-- A compressed session is read from the start, in one chunk. -/
  whole : (P.request i).session.compressed = true →
    (P.request i).off = 0 ∧ ∀ c ∈ l, c.offset = 0

theorem split_stripeOffsets (i : Fin N) (random : ℕ → ℕ)
    (h : ¬((P.request i).session.compressed = true
      ∧ ¬((stripeOffsets (P.request i).session random (P.request i).nbytes
        (P.request i).off).length = 1 ∧ (P.request i).off = 0))) :
    Split P i (stripeOffsets (P.request i).session random (P.request i).nbytes
      (P.request i).off) := by
  obtain ⟨htiles, hplaced⟩ := stripesFrom_spec (P.request i).session random
    (Nat.add_zero (P.request i).off) (Nat.le_add_right _ (P.request i).nbytes)
    (P.request i).stripe_lt
  rw [Nat.add_sub_cancel_left] at htiles
  refine ⟨htiles, hplaced, fun hcompressed => ?_⟩
  rw [not_and, not_not] at h
  obtain ⟨hone, hoff⟩ := h hcompressed
  obtain ⟨c, hc⟩ := List.length_eq_one_iff.mp hone
  refine ⟨hoff, fun d hd => ?_⟩
  rw [hc] at hd
  obtain rfl := List.mem_singleton.mp hd
  have htiles : Tiles 0 ((stripeOffsets (P.request i).session random (P.request i).nbytes
    (P.request i).off).map range) _ := htiles
  rw [hc] at htiles
  exact htiles.1

variable {P} in
/-- Different chunks of a read have different ranges. -/
theorem Split.disjoint {i : Fin N} {l : List StripeChunk} (h : Split P i l) :
    l.Pairwise fun c d => c.offset + c.len ≤ d.offset ∨ d.offset + d.len ≤ c.offset := by
  have hpos : ∀ c ∈ l, 0 < c.len := fun c hc => (h.placed c hc).pos
  refine (List.pairwise_map.mp h.tiles.disjoint).imp_of_mem fun {c d} hc hd hcd => ?_
  by_contra hmeet
  rw [not_or, Nat.not_le, Nat.not_le] at hmeet
  have hc := hpos c hc
  have hd := hpos d hd
  exact hcd (max c.offset d.offset) ⟨⟨le_max_left _ _, by unfold range; omega⟩,
    ⟨le_max_right _ _, by unfold range; omega⟩⟩

/-! ## The account of the tasks -/

section Account

/-- The tasks that a call has queued. -/
def issuedBy (i : Fin N) : Pc → List (IoTask N)
  | .before => []
  | .loop stripelist k _ => (stripelist.take k).map (taskOf P i)

/-- The tasks of a read that are in the queues by now, or were. -/
def issued (s : State N) (i : Fin N) : List (IoTask N) := issuedBy P i (s.pc i)

/-- The tasks that a thread is running. -/
def busy : IoThread N → ℕ
  | .running _ _ => 1
  | _ => 0

/-- How often a thread is about to execute a task. -/
def held : IoThread N → IoTask N → ℕ
  | .running y false, x => [y].count x
  | _, _ => 0

/-- The queued and the running tasks of a thread. -/
def load (s : State N) (t : ℕ) : ℕ :=
  (s.prioqueue t).length + (s.readqueue t).length + busy (s.thread t)

/-- Whether a call has counted a chunk for the thread and not queued it. -/
def announces (t : ℕ) : Pc → ℕ
  | .loop stripelist k true => if stripelist[k]?.map threadOf = some t then 1 else 0
  | _ => 0

/-- The calls that have counted a chunk for the thread and not queued it. -/
def announced (s : State N) (t : ℕ) : ℕ := ∑ i, announces t (s.pc i)

/-- How often a task still has to be executed by the thread. -/
def ahead (s : State N) (t : ℕ) (x : IoTask N) : ℕ :=
  (s.prioqueue t).count x + (s.readqueue t).count x + held (s.thread t) x

/-- The thread has the task. -/
def Has (s : State N) (t : ℕ) (x : IoTask N) : Prop :=
  x ∈ s.prioqueue t ∨ x ∈ s.readqueue t ∨ ∃ b, s.thread t = .running x b

/-- The memory has the bytes that the task is to read. -/
def Stored (mem : ℕ → UInt8) (x : IoTask N) : Prop :=
  ∀ b, b < x.length → mem ((P.request x.request).tbuf + x.ptroffset + b)
    = byteAt (P.request x.request).session (x.offset + b)

/-- **The account of the tasks**: what has been issued is announced, queued,
held or executed, and is in one of these places. -/
structure Inv (s : State N) : Prop where
  /-- A thread that requests has cut its read into chunks. -/
  split : ∀ {i l k b}, s.pc i = .loop l k b → Split P i l
  /-- What is counted is queued, running or about to be queued. -/
  pending : ∀ t, s.pendingReads t = (load s t + announced s t : ℕ)
  /-- A task is with the thread it was given to. -/
  home : ∀ t x, Has s t x → x.fd = t
  /-- A task is in one place. -/
  once : ∀ x, ahead s x.fd x + s.executed.count x = (issued P s x.request).count x
  /-- What has been executed is in the memory. -/
  stored : ∀ x ∈ s.executed, Stored P s.mem x

variable {P}

theorem inv_init (mem : ℕ → UInt8) : Inv P (init mem) where
  split h := by cases h
  pending t := by
    show (0 : ℤ) = _
    rw [show announced (init mem : State N) t = 0 from Finset.sum_const_zero]
    rfl
  home t x h := by
    rcases h with h | h | ⟨b, h⟩
    · exact absurd h List.not_mem_nil
    · exact absurd h List.not_mem_nil
    · cases h
  once x := rfl
  stored x h := absurd h List.not_mem_nil

/-- The count of the announced chunks where one call goes on. -/
theorem announced_update (s s' : State N) {i : Fin N} {p : Pc}
    (hpc : s'.pc = Function.update s.pc i p) (t : ℕ) :
    announced s' t + announces t (s.pc i) = announced s t + announces t p := by
  have hafter := Finset.add_sum_erase Finset.univ (fun j => announces t (s'.pc j))
    (Finset.mem_univ i)
  have hbefore := Finset.add_sum_erase Finset.univ (fun j => announces t (s.pc j))
    (Finset.mem_univ i)
  have hrest : ∑ j ∈ Finset.univ.erase i, announces t (s'.pc j)
      = ∑ j ∈ Finset.univ.erase i, announces t (s.pc j) :=
    Finset.sum_congr rfl fun j hj => by
      rw [hpc, Function.update_of_ne (Finset.ne_of_mem_erase hj)]
  have hself : s'.pc i = p := by rw [hpc, Function.update_self]
  simp only [hself] at hafter
  unfold announced
  omega

/-- A call goes on without a task being queued. -/
theorem issued_update {s s' : State N} {i : Fin N} {p : Pc}
    (hpc : s'.pc = Function.update s.pc i p)
    (hsame : issuedBy P i p = issued P s i) (j : Fin N) : issued P s' j = issued P s j := by
  unfold issued at hsame ⊢
  rw [hpc]
  by_cases hji : j = i
  · rw [hji, Function.update_self, hsame]
  · rw [Function.update_of_ne hji]

/-- The split of the calls where one goes on with the same chunks. -/
theorem Inv.split_update {s s' : State N} (h : Inv P s) {i : Fin N} {l : List StripeChunk}
    {k : ℕ} {b : Bool} (hpc : s'.pc = Function.update s.pc i (.loop l k b))
    (hl : Split P i l) {j : Fin N} {l' : List StripeChunk} {k' : ℕ} {b' : Bool}
    (hj : s'.pc j = .loop l' k' b') : Split P j l' := by
  rw [hpc] at hj
  by_cases hji : j = i
  · subst hji
    rw [Function.update_self, Pc.loop.injEq] at hj
    exact hj.1 ▸ hl
  · rw [Function.update_of_ne hji] at hj
    exact h.split hj

/-! ## The calls -/

theorem inv_start {s s' : State N} (h : Inv P s) {i : Fin N} {random : ℕ → ℕ}
    (hstep : start P i random s = some s') : Inv P s' := by
  unfold start at hstep
  split at hstep
  · next hpc =>
    split at hstep
    · obtain rfl := Option.some.inj hstep
      exact ⟨h.split, h.pending, h.home, h.once, h.stored⟩
    · next hsplit =>
      obtain rfl := Option.some.inj hstep
      refine ⟨fun hj => h.split_update rfl (split_stripeOffsets P i random hsplit) hj,
        fun t => ?_, h.home, fun x => ?_, h.stored⟩
      · have hupdate := announced_update s { s with
          pc := Function.update s.pc i (.loop (stripeOffsets (P.request i).session random
            (P.request i).nbytes (P.request i).off) 0 false) } rfl t
        rw [hpc] at hupdate
        have hupdate : announced _ t = announced s t := hupdate
        rw [hupdate]
        exact h.pending t
      · rw [issued_update (s := s) rfl ?_]
        · exact h.once x
        · unfold issued
          rw [hpc]
          rfl
  · cases hstep

theorem inv_count {s s' : State N} (h : Inv P s) {i : Fin N}
    (hstep : count i s = some s') : Inv P s' := by
  unfold count at hstep
  split at hstep
  · next l k hpc =>
    obtain ⟨chunk, hchunk, rfl⟩ := Option.map_eq_some_iff.mp hstep
    refine ⟨fun hj => h.split_update rfl (h.split hpc) hj, fun t => ?_, h.home, fun x => ?_,
      h.stored⟩
    · have hupdate := announced_update s { s with
        pc := Function.update s.pc i (.loop l k true)
        pendingReads := Function.update s.pendingReads (threadOf chunk)
          (s.pendingReads (threadOf chunk) + 1) } rfl t
      have hpending := h.pending t
      simp only [hpc, announces, hchunk, Option.map_some, Option.some.injEq,
        Nat.add_zero] at hupdate
      show Function.update s.pendingReads (threadOf chunk)
        (s.pendingReads (threadOf chunk) + 1) t = _
      by_cases ht : threadOf chunk = t
      · subst ht
        rw [if_pos rfl] at hupdate
        rw [Function.update_self, hupdate, hpending]
        exact (Nat.cast_succ _).symm
      · rw [if_neg ht] at hupdate
        rw [Function.update_of_ne (Ne.symm ht), hupdate, hpending]
        rfl
    · rw [issued_update (s := s) rfl ?_]
      · exact h.once x
      · unfold issued
        rw [hpc]
        rfl
  · cases hstep

/-- A thread has the same tasks in both states. -/
structure SameDesk (s s' : State N) (t : ℕ) : Prop where
  prioqueue : s'.prioqueue t = s.prioqueue t
  readqueue : s'.readqueue t = s.readqueue t
  thread : s'.thread t = s.thread t

section Desk

variable {s s' : State N} {t : ℕ} (h : SameDesk s s' t)

include h

theorem SameDesk.load : load s' t = load s t := by
  unfold ReadCompletion.load
  rw [h.prioqueue, h.readqueue, h.thread]

theorem SameDesk.ahead (x : IoTask N) : ahead s' t x = ahead s t x := by
  unfold ReadCompletion.ahead
  rw [h.prioqueue, h.readqueue, h.thread]

theorem SameDesk.has {x : IoTask N} (hx : Has s' t x) : Has s t x := by
  unfold Has at hx ⊢
  rwa [h.prioqueue, h.readqueue, h.thread] at hx

end Desk

/-- The tasks queued by a call that queues one more. -/
theorem issuedBy_succ {i : Fin N} {l : List StripeChunk} {k : ℕ} {chunk : StripeChunk}
    (hchunk : l[k]? = some chunk) (b b' : Bool) :
    issuedBy P i (.loop l (k + 1) b) = issuedBy P i (.loop l k b') ++ [taskOf P i chunk] := by
  simp only [issuedBy, List.take_add_one, hchunk, Option.toList_some, List.map_append,
    List.map_singleton]

/-- **A task is queued**, in one of the queues. The counter was raised before:
what was announced is queued now, and what the thread of the queue has ahead of
it grows by this task only. -/
theorem Inv.pushed {s s' : State N} (h : Inv P s) {i : Fin N} {l : List StripeChunk} {k : ℕ}
    {chunk : StripeChunk} (hpc : s.pc i = .loop l k true) (hchunk : l[k]? = some chunk)
    (hpc' : s'.pc = Function.update s.pc i (.loop l (k + 1) false))
    (hpending : s'.pendingReads = s.pendingReads) (hmem : s'.mem = s.mem)
    (hexecuted : s'.executed = s.executed)
    (hothers : ∀ t, t ≠ threadOf chunk → SameDesk s s' t)
    (hload : load s' (threadOf chunk) = load s (threadOf chunk) + 1)
    (hahead : ∀ x, ahead s' (threadOf chunk) x
      = ahead s (threadOf chunk) x + [taskOf P i chunk].count x)
    (hhas : ∀ x, Has s' (threadOf chunk) x → Has s (threadOf chunk) x ∨ x = taskOf P i chunk) :
    Inv P s' := by
  refine ⟨fun hj => h.split_update hpc' (h.split hpc) hj, fun t => ?_, fun t x hx => ?_,
    fun x => ?_, ?_⟩
  · have hupdate := announced_update s s' hpc' t
    simp only [hpc, announces, hchunk, Option.map_some, Option.some.injEq,
      Nat.add_zero] at hupdate
    rw [hpending, h.pending t, ← hupdate]
    -- announced by one less, queued by one more
    by_cases ht : t = threadOf chunk
    · subst ht
      rw [if_pos rfl, hload]
      omega
    · rw [if_neg (Ne.symm ht), (hothers t ht).load]
      rfl
  · by_cases ht : t = threadOf chunk
    · subst ht
      rcases hhas x hx with hx | rfl
      · exact h.home _ x hx
      · rfl
    · exact h.home t x ((hothers t ht).has hx)
  · have honce := h.once x
    rw [hexecuted]
    -- the task is issued now, and is ahead of its thread once
    by_cases hx : x = taskOf P i chunk
    · subst hx
      have hissued : issued P s' i = issued P s i ++ [taskOf P i chunk] := by
        unfold issued
        rw [hpc', Function.update_self, hpc]
        exact issuedBy_succ hchunk _ _
      have hahead := hahead (taskOf P i chunk)
      have honce : ahead s (threadOf chunk) (taskOf P i chunk) + _
        = (issued P s i).count (taskOf P i chunk) := honce
      show ahead s' (threadOf chunk) (taskOf P i chunk) + _ = (issued P s' i).count _
      rw [hissued, List.count_append, hahead, ← honce]
      omega
    · -- any other task is where it was
      have hzero : [taskOf P i chunk].count x = 0 :=
        List.count_eq_zero.mpr fun hmem => hx (List.mem_singleton.mp hmem)
      have hissued : (issued P s' x.request).count x = (issued P s x.request).count x := by
        unfold issued
        rw [hpc']
        by_cases hi : x.request = i
        · rw [hi, Function.update_self, hpc, issuedBy_succ hchunk _ true, List.count_append,
            hzero, Nat.add_zero]
        · rw [Function.update_of_ne hi]
      have hsame : ahead s' x.fd x = ahead s x.fd x := by
        by_cases ht : x.fd = threadOf chunk
        · rw [ht, hahead x, hzero, Nat.add_zero]
        · exact (hothers _ ht).ahead x
      rw [hissued, hsame]
      exact honce
  · rw [hexecuted, hmem]
    exact h.stored

theorem inv_push {s s' : State N} (h : Inv P s) {i : Fin N}
    (hstep : push P i s = some s') : Inv P s' := by
  unfold push at hstep
  split at hstep
  · next l k hpc =>
    obtain ⟨chunk, hchunk, hnext⟩ := Option.map_eq_some_iff.mp hstep
    split at hnext
    · subst hnext
      refine h.pushed hpc hchunk rfl rfl rfl rfl
        (fun t ht => ⟨Function.update_of_ne ht _ _, rfl, rfl⟩) ?_ (fun x => ?_) fun x hx => ?_
      · simp only [load, Function.update_self, List.length_append, List.length_singleton]
        omega
      · simp only [ahead, Function.update_self, List.count_append]
        omega
      · simp only [Has, Function.update_self, List.mem_append, List.mem_singleton] at hx ⊢
        tauto
    · subst hnext
      refine h.pushed hpc hchunk rfl rfl rfl rfl
        (fun t ht => ⟨rfl, Function.update_of_ne ht _ _, rfl⟩) ?_ (fun x => ?_) fun x hx => ?_
      · simp only [load, Function.update_self, List.length_append, List.length_singleton]
        omega
      · simp only [ahead, Function.update_self, List.count_append]
        omega
      · simp only [Has, Function.update_self, List.mem_append, List.mem_singleton] at hx ⊢
        tauto
  · cases hstep

/-! ## The I/O threads -/

/-- **A thread takes a task from a queue**, or finds none. What it has ahead of
it stays as it was, for a task that it holds counts like one in the queue. -/
theorem Inv.moved {s s' : State N} (h : Inv P s) {t : ℕ} (hpc : s'.pc = s.pc)
    (hpending : s'.pendingReads = s.pendingReads) (hmem : s'.mem = s.mem)
    (hexecuted : s'.executed = s.executed) (hothers : ∀ u, u ≠ t → SameDesk s s' u)
    (hload : load s' t = load s t) (hahead : ∀ x, ahead s' t x = ahead s t x)
    (hhas : ∀ x, Has s' t x → Has s t x) : Inv P s' := by
  have hissued : ∀ i, issued P s' i = issued P s i := fun i => by
    unfold issued
    rw [hpc]
  refine ⟨fun hj => h.split (hpc ▸ hj), fun u => ?_, fun u x hx => ?_, fun x => ?_, ?_⟩
  · have hannounced : announced s' u = announced s u := by
      unfold announced
      rw [hpc]
    rw [hpending, h.pending u, hannounced]
    by_cases hu : u = t
    · rw [hu, hload]
    · rw [(hothers u hu).load]
  · by_cases hu : u = t
    · exact h.home u x (hu ▸ hhas x (hu ▸ hx))
    · exact h.home u x ((hothers u hu).has hx)
  · rw [hexecuted, hissued, ← h.once x]
    by_cases hu : x.fd = t
    · rw [hu, hahead]
    · rw [(hothers _ hu).ahead]
  · rw [hexecuted, hmem]
    exact h.stored

theorem count_head (y : IoTask N) (rest : List (IoTask N)) (x : IoTask N) :
    (y :: rest).count x = [y].count x + rest.count x := by
  rw [← List.count_append, List.singleton_append]

theorem inv_look {s s' : State N} (h : Inv P s) {t : ℕ}
    (hstep : look t s = some s') : Inv P s' := by
  unfold look at hstep
  split at hstep
  · next hidle =>
    split at hstep
    · split at hstep
      · obtain rfl := Option.some.inj hstep
        refine h.moved (t := t) rfl rfl rfl rfl
          (fun u hu => ⟨rfl, rfl, Function.update_of_ne hu _ _⟩) ?_ (fun x => ?_) fun x hx => ?_
        · simp only [load, Function.update_self, hidle, busy]
        · simp only [ahead, Function.update_self, hidle, held]
        · simpa only [Has, Function.update_self, reduceCtorEq, exists_false, or_false]
            using Or.imp_right Or.inl hx
      · next y rest hqueue =>
        obtain rfl := Option.some.inj hstep
        refine h.moved (t := t) rfl rfl rfl rfl (fun u hu => ⟨Function.update_of_ne hu _ _, rfl,
          Function.update_of_ne hu _ _⟩) ?_ (fun x => ?_) fun x hx => ?_
        · simp only [load, Function.update_self, hidle, busy, hqueue, List.length_cons]
          omega
        · simp only [ahead, Function.update_self, hidle, held, hqueue]
          rw [count_head y rest]
          omega
        · simp only [Has, Function.update_self, hqueue, List.mem_cons, IoThread.running.injEq]
            at hx ⊢
          tauto
    · cases hstep
  · cases hstep

theorem inv_fetch {s s' : State N} (h : Inv P s) {t : ℕ}
    (hstep : fetch t s = some s') : Inv P s' := by
  unfold fetch at hstep
  split at hstep
  · next hlooking =>
    split at hstep
    · obtain rfl := Option.some.inj hstep
      refine h.moved (t := t) rfl rfl rfl rfl
        (fun u hu => ⟨rfl, rfl, Function.update_of_ne hu _ _⟩) ?_ (fun x => ?_) fun x hx => ?_
      · simp only [load, Function.update_self, hlooking, busy]
      · simp only [ahead, Function.update_self, hlooking, held]
      · simp only [Has, Function.update_self, reduceCtorEq, exists_false, or_false] at hx
        exact Or.imp_right Or.inl hx
    · next y rest hqueue =>
      obtain rfl := Option.some.inj hstep
      refine h.moved (t := t) rfl rfl rfl rfl (fun u hu => ⟨rfl, Function.update_of_ne hu _ _,
        Function.update_of_ne hu _ _⟩) ?_ (fun x => ?_) fun x hx => ?_
      · simp only [load, Function.update_self, hlooking, busy, hqueue, List.length_cons]
        omega
      · simp only [ahead, Function.update_self, hlooking, held, hqueue]
        rw [count_head y rest]
        omega
      · simp only [Has, Function.update_self, hqueue, List.mem_cons, IoThread.running.injEq]
          at hx ⊢
        tauto
  · cases hstep

theorem inv_finish {s s' : State N} (h : Inv P s) {t : ℕ}
    (hstep : finish t s = some s') : Inv P s' := by
  unfold finish at hstep
  split at hstep
  · next x hrunning =>
    obtain rfl := Option.some.inj hstep
    have hothers : ∀ u, u ≠ t → SameDesk s { s with
        pendingReads := Function.update s.pendingReads t (s.pendingReads t - 1)
        thread := Function.update s.thread t .idle } u :=
      fun u hu => ⟨rfl, rfl, Function.update_of_ne hu _ _⟩
    refine ⟨h.split, fun u => ?_, fun u y hy => ?_, fun y => ?_, h.stored⟩
    · have hpending := h.pending u
      show Function.update s.pendingReads t (s.pendingReads t - 1) u
        = ((_ + announced s u : ℕ) : ℤ)
      by_cases hu : u = t
      · subst hu
        simp only [load, hrunning, busy] at hpending
        simp only [load, Function.update_self, busy, hpending]
        omega
      · rw [Function.update_of_ne hu, (hothers u hu).load, hpending]
    · by_cases hu : u = t
      · subst hu
        simp only [Has, Function.update_self, reduceCtorEq, exists_false, or_false] at hy
        exact h.home u y (Or.imp_right Or.inl hy)
      · exact h.home u y ((hothers u hu).has hy)
    · refine Eq.trans ?_ (h.once y)
      congr 1
      by_cases hu : y.fd = t
      · rw [hu]
        simp only [ahead, Function.update_self, hrunning, held]
      · exact (hothers _ hu).ahead y
  · cases hstep

/-! ### The execution of a task -/

/-- The address that a task reads to. -/
def addr (P : Program N) (x : IoTask N) : ℕ := (P.request x.request).tbuf + x.ptroffset

theorem store_inside {ptr b : ℕ} {data : List UInt8} {mem : ℕ → UInt8} (hb : b < data.length) :
    store ptr data mem (ptr + b) = data.getD b 0 := by
  unfold store
  rw [if_pos ⟨Nat.le_add_right _ _, Nat.add_lt_add_left hb _⟩, Nat.add_sub_cancel_left]

theorem store_outside {ptr a : ℕ} {data : List UInt8} {mem : ℕ → UInt8}
    (h : a < ptr ∨ ptr + data.length ≤ a) : store ptr data mem a = mem a := by
  unfold store
  rw [if_neg (by omega)]

/-- A task that has been issued is a chunk of its read. -/
theorem Inv.chunk_of_issued {s : State N} (h : Inv P s) {i : Fin N} {x : IoTask N}
    (hx : x ∈ issued P s i) :
    ∃ l k b, s.pc i = .loop l k b ∧ Split P i l ∧ ∃ c ∈ l, taskOf P i c = x := by
  unfold issued at hx
  cases hpc : s.pc i with
  | before =>
    rw [hpc] at hx
    exact absurd hx List.not_mem_nil
  | loop l k b =>
    rw [hpc] at hx
    obtain ⟨c, hc, rfl⟩ := List.mem_map.mp hx
    exact ⟨l, k, b, rfl, h.split hpc, c, List.mem_of_mem_take hc, rfl⟩

theorem Inv.issued_of_executed {s : State N} (h : Inv P s) {x : IoTask N}
    (hx : x ∈ s.executed) : x ∈ issued P s x.request := by
  have honce := h.once x
  have hpos := List.count_pos_iff.mpr hx
  exact List.count_pos_iff.mp (by omega)

theorem Inv.issued_of_running {s : State N} (h : Inv P s) {t : ℕ} {x : IoTask N}
    (hx : s.thread t = .running x false) : x ∈ issued P s x.request := by
  have honce := h.once x
  have hpos : 0 < held (s.thread x.fd) x := by
    rw [h.home t x (Or.inr (Or.inr ⟨false, hx⟩)), hx]
    simp only [held, List.count_singleton_self, Nat.zero_lt_one]
  unfold ahead at honce
  exact List.count_pos_iff.mp (by omega)

/-- **Different tasks go to different places**: those of one read to different
parts of its buffer, those of two reads to different buffers. -/
theorem Inv.apart {s : State N} (h : Inv P s) {x y : IoTask N}
    (hx : x ∈ issued P s x.request) (hy : y ∈ issued P s y.request) (hne : x ≠ y) :
    addr P x + x.length ≤ addr P y ∨ addr P y + y.length ≤ addr P x := by
  obtain ⟨l, k, b, hpc, hsplit, c, hc, hcx⟩ := h.chunk_of_issued hx
  obtain ⟨l', k', b', hpc', hsplit', d, hd, hdy⟩ := h.chunk_of_issued hy
  have hxptr : x.ptroffset = c.offset := by rw [← hcx]; rfl
  have hxlen : x.length = c.len := by rw [← hcx]; rfl
  have hyptr : y.ptroffset = d.offset := by rw [← hdy]; rfl
  have hylen : y.length = d.len := by rw [← hdy]; rfl
  unfold addr
  rw [hxptr, hxlen, hyptr, hylen]
  by_cases hrequest : x.request = y.request
  · rw [← hrequest] at hpc' hdy ⊢
    rw [hpc, Pc.loop.injEq] at hpc'
    obtain ⟨rfl, -, -⟩ := hpc'
    have hcd : c ≠ d := fun hcd => hne (hcx.symm.trans (hcd ▸ hdy))
    have hsymm : Std.Symm fun c d : StripeChunk =>
        c.offset + c.len ≤ d.offset ∨ d.offset + d.len ≤ c.offset :=
      ⟨fun _ _ => Or.symm⟩
    have hapart := hsplit.disjoint.forall hc hd hcd
    omega
  · have hcb := (hsplit.tiles.bounds (List.mem_map_of_mem hc)).2.2
    have hdb := (hsplit'.tiles.bounds (List.mem_map_of_mem hd)).2.2
    simp only [range] at hcb hdb
    have hapart := P.apart _ _ hrequest
    omega

/-- What a task reads is read from the file of its thread. -/
theorem preada_of_taskData {x : IoTask N} {data : List UInt8} (h : taskData P x = some data) :
    preada ((P.request x.request).session.file (x.fd / P.M.niothreads)) x.length x.offset
      = some data := by
  unfold taskData at h
  split at h
  · split at h
    · next hoff =>
      rw [hoff]
      exact h
    · cases h
  · exact h

/-- The address of a task, also of a compressed session. -/
theorem taskPtr_eq {i : Fin N} {l : List StripeChunk} (hsplit : Split P i l) {c : StripeChunk}
    (hc : c ∈ l) : taskPtr P (taskOf P i c) = addr P (taskOf P i c) := by
  unfold taskPtr addr
  split
  · next hcompressed =>
    show _ = _ + c.offset
    rw [(hsplit.whole hcompressed).2 c hc]
    rfl
  · rfl

/-- **A task reads its part of the file.** -/
theorem Split.read {i : Fin N} {l : List StripeChunk} (hsplit : Split P i l) {c : StripeChunk}
    (hc : c ∈ l) {data : List UInt8} (hdata : taskData P (taskOf P i c) = some data) :
    data.length = c.len ∧ ∀ b, b < c.len →
      data.getD b 0 = byteAt (P.request i).session (c.offset + (P.request i).off + b) := by
  have hplaced := hsplit.placed c hc
  have hpos := hplaced.pos
  have hread : preada ((P.request i).session.file (threadOf c / P.M.niothreads)) c.len
    (c.offset + (P.request i).off) = some data := preada_of_taskData hdata
  unfold preada at hread
  split at hread
  · next hfits =>
    obtain rfl := Option.some.inj hread
    refine ⟨by rw [List.length_take, List.length_drop]; omega, fun b hb => ?_⟩
    have hmplex := hplaced.mplex b hb
    rw [Nat.add_comm (P.request i).off] at hmplex
    unfold byteAt
    rw [← hmplex, List.getD_eq_getElem?_getD, List.getElem?_take_of_lt hb, List.getElem?_drop,
      List.getD_eq_getElem?_getD]
  · cases hread

/-- A thread reads what its task asks for. The task counts as executed, though
it is held until the thread has lowered the counter; and the bytes of the reads
before are not touched, because the tasks write to places apart. -/
theorem inv_execute {s s' : State N} (h : Inv P s) {t : ℕ}
    (hstep : execute P t s = some s') : Inv P s' := by
  unfold execute at hstep
  split at hstep
  · next x hrunning =>
    split at hstep
    · next data hdata =>
      obtain rfl := Option.some.inj hstep
      have hothers : ∀ u, u ≠ t → SameDesk s { s with
          mem := store (taskPtr P x) data s.mem
          thread := Function.update s.thread t (.running x true)
          executed := s.executed ++ [x] } u :=
        fun u hu => ⟨rfl, rfl, Function.update_of_ne hu _ _⟩
      have hfd : x.fd = t := h.home t x (Or.inr (Or.inr ⟨false, hrunning⟩))
      refine ⟨h.split, fun u => ?_, fun u y hy => ?_, fun y => ?_, fun y hy => ?_⟩
      · -- the thread is as busy as it was
        refine (h.pending u).trans (congrArg (fun n => ((n + announced s u : ℕ) : ℤ)) ?_)
        by_cases hu : u = t
        · subst hu
          simp only [load, hrunning, Function.update_self, busy]
        · exact (hothers u hu).load.symm
      · by_cases hu : u = t
        · subst hu
          refine h.home u y ?_
          simp only [Has, Function.update_self, IoThread.running.injEq] at hy ⊢
          rw [hrunning]
          rcases hy with hy | hy | ⟨b, rfl, -⟩
          · exact Or.inl hy
          · exact Or.inr (Or.inl hy)
          · exact Or.inr (Or.inr ⟨false, rfl⟩)
        · exact h.home u y ((hothers u hu).has hy)
      · -- from the task held to the tasks executed
        refine Eq.trans ?_ (h.once y)
        show _ + (s.executed ++ [x]).count y = _
        rw [List.count_append]
        by_cases hu : y.fd = t
        · rw [hu]
          simp only [ahead, Function.update_self, hrunning, held]
          omega
        · have hzero : [x].count y = 0 := List.count_eq_zero.mpr fun hmem =>
            hu (List.mem_singleton.mp hmem ▸ hfd)
          rw [hzero, Nat.add_zero, (hothers _ hu).ahead y]
      · have hissued := h.issued_of_running hrunning
        obtain ⟨l, k, b, -, hsplit, c, hc, hcx⟩ := h.chunk_of_issued hissued
        rw [← hcx] at hdata
        have hptr : taskPtr P x = addr P x := hcx ▸ taskPtr_eq hsplit hc
        obtain ⟨hlength, hbytes⟩ := hsplit.read hc hdata
        have hxlen : x.length = c.len := by rw [← hcx]; rfl
        show Stored P (store (taskPtr P x) data s.mem) y
        rw [hptr]
        -- the bytes of this task
        by_cases hyx : y = x
        · subst hyx
          intro b hb
          have hoff : y.offset = c.offset + (P.request y.request).off := by rw [← hcx]; rfl
          rw [hoff, ← hbytes b (hxlen ▸ hb)]
          exact store_inside (by omega)
        · have hy : y ∈ s.executed := by
            rcases List.mem_append.mp hy with hy | hy
            · exact hy
            · exact absurd (List.mem_singleton.mp hy) hyx
          -- the bytes of an earlier one lie outside
          have hapart := h.apart (h.issued_of_executed hy) hissued hyx
          intro b hb
          refine Eq.trans (store_outside ?_) (h.stored y hy b hb)
          unfold addr at hapart ⊢
          omega
    · obtain rfl := Option.some.inj hstep
      exact ⟨h.split, h.pending, h.home, h.once, h.stored⟩
  · cases hstep

/-! ## The runs -/

/-- **The account is kept by every step**, of the requesting threads and of the
threads of the queues. -/
theorem inv_step {s s' : State N} (h : Inv P s) {a : Action N}
    (hstep : step P s a = some s') : Inv P s' := by
  cases a with
  | start i random => exact inv_start h (Option.ite_none_left_eq_some.mp hstep).2
  | count i => exact inv_count h (Option.ite_none_left_eq_some.mp hstep).2
  | push i => exact inv_push h (Option.ite_none_left_eq_some.mp hstep).2
  | look t => exact inv_look h (Option.ite_none_left_eq_some.mp hstep).2
  | fetch t => exact inv_fetch h (Option.ite_none_left_eq_some.mp hstep).2
  | execute t => exact inv_execute h (Option.ite_none_left_eq_some.mp hstep).2
  | finish t => exact inv_finish h (Option.ite_none_left_eq_some.mp hstep).2
  | call =>
    have hcall := (Option.ite_none_left_eq_some.mp hstep).2
    unfold call at hcall
    split at hcall
    · cases hcall
    · obtain rfl := Option.some.inj hcall
      exact ⟨h.split, h.pending, h.home, h.once, h.stored⟩
  | poll =>
    have hpoll := (Option.ite_none_left_eq_some.mp hstep).2
    unfold poll at hpoll
    split at hpoll
    · split at hpoll
      · split at hpoll
        · cases hpoll
        · obtain rfl := Option.some.inj hpoll
          exact ⟨h.split, h.pending, h.home, h.once, h.stored⟩
      · obtain rfl := Option.some.inj hpoll
        exact ⟨h.split, h.pending, h.home, h.once, h.stored⟩
    · cases hpoll

theorem inv_run {s s' : State N} (h : Inv P s) {as : List (Action N)}
    (hrun : Leads P s as s') : Inv P s' :=
  hrun.invariant (fun _ _ _ hs _ hstep => inv_step hs hstep) h

/-! ### The wait -/

/-- The call for the read has returned: all its chunks are queued. -/
def Queued (s : State N) (i : Fin N) : Prop := ∃ l, s.pc i = .loop l l.length false

/-- The wait has passed the thread. -/
def Behind (t : ℕ) : Waiter → Prop
  | .idle => False
  | .waiting i => t < i
  | .returned => True

/-- What a step leaves as it is. -/
structure Frame (s s' : State N) : Prop where
  /-- A read that has been queued stays so. -/
  pc : ∀ i, Queued s i → s'.pc i = s.pc i
  /-- What has been executed stays so. -/
  executed : ∀ x, s.executed.count x ≤ s'.executed.count x
  waiter : s'.waiter = s.waiter

theorem frame_of_call {s s' : State N} {i : Fin N} {p : Pc}
    (hpc : s'.pc = Function.update s.pc i p) (hqueued : ¬Queued s i)
    (hexecuted : s'.executed = s.executed) (hwaiter : s'.waiter = s.waiter) : Frame s s' where
  pc j hj := by
    have hji : j ≠ i := fun hji => hqueued (hji ▸ hj)
    rw [hpc, Function.update_of_ne hji]
  executed x := by rw [hexecuted]
  waiter := hwaiter

theorem frame_of_thread {s s' : State N} (hpc : s'.pc = s.pc)
    (hexecuted : s'.executed = s.executed) (hwaiter : s'.waiter = s.waiter) : Frame s s' where
  pc j _ := by rw [hpc]
  executed x := by rw [hexecuted]
  waiter := hwaiter

theorem frame_start {s s' : State N} {i : Fin N} {random : ℕ → ℕ}
    (hstep : start P i random s = some s') : Frame s s' := by
  unfold start at hstep
  split at hstep
  · next hpc =>
    split at hstep
    · obtain rfl := Option.some.inj hstep
      exact frame_of_thread rfl rfl rfl
    · obtain rfl := Option.some.inj hstep
      refine frame_of_call rfl (fun ⟨l, hl⟩ => ?_) rfl rfl
      rw [hpc] at hl
      cases hl
  · cases hstep

theorem frame_count {s s' : State N} {i : Fin N} (hstep : count i s = some s') :
    Frame s s' := by
  unfold count at hstep
  split at hstep
  · next l k hpc =>
    obtain ⟨chunk, hchunk, rfl⟩ := Option.map_eq_some_iff.mp hstep
    refine frame_of_call rfl (fun ⟨l', hl⟩ => ?_) rfl rfl
    rw [hpc, Pc.loop.injEq] at hl
    obtain ⟨rfl, rfl, -⟩ := hl
    rw [List.getElem?_eq_none (le_refl _)] at hchunk
    cases hchunk
  · cases hstep

theorem frame_push {s s' : State N} {i : Fin N} (hstep : push P i s = some s') :
    Frame s s' := by
  unfold push at hstep
  split at hstep
  · next l k hpc =>
    obtain ⟨chunk, -, hnext⟩ := Option.map_eq_some_iff.mp hstep
    have hqueued : ¬Queued s i := fun ⟨l', hl⟩ => by
      rw [hpc, Pc.loop.injEq] at hl
      exact Bool.noConfusion hl.2.2
    split at hnext
    · subst hnext
      exact frame_of_call rfl hqueued rfl rfl
    · subst hnext
      exact frame_of_call rfl hqueued rfl rfl
  · cases hstep

theorem frame_look {s s' : State N} {t : ℕ} (hstep : look t s = some s') : Frame s s' := by
  unfold look at hstep
  split at hstep
  · split at hstep
    · split at hstep
      · obtain rfl := Option.some.inj hstep
        exact frame_of_thread rfl rfl rfl
      · obtain rfl := Option.some.inj hstep
        exact frame_of_thread rfl rfl rfl
    · cases hstep
  · cases hstep

theorem frame_fetch {s s' : State N} {t : ℕ} (hstep : fetch t s = some s') : Frame s s' := by
  unfold fetch at hstep
  split at hstep
  · split at hstep
    · obtain rfl := Option.some.inj hstep
      exact frame_of_thread rfl rfl rfl
    · obtain rfl := Option.some.inj hstep
      exact frame_of_thread rfl rfl rfl
  · cases hstep

theorem frame_execute {s s' : State N} {t : ℕ} (hstep : execute P t s = some s') :
    Frame s s' := by
  unfold execute at hstep
  split at hstep
  · split at hstep
    · obtain rfl := Option.some.inj hstep
      exact ⟨fun _ _ => rfl, fun x => (List.sublist_append_left _ _).count_le x, rfl⟩
    · obtain rfl := Option.some.inj hstep
      exact frame_of_thread rfl rfl rfl
  · cases hstep

theorem frame_finish {s s' : State N} {t : ℕ} (hstep : finish t s = some s') :
    Frame s s' := by
  unfold finish at hstep
  split at hstep
  · obtain rfl := Option.some.inj hstep
    exact frame_of_thread rfl rfl rfl
  · cases hstep

/-- **The reads queued before the call of the wait**, while it is under way:
those of the threads that it has passed are executed. -/
structure Waited (P : Program N) (queued : Fin N → Prop) (s : State N) : Prop where
  inv : Inv P s
  /-- The calls have returned … -/
  returned : ∀ i, queued i → Queued s i
  /-- … and what the wait has passed has been executed. -/
  passed : ∀ x, queued x.request → Behind x.fd s.waiter →
    s.executed.count x = (issued P s x.request).count x

/-- No task is executed more often than it was issued. -/
theorem Inv.executed_le {s : State N} (h : Inv P s) (x : IoTask N) :
    s.executed.count x ≤ (issued P s x.request).count x :=
  h.once x ▸ Nat.le_add_left _ _

theorem Waited.frame {queued : Fin N → Prop} {s s' : State N} (h : Waited P queued s)
    (hinv : Inv P s') (hframe : Frame s s') : Waited P queued s' where
  inv := hinv
  returned i hi := by
    obtain ⟨l, hl⟩ := h.returned i hi
    exact ⟨l, (hframe.pc i ⟨l, hl⟩).trans hl⟩
  passed x hx hbehind := by
    have hissued : issued P s' x.request = issued P s x.request := by
      unfold issued
      rw [hframe.pc _ (h.returned _ hx)]
    rw [hframe.waiter] at hbehind
    refine le_antisymm (hinv.executed_le x) ?_
    calc (issued P s' x.request).count x = (issued P s x.request).count x := by rw [hissued]
      _ = s.executed.count x := (h.passed x hx hbehind).symm
      _ ≤ s'.executed.count x := hframe.executed x

/-- A thread with nothing pending has executed what was issued for it. -/
theorem Inv.executed_of_pending {s : State N} (h : Inv P s) {x : IoTask N}
    (hpending : s.pendingReads x.fd ≤ 0) :
    s.executed.count x = (issued P s x.request).count x := by
  have hcounter := h.pending x.fd
  unfold load at hcounter
  have hprio : s.prioqueue x.fd = [] := List.eq_nil_of_length_eq_zero (by omega)
  have hread : s.readqueue x.fd = [] := List.eq_nil_of_length_eq_zero (by omega)
  have hbusy : busy (s.thread x.fd) = 0 := by omega
  have hheld : held (s.thread x.fd) x = 0 := by
    cases hthread : s.thread x.fd with
    | idle => rfl
    | looking => rfl
    | running y b =>
      rw [hthread] at hbusy
      cases hbusy
  have honce := h.once x
  unfold ahead at honce
  rw [hprio, hread, hheld, List.count_nil] at honce
  omega

/-- The threads of the tasks are threads of the manager. -/
theorem Inv.fd_lt {s : State N} (h : Inv P s) {i : Fin N} {x : IoTask N}
    (hx : x ∈ issued P s i) : x.fd < P.M.threads := by
  obtain ⟨l, k, b, -, hsplit, c, hc, rfl⟩ := h.chunk_of_issued hx
  exact (hsplit.placed c hc).thread_lt

/-- A turn of the wait. -/
theorem waited_poll {queued : Fin N → Prop} {s s' : State N} (h : Waited P queued s)
    (hinv : Inv P s') (hstep : poll P s = some s') : Waited P queued s' := by
  unfold poll at hstep
  split at hstep
  · next p hwaiter =>
    have hpassed : ∀ x, queued x.request → x.fd < p →
        s.executed.count x = (issued P s x.request).count x := fun x hx hlt =>
      h.passed x hx (by rw [hwaiter]; exact hlt)
    split at hstep
    · split at hstep
      · cases hstep
      · next hpending =>
        obtain rfl := Option.some.inj hstep
        refine ⟨hinv, h.returned, fun x hx hbehind => ?_⟩
        rcases Nat.lt_succ_iff_lt_or_eq.mp hbehind with hlt | heq
        · exact hpassed x hx hlt
        · exact h.inv.executed_of_pending (heq ▸ not_lt.mp hpending)
    · next hend =>
      obtain rfl := Option.some.inj hstep
      refine ⟨hinv, h.returned, fun x hx _ => ?_⟩
      by_cases hissued : x ∈ issued P s x.request
      · exact hpassed x hx (lt_of_lt_of_le (h.inv.fd_lt hissued) (not_lt.mp hend))
      · have hzero := List.count_eq_zero.mpr hissued
        exact le_antisymm (h.inv.executed_le x) (hzero ▸ Nat.zero_le _)
  · cases hstep

theorem waited_call {queued : Fin N → Prop} {s s' : State N} (h : Inv P s)
    (hreturned : ∀ i, queued i → Queued s i) (hstep : step P s .call = some s') :
    Waited P queued s' := by
  have hinv := inv_step h hstep
  have hcall := (Option.ite_none_left_eq_some.mp hstep).2
  unfold call at hcall
  split at hcall
  · cases hcall
  · obtain rfl := Option.some.inj hcall
    exact ⟨hinv, hreturned, fun x _ hbehind => absurd hbehind (Nat.not_lt_zero _)⟩

/-- **What the wait has passed stays executed.** -/
theorem waited_step {queued : Fin N → Prop} {s s' : State N} (h : Waited P queued s)
    {a : Action N} (hstep : step P s a = some s') : Waited P queued s' := by
  have hinv := inv_step h.inv hstep
  cases a with
  | start i random => exact h.frame hinv (frame_start (Option.ite_none_left_eq_some.mp hstep).2)
  | count i => exact h.frame hinv (frame_count (Option.ite_none_left_eq_some.mp hstep).2)
  | push i => exact h.frame hinv (frame_push (Option.ite_none_left_eq_some.mp hstep).2)
  | look t => exact h.frame hinv (frame_look (Option.ite_none_left_eq_some.mp hstep).2)
  | fetch t => exact h.frame hinv (frame_fetch (Option.ite_none_left_eq_some.mp hstep).2)
  | execute t => exact h.frame hinv (frame_execute (Option.ite_none_left_eq_some.mp hstep).2)
  | finish t => exact h.frame hinv (frame_finish (Option.ite_none_left_eq_some.mp hstep).2)
  | call => exact waited_call h.inv h.returned hstep
  | poll => exact waited_poll h hinv (Option.ite_none_left_eq_some.mp hstep).2

end Account

/-! ## The law -/

/-- **A read is complete**: its chunks tile its range, each of them has been
executed once, and the buffer holds the bytes of the file. -/
structure Complete (s : State N) (i : Fin N) : Prop where
  /-- Each chunk has been read once. -/
  once : ∃ stripelist, Split P i stripelist ∧
    (s.executed.filter (·.request = i)).Perm (stripelist.map (taskOf P i))
  /-- The buffer has the bytes of the file. -/
  bytes : ∀ b, b < (P.request i).nbytes → s.mem ((P.request i).tbuf + b)
    = byteAt (P.request i).session ((P.request i).off + b)

variable {P}

/-- After the wait, the reads that were queued before it are complete. -/
theorem Waited.complete {queued : Fin N → Prop} {s : State N} (h : Waited P queued s)
    (hreturned : s.waiter = .returned) {i : Fin N} (hi : queued i) : Complete P s i := by
  obtain ⟨l, hpc⟩ := h.returned i hi
  have hsplit := h.inv.split hpc
  have hissued : issued P s i = l.map (taskOf P i) := by
    unfold issued
    rw [hpc]
    exact congrArg (List.map (taskOf P i)) l.take_length
  have hcount : ∀ x, x.request = i → s.executed.count x = (l.map (taskOf P i)).count x :=
    fun x hx => by
      rw [← hissued, ← hx]
      exact h.passed x (hx ▸ hi) (by rw [hreturned]; trivial)
  refine ⟨⟨l, hsplit, List.perm_iff_count.mpr fun x => ?_⟩, fun b hb => ?_⟩
  · by_cases hx : x.request = i
    · rw [List.count_filter (by simpa using hx), hcount x hx]
    · rw [List.count_eq_zero.mpr fun hmem => hx (by simpa using (List.mem_filter.mp hmem).2),
        List.count_eq_zero.mpr fun hmem => ?_]
      obtain ⟨c, -, rfl⟩ := List.mem_map.mp hmem
      exact hx rfl
  · obtain ⟨iv, hiv, hwithin⟩ := hsplit.tiles.cover (Nat.zero_le b) hb
    obtain ⟨c, hc, rfl⟩ := List.mem_map.mp hiv
    have hpos := (hsplit.placed c hc).pos
    obtain ⟨hfirst, hlast⟩ : c.offset ≤ b ∧ b ≤ c.offset + c.len - 1 := hwithin
    have hexecuted : taskOf P i c ∈ s.executed := by
      rw [← List.count_pos_iff, hcount _ rfl, List.count_pos_iff]
      exact List.mem_map_of_mem hc
    have hstored : s.mem ((P.request i).tbuf + c.offset + (b - c.offset))
        = byteAt (P.request i).session (c.offset + (P.request i).off + (b - c.offset)) :=
      h.inv.stored _ hexecuted (b - c.offset) (show b - c.offset < c.len by omega)
    rwa [show (P.request i).tbuf + c.offset + (b - c.offset) = (P.request i).tbuf + b by omega,
      show c.offset + (P.request i).off + (b - c.offset) = (P.request i).off + b by omega]
      at hstored

/-- **What is pending is queued, running, or counted and about to be queued;
and when the wait returns, the reads that were queued before its call are
complete.** -/
theorem pending_and_complete (mem : ℕ → UInt8) {as : List (Action N)} {s₁ : State N}
    (hrun : Leads P (init mem) as s₁) :
    (∀ t, s₁.pendingReads t = (load s₁ t + announced s₁ t : ℕ)) ∧
      ∀ s₂ bs s₃, step P s₁ .call = some s₂ → Leads P s₂ bs s₃ → s₃.waiter = .returned →
        ∀ i, Queued s₁ i → Complete P s₃ i := by
  have hinv := inv_run (inv_init mem) hrun
  refine ⟨hinv.pending, fun s₂ bs s₃ hcall hmore hreturned i hi => ?_⟩
  have hwaited : Waited P (Queued s₁) s₃ := hmore.invariant
    (fun _ _ _ hs _ hstep => waited_step hs hstep)
    (waited_call hinv (fun _ hi => hi) hcall)
  exact hwaited.complete hreturned hi

/-- One read of four bytes, from the second one of a file on, with stripes of
two bytes and two multiplexes of one thread each. -/
def threeChunks : Program 1 where
  M := ⟨2, Nat.two_pos, 1, Nat.one_pos, 2, Nat.two_pos⟩
  request := fun _ => ⟨⟨fun m => [[0, 1, 2, 3, 4, 5], [6, 7, 8, 9, 10, 11]].getD m [], 0,
    Nat.two_pos, false⟩, 0, 4, 1, false, fun h => Bool.noConfusion h, by decide⟩
  apart := fun i j hij => absurd (Subsingleton.elim i j) hij

/-- It is split into three chunks, the second one for the other thread. -/
theorem stripeOffsets_threeChunks :
    stripeOffsets (threeChunks.request 0).session (fun _ => 0) 4 1
      = [⟨0, 0, 1⟩, ⟨1, 1, 2⟩, ⟨0, 3, 1⟩] := by
  have hmplex : ∀ off, off < 6 → mplexForOffset (threeChunks.request 0).session off
      = ((off / 2 % 2 : ℕ) : ℤ) := by
    intro off hoff
    rw [mplexForOffset_eq _ (show off / 2 + 0 < 2 ^ 31 by omega)]
    rfl
  unfold stripeOffsets
  rw [stripesFrom, if_pos (by decide), stripesFrom, if_pos (by decide), stripesFrom,
    if_pos (by decide), stripesFrom, if_neg (by decide), hmplex _ (by decide),
    hmplex _ (by decide), hmplex _ (by decide)]
  rfl

theorem step_start_threeChunks (mem : ℕ → UInt8) :
    step threeChunks (init mem) (.start 0 fun _ => 0) = some { (init mem : State 1) with
      pc := Function.update (fun _ => .before) 0
        (.loop [⟨0, 0, 1⟩, ⟨1, 1, 2⟩, ⟨0, 3, 1⟩] 0 false) } := by
  rw [← stripeOffsets_threeChunks]
  rfl

/-- The chunks are queued, and executed by both threads while the program
waits. -/
theorem runs_threeChunks : ∃ as bs s₁ s₂ s₃, Leads threeChunks (init fun _ => 0) as s₁ ∧
    step threeChunks s₁ .call = some s₂ ∧ Leads threeChunks s₂ bs s₃ ∧
      s₃.waiter = .returned ∧ Queued s₁ 0 ∧ s₁.pendingReads 0 = 2 ∧ s₁.pendingReads 1 = 1
      ∧ (List.range 4).map s₃.mem = [1, 8, 9, 4] :=
  ⟨[.start 0 fun _ => 0, .count 0, .push 0, .count 0, .push 0, .count 0, .push 0],
    [.look 0, .fetch 0, .look 1, .execute 0, .fetch 1, .finish 0, .look 0, .fetch 0,
      .execute 0, .finish 0, .poll, .execute 1, .finish 1, .poll, .poll], _, _, _,
    .cons trivial (step_start_threeChunks _) (.cons trivial rfl (.cons trivial rfl
      (.cons trivial rfl (.cons trivial rfl (.cons trivial rfl (.cons trivial rfl
        (.nil _))))))), rfl,
    .cons trivial rfl (.cons trivial rfl (.cons trivial rfl (.cons trivial rfl
      (.cons trivial rfl (.cons trivial rfl (.cons trivial rfl (.cons trivial rfl
        (.cons trivial rfl (.cons trivial rfl (.cons trivial rfl (.cons trivial rfl
          (.cons trivial rfl (.cons trivial rfl (.cons trivial rfl
            (.nil _))))))))))))))), rfl, ⟨_, rfl⟩, rfl, rfl, rfl⟩

theorem pending_and_complete_threeChunks : ∃ as bs s₁ s₂ s₃,
    Leads threeChunks (init fun _ => 0) as s₁ ∧ step threeChunks s₁ .call = some s₂ ∧
      Leads threeChunks s₂ bs s₃ ∧ load s₁ 0 + announced s₁ 0 = 2
      ∧ load s₁ 1 + announced s₁ 1 = 1 ∧ Complete threeChunks s₃ 0
      ∧ (List.range 4).map s₃.mem = [1, 8, 9, 4] := by
  obtain ⟨as, bs, s₁, s₂, s₃, hrun, hcall, hmore, hreturned, hqueued, htwo, hone, hmem⟩ :=
    runs_threeChunks
  obtain ⟨hpending, hcomplete⟩ := pending_and_complete _ hrun
  refine ⟨as, bs, s₁, s₂, s₃, hrun, hcall, hmore, ?_, ?_,
    hcomplete s₂ bs s₃ hcall hmore hreturned 0 hqueued, hmem⟩
  · exact Nat.cast_injective ((hpending 0).symm.trans htwo)
  · exact Nat.cast_injective ((hpending 1).symm.trans hone)

/-- A chunk is counted before it is queued. -/
theorem not_pending_beforePush : ¬∀ as s, Leads threeChunks (init fun _ => 0) as s →
    ∀ t, s.pendingReads t = load s t := by
  intro h
  have hrun : Leads threeChunks (init fun _ => 0) [.start 0 fun _ => 0, .count 0] _ :=
    .cons trivial (step_start_threeChunks _) (.cons trivial rfl (.nil _))
  exact absurd (h _ _ hrun 0) (by decide)

end ReadCompletion
