import Mathlib
import DpdkGraph.StartUp

/-!
# What a worker computes with

Two properties of the iterations. `BulkSynchronous`: no byte of a block is
stored before the receiver has computed the iteration the block belongs to,
so that a worker computes with the blocks of the iteration before.
`ReceiveCounter`: `recv_job_num` is the number of peers whose block of the
current iteration has not been stored in full.

Neither holds of all runs. The first holds where no block is sent ahead of
its receiver, the second of the orderly runs. No block is empty there: a
worker with an empty in-block stops when it loads.
-/

namespace Exchange

open BlockBuffer (Overlay)
open Transition (Run exec exists_run)

variable {job : Job} {s s' : State} {a : Action} {p w : ℕ}

/-! ## Blocks of whole iterations -/

/-- What is stored, when it makes whole blocks, are the first blocks the
peer has left. -/
theorem Inv.stored_eq (h : Inv job s) (hp : p < job.workers)
    (hw : w < job.workers) (hne : w ≠ p) (hfailed : (s.worker w).failed = none)
    (hpar : (s.link p w).arrived.parsed ≠ []) {n : ℕ}
    (hn : (s.link p w).arrived.stored.length = job.inSize w p * n)
    (hle : n ≤ (s.worker p).pc.computed) :
    (s.link p w).arrived.stored = ((s.link p w).left.take n).flatten := by
  have hmem : p ∈ peers job w := mem_peers.mpr ⟨hne.symm, hp⟩
  obtain ⟨hgreet, -, -, -, hsize, -⟩ :=
    ((h.receiver w hw hfailed).peer p hmem).known hpar
  have hstream := h.stream p hp w hw hne
  have ho : (s.worker p).pc.opened w = true := by
    by_contra ho
    exact hpar (hstream.unopened (Bool.eq_false_iff.mpr ho)).2.2.1
  have horder := hstream.order ho
  rw [hgreet, List.append_assoc, List.append_assoc,
    List.append_cancel_left_eq] at horder
  refine BlockBuffer.flatten_take_of_prefix (l := job.inSize w p) ?_ ?_ hn ?_
  · rw [← hsize]
    exact hstream.blocks
  · rw [← horder]
    exact List.prefix_append _ _
  · rw [hstream.left_length]
    exact hle

/-- The buffer, when what is stored makes `n` whole blocks: the last one of
them, or what was loaded. -/
theorem Inv.inbuf_eq (h : Inv job s) (hp : p < job.workers)
    (hw : w < job.workers) (hne : w ≠ p) (hfailed : (s.worker w).failed = none)
    (hpar : (s.link p w).arrived.parsed ≠ []) {n : ℕ}
    (hn : (s.link p w).arrived.stored.length = job.inSize w p * n)
    (hle : n ≤ (s.worker p).pc.computed)
    (hpos : (s.worker w).inbox.pos p = 0) :
    (job.loaded w p :: (s.link p w).left)[n]? =
      some ((s.worker w).inbox.inbuf p) := by
  have hmem : p ∈ peers job w := mem_peers.mpr ⟨hne.symm, hp⟩
  have hpeer := (h.receiver w hw hfailed).peer p hmem
  obtain ⟨-, -, -, -, hsize, hloaded⟩ := hpeer.known hpar
  have hstream := h.stream p hp w hw hne
  have hov := hpeer.overlay hloaded
  rw [hpos] at hov
  have hlast := hov.last
    (fun b hb => by
      rw [job.loaded_length, ← hsize]
      exact hstream.blocks b (List.mem_of_mem_take hb))
    (h.stored_eq hp hw hne hfailed hpar hn hle)
  have hlen : ((s.link p w).left.take n).length = n := by
    rw [List.length_take, hstream.left_length]
    exact Nat.min_eq_left hle
  rw [hlen] at hlast
  rw [← hlast]
  cases n with
  | zero => rfl
  | succ n =>
    rw [List.getElem?_cons_succ, List.getElem?_cons_succ,
      List.getElem?_take_of_lt (Nat.lt_succ_self n)]

/-! ## Isolation -/

/-- The iteration that the byte at a place of the connection from `p` to `w`
belongs to, beyond the handshake. -/
def blockOf (job : Job) (p w k : ℕ) : ℕ := (k - 8) / job.outSize p w

/-- **Bulk-synchronous isolation.** Every byte of a block that is stored
belongs to an iteration the receiver has computed, and while a worker
computes iteration `i` it holds what its peers left at the end of iteration
`i - 1`, or what it loaded. -/
def BulkSynchronous (job : Job) (s : State) : Prop :=
  ∀ w < job.workers, ∀ p < job.workers, w ≠ p →
    (∀ k < (s.link p w).arrived.stored.length,
      8 ≤ (s.link p w).arrived.parsed.length + k →
        blockOf job p w ((s.link p w).arrived.parsed.length + k) <
          (s.worker w).pc.computed) ∧
    ∀ i, (s.worker w).pc = .iter i .compute → (s.worker w).failed = none →
      (job.loaded w p :: (s.link p w).left)[i]? =
        some ((s.worker w).inbox.inbuf p)

/-- No block is sent to a worker that has not computed its iteration. -/
def Lockstep (s : State) : Action → Prop
  | .send p w _ => (s.worker p).pc.computed ≤ (s.worker w).pc.computed
  | _ => True

instance (s : State) : DecidablePred (Lockstep s)
  | .send _ _ _ => inferInstanceAs (Decidable (_ ≤ _))
  | .listen _ | .compute _ _ | .readBegin _ _ | .sendDone _ _ | .dispatch _ _
  | .receive _ _ _ | .bump _ | .drain _ | .collect _ _ | .begin =>
    inferInstanceAs (Decidable True)

/-- A worker that has computed is past its start-up. -/
theorem Lockstep.afterStart (h : Lockstep s a) : AfterStart s a := by
  cases a with
  | send p w n => exact fun hc => Pc.ready_of_computed (hc.trans_le h)
  | _ => trivial

/-- In lockstep, no more is sent than the blocks the receiver has computed
the iterations of. -/
theorem sent_step (hinv : Inv job s) (hok : Lockstep s a)
    (hnext : Next job s a s') (hp : p < job.workers) (hw : w < job.workers)
    (hne : w ≠ p)
    (h : (s.link p w).sent ≤ 8 + job.outSize p w * (s.worker w).pc.computed) :
    (s'.link p w).sent ≤
      8 + job.outSize p w * (s'.worker w).pc.computed := by
  cases hnext with
  | compute v out s' hup hc =>
    obtain ⟨hf, ha⟩ := hc.transport p w
    unfold Link.sent at h ⊢
    rw [hf, ha]
    by_cases hv : w = v
    · subst hv
      -- the receiver has computed more, or as much as before
      have hmul := Nat.mul_le_mul_left (job.outSize p w) hc.forward.2
      omega
    · rw [hc.worker_of_ne hv]
      exact h
  | readBegin v n i hup hpc hn =>
    show (s.link p w).sent ≤ _
    by_cases hv : w = v
    · subst hv
      rw [setWorker_self]
      rw [hpc] at h
      exact h
    · rw [setWorker_of_ne _ _ _ hv]
      exact h
  | send q v n =>
    refine link_cases (fun l => l.sent ≤ _) rfl h ?_
    rintro rfl rfl
    have hlen := ((hinv.stream p hp w hw hne).send (n := n)).length_le
    -- what is sent is at most what has been handed over, and that is no more than
    -- lockstep allows
    have hmul := Nat.mul_le_mul_left (job.outSize p w) hok
    exact hlen.trans (Nat.add_le_add_left hmul 8)
  | sendDone q v =>
    rw [pc_of_update (s := s) rfl (by rfl) w]
    refine link_cases (fun l => l.sent ≤ _) rfl h ?_
    rintro rfl rfl
    exact h
  | parse v q n junk hup hnet hn hle =>
    rw [pc_of_update (s := s) rfl (accept_pc _ _ _ _) w]
    refine link_cases (fun l => l.sent ≤ _) rfl h ?_
    rintro rfl rfl
    simp only [Link.sent, List.length_append, List.length_take,
      List.length_drop] at h ⊢
    omega
  | store v q slot sender offset ptr n junk hup hnet hn hle =>
    rw [pc_of_update (s := s) rfl (by rfl) w]
    refine link_cases (fun l => l.sent ≤ _) rfl h ?_
    rintro rfl rfl
    simp only [Link.sent, List.length_append, List.length_take,
      List.length_drop] at h ⊢
    omega
  | full v q =>
    rw [pc_of_update (s := s) rfl (by rfl) w]
    refine link_cases (fun l => l.sent ≤ _) rfl h ?_
    rintro rfl rfl
    exact h
  | collect v n => rw [pc_of_update (s := s) rfl (by rfl) w]; exact h
  | begin => rw [pc_of_update (s := s) rfl (by rfl) w]; exact h
  | listen v => rw [pc_of_update (s := s) rfl (by rfl) w]; exact h
  | toHandle v => rw [pc_of_update (s := s) rfl (by rfl) w]; exact h
  | toBlock v => rw [pc_of_update (s := s) rfl (by rfl) w]; exact h
  | noSlot v => rw [pc_of_update (s := s) rfl (by rfl) w]; exact h
  | count v => rw [pc_of_update (s := s) rfl (by rfl) w]; exact h
  | bump v => rw [pc_of_update (s := s) rfl (by rfl) w]; exact h
  | partly v => rw [pc_of_update (s := s) rfl (by rfl) w]; exact h

/-- In every run in lockstep, what has been sent to a worker belongs to the
iterations it has computed. -/
theorem sent_of_run {as : List Action}
    (hrun : Run (step job) (fun s a => Orderly s a ∧ Lockstep s a) init as s)
    (hp : p < job.workers) (hw : w < job.workers) (hne : w ≠ p) :
    (s.link p w).sent ≤ 8 + job.outSize p w * (s.worker w).pc.computed := by
  have h : Inv job s ∧
      (s.link p w).sent ≤ 8 + job.outSize p w * (s.worker w).pc.computed := by
    refine hrun.invariant (I := fun s => Inv job s ∧
        (s.link p w).sent ≤ 8 + job.outSize p w * (s.worker w).pc.computed)
      (fun s a s' h hok hstep => ?_) ⟨Inv.init job, Nat.zero_le _⟩
    exact ⟨h.1.step hok.1 hstep,
      sent_step h.1 hok.2 (next_of_step hstep) hp hw hne h.2⟩
  exact h.2

/-- A worker in its iteration has all blocks of the iterations before it,
and no byte more where nothing more has been sent. -/
theorem Inv.computing (h : Inv job s) (hp : p < job.workers)
    (hw : w < job.workers) (hne : w ≠ p) (hfailed : (s.worker w).failed = none)
    {i : ℕ} (hpc : (s.worker w).pc = .iter i .compute)
    (hsent : (s.link p w).sent ≤
      8 + job.outSize p w * (s.worker w).pc.computed) :
    (job.loaded w p :: (s.link p w).left)[i]? =
      some ((s.worker w).inbox.inbuf p) := by
  have hmem : p ∈ peers job w := mem_peers.mpr ⟨hne.symm, hp⟩
  have hrec := h.receiver w hw hfailed
  have hpar := (hrec.shut (by rw [hpc]; rfl)).2.1 p hmem
  obtain ⟨hgreet, -, -, -, hsize, -⟩ := (hrec.peer p hmem).known hpar
  have hsettled := hrec.settled p hmem
  have hstored := h.stored_length hp hw hne hfailed hpar
  rw [hpc] at hsettled hsent
  have hi : i ≤ (s.link p w).arrived.counted := hsettled
  have hmul := Nat.mul_le_mul_left (job.inSize w p) hi
  unfold Link.sent at hsent
  rw [hgreet, length_greeting, hsize] at hsent
  have hsent' : (s.link p w).arrived.stored.length ≤ job.inSize w p * i := by
    have : (Pc.iter i .compute).computed = i := rfl
    rw [this] at hsent
    omega
  exact h.inbuf_eq hp hw hne hfailed hpar (by omega)
    (hi.trans (h.counted p hp w hw hne)) (by omega)

/-- **In every orderly run in lockstep the iterations are isolated.** -/
theorem bulkSynchronous_of_lockstep {as : List Action}
    (hrun : Run (step job) (fun s a => Whole s a ∧ Framed a ∧ Lockstep s a)
      init as s) : BulkSynchronous job s := by
  have hrun' : Run (step job) (fun s a => Orderly s a ∧ Lockstep s a) init as s :=
    hrun.mono fun s a h => ⟨⟨h.1, h.2.1, h.2.2.afterStart⟩, h.2.2⟩
  have hinv : Inv job s := inv_of_run (hrun'.mono fun _ _ h => h.1)
  intro w hw p hp hne
  have hsent := sent_of_run hrun' hp hw hne
  refine ⟨fun k hk h8 => ?_, fun i hpc hfailed =>
    hinv.computing hp hw hne hfailed hpc hsent⟩
  unfold Link.sent at hsent
  unfold blockOf
  have hlt : (s.link p w).arrived.parsed.length + k - 8 <
      job.outSize p w * (s.worker w).pc.computed := by
    omega
  exact Nat.div_lt_of_lt_mul hlt

/-- Two workers in lockstep, up to the second iteration of worker 0. -/
theorem bulkSynchronous_twoWorkers :
    ∃ s, Run (step (twoWorkers 1 (by decide)))
        (fun s a => Whole s a ∧ Framed a ∧ Lockstep s a) init
        (startAll ++ iterateAll 1 2 ++ beginAll ++ [.readBegin 0 messageSize])
        s ∧
      BulkSynchronous (twoWorkers 1 (by decide)) s := by
  obtain ⟨s, hrun, -⟩ := exists_run (step (twoWorkers 1 (by decide)))
    (fun s a => Whole s a ∧ Framed a ∧ Lockstep s a) init
    (startAll ++ iterateAll 1 2 ++ beginAll ++ [.readBegin 0 messageSize])
    (fun _ => True) (by decide +kernel)
  exact ⟨s, hrun, bulkSynchronous_of_lockstep hrun⟩

/-- A peer that has computed sends its block at once, and the other worker
may not even have begun the iteration. -/
theorem not_bulkSynchronous_fastPeer :
    ¬∀ (job : Job) (as : List Action) (s : State),
      Run (step job) (fun _ _ => True) init as s → BulkSynchronous job s := by
  intro h
  obtain ⟨s, hrun, hparsed, hstored, hcomputed⟩ := exists_run
    (step (twoWorkers 1 (by decide))) (fun _ _ => True) init
    (startAll ++ beginAll ++ computeAt 1 [7] ++
      [.send 1 0 1, .dispatch 0 1, .receive 0 1 []])
    (fun s => (s.link 1 0).arrived.parsed.length = 8 ∧
      (s.link 1 0).arrived.stored.length = 1 ∧
      (s.worker 0).pc.computed = 0)
    (by decide +kernel)
  obtain ⟨hbyte, -⟩ := h _ _ s hrun 0 (by decide) 1 (by decide) (by decide)
  have hlt := hbyte 0 (by omega) (by omega)
  rw [hcomputed] at hlt
  exact Nat.not_lt_zero _ hlt

/-! ## The counter of the blocks awaited -/

/-- Whether the network thread is in an event in which it has stored bytes
from `p`. -/
def Net.hasStored (p : ℕ) : Net → Bool
  | .block _ slot _ _ ptr => decide (slot = p ∧ 0 < ptr)
  | _ => false

/-- The block of `p` for the current iteration of `w` has been sent, and
stored in full by an event that is over. -/
def Completed (s : State) (w p : ℕ) : Prop :=
  (s.worker w).pc.settled < (s.link p w).left.length ∧
    ((s.link p w).left.take ((s.worker w).pc.settled + 1)).flatten.length ≤
      (s.link p w).arrived.stored.length ∧
    (s.worker w).inbox.net.hasStored p = false

instance (s : State) (w p : ℕ) : Decidable (Completed s w p) :=
  inferInstanceAs (Decidable (_ ∧ _ ∧ _))

/-- **The receive counter.** It is the number of peers whose block has not
been completed. After the wait for it every block is stored and the buffers
hold the blocks of the iteration; and it is 0 when nothing is under way. -/
def ReceiveCounter (job : Job) (s : State) : Prop :=
  ∀ w < job.workers, (s.worker w).failed = none →
    (s.worker w).pc.ready = true →
      (s.worker w).inbox.recvJobNum =
        ((peers job w).filter fun p => ¬Completed s w p).card ∧
      ((s.worker w).pc.synced = true → ∀ p < job.workers, w ≠ p →
        (s.link p w).arrived.stored =
            ((s.link p w).left.take ((s.worker w).pc.settled + 1)).flatten ∧
          (s.link p w).left[(s.worker w).pc.settled]? =
            some ((s.worker w).inbox.inbuf p)) ∧
      ((s.worker w).inbox.net = .idle →
        (∀ p < job.workers, w ≠ p →
          (s.worker w).pc.settled < (s.link p w).left.length ∧
            (s.link p w).flight = [] ∧ (s.link p w).outbox = []) →
        (s.worker w).inbox.recvJobNum = 0)

/-- A peer is at most one block ahead of the resets. -/
theorem Inv.counted_le (h : Inv job s) (hp : p < job.workers)
    (hw : w < job.workers) (hne : w ≠ p)
    (hready : (s.worker w).pc.ready = true) :
    (s.link p w).arrived.counted ≤ (s.worker w).pc.settled + 1 :=
  (h.counted p hp w hw hne).trans (h.control.computed_le_settled hp hw hready)

/-- **A block that is not empty is completed exactly when it is counted**: all
its bytes are in the buffer when the event that has brought the last ones
ends. -/
theorem Inv.completed_iff (h : Inv job s) (hp : p < job.workers)
    (hw : w < job.workers) (hne : w ≠ p) (hfailed : (s.worker w).failed = none)
    (hready : (s.worker w).pc.ready = true) (hpos : 0 < job.outSize p w) :
    Completed s w p ↔
      (s.link p w).arrived.counted = (s.worker w).pc.settled + 1 := by
  have hmem : p ∈ peers job w := mem_peers.mpr ⟨hne.symm, hp⟩
  have hrec := h.receiver w hw hfailed
  have hpar := (hrec.shut (Pc.closed_of_ready hready)).2.1 p hmem
  have hpeer := hrec.peer p hmem
  obtain ⟨-, -, -, -, hsize, -⟩ := hpeer.known hpar
  have hstream := h.stream p hp w hw hne
  have hstored := h.stored_length hp hw hne hfailed hpar
  have hlo := hrec.settled p hmem
  have hhi := h.counted_le hp hw hne hready
  have htake : (s.worker w).pc.settled + 1 ≤ (s.link p w).left.length →
      ((s.link p w).left.take ((s.worker w).pc.settled + 1)).flatten.length =
        job.inSize w p * ((s.worker w).pc.settled + 1) := by
    intro hle
    rw [BlockBuffer.length_flatten_of_forall (l := job.inSize w p)
      fun b hb => by
        rw [← hsize]
        exact hstream.blocks b (List.mem_of_mem_take hb),
      List.length_take, Nat.min_eq_left hle]
  constructor
  · rintro ⟨hlt, hall, hover⟩
    rw [htake hlt, hstored] at hall
    by_contra hc
    have hcount : (s.link p w).arrived.counted = (s.worker w).pc.settled := by
      omega
    -- all bytes of the block would be stored, between two events
    rw [hcount, Nat.mul_succ] at hall
    have hoff : (s.worker w).inbox.pos p =
        ((s.worker w).inbox.infos p).offset := by
      cases hnet : (s.worker w).inbox.net with
      | block q slot sender offset ptr =>
        obtain ⟨rfl, -, -, -, hoff, -⟩ :=
          hrec.storing q slot sender offset ptr hnet
        unfold Inbox.pos
        rw [hnet] at hover ⊢
        by_cases hq : q = p
        · subst hq
          have hptr : ptr = 0 := by
            have := of_decide_eq_false hover
            omega
          rw [hptr, ← hoff]
          exact if_pos rfl
        · exact if_neg hq
      | _ => exact Inbox.pos_of_not_storesTo (by rw [hnet]; rfl)
    have hbetween := hpeer.between
    rw [← hoff] at hbetween
    omega
  · intro hcount
    have hlt : (s.worker w).pc.settled + 1 ≤ (s.link p w).left.length := by
      rw [hstream.left_length, ← hcount]
      exact h.counted p hp w hw hne
    refine ⟨hlt, ?_, ?_⟩
    · rw [htake hlt, hstored, hcount]
      exact Nat.le_add_right _ _
    · -- nothing of the next block has been sent
      have hle := h.stored_le hp hw hne hfailed hpar
      have hmul := Nat.mul_le_mul_left (job.inSize w p)
        (h.control.computed_le_settled hp hw hready)
      have hzero : (s.worker w).inbox.pos p = 0 := by
        rw [hcount] at hstored
        omega
      cases hnet : (s.worker w).inbox.net with
      | block q slot sender offset ptr =>
        obtain ⟨rfl, -⟩ := hrec.storing q slot sender offset ptr hnet
        refine decide_eq_false fun hc => ?_
        obtain ⟨rfl, hptr⟩ := hc
        unfold Inbox.pos at hzero
        rw [hnet] at hzero
        simp only [if_true] at hzero
        omega
      | _ => rfl

/-- A worker that has reported to the master has read its in-blocks: the first
report comes after the loading, which an unreadable block stops. -/
theorem readable_step (h : 0 < (s.worker w).pc.reported → job.Readable w)
    (hnext : Next job s a s') (hreported : 0 < (s'.worker w).pc.reported) :
    job.Readable w := by
  cases hnext with
  | compute v out s' hup hc =>
    by_cases hv : w = v
    swap
    · exact h (by rwa [hc.worker_of_ne hv] at hreported)
    subst hv
    cases hc with
    | loaded n hpc hn hread => exact hread
    | load n hpc =>
      rw [setWorker_self] at hreported
      cases hreported
    | unreadable n hpc | refused n hpc =>
      rw [setWorker_self] at hreported
      exact h hreported
    | self hpc | connected _ hpc | connect _ hpc | greeted _ hpc | peers hpc
    | closePeers hpc | initSend hpc | initRecv hpc | computed _ hpc
    | received _ hpc | sent _ hpc | resetSend _ hpc | resetRecv _ hpc
    | ack _ hpc =>
      refine h ?_
      rw [hpc]
      exact Nat.succ_pos _
  | readBegin v n i hup hpc hn =>
    by_cases hv : w = v
    · subst hv
      refine h ?_
      rw [hpc]
      exact Nat.succ_pos _
    · rw [setWorker_of_ne _ _ _ hv] at hreported
      exact h hreported
  | parse v q n junk =>
    rw [pc_of_update (s := s) rfl (accept_pc _ _ _ _) w] at hreported
    exact h hreported
  | send q v n => exact h hreported
  | sendDone v | store v | full v | collect v | begin | listen v | toHandle v
  | toBlock v | noSlot v | count v | bump v | partly v =>
    rw [pc_of_update (s := s) rfl (by rfl) w] at hreported
    exact h hreported

theorem readable_of_run {ok : State → Action → Prop} {as : List Action}
    (hrun : Run (step job) ok init as s) (h : 0 < (s.worker w).pc.reported) :
    job.Readable w :=
  hrun.invariant (I := fun s => 0 < (s.worker w).pc.reported → job.Readable w)
    (fun _ _ _ h _ hstep => readable_step h (next_of_step hstep))
    (fun h => absurd h (lt_irrefl 0)) h

/-- **In every orderly run `recv_job_num` counts the blocks awaited**, of
whatever length, and a worker that leaves its wait has them all. -/
theorem receiveCounter_of_orderly {as : List Action}
    (hrun : Run (step job) Orderly init as s) : ReceiveCounter job s := by
  have hinv := inv_of_run hrun
  intro w hw hfailed hready
  have hrec := hinv.receiver w hw hfailed
  have hiff : ∀ p ∈ peers job w, (¬Completed s w p ↔
      (s.link p w).arrived.counted = (s.worker w).pc.settled) := by
    intro p hp
    obtain ⟨hne, hlt⟩ := mem_peers.mp hp
    -- the block is not empty: the worker has read the one before it
    have hreported : 0 < (s.worker w).pc.reported := by
      cases hpc : (s.worker w).pc with
      | loading n => rw [hpc] at hready; cases hready
      | _ => exact Nat.succ_pos _
    have hpar := (hrec.shut (Pc.closed_of_ready hready)).2.1 p hp
    have hpos : 0 < job.outSize p w := by
      rw [((hrec.peer p hp).known hpar).2.2.2.2.1]
      exact (readable_of_run hrun hreported p hlt).1
    rw [hinv.completed_iff hlt hw hne.symm hfailed hready hpos]
    have hlo := hrec.settled p hp
    have hhi := hinv.counted_le hlt hw hne.symm hready
    omega
  have hcount : (s.worker w).inbox.recvJobNum =
      ((peers job w).filter fun p => ¬Completed s w p).card := by
    rw [hrec.waiting hready]
    unfold awaited
    rw [Finset.filter_congr fun p hp => (hiff p hp).symm]
  refine ⟨hcount, fun hs p hp hne => ?_, fun hidle hall => ?_⟩
  · have hmem : p ∈ peers job w := mem_peers.mpr ⟨hne.symm, hp⟩
    have hpar := (hrec.shut (Pc.closed_of_ready hready)).2.1 p hmem
    have hone := hrec.synced hs p hmem
    have hle := hinv.stored_le hp hw hne hfailed hpar
    have hmul := Nat.mul_le_mul_left (job.inSize w p)
      (hinv.control.computed_le_settled hp hw hready)
    have hstored := hinv.stored_length hp hw hne hfailed hpar
    rw [hone] at hstored
    have hlt : (s.worker w).pc.settled + 1 ≤ (s.worker p).pc.computed := by
      rw [← hone]
      exact hinv.counted p hp w hw hne
    have hlen : (s.link p w).arrived.stored.length =
        job.inSize w p * ((s.worker w).pc.settled + 1) := by
      omega
    refine ⟨hinv.stored_eq hp hw hne hfailed hpar hlen hlt, ?_⟩
    have hbuf := hinv.inbuf_eq hp hw hne hfailed hpar hlen hlt (by omega)
    rw [List.getElem?_cons_succ] at hbuf
    exact hbuf
  · rw [hcount, Finset.filter_false_of_mem]
    · rfl
    · intro p hp hnot
      obtain ⟨hne, hlt⟩ := mem_peers.mp hp
      obtain ⟨hsettled, hf, hout⟩ := hall p hlt hne.symm
      -- what has been left has been stored
      have hpar := (hrec.shut (Pc.closed_of_ready hready)).2.1 p hp
      have hstream := hinv.stream p hlt w hw hne.symm
      have ho : (s.worker p).pc.opened w = true := by
        by_contra ho
        exact hpar (hstream.unopened (Bool.eq_false_iff.mpr ho)).2.2.1
      have horder := hstream.order ho
      rw [hf, hout, ((hrec.peer p hp).known hpar).1, List.append_nil,
        List.append_nil, List.append_cancel_left_eq] at horder
      refine hnot ⟨hsettled, ?_, by rw [hidle]; rfl⟩
      rw [horder]
      refine List.Sublist.length_le (List.Sublist.flatten ?_)
      exact List.take_sublist _ _

/-- Two workers with blocks of one byte, in the middle of an iteration. -/
theorem receiveCounter_twoWorkers :
    ∃ s, Run (step (twoWorkers 1 (by decide))) Orderly init
        (startAll ++ beginAll ++ computeAt 1 [2] ++ deliver 1 0 1) s ∧
      ReceiveCounter (twoWorkers 1 (by decide)) s := by
  obtain ⟨s, hrun, -⟩ := exists_run (step (twoWorkers 1 (by decide)))
    Orderly init (startAll ++ beginAll ++ computeAt 1 [2] ++ deliver 1 0 1)
    (fun _ => True) (by decide +kernel)
  exact ⟨s, hrun, receiveCounter_of_orderly hrun⟩

/-- **A block that comes while the receiver starts up** is counted before
`recv_job_num` is set, so that it is awaited for ever: worker 0 has taken the
handshakes, and worker 1 has computed. And where a `tbegin` is read in two
parts, a block comes before the reset although both have started up. -/
theorem not_receiveCounter_lateWorker :
    (¬∀ (job : Job) (as : List Action) (s : State),
      Run (step job) (fun _ _ => True) init as s → ReceiveCounter job s) ∧
    ¬∀ (as : List Action) (s : State),
      Run (step (twoWorkers 1 (by decide))) (fun _ _ => True) init
        (startAll ++ as) s → ReceiveCounter (twoWorkers 1 (by decide)) s := by
  constructor
  · intro h
    obtain ⟨s, hrun, hfailed, hready, hidle, hnum, hleft, hlink⟩ := exists_run
      (step (twoWorkers 1 (by decide))) (fun _ _ => True) init
      (loadAll ++ connectAll ++ take 0 1 ++ take 1 0 ++ goOn 1 4 ++ goOn 0 3 ++
        beginAll ++ computeAt 1 [7] ++ deliver 1 0 1 ++ goOn 0 1)
      (fun s => (s.worker 0).failed = none ∧
        (s.worker 0).pc.ready = true ∧ (s.worker 0).inbox.net = .idle ∧
        (s.worker 0).inbox.recvJobNum ≠ 0 ∧
        (s.worker 0).pc.settled < (s.link 1 0).left.length ∧
        (s.link 1 0).flight = [] ∧ (s.link 1 0).outbox = [])
      (by decide +kernel)
    obtain ⟨-, -, hzero⟩ := h _ _ s hrun 0 (by decide) hfailed hready
    refine hnum (hzero hidle fun p hp hne => ?_)
    obtain rfl : p = 1 := by
      have : p < 2 := hp
      omega
    exact ⟨hleft, hlink⟩
  · intro h
    obtain ⟨s, hrun, hfailed, hready, hnum⟩ := exists_run
      (step (twoWorkers 1 (by decide))) (fun _ _ => True) init
      (startAll ++ (beginAll ++ computeAt 0 [1] ++
        [.readBegin 1 2, .compute 1 fun _ => [2]] ++ deliver 0 1 1 ++
        deliver 1 0 1 ++ [.sendDone 1 0] ++ goOn 1 5 ++
        [.readBegin 1 4, .compute 1 fun _ => [3]] ++ deliver 1 0 1))
      (fun s => (s.worker 0).failed = none ∧ (s.worker 0).pc.ready = true ∧
        (s.worker 0).inbox.recvJobNum < 0)
      (by decide +kernel)
    -- a number of peers is not negative
    obtain ⟨hcount, -⟩ := h _ s hrun 0 (by decide) hfailed hready
    rw [hcount] at hnum
    exact absurd hnum (not_lt.mpr (Int.natCast_nonneg _))

end Exchange
