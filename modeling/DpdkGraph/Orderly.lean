import Mathlib
import DpdkGraph.Delivery

/-!
# The invariant of orderly runs

The balance with the master, the bytes on the connections and what each
worker has received, together, are kept by every step of the runs in which

* every handshake is received in one piece (`Whole`),
* the control connections deliver whole messages (`Framed`), and
* no block is sent to a worker that has not initialised `recv_job_num`
  (`AfterStart`).
-/

namespace Exchange

open Reshard (toInt32)
open SparseRows (u32le readU32 readU32_u32le)

variable {job : Job} {s s' : State} {a : Action} {p w : ℕ} {pc pc' : Pc}
  {l l' : Link}

/-! ## The invariant -/

/-- The receiver's part, at one worker. -/
def Receives (job : Job) (s : State) (w : ℕ) : Prop :=
  Receiver job w (s.worker w).pc (s.worker w).inbox
    fun p => (s.link p w).arrived

/-- **The invariant of orderly runs.** The parts are about the master, the bytes
on the connections, the counters, and what each worker has received; each part
is kept by lemmas of its own. -/
structure Inv (job : Job) (s : State) : Prop where
  /-- The exchange with the master. -/
  control : Control job s
  /-- The bytes on the connections. -/
  stream : ∀ p < job.workers, ∀ w < job.workers, w ≠ p →
    Stream job p w (s.worker p).pc (s.link p w)
  /-- Nothing but handshakes is on the way to a worker that starts up. -/
  quiet : ∀ p < job.workers, ∀ w < job.workers, w ≠ p →
    (s.worker w).pc.ready = false → (s.link p w).sent ≤ 8
  /-- Only blocks that have been sent are counted. -/
  counted : ∀ p < job.workers, ∀ w < job.workers, w ≠ p →
    (s.link p w).arrived.counted ≤ (s.worker p).pc.computed
  /-- What the workers that run have received. -/
  receiver : ∀ w < job.workers, (s.worker w).failed = none →
    Receives job s w

/-- The initial state. -/
theorem Inv.init (job : Job) : Inv job init where
  control := Control.init job
  stream p _ w _ _ := Stream.init job p w
  quiet _ _ _ _ _ _ := Nat.zero_le _
  counted _ _ _ _ _ := Nat.zero_le _
  receiver w _ _ := Receiver.init job w

theorem Receives.of_same (h : Receives job s w)
    (hpc : (s'.worker w).pc = (s.worker w).pc)
    (hinbox : (s'.worker w).inbox = (s.worker w).inbox)
    (harrived : ∀ p, (s'.link p w).arrived = (s.link p w).arrived) :
    Receives job s' w := by
  unfold Receives
  rw [hpc, hinbox, funext harrived]
  exact h

/-! ## The connections -/

/-- What holds of a connection after a step that replaces one. -/
theorem link_cases {q v : ℕ} {l : Link} (P : Link → Prop)
    (hlink : s'.link = (s.setLink q v l).link) (hold : P (s.link p w))
    (hnew : p = q → w = v → P l) : P (s'.link p w) := by
  rw [hlink]
  by_cases hl : p = q ∧ w = v
  · obtain ⟨rfl, rfl⟩ := hl
    rw [setLink_self]
    exact hnew rfl rfl
  · rw [setLink_of_ne _ _ _ _ hl]
    exact hold

/-- A connection after a step that moves no compute thread and replaces one
connection. -/
theorem Stream.of_link {q v : ℕ} {l : Link}
    (hold : Stream job p w (s.worker p).pc (s.link p w))
    (hpc : (s'.worker p).pc = (s.worker p).pc)
    (hlink : s'.link = (s.setLink q v l).link)
    (hnew : p = q → w = v → Stream job p w (s.worker p).pc l) :
    Stream job p w (s'.worker p).pc (s'.link p w) := by
  rw [hpc]
  exact link_cases (Stream job p w (s.worker p).pc) hlink hold hnew

/-- A connection after a step that neither moves a compute thread nor
concerns a connection. -/
theorem Stream.of_same (hold : Stream job p w (s.worker p).pc (s.link p w))
    (hpc : (s'.worker p).pc = (s.worker p).pc) (hlink : s'.link = s.link) :
    Stream job p w (s'.worker p).pc (s'.link p w) := by
  rw [hpc, hlink]
  exact hold

/-- The connections after a step: only the step of the sender, and the steps
that move bytes of this connection, change it. -/
theorem Inv.stream_step (h : Inv job s) (hnext : Next job s a s')
    (hp : p < job.workers) (hw : w < job.workers) (hne : w ≠ p) :
    Stream job p w (s'.worker p).pc (s'.link p w) := by
  have hold := h.stream p hp w hw hne
  cases hnext with
  | compute v out s' hup hc =>
    -- the step is of the sender itself
    by_cases hv : p = v
    · subst hv
      exact Stream.compute hw hne hold hc
    · rw [hc.worker_of_ne hv, hc.link_of_ne hv]
      exact hold
  | readBegin v n i hup hpc hn =>
    by_cases hv : p = v
    · subst hv
      rw [setWorker_self]
      rw [hpc] at hold
      exact hold.move rfl rfl fun _ => hold.flushed (by simp)
    · rw [setWorker_of_ne _ _ _ hv]
      exact hold
  | send q v n =>
    refine hold.of_link rfl rfl ?_
    rintro rfl rfl
    exact hold.send
  | sendDone q v =>
    refine hold.of_link (pc_of_update rfl (by rfl) p) rfl ?_
    rintro rfl rfl
    exact hold.congr rfl rfl rfl rfl rfl
  | parse v q n junk hup hnet hn hle =>
    refine hold.of_link (pc_of_update rfl (accept_pc _ _ _ _) p) rfl ?_
    -- eight bytes at the front are taken to be the head of a message
    rintro rfl rfl
    have hrec := h.receiver w hup.1 hup.2
    obtain ⟨hq, hnil, -⟩ := hrec.handling p hnet
    exact hold.parse ((hrec.peer p hq).silent hnil).1
      (List.ne_nil_of_length_pos (by omega))
  | store v q slot sender offset ptr n junk hup hnet hn hle =>
    refine hold.of_link (pc_of_update rfl (by rfl) p) rfl ?_
    rintro rfl rfl
    exact hold.store (List.ne_nil_of_length_pos (by omega))
  | full v q =>
    refine hold.of_link (pc_of_update rfl (by rfl) p) rfl ?_
    rintro rfl rfl
    exact hold.congr rfl rfl rfl rfl rfl
  -- the other steps leave both ends as they are
  | collect v n => exact hold.of_same (pc_of_update rfl (by rfl) p) rfl
  | begin => exact hold.of_same (pc_of_update rfl (by rfl) p) rfl
  | listen v => exact hold.of_same (pc_of_update rfl (by rfl) p) rfl
  | toHandle v => exact hold.of_same (pc_of_update rfl (by rfl) p) rfl
  | toBlock v => exact hold.of_same (pc_of_update rfl (by rfl) p) rfl
  | noSlot v => exact hold.of_same (pc_of_update rfl (by rfl) p) rfl
  | count v => exact hold.of_same (pc_of_update rfl (by rfl) p) rfl
  | bump v => exact hold.of_same (pc_of_update rfl (by rfl) p) rfl
  | partly v => exact hold.of_same (pc_of_update rfl (by rfl) p) rfl

/-- Nothing but handshakes is sent to a worker that starts up. -/
theorem Inv.quiet_step (h : Inv job s) (hok : AfterStart s a)
    (hnext : Next job s a s') (hp : p < job.workers) (hw : w < job.workers)
    (hne : w ≠ p) (hready : (s'.worker w).pc.ready = false) :
    (s'.link p w).sent ≤ 8 := by
  have hold := h.quiet p hp w hw hne
  -- the receiver has not been ready before
  have hback : (s'.worker w).pc = (s.worker w).pc →
      (s.worker w).pc.ready = false := fun hpc => by rw [← hpc]; exact hready
  cases hnext with
  | compute v out s' hup hc =>
    obtain ⟨hf, ha⟩ := hc.transport p w
    unfold Link.sent
    rw [hf, ha]
    refine hold ?_
    by_cases hv : w = v
    · subst hv
      exact hc.forward.1 hready
    · rw [← hc.worker_of_ne hv]
      exact hready
  | readBegin v n i hup hpc hn =>
    refine hold ?_
    by_cases hv : w = v
    · subst hv
      rw [setWorker_self] at hready
      cases hready
    · rw [setWorker_of_ne _ _ _ hv] at hready
      exact hready
  | send q v n =>
    refine link_cases (fun l => l.sent ≤ 8) rfl
      (hold (hback rfl)) ?_
    rintro rfl rfl
    -- the sender has computed nothing
    have hzero : (s.worker p).pc.computed = 0 := by
      by_contra hc
      have hr : (s.worker w).pc.ready = true := hok (Nat.pos_of_ne_zero hc)
      rw [hback rfl] at hr
      cases hr
    have hlen := ((h.stream p hp w hw hne).send (n := n)).length_le
    rw [hzero, Nat.mul_zero, Nat.add_zero] at hlen
    exact hlen
  | sendDone q v =>
    refine link_cases (fun l => l.sent ≤ 8) rfl
      (hold (hback (pc_of_update rfl (by rfl) w))) ?_
    rintro rfl rfl
    exact hold (hback (pc_of_update rfl (by rfl) w))
  | parse v q n junk hup hnet hn hle =>
    have h8 := hold (hback (pc_of_update rfl (accept_pc _ _ _ _) w))
    refine link_cases (fun l => l.sent ≤ 8) rfl h8 ?_
    rintro rfl rfl
    simp only [Link.sent, List.length_append, List.length_take,
      List.length_drop] at h8 ⊢
    omega
  | store v q slot sender offset ptr n junk hup hnet hn hle =>
    have h8 := hold (hback (pc_of_update rfl (by rfl) w))
    refine link_cases (fun l => l.sent ≤ 8) rfl h8 ?_
    rintro rfl rfl
    simp only [Link.sent, List.length_append, List.length_take,
      List.length_drop] at h8 ⊢
    omega
  | full v q =>
    have h8 := hold (hback (pc_of_update rfl (by rfl) w))
    refine link_cases (fun l => l.sent ≤ 8) rfl h8 ?_
    rintro rfl rfl
    exact h8
  | collect v n => exact hold (hback (pc_of_update rfl (by rfl) w))
  | begin => exact hold (hback (pc_of_update rfl (by rfl) w))
  | listen v => exact hold (hback (pc_of_update rfl (by rfl) w))
  | toHandle v => exact hold (hback (pc_of_update rfl (by rfl) w))
  | toBlock v => exact hold (hback (pc_of_update rfl (by rfl) w))
  | noSlot v => exact hold (hback (pc_of_update rfl (by rfl) w))
  | count v => exact hold (hback (pc_of_update rfl (by rfl) w))
  | bump v => exact hold (hback (pc_of_update rfl (by rfl) w))
  | partly v => exact hold (hback (pc_of_update rfl (by rfl) w))

/-! ## The network threads -/

/-- What the receiver of a connection knows of it, once it has taken the
handshake. -/
theorem Inv.stored_le (h : Inv job s) (hp : p < job.workers)
    (hw : w < job.workers) (hne : w ≠ p) (hfailed : (s.worker w).failed = none)
    (hpar : (s.link p w).arrived.parsed ≠ []) :
    (s.link p w).arrived.stored.length + (s.link p w).flight.length ≤
      job.inSize w p * (s.worker p).pc.computed := by
  have hmem : p ∈ peers job w := mem_peers.mpr ⟨hne.symm, hp⟩
  obtain ⟨hgreet, -, -, -, hsize, -⟩ :=
    ((h.receiver w hw hfailed).peer p hmem).known hpar
  have hlen := (h.stream p hp w hw hne).length_le
  unfold Link.sent at hlen
  rw [hgreet, length_greeting, hsize] at hlen
  omega

/-- The bytes stored are those of the blocks counted and of a part of the
next one. -/
theorem Inv.stored_length (h : Inv job s) (hp : p < job.workers)
    (hw : w < job.workers) (hne : w ≠ p) (hfailed : (s.worker w).failed = none)
    (hpar : (s.link p w).arrived.parsed ≠ []) :
    (s.link p w).arrived.stored.length =
      job.inSize w p * (s.link p w).arrived.counted +
        (s.worker w).inbox.pos p := by
  have hmem : p ∈ peers job w := mem_peers.mpr ⟨hne.symm, hp⟩
  have hpeer := (h.receiver w hw hfailed).peer p hmem
  have hlen := (hpeer.overlay (hpeer.known hpar).2.2.2.2.2).length
  rw [job.loaded_length] at hlen
  exact hlen

/-- A worker that stores a block has finished its start-up. -/
theorem Inv.ready_of_stored (h : Inv job s) (hp : p < job.workers)
    (hw : w < job.workers) (hne : w ≠ p) (hfailed : (s.worker w).failed = none)
    (hpar : (s.link p w).arrived.parsed ≠ [])
    (hpos : 0 < (s.link p w).arrived.stored.length + (s.link p w).flight.length) :
    (s.worker w).pc.ready = true := by
  have hmem : p ∈ peers job w := mem_peers.mpr ⟨hne.symm, hp⟩
  by_contra hr
  have hquiet := h.quiet p hp w hw hne (Bool.eq_false_iff.mpr hr)
  unfold Link.sent at hquiet
  rw [(((h.receiver w hw hfailed).peer p hmem).known hpar).1,
    length_greeting] at hquiet
  omega

/-- **What has been sent fits**: the rest of the current block is all that
can be under way. -/
theorem Inv.fits (h : Inv job s) (hp : p < job.workers) (hw : w < job.workers)
    (hne : w ≠ p) (hfailed : (s.worker w).failed = none)
    (hpar : (s.link p w).arrived.parsed ≠ []) (hf : (s.link p w).flight ≠ []) :
    (s.worker w).inbox.pos p + (s.link p w).flight.length ≤ job.inSize w p := by
  have hmem : p ∈ peers job w := mem_peers.mpr ⟨hne.symm, hp⟩
  have hready := h.ready_of_stored hp hw hne hfailed hpar
    (Nat.add_pos_right _ (List.length_pos_of_ne_nil hf))
  have hsettled := (h.receiver w hw hfailed).settled p hmem
  have hcomputed : (s.worker p).pc.computed ≤
      (s.link p w).arrived.counted + 1 :=
    (h.control.computed_le_settled hp hw hready).trans
      (Nat.add_le_add_right hsettled 1)
  have hle := h.stored_le hp hw hne hfailed hpar
  have hlen := h.stored_length hp hw hne hfailed hpar
  have hmul := Nat.mul_le_mul_left (job.inSize w p) hcomputed
  rw [Nat.mul_succ] at hmul
  omega

/-- A block that is about to be counted has been sent. -/
theorem Inv.counted_lt (h : Inv job s) {slot sender offset ptr : ℕ}
    (hup : s.Up job w)
    (hnet : (s.worker w).inbox.net = .block p slot sender offset ptr)
    (hptr : 0 < ptr)
    (hlen : ((offset + ptr : ℕ) : ℤ) = ((s.worker w).inbox.infos slot).len) :
    (s.link p w).arrived.counted < (s.worker p).pc.computed := by
  have hrec := h.receiver w hup.1 hup.2
  obtain ⟨rfl, rfl, hp, hpar, -, -⟩ := hrec.storing p slot sender offset ptr hnet
  obtain ⟨hne, hlt⟩ := mem_peers.mp hp
  obtain ⟨-, -, hlen', -, hsize, -⟩ := (hrec.peer p hp).known hpar
  have hpos : (s.worker w).inbox.pos p = offset + ptr := by
    unfold Inbox.pos
    rw [hnet]
    exact if_pos rfl
  have hfull : offset + ptr = job.inSize w p := by
    rw [hlen', hsize] at hlen
    exact_mod_cast hlen
  have hstored := h.stored_length hlt hup.1 hne.symm hup.2 hpar
  have hle := h.stored_le hlt hup.1 hne.symm hup.2 hpar
  rw [hpos, hfull, ← Nat.mul_succ] at hstored
  have hmul : job.inSize w p * ((s.link p w).arrived.counted + 1) ≤
      job.inSize w p * (s.worker p).pc.computed := by
    rw [← Nat.succ_eq_add_one]
    omega
  exact Nat.le_of_mul_le_mul_left hmul (by omega)

/-- A worker at the end of an event of `dpdk_block_event` has finished its
start-up. -/
theorem Inv.ready_of_full (h : Inv job s) {slot sender offset ptr : ℕ}
    (hup : s.Up job w)
    (hnet : (s.worker w).inbox.net = .block p slot sender offset ptr)
    (hptr : 0 < ptr) : (s.worker w).pc.ready = true := by
  obtain ⟨rfl, rfl, hp, hpar, -, -⟩ :=
    (h.receiver w hup.1 hup.2).storing p slot sender offset ptr hnet
  obtain ⟨hne, hlt⟩ := mem_peers.mp hp
  refine h.ready_of_stored hlt hup.1 hne.symm hup.2 hpar ?_
  have hstored := h.stored_length hlt hup.1 hne.symm hup.2 hpar
  have hpos : (s.worker w).inbox.pos p = offset + ptr := by
    unfold Inbox.pos
    rw [hnet]
    exact if_pos rfl
  omega

/-- Only blocks that have been sent are counted: a block is counted when it is
full, and what fills it has been sent. -/
theorem Inv.counted_step (h : Inv job s) (hnext : Next job s a s')
    (hp : p < job.workers) (hw : w < job.workers) (hne : w ≠ p) :
    (s'.link p w).arrived.counted ≤ (s'.worker p).pc.computed := by
  have hold := h.counted p hp w hw hne
  cases hnext with
  | compute v out s' hup hc =>
    rw [(hc.transport p w).2]
    by_cases hv : p = v
    · subst hv
      exact hold.trans hc.forward.2
    · rw [hc.worker_of_ne hv]
      exact hold
  | readBegin v n i hup hpc hn =>
    show (s.link p w).arrived.counted ≤ _
    by_cases hv : p = v
    · subst hv
      rw [setWorker_self]
      rw [hpc] at hold
      exact hold
    · rw [setWorker_of_ne _ _ _ hv]
      exact hold
  | send q v n =>
    refine link_cases (fun l => l.arrived.counted ≤ _) rfl hold ?_
    rintro rfl rfl
    exact hold
  | sendDone q v =>
    rw [pc_of_update (s := s) rfl (by rfl) p]
    refine link_cases (fun l => l.arrived.counted ≤ _) rfl hold ?_
    rintro rfl rfl
    exact hold
  | parse v q n junk =>
    rw [pc_of_update (s := s) rfl (accept_pc _ _ _ _) p]
    refine link_cases (fun l => l.arrived.counted ≤ _) rfl hold ?_
    rintro rfl rfl
    exact hold
  | store v q slot sender offset ptr n junk =>
    rw [pc_of_update (s := s) rfl (by rfl) p]
    refine link_cases (fun l => l.arrived.counted ≤ _) rfl hold ?_
    rintro rfl rfl
    exact hold
  | full v q slot sender offset ptr hup hnet hptr hlen =>
    rw [pc_of_update (s := s) rfl (by rfl) p]
    refine link_cases (fun l => l.arrived.counted ≤ _) rfl hold ?_
    rintro rfl rfl
    -- the one step that counts
    exact h.counted_lt hup hnet hptr hlen
  | collect v n => rw [pc_of_update (s := s) rfl (by rfl) p]; exact hold
  | begin => rw [pc_of_update (s := s) rfl (by rfl) p]; exact hold
  | listen v => rw [pc_of_update (s := s) rfl (by rfl) p]; exact hold
  | toHandle v => rw [pc_of_update (s := s) rfl (by rfl) p]; exact hold
  | toBlock v => rw [pc_of_update (s := s) rfl (by rfl) p]; exact hold
  | noSlot v => rw [pc_of_update (s := s) rfl (by rfl) p]; exact hold
  | count v => rw [pc_of_update (s := s) rfl (by rfl) p]; exact hold
  | bump v => rw [pc_of_update (s := s) rfl (by rfl) p]; exact hold
  | partly v => rw [pc_of_update (s := s) rfl (by rfl) p]; exact hold

/-! ## What the workers have received -/

/-- The two numbers of a handshake. -/
theorem intAt_greeting (job : Job) (w : ℕ) (hp : p < job.workers) :
    intAt (greeting job p w) 0 = p ∧
      intAt (greeting job p w) 4 = job.outSize p w := by
  have hp31 : p < 2 ^ 31 := by
    have := job.workers_le
    omega
  have hout := job.outSize_lt p w
  have hint : ∀ n : ℕ, n < 2 ^ 31 → toInt32 n = n := fun n hn =>
    Reshard.toInt32_natCast hn
  unfold intAt greeting
  constructor
  · rw [List.drop_zero, readU32_u32le (by omega), Option.elim_some]
    exact hint p hp31
  · have hfour : (u32le p).length = 4 := rfl
    rw [List.drop_left' hfour, ← List.append_nil (u32le (job.outSize p w)),
      readU32_u32le (by omega), Option.elim_some]
    exact hint _ hout

/-- The outcome of a handshake taken whole: it is accepted where the length
of the in-block is known and is the one announced. -/
theorem accept_greeting {x : Worker}
    (hp : p < job.workers) (hne : w ≠ p)
    (h : Receiver job w x.pc x.inbox fun p => (s.link p w).arrived) :
    (p < x.pc.loaded job.workers ∧ job.outSize p w = job.inSize w p ∧
      x.accept p (intAt (greeting job p w) 0) (intAt (greeting job p w) 4) =
        { x with inbox := { x.inbox with
            infos := Function.update x.inbox.infos p
              ⟨some p, job.outSize p w, p, 0⟩
            net := .count } }) ∨
    ((x.pc.loaded job.workers ≤ p ∨ job.outSize p w ≠ job.inSize w p) ∧
      x.accept p (intAt (greeting job p w) 0) (intAt (greeting job p w) 4) =
        { x with failed := some .length }) := by
  obtain ⟨h0, h4⟩ := intAt_greeting job w hp
  have hmem : p ∈ peers job w := mem_peers.mpr ⟨hne.symm, hp⟩
  have hpeer := h.peer p hmem
  have hbound : (0 : ℤ) ≤ p ∧ (p : ℤ) < 1024 := by
    have := job.workers_le
    omega
  rw [h0, h4]
  unfold Worker.accept
  rw [if_pos hbound, Int.toNat_natCast]
  by_cases hl : p < x.pc.loaded job.workers
  · rw [hpeer.length hl]
    by_cases hsize : job.outSize p w = job.inSize w p
    · exact Or.inl ⟨hl, hsize, if_pos (by exact_mod_cast hsize)⟩
    · exact Or.inr ⟨Or.inr hsize, if_neg (by exact_mod_cast hsize)⟩
  · rw [hpeer.missing (not_lt.mp hl)]
    exact Or.inr ⟨Or.inl (not_lt.mp hl), if_neg (by omega)⟩

/-- A worker after a step of its own compute thread. The thread leaves what has
arrived alone; the two counters are reset when all blocks of an iteration have
been counted. -/
theorem Inv.compute_step (h : Inv job s) {out : ℕ → List UInt8}
    (hup : s.Up job w) (hc : Computes job s w (s.worker w) out s') :
    Receives job s' w := by
  have hrec : Receives job s w := h.receiver w hup.1 hup.2
  have harr : (fun p => (s'.link p w).arrived) = fun p => (s.link p w).arrived :=
    funext fun p => (hc.transport p w).2
  unfold Receives at hrec ⊢
  rw [harr]
  cases hc with
  | load n hpc =>
    rw [setWorker_self]
    rw [hpc] at hrec
    exact hrec.load
  | loaded n hpc hn =>
    rw [setWorker_self]
    rw [hpc] at hrec
    exact hrec.move (Nat.min_eq_right hn).symm rfl rfl rfl (by simp)
      fun hs => by cases hs
  | refused j hpc | unreadable j hpc =>
    rw [setWorker_self]
    exact hrec
  | connect j hpc =>
    rw [setLink_worker, setWorker_self]
    rw [hpc] at hrec
    exact hrec.move rfl rfl rfl rfl (by simp) fun hs => by cases hs
  | peers hpc hfd =>
    rw [setWorker_self]
    rw [hpc] at hrec
    exact hrec.move rfl rfl rfl rfl (fun _ => hfd) fun hs => by cases hs
  | closePeers hpc =>
    rw [setWorker_self]
    rw [hpc] at hrec
    exact hrec.closePeers hup.1
  | initRecv hpc =>
    rw [setWorker_self]
    rw [hpc] at hrec
    exact hrec.reset hup.1 rfl rfl rfl rfl (by simp) (hrec.unready rfl).2
  | computed i hpc =>
    show Receiver job w ((s.setWorker w _).worker w).pc
      ((s.setWorker w _).worker w).inbox _
    rw [setWorker_self]
    rw [hpc] at hrec
    exact hrec.move rfl rfl rfl rfl (by simp) fun hs => by cases hs
  -- nobody is more than one block ahead, and the counter at zero says that everybody
  -- is
  | received i hpc hzero =>
    rw [setWorker_self]
    have hle : ∀ p ∈ peers job w, (s.link p w).arrived.counted ≤
        (s.worker w).pc.settled + 1 := by
      intro p hp
      obtain ⟨hne, hlt⟩ := mem_peers.mp hp
      exact (h.counted p hlt w hup.1 hne.symm).trans
        (h.control.computed_le_settled hlt hup.1 (by rw [hpc]; rfl))
    rw [hpc] at hrec hle
    exact hrec.move rfl rfl rfl rfl (by simp)
      fun _ => hrec.all_counted rfl hzero hle
  | sent i hpc =>
    rw [setWorker_self]
    rw [hpc] at hrec
    exact hrec.move rfl rfl rfl rfl (by simp) fun _ => hrec.synced rfl
  | resetSend i hpc =>
    rw [setWorker_self]
    rw [hpc] at hrec
    exact hrec.move rfl rfl rfl rfl (by simp) fun _ => hrec.synced rfl
  | resetRecv i hpc =>
    rw [setWorker_self]
    rw [hpc] at hrec
    exact hrec.reset hup.1 rfl rfl rfl rfl (by simp) (hrec.synced rfl)
  | self hpc | connected _ hpc | greeted _ hpc | initSend hpc | ack _ hpc =>
    rw [setWorker_self]
    rw [hpc] at hrec
    exact hrec.move rfl rfl rfl rfl (by simp) fun hs => by cases hs

/-- A worker that a step does not concern. -/
theorem Receives.of_ne (h : Receives job s w)
    (hworker : s'.worker w = s.worker w)
    (harrived : ∀ p, (s'.link p w).arrived = (s.link p w).arrived) :
    Receives job s' w :=
  h.of_same (by rw [hworker]) (by rw [hworker]) harrived

/-- The bytes received on the connections of a worker that are not
replaced. -/
theorem arrived_of_ne {q v : ℕ} {l : Link}
    (hlink : s'.link = (s.setLink q v l).link) (hw : w ≠ v) (p : ℕ) :
    (s'.link p w).arrived = (s.link p w).arrived :=
  link_cases (fun l => l.arrived = _) hlink rfl fun _ hv => absurd hv hw

/-- The bytes received, where a connection is replaced by one with the same
bytes received. -/
theorem arrived_of_eq {q v : ℕ} {l : Link}
    (hlink : s'.link = (s.setLink q v l).link)
    (hl : l.arrived = (s.link q v).arrived) (p w : ℕ) :
    (s'.link p w).arrived = (s.link p w).arrived := by
  refine link_cases (fun l => l.arrived = _) hlink rfl ?_
  rintro rfl rfl
  exact hl

/-- The network thread's receives, at the worker they concern. -/
theorem Inv.receive_step (h : Inv job s) {n : ℕ} {junk : List UInt8}
    (hok : Whole s (.receive w n junk))
    (hnext : Next job s (.receive w n junk) s')
    (hfailed : (s'.worker w).failed = none) : Receives job s' w := by
  cases hnext with
  | parse v q n junk hup hnet hn hle hjunk =>
    have hrec : Receives job s w := h.receiver w hup.1 hup.2
    -- the head is read whole, as an orderly receive does
    have hn8 : n = 8 := hok (by rw [hnet]; rfl)
    subst hn8
    obtain ⟨hmem, hnil, hclosed⟩ := hrec.handling q hnet
    obtain ⟨hne, hlt⟩ := mem_peers.mp hmem
    have hstream := h.stream q hlt w hup.1 hne.symm
    have htake := hstream.take_eight hnil ((hrec.peer q hmem).silent hnil).1 hle
    have hjunk' : junk = [] := List.eq_nil_of_length_eq_zero hjunk
    rw [htake, hjunk', List.append_nil] at hfailed ⊢
    rw [setWorker_self] at hfailed
    unfold Receives
    rw [setWorker_self]
    -- it is a greeting that is accepted, or the worker gives up
    rcases accept_greeting hlt hne.symm hrec with
      ⟨hloaded, hsize, hacc⟩ | ⟨-, hacc⟩
    · rw [hacc]
      refine hrec.accept hnet hloaded hsize ?_ fun p hp => ?_
      · show (State.link (State.setLink s q w _) q w).arrived = _
        rw [setLink_self, hnil, List.nil_append]
      · show (State.link (State.setLink s q w _) p w).arrived = _
        rw [setLink_of_ne _ _ _ _ fun hc => hp hc.1]
    · rw [hacc] at hfailed
      cases hfailed
  | store v q slot sender offset ptr n junk hup hnet hn hle =>
    have hrec : Receives job s w := h.receiver w hup.1 hup.2
    obtain ⟨-, -, hmem, hpar, -, -⟩ :=
      hrec.storing q slot sender offset ptr hnet
    obtain ⟨hne, hlt⟩ := mem_peers.mp hmem
    have hf : (s.link q w).flight ≠ [] := List.ne_nil_of_length_pos (by omega)
    -- what is in flight for a block is no longer than the block
    have hfits := h.fits hlt hup.1 hne.symm hup.2 hpar hf
    have hlen : ((s.link q w).flight.take n).length = n := by
      rw [List.length_take]
      omega
    unfold Receives
    rw [setWorker_self]
    have hnew := hrec.store ((s.link q w).flight.take n)
      (g := fun p => ((s.setLink q w { s.link q w with
        flight := (s.link q w).flight.drop n
        arrived := { (s.link q w).arrived with
          stored := (s.link q w).arrived.stored ++
            (s.link q w).flight.take n } }).link p w).arrived)
      hnet (by omega) (by dsimp only; rw [setLink_self])
      fun p hp => by
        dsimp only
        rw [setLink_of_ne _ _ _ _ fun hc => hp hc.1]
    rw [hlen] at hnew
    exact hnew

/-- The end of an event of `dpdk_block_event`, at the worker it concerns. -/
theorem Inv.drain_step (h : Inv job s) (hnext : Next job s (.drain w) s') :
    Receives job s' w := by
  cases hnext with
  | full v q slot sender offset ptr hup hnet hptr hlen =>
    have hrec : Receives job s w := h.receiver w hup.1 hup.2
    obtain ⟨-, -, hmem, hpar, -, -⟩ :=
      hrec.storing q slot sender offset ptr hnet
    obtain ⟨hne, hlt⟩ := mem_peers.mp hmem
    have hcounted := h.counted_lt hup hnet hptr hlen
    have hready := h.ready_of_full hup hnet hptr
    have hsettled := h.control.computed_le_settled hlt hup.1 hready
    unfold Receives
    rw [setWorker_self]
    refine hrec.full hnet hlen hready (by omega) ?_ fun p hp => ?_
    · show (State.link (State.setLink s q w _) q w).arrived = _
      rw [setLink_self]
    · show (State.link (State.setLink s q w _) p w).arrived = _
      rw [setLink_of_ne _ _ _ _ fun hc => hp hc.1]
  | partly v q slot sender offset ptr hup hnet hptr hlen =>
    have hrec : Receives job s w := h.receiver w hup.1 hup.2
    unfold Receives
    rw [setWorker_self]
    exact hrec.partly hnet hlen

/-- A dispatch, at the worker it concerns. -/
theorem Inv.dispatch_step (h : Inv job s) {q : ℕ}
    (hnext : Next job s (.dispatch w q) s')
    (hfailed : (s'.worker w).failed = none) : Receives job s' w := by
  cases hnext with
  | toHandle v q hup hnet hq hne hf hfd =>
    have hrec : Receives job s w := h.receiver w hup.1 hup.2
    unfold Receives
    rw [setWorker_self]
    refine hrec.toHandle hnet (mem_peers.mpr ⟨hne, hq⟩) hfd fun hr => ?_
    have hquiet := h.quiet q hq w hup.1 hne.symm hr
    have hpos := List.length_pos_of_ne_nil hf
    unfold Link.sent at hquiet
    omega
  | toBlock v q slot hup hnet hq hne hf hfd hslot =>
    have hrec : Receives job s w := h.receiver w hup.1 hup.2
    unfold Receives
    rw [setWorker_self]
    exact hrec.toBlock hnet (mem_peers.mpr ⟨hne, hq⟩) hfd hslot
  | noSlot v q =>
    rw [setWorker_self] at hfailed
    cases hfailed

/-- A step moves no worker but its own. -/
theorem Next.worker_of_ne (h : Next job s a s') (hw : w ≠ a.worker s) :
    s'.worker w = s.worker w := by
  cases h with
  | compute v out s' hup hc => exact hc.worker_of_ne hw
  | send => rfl
  | _ => exact setWorker_of_ne _ _ _ hw

/-- Only the worker that a step is of receives in it. -/
theorem Next.arrived_of_ne (h : Next job s a s') (hw : w ≠ a.worker s)
    (p : ℕ) : (s'.link p w).arrived = (s.link p w).arrived := by
  cases h with
  | compute v out s' hup hc => exact (hc.transport p w).2
  | send | sendDone => exact arrived_of_eq rfl (by rfl) p w
  | parse | store | full => exact Exchange.arrived_of_ne rfl hw p
  | _ => rfl

/-- A step that leaves the place and the inbox of its worker. -/
theorem Inv.receives_of_same (h : Inv job s) (hw : w < job.workers)
    {x : Worker} (hworker : s'.worker w = x)
    (hfailed : (s'.worker w).failed = none)
    (hfail : x.failed = (s.worker w).failed) (hpc : x.pc = (s.worker w).pc)
    (hinbox : x.inbox = (s.worker w).inbox)
    (harrived : ∀ p, (s'.link p w).arrived = (s.link p w).arrived) :
    Receives job s' w := by
  rw [hworker, hfail] at hfailed
  exact (h.receiver w hw hfailed).of_same (by rw [hworker, hpc])
    (by rw [hworker, hinbox]) harrived

/-- The reading of `tbegin`. -/
theorem Inv.readBegin_step (h : Inv job s) {n : ℕ}
    (hnext : Next job s (.readBegin w n) s') : Receives job s' w := by
  cases hnext with
  | readBegin v n i hup hpc hn =>
    have hrec : Receives job s w := h.receiver w hup.1 hup.2
    unfold Receives at hrec ⊢
    rw [setWorker_self]
    rw [hpc] at hrec
    exact hrec.move rfl rfl rfl rfl (by simp) fun hs => by cases hs

/-- The two halves of `recv_fd ++`. -/
theorem Inv.bump_step (h : Inv job s) (hnext : Next job s (.bump w) s') :
    Receives job s' w := by
  cases hnext with
  | count v hup hnet =>
    unfold Receives
    rw [setWorker_self]
    exact (h.receiver w hup.1 hup.2).count hnet
  | bump v b hup hnet =>
    unfold Receives
    rw [setWorker_self]
    exact (h.receiver w hup.1 hup.2).bump hnet

/-- **The worker that a step is of.** The compute thread and the network
thread change the inbox, each action in its own way; the others leave it. -/
theorem Inv.own_step (h : Inv job s) (hok : Whole s a)
    (hnext : Next job s a s') (hw : a.worker s < job.workers)
    (hfailed : (s'.worker (a.worker s)).failed = none) :
    Receives job s' (a.worker s) := by
  cases a with
  | listen w =>
    cases hnext with
    | listen v hup =>
      exact h.receives_of_same hw (setWorker_self _ _ _) hfailed rfl rfl rfl
        fun _ => rfl
  | compute w out =>
    cases hnext with
    | compute v out s' hup hc => exact h.compute_step hup hc
  | readBegin w n => exact h.readBegin_step hnext
  | send p w n =>
    cases hnext with
    | send p w n =>
      exact h.receives_of_same hw rfl hfailed rfl rfl rfl
        fun q => arrived_of_eq rfl (by rfl) q _
  | sendDone p w =>
    cases hnext with
    | sendDone p w hup =>
      exact h.receives_of_same hw (setWorker_self _ _ _) hfailed rfl rfl rfl
        fun q => arrived_of_eq rfl (by rfl) q _
  | dispatch w q => exact h.dispatch_step hnext hfailed
  | receive w n junk => exact h.receive_step hok hnext hfailed
  | bump w => exact h.bump_step hnext
  | drain w => exact h.drain_step hnext
  | collect w n =>
    cases hnext with
    | collect v n hv hnext hgot hn =>
      exact h.receives_of_same hw (setWorker_self _ _ _) hfailed rfl rfl rfl
        fun _ => rfl
  | begin =>
    cases hnext with
    | begin hnext hgot =>
      exact h.receives_of_same hw (setWorker_self _ _ _) hfailed rfl rfl rfl
        fun _ => rfl

/-- The workers after a step. -/
theorem Inv.receiver_step (h : Inv job s) (hok : Whole s a)
    (hnext : Next job s a s') (hw : w < job.workers)
    (hfailed : (s'.worker w).failed = none) : Receives job s' w := by
  by_cases hself : w = a.worker s
  · subst hself
    exact h.own_step hok hnext hw hfailed
  · rw [hnext.worker_of_ne hself] at hfailed
    exact (h.receiver w hw hfailed).of_ne (hnext.worker_of_ne hself)
      (hnext.arrived_of_ne hself)

/-- **Every orderly step keeps the invariant.** -/
theorem Inv.step (h : Inv job s) (hok : Orderly s a)
    (hstep : Exchange.step job s a = some s') : Inv job s' := by
  obtain ⟨hwhole, hframed, hafter⟩ := hok
  have hnext := next_of_step hstep
  exact
    { control := h.control.step hframed hnext
      stream := fun p hp w hw hne => h.stream_step hnext hp hw hne
      quiet := fun p hp w hw hne => h.quiet_step hafter hnext hp hw hne
      counted := fun p hp w hw hne => h.counted_step hnext hp hw hne
      receiver := fun w hw hfailed => h.receiver_step hwhole hnext hw hfailed }

/-- **The invariant holds in every state of an orderly run.** -/
theorem inv_of_run {as : List Action}
    (hrun : Transition.Run (Exchange.step job) Orderly Exchange.init as s) :
    Inv job s :=
  hrun.invariant (fun _ _ _ h hok hstep => h.step hok hstep) (Inv.init job)

end Exchange
