import Mathlib
import DpdkGraph.ExchangeSteps

/-!
# The master's barrier

How far each compute thread is, as numbers, and what the master's exchange
of messages with the workers makes of them: no worker begins iteration `i`
before every worker has reported the end of iteration `i - 1` – provided
that every `read` of the control connections returns one whole message
(`Framed`). The messages are counted by their bytes; `Control` balances the
bytes sent, read and under way.
-/

namespace Exchange

/-! ## How far a compute thread is -/

namespace Pc

/-- How many in-blocks are loaded. -/
def loaded (m : ℕ) : Pc → ℕ
  | loading n => min n m
  | _ => m

/-- Whether the connection to `w` has been opened. -/
def opened (w : ℕ) : Pc → Bool
  | loading _ => false
  | connecting j => decide (w < j)
  | greeting j => decide (w ≤ j)
  | _ => true

/-- Whether `recv_fd` has been set to -999. -/
def closed : Pc → Bool
  | initSend | initRecv | iter _ _ => true
  | _ => false

/-- Whether `recv_job_num` has been initialised. -/
def ready : Pc → Bool
  | iter _ _ => true
  | _ => false

/-- How many messages have been sent to the master. -/
def reported : Pc → ℕ
  | loading _ => 0
  | iter i _ => i + 1
  | _ => 1

/-- How many iterations have been begun. -/
def begun : Pc → ℕ
  | iter i .head => i
  | iter i _ => i + 1
  | _ => 0

/-- How many iterations have been computed. -/
def computed : Pc → ℕ
  | iter i .head | iter i .compute => i
  | iter i _ => i + 1
  | _ => 0

/-- For how many iterations `recv_job_num` has been reset. -/
def settled : Pc → ℕ
  | iter i .ack => i + 1
  | iter i _ => i
  | _ => 0

/-- Whether the wait for the in-blocks of the iteration is over, and
`recv_job_num` not reset yet. -/
def synced : Pc → Bool
  | iter _ .waitSend | iter _ .resetSend | iter _ .resetRecv => true
  | _ => false

theorem computed_le_begun (pc : Pc) : pc.computed ≤ pc.begun := by
  cases pc with
  | iter i stage => cases stage <;> simp [computed, begun]
  | _ => exact le_rfl

theorem ready_of_computed {pc : Pc} (h : 0 < pc.computed) : pc.ready = true := by
  cases pc with
  | iter i stage => rfl
  | _ => cases h

theorem closed_of_ready {pc : Pc} (h : pc.ready = true) : pc.closed = true := by
  cases pc with
  | iter i stage => rfl
  | _ => cases h

theorem not_ready_of_not_closed {pc : Pc} (h : pc.closed = false) :
    pc.ready = false := by
  cases pc with
  | iter i stage => cases h
  | _ => rfl

/-- What has been reported is one more than what has been settled, until
the reset of `recv_job_num`. -/
theorem reported_le_settled {pc : Pc} (h : pc.ready = true) :
    pc.reported ≤ pc.settled + 1 := by
  cases pc with
  | iter i stage => cases stage <;> simp [reported, settled]
  | _ => cases h

end Pc

/-! ## The exchange with the master -/

/-- Every `read` of the control connections returns one whole message. -/
def Framed : Action → Prop
  | .collect _ n | .readBegin _ n => n = messageSize
  | _ => True

/-- How many messages of `w` have been taken. -/
def Master.collected (m : Master) (w : ℕ) : ℕ :=
  m.round + if m.got w = true then 1 else 0

/-- How many iterations have been begun for `w`. -/
def Master.begun (m : Master) (w : ℕ) : ℕ :=
  m.round + if w < m.next then 1 else 0

/-- The balance of the control connections. -/
structure Control (job : Job) (s : State) : Prop where
  /-- What a worker has sent is under way or taken. -/
  reported : ∀ w < job.workers,
    messageSize * (s.worker w).pc.reported =
      (s.worker w).toMaster + messageSize * s.master.collected w
  /-- What the master has sent is under way or read. -/
  begun : ∀ w < job.workers,
    messageSize * s.master.begun w =
      (s.worker w).fromMaster + messageSize * (s.worker w).pc.begun
  /-- The master sends only with all answers in hand. -/
  got : 0 < s.master.next → ∀ w < job.workers, s.master.got w = true

variable {job : Job} {s s' : State} {a : Action} {w p : ℕ}

/-- **The barrier**: whoever has begun `n` iterations, every worker has
sent `n` messages to the master – the first after loading, one more at the
end of each iteration. -/
theorem Control.barrier (h : Control job s) (hp : p < job.workers)
    (hw : w < job.workers) :
    (s.worker p).pc.begun ≤ (s.worker w).pc.reported := by
  have hbegun : (s.worker p).pc.begun ≤ s.master.begun p := by
    have h6 := h.begun p hp
    unfold messageSize at h6
    omega
  have hcoll : s.master.collected w ≤ (s.worker w).pc.reported := by
    have h6 := h.reported w hw
    unfold messageSize at h6
    omega
  have hmaster : s.master.begun p ≤ s.master.collected w := by
    unfold Master.begun Master.collected
    by_cases hnext : p < s.master.next
    · rw [if_pos hnext, if_pos (h.got (by omega) w hw)]
    · rw [if_neg hnext]
      omega
  exact hbegun.trans (hmaster.trans hcoll)

/-- No peer has computed more than one iteration beyond the last reset of
`recv_job_num`. -/
theorem Control.computed_le_settled (h : Control job s)
    (hp : p < job.workers) (hw : w < job.workers)
    (hready : (s.worker w).pc.ready = true) :
    (s.worker p).pc.computed ≤ (s.worker w).pc.settled + 1 :=
  (Pc.computed_le_begun _).trans
    ((h.barrier hp hw).trans (Pc.reported_le_settled hready))

/-- Nothing has been sent in the initial state. -/
theorem Control.init (job : Job) : Control job init :=
  ⟨fun _ _ => rfl, fun _ _ => rfl, fun h => absurd h (lt_irrefl 0)⟩

/-- A step that sends what it reports and leaves the master alone. -/
theorem Control.of_balance (h : Control job s)
    (hmaster : s'.master = s.master)
    (hpc : ∀ w, (s'.worker w).pc.begun = (s.worker w).pc.begun)
    (hfrom : ∀ w, (s'.worker w).fromMaster = (s.worker w).fromMaster)
    (hto : ∀ w, (s'.worker w).toMaster + messageSize * (s.worker w).pc.reported
      = (s.worker w).toMaster + messageSize * (s'.worker w).pc.reported) :
    Control job s' := by
  refine ⟨fun w hw => ?_, fun w hw => ?_, ?_⟩
  · have hold := h.reported w hw
    have hnew := hto w
    rw [hmaster]
    omega
  · rw [hmaster, hfrom, hpc]
    exact h.begun w hw
  · rw [hmaster]
    exact h.got

/-- As before, where one worker changes. -/
theorem Control.of_worker (h : Control job s) {x : Worker}
    (hmaster : s'.master = s.master)
    (hworker : ∀ w', s'.worker w' = if w' = w then x else s.worker w')
    (hpc : x.pc.begun = (s.worker w).pc.begun)
    (hfrom : x.fromMaster = (s.worker w).fromMaster)
    (hto : x.toMaster + messageSize * (s.worker w).pc.reported
      = (s.worker w).toMaster + messageSize * x.pc.reported) :
    Control job s' := by
  refine h.of_balance hmaster (fun w' => ?_) (fun w' => ?_) fun w' => ?_
  all_goals
    rw [hworker]
    by_cases hw : w' = w
    · subst hw
      rw [if_pos rfl]
      assumption
    · rw [if_neg hw]

/-- A step that changes nothing the master sees. -/
theorem Control.of_same (h : Control job s) {x : Worker}
    (hmaster : s'.master = s.master)
    (hworker : ∀ w', s'.worker w' = if w' = w then x else s.worker w')
    (hpc : x.pc = (s.worker w).pc)
    (hfrom : x.fromMaster = (s.worker w).fromMaster)
    (hto : x.toMaster = (s.worker w).toMaster) : Control job s' :=
  h.of_worker hmaster hworker (by rw [hpc]) hfrom (by rw [hpc, hto])

/-- The compute thread's steps keep the balance. -/
theorem Control.compute (h : Control job s) {out : ℕ → List UInt8}
    (hnext : Computes job s w (s.worker w) out s') : Control job s' := by
  cases hnext with
  | connect j hpc =>
    exact h.of_worker rfl (setWorker_worker s w _) (by rw [hpc]; rfl) rfl
      (by rw [hpc]; rfl)
  | computed i hpc =>
    exact h.of_worker rfl (setWorker_worker s w _) (by rw [hpc]; rfl) rfl
      (by rw [hpc]; rfl)
  | refused j hpc | unreadable j hpc =>
    exact h.of_same rfl (setWorker_worker s w _) rfl rfl rfl
  | self hpc | load _ hpc | loaded _ hpc | connected _ hpc | greeted _ hpc
  | peers hpc | closePeers hpc | initSend hpc | initRecv hpc | received _ hpc
  | sent _ hpc | resetSend _ hpc | resetRecv _ hpc | ack _ hpc =>
    refine h.of_worker rfl (setWorker_worker s w _) ?_ rfl ?_
    all_goals
      rw [hpc]
      simp only [Pc.begun, Pc.reported, messageSize]
      try omega

/-- What `dpdk_handle_event` decides changes nothing the master sees. -/
theorem accept_control (x : Worker) (p : ℕ) (sender olen : ℤ) :
    (x.accept p sender olen).pc = x.pc ∧
      (x.accept p sender olen).fromMaster = x.fromMaster ∧
      (x.accept p sender olen).toMaster = x.toMaster := by
  unfold Worker.accept
  split
  · split
    · exact ⟨rfl, rfl, rfl⟩
    · exact ⟨rfl, rfl, rfl⟩
  · exact ⟨rfl, rfl, rfl⟩

/-- Reading a whole `tbegin` keeps the balance. -/
theorem Control.readBegin (h : Control job s) {i : ℕ}
    (hpc : (s.worker w).pc = .iter i .head)
    (hle : messageSize ≤ (s.worker w).fromMaster) :
    Control job (s.setWorker w { s.worker w with
      pc := .iter i .compute
      fromMaster := (s.worker w).fromMaster - messageSize }) := by
  refine ⟨fun w' hw' => ?_, fun w' hw' => ?_, h.got⟩
  · rw [setWorker_worker]
    split
    · next hw =>
      subst hw
      have hold := h.reported _ hw'
      rw [hpc] at hold
      exact hold
    · exact h.reported _ hw'
  · rw [setWorker_worker]
    split
    · next hw =>
      subst hw
      have hold := h.begun _ hw'
      rw [hpc] at hold
      simp only [setWorker_master, Pc.begun] at hold ⊢
      unfold messageSize at hle hold ⊢
      omega
    · exact h.begun _ hw'

/-- Taking a whole answer keeps the balance: what a worker has reported is what
is on the way and what the master has taken, and one message moves from the
first to the second. -/
theorem Control.collect (h : Control job s) (hnext : s.master.next = 0)
    (hgot : s.master.got w = false)
    (hle : messageSize ≤ (s.worker w).toMaster) :
    Control job { s.setWorker w { s.worker w with
        toMaster := (s.worker w).toMaster - messageSize } with
      master := { s.master with
        got := Function.update s.master.got w true } } := by
  refine ⟨fun w' hw' => ?_, fun w' hw' => ?_, fun hpos => ?_⟩
  · have hold := h.reported w' hw'
    show messageSize * ((s.setWorker w _).worker w').pc.reported =
      ((s.setWorker w _).worker w').toMaster + messageSize *
        (s.master.round +
          if Function.update s.master.got w true w' = true then 1 else 0)
    rw [setWorker_worker]
    -- the answer is counted among those taken, and no longer among those on the way
    unfold Master.collected messageSize at hold
    unfold messageSize at hle ⊢
    split
    · next hw =>
      subst hw
      rw [Function.update_self, if_pos rfl]
      rw [hgot] at hold
      simp only [Bool.false_eq_true, if_false] at hold
      show 6 * (s.worker w').pc.reported = (s.worker w').toMaster - 6 + _
      omega
    · next hw =>
      rw [Function.update_of_ne hw]
      exact hold
  · have hold := h.begun w' hw'
    show messageSize * s.master.begun w' =
      ((s.setWorker w _).worker w').fromMaster +
        messageSize * ((s.setWorker w _).worker w').pc.begun
    rw [setWorker_worker]
    split
    · next hw =>
      subst hw
      exact hold
    · exact hold
  · exact absurd hnext (Nat.pos_iff_ne_zero.mp hpos)

/-- The next state of the master when it has sent a `tbegin`. -/
theorem begun_begin (m : Master) (hw : w < job.workers) :
    Master.begun (if m.next + 1 = job.workers then
        ⟨m.round + 1, 0, fun _ => false⟩
      else { m with next := m.next + 1 }) w =
      m.begun w + if w = m.next then 1 else 0 := by
  unfold Master.begun
  split
  · simp only [Nat.not_lt_zero, if_false]
    split <;> split <;> omega
  · show m.round + (if w < m.next + 1 then 1 else 0) = _
    split <;> split <;> split <;> omega

/-- Sending a `tbegin` keeps the balance. The master sends it when it has all
answers, so that the next round begins with what the last one has counted. -/
theorem Control.begin (h : Control job s)
    (hgot : ∀ y < job.workers, s.master.got y = true) :
    Control job { s.setWorker s.master.next { s.worker s.master.next with
          fromMaster :=
            (s.worker s.master.next).fromMaster + messageSize } with
      master :=
        if s.master.next + 1 = job.workers then
          ⟨s.master.round + 1, 0, fun _ => false⟩
        else { s.master with next := s.master.next + 1 } } := by
  refine ⟨fun w' hw' => ?_, fun w' hw' => ?_, ?_⟩
  · -- a round that is over counts as much as one in which all have answered
    have hcoll : Master.collected (if s.master.next + 1 = job.workers then
        ⟨s.master.round + 1, 0, fun _ => false⟩
      else { s.master with next := s.master.next + 1 }) w'
        = s.master.collected w' := by
      unfold Master.collected
      split
      · simp [hgot w' hw']
      · rfl
    have hold := h.reported w' hw'
    dsimp only
    rw [hcoll, setWorker_worker]
    split
    · next hw =>
      subst hw
      exact hold
    · exact hold
  · -- one message more on the way, and one round more begun, at the next worker only
    have hold := h.begun w' hw'
    dsimp only
    rw [begun_begin s.master hw', setWorker_worker]
    unfold messageSize at hold ⊢
    split
    · next hw =>
      subst hw
      dsimp only
      omega
    · rw [Nat.add_zero]
      exact hold
  · dsimp only
    split
    · exact fun hpos => absurd hpos (lt_irrefl 0)
    · exact fun _ => hgot

/-- **Every framed step keeps the balance**: what one side has sent, in messages
of one size, is what the other has taken and what is still under way. -/
theorem Control.step (h : Control job s) (hok : Framed a)
    (hnext : Next job s a s') : Control job s' := by
  cases hnext with
  | listen w => exact h.of_same rfl (setWorker_worker s w _) rfl rfl rfl
  | compute w out s' _ hc => exact h.compute hc
  | readBegin w n i _ hpc hle =>
    obtain rfl : n = messageSize := hok
    exact h.readBegin hpc hle
  | send p w n =>
    exact h.of_balance rfl (fun _ => rfl) (fun _ => rfl) fun _ => rfl
  | sendDone p w =>
    exact h.of_same rfl (setWorker_worker _ p _) rfl rfl rfl
  | toHandle w p => exact h.of_same rfl (setWorker_worker s w _) rfl rfl rfl
  | toBlock w p slot =>
    exact h.of_same rfl (setWorker_worker s w _) rfl rfl rfl
  | noSlot w p => exact h.of_same rfl (setWorker_worker s w _) rfl rfl rfl
  | parse w p n junk =>
    obtain ⟨hpc, hfrom, hto⟩ := accept_control (s.worker w) p
      (intAt ((s.link p w).flight.take n ++ junk) 0)
      (intAt ((s.link p w).flight.take n ++ junk) 4)
    exact h.of_same rfl (setWorker_worker _ w _) hpc hfrom hto
  | store w p =>
    exact h.of_same rfl (setWorker_worker _ w _) rfl rfl rfl
  | count w => exact h.of_same rfl (setWorker_worker s w _) rfl rfl rfl
  | bump w v => exact h.of_same rfl (setWorker_worker s w _) rfl rfl rfl
  | full w p => exact h.of_same rfl (setWorker_worker _ w _) rfl rfl rfl
  | partly w p => exact h.of_same rfl (setWorker_worker s w _) rfl rfl rfl
  | collect w n _ hnext hgot hle =>
    obtain rfl : n = messageSize := hok
    exact h.collect hnext hgot hle
  | begin _ hgot => exact h.begin hgot

end Exchange
