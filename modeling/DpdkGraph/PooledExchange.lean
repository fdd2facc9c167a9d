import Mathlib
import DpdkGraph.ThreadPool
import DpdkGraph.ExchangeCompletion

/-!
# The workers with their thread pools

In `Exchange` a block that has been handed over is sent by a thread that is
there. The engine has a pool of `M-1` threads for it: after it has computed,
the compute thread pushes a work for each peer and goes on to wait for the
blocks of the others, while the threads of the pool take the works and run
`m_send_to_worker`, which sends the block and decrements `send_job_num`.

Here each worker has its pool, and the steps of the two models are put
together. A step of `Exchange` that sends bytes of a block is only taken
where a thread of the pool runs the work for it, the end of the sending
thread is the end of that work, and the compute thread passes
`while(recv_job_num)` no sooner than it has pushed all its works. The rest of
`m_work` is read off the peer's number, which is what a work is here.

Whatever the two do together is a run of `Exchange`, so that all that is
known of its runs holds. What has to be shown is that the pool keeps up: a
work is outstanding in the pool exactly as long as `Exchange` says that the
block is with a sending thread, and since the pool has a thread for each
peer, a work that no thread runs is on its way to one.
-/

namespace PooledExchange

open Transition (Run)
open Exchange (Job Pc peers mem_peers sending)

/-! ## The state and its steps -/

/-- The workers, and `pManager_send` of each. -/
structure State where
  /-- The workers, the connections and the master. -/
  exchange : Exchange.State
  /-- `pManager_send`. A work is the number of the peer, `j`. -/
  pool : ℕ → ThreadPool.State ℕ

/-- The state before `run`. -/
def init : State := ⟨Exchange.init, fun _ => ThreadPool.init⟩

/-- `M-1`, the number of threads of a pool. -/
def threads (job : Job) : ℕ := job.workers - 1

/-- The works of `p` for an iteration, in the order in which they are
pushed. -/
def works (job : Job) (p : ℕ) : List ℕ :=
  (List.range job.workers).filter fun j => j ≠ p

/-- Whether the loop over `PushWorkQue` is not through. -/
def Pushing (x : ThreadPool.State ℕ) : Prop := x.pusher ≠ .idle ∨ x.todo ≠ []

instance (x : ThreadPool.State ℕ) : Decidable (Pushing x) :=
  inferInstanceAs (Decidable (_ ∨ _))

/-- Whether the compute thread is in `crucial_updates`. -/
def computing : Pc → Bool
  | .iter _ .compute => true
  | _ => false

/-- Whether it is in the loop over `PushWorkQue` or at
`while(recv_job_num)`. -/
def handingOver : Pc → Bool
  | .iter _ .waitRecv => true
  | _ => false

/-- What the pools leave to be done in `Exchange`. -/
def Allowed (job : Job) (s : State) : Exchange.Action → Prop
  | .compute w _ =>
    handingOver (s.exchange.worker w).pc = true → ¬Pushing (s.pool w)
  | .send p w _ =>
    (s.exchange.worker p).pc = .greeting w ∨
      ∃ i < threads job, (s.pool p).thread i = .run w
  | .sendDone _ _ => False
  | .listen _ | .readBegin _ _ | .dispatch _ _ | .receive _ _ _ | .bump _
  | .drain _ | .collect _ _ | .begin => True

instance (job : Job) (s : State) : DecidablePred (Allowed job s)
  | .compute _ _ => inferInstanceAs (Decidable (_ → _))
  | .send _ _ _ => inferInstanceAs (Decidable (_ ∨ _))
  | .sendDone _ _ => inferInstanceAs (Decidable False)
  | .listen _ | .readBegin _ _ | .dispatch _ _ | .receive _ _ _ | .bump _
  | .drain _ | .collect _ _ | .begin => inferInstanceAs (Decidable True)

/-- The pools after a step of `Exchange`: a compute thread that has computed
enters its loop. -/
def poolsAfter (job : Job) (s : State) :
    Exchange.Action → ℕ → ThreadPool.State ℕ
  | .compute w _ =>
    if computing (s.exchange.worker w).pc then
      Function.update s.pool w ((s.pool w).start (works job w))
    else s.pool
  | _ => s.pool

/-- What can happen next. -/
inductive Action
  /-- A step of `Exchange`. -/
  | exchange (a : Exchange.Action)
  /-- The loop of the compute thread of `p`, or a thread of its pool. -/
  | pool (p : ℕ) (b : ThreadPool.Action ℕ)
  /-- `m_send_to_worker` decrements `send_job_num` in thread `i` of the pool
  of `p`. -/
  | finish (p i : ℕ)

/-- **The next state**, where the action can happen. -/
def step (job : Job) (s : State) : Action → Option State
  | .exchange a =>
    if Allowed job s a then
      (Exchange.step job s.exchange a).map fun t => ⟨t, poolsAfter job s a⟩
    else none
  | .pool p b =>
    if s.exchange.Up job p ∧ b.Internal then
      (ThreadPool.step (threads job) (s.pool p) b).map fun x =>
        { s with pool := Function.update s.pool p x }
    else none
  | .finish p i =>
    match (s.pool p).thread i with
    | .run w =>
      (Exchange.step job s.exchange (.sendDone p w)).bind fun t =>
        (ThreadPool.step (threads job) (s.pool p) (.finish i)).map fun x =>
          ⟨t, Function.update s.pool p x⟩
    | _ => none

/-- The step of `Exchange` that an action takes. -/
def under (s : State) : Action → Option Exchange.Action
  | .exchange a => some a
  | .pool _ _ => none
  | .finish p i =>
    match (s.pool p).thread i with
    | .run w => some (.sendDone p w)
    | _ => none

/-- A restriction of the steps of `Exchange`. -/
def Under (ok : Exchange.State → Exchange.Action → Prop) (s : State)
    (a : Action) : Prop :=
  ∀ b ∈ under s a, ok s.exchange b

instance (ok : Exchange.State → Exchange.Action → Prop)
    [∀ s a, Decidable (ok s a)] (s : State) : DecidablePred (Under ok s) :=
  fun _ => inferInstanceAs (Decidable (∀ _ ∈ _, _))

variable {job : Job} {s s' : State} {a : Action} {p w : ℕ}

/-- The end of a work is the end of a sending thread. -/
theorem under_finish {i : ℕ} (hplace : (s.pool p).thread i = .run w) :
    under s (.finish p i) = some (.sendDone p w) := by
  unfold under
  dsimp only
  rw [hplace]

theorem step_finish {i : ℕ} (hplace : (s.pool p).thread i = .run w) :
    step job s (.finish p i) =
      (Exchange.step job s.exchange (.sendDone p w)).bind fun t =>
        (ThreadPool.step (threads job) (s.pool p) (.finish i)).map fun x =>
          ⟨t, Function.update s.pool p x⟩ := by
  unfold step
  dsimp only
  rw [hplace]

/-- The outcomes of a step. -/
inductive Next (job : Job) (s : State) : Action → State → Prop
  | exchange (a : Exchange.Action) (t : Exchange.State) : Allowed job s a →
      Exchange.step job s.exchange a = some t →
      Next job s (.exchange a) ⟨t, poolsAfter job s a⟩
  | pool (p : ℕ) (b : ThreadPool.Action ℕ) (x : ThreadPool.State ℕ) :
      s.exchange.Up job p → b.Internal →
      ThreadPool.step (threads job) (s.pool p) b = some x →
      Next job s (.pool p b) { s with pool := Function.update s.pool p x }
  | finish (p i w : ℕ) (t : Exchange.State) (x : ThreadPool.State ℕ) :
      (s.pool p).thread i = .run w →
      Exchange.step job s.exchange (.sendDone p w) = some t →
      ThreadPool.step (threads job) (s.pool p) (.finish i) = some x →
      Next job s (.finish p i) ⟨t, Function.update s.pool p x⟩

/-- A step is one of its outcomes. -/
theorem next_of_step (h : step job s a = some s') : Next job s a s' := by
  cases a with
  | exchange a =>
    obtain ⟨hallowed, h⟩ := Option.ite_none_right_eq_some.mp h
    obtain ⟨t, hstep, rfl⟩ := Option.map_eq_some_iff.mp h
    exact .exchange a t hallowed hstep
  | pool p b =>
    obtain ⟨⟨hup, hb⟩, h⟩ := Option.ite_none_right_eq_some.mp h
    obtain ⟨x, hstep, rfl⟩ := Option.map_eq_some_iff.mp h
    exact .pool p b x hup hb hstep
  | finish p i =>
    unfold step at h
    dsimp only at h
    split at h
    · next w hplace =>
      obtain ⟨t, hstep, h⟩ := Option.bind_eq_some_iff.mp h
      obtain ⟨x, hpool, rfl⟩ := Option.map_eq_some_iff.mp h
      exact .finish p i w t x hplace hstep hpool
    · cases h

/-! ## The sender's side of a connection -/

section Sender

open Exchange

variable {s s' : Exchange.State} {a : Exchange.Action}

/-- Only a compute thread that has computed hands blocks over, and only
`sendDone` says that one is sent. -/
theorem busy_of_step (hstep : Exchange.step job s a = some s')
    (hcompute : ∀ w out, a = .compute w out →
      computing (s.worker w).pc = false)
    (hdone : ∀ p w, a ≠ .sendDone p w) (p w : ℕ) :
    (s'.link p w).busy = (s.link p w).busy := by
  have hlink : ∀ {q v : ℕ} {l : Link}, s'.link = (s.setLink q v l).link →
      l.busy = (s.link q v).busy →
      (s'.link p w).busy = (s.link p w).busy := by
    intro q v l hlink hl
    refine link_cases (fun l => l.busy = _) hlink rfl ?_
    rintro rfl rfl
    exact hl
  cases Exchange.next_of_step hstep with
  | compute v out s' hup hc =>
    have hnot := hcompute v out rfl
    cases hc with
    | computed i hpc =>
      rw [hpc] at hnot
      cases hnot
    | connect j => exact hlink rfl rfl
    | _ => rfl
  | sendDone q v => exact absurd rfl (hdone q v)
  | send | parse | store | full => exact hlink rfl rfl
  | listen | readBegin | toHandle | toBlock | noSlot | count | bump | partly
  | collect | begin => rfl

/-- **Bytes are left to be sent** only of a block that a sending thread has,
or of a handshake. -/
def Quiet (job : Job) (s : Exchange.State) : Prop :=
  ∀ p < job.workers, ∀ w < job.workers, w ≠ p → (s.link p w).busy = false →
    (s.worker p).pc ≠ .greeting w → (s.link p w).outbox = []

/-- Every step keeps it: a send that is over has put all of its bytes on the
way, and the only step that fills an outbox is the one that makes the connection
busy. -/
theorem Quiet.step (h : Quiet job s) (hstep : Exchange.step job s a = some s') :
    Quiet job s' := by
  intro p hp w hw hne hbusy hgone
  have hsame : (s'.worker p).pc = (s.worker p).pc →
      s'.link p w = s.link p w → (s'.link p w).outbox = [] := by
    intro hpc hlink
    rw [hpc] at hgone
    rw [hlink] at hbusy ⊢
    exact h p hp w hw hne hbusy hgone
  -- a step at one connection leaves the others as they are
  have hother : ∀ {q v : ℕ} {l : Link}, (s'.worker p).pc = (s.worker p).pc →
      s'.link = (s.setLink q v l).link → l.busy = (s.link q v).busy →
      l.outbox = (s.link q v).outbox → (s'.link p w).outbox = [] := by
    intro q v l hpc hlink hl hout
    by_cases hqv : p = q ∧ w = v
    · obtain ⟨rfl, rfl⟩ := hqv
      rw [hpc] at hgone
      rw [hlink, setLink_self] at hbusy ⊢
      rw [hl] at hbusy
      rw [hout]
      exact h p hp w hw hne hbusy hgone
    · exact hsame hpc (by rw [hlink, setLink_of_ne _ _ _ _ hqv])
  cases Exchange.next_of_step hstep with
  | compute v out s' hup hc =>
    by_cases hv : p = v
    swap
    · exact hsame (by rw [hc.worker_of_ne hv]) (hc.link_of_ne hv)
    subst hv
    have hmoved : s'.link p w = s.link p w → (s.worker p).pc ≠ .greeting w →
        (s'.link p w).outbox = [] := by
      intro hlink hgone
      rw [hlink] at hbusy ⊢
      exact h p hp w hw hne hbusy hgone
    cases hc with
    -- the greeting is put in the outbox now: the compute thread stands at it
    | connect j hpc hj hjp =>
      rw [setLink_worker, setWorker_self] at hgone
      refine hmoved ?_ (by rw [hpc]; simp)
      rw [setLink_of_ne _ _ _ _ fun hc => hgone (by rw [hc.2])]
      rfl
    -- it goes on when the greeting has gone
    | greeted j hpc hout =>
      by_cases hwj : w = j
      · rw [hwj]
        exact hout
      · refine hmoved rfl ?_
        rw [hpc]
        exact fun hc => hwj (Pc.greeting.inj hc).symm
    -- all connections are busy from here on
    | computed i hpc hout =>
      have hbusy : (Function.update s.link p (fun j =>
          if j < job.workers ∧ j ≠ p then (s.link p j).queue (out j)
          else s.link p j) p w).busy = false := hbusy
      rw [Function.update_self, if_pos ⟨hw, hne⟩] at hbusy
      cases hbusy
    | refused j hpc | unreadable j hpc => exact hsame (by rw [setWorker_self]) rfl
    | load _ hpc | loaded _ hpc | connected _ hpc | self hpc | peers hpc
    | closePeers hpc | initSend hpc | initRecv hpc | received _ hpc
    | sent _ hpc | resetSend _ hpc | resetRecv _ hpc | ack _ hpc =>
      exact hmoved rfl (by rw [hpc]; simp)
  | readBegin v n i hup hpc =>
    by_cases hv : p = v
    · subst hv
      exact h p hp w hw hne hbusy (by rw [hpc]; simp)
    · exact hsame (by rw [setWorker_of_ne _ _ _ hv]) rfl
  | send q v n hup hv hvq hn hle =>
    by_cases hqv : p = q ∧ w = v
    · obtain ⟨rfl, rfl⟩ := hqv
      rw [setLink_self] at hbusy ⊢
      show (s.link p w).outbox.drop n = []
      rw [h p hp w hw hne hbusy hgone, List.drop_nil]
    · exact hsame rfl (setLink_of_ne _ _ _ _ hqv)
  | sendDone q v hup hvq =>
    obtain ⟨-, -, hout⟩ := busy_of_sendDone hstep
    by_cases hqv : p = q ∧ w = v
    · obtain ⟨rfl, rfl⟩ := hqv
      rw [setWorker_link, setLink_self]
      exact hout
    · exact hsame (pc_of_update rfl (by rfl) p)
        (by rw [setWorker_link, setLink_of_ne _ _ _ _ hqv])
  | parse v q n junk => exact hother (pc_of_update rfl (accept_pc _ _ _ _) p) rfl rfl rfl
  | store v q | full v q =>
    exact hother (pc_of_update rfl (by rfl) p) rfl rfl rfl
  | listen v | toHandle v | toBlock v | noSlot v | count v | bump v | partly v
  | collect v | begin => exact hsame (pc_of_update rfl (by rfl) p) rfl

/-- A compute thread that has computed hands every block over. -/
theorem computed_of_step {out : ℕ → List UInt8}
    (hstep : Exchange.step job s (.compute w out) = some s')
    (hcomputing : computing (s.worker w).pc = true) :
    handingOver (s'.worker w).pc = true ∧
      ∀ q ∈ peers job w, (s'.link w q).busy = true := by
  cases Exchange.next_of_step hstep with
  | compute v out s' hup hc =>
    cases hc with
    | computed i hpc =>
      refine ⟨?_, fun q hq => ?_⟩
      · show handingOver ((s.setWorker w _).worker w).pc = true
        rw [setWorker_self]
        rfl
      · obtain ⟨hne, hlt⟩ := mem_peers.mp hq
        show (Function.update s.link w _ w q).busy = true
        rw [Function.update_self, if_pos ⟨hlt, hne⟩]
        rfl
    | load _ hpc | loaded _ hpc | unreadable _ hpc | connected _ hpc | self hpc
    | connect _ hpc | refused _ hpc | greeted _ hpc | peers hpc | closePeers hpc | initSend hpc
    | initRecv hpc | received _ hpc | sent _ hpc | resetSend _ hpc
    | resetRecv _ hpc | ack _ hpc =>
      rw [hpc] at hcomputing
      cases hcomputing

/-- No other thread takes it to the loop or out of it. -/
theorem handingOver_of_step (hstep : Exchange.step job s a = some s')
    (hcompute : ∀ out, a ≠ .compute w out) :
    handingOver (s'.worker w).pc = handingOver (s.worker w).pc := by
  have hsame : (s'.worker w).pc = (s.worker w).pc →
      handingOver (s'.worker w).pc = handingOver (s.worker w).pc :=
    congrArg handingOver
  cases Exchange.next_of_step hstep with
  | compute v out s' hup hc =>
    refine hsame ?_
    rw [hc.worker_of_ne fun hv => hcompute out (by rw [hv])]
  | readBegin v n i hup hpc =>
    by_cases hv : w = v
    · subst hv
      rw [setWorker_self, hpc]
      rfl
    · exact hsame (by rw [setWorker_of_ne _ _ _ hv])
  | send q v n => exact hsame rfl
  | parse v q n junk => exact hsame (pc_of_update rfl (accept_pc _ _ _ _) w)
  | sendDone | store | full | listen | toHandle | toBlock | noSlot | count
  | bump | partly | collect | begin =>
    exact hsame (pc_of_update rfl (by rfl) w)

end Sender

/-! ## The invariant -/

/-- The works of an iteration are the peers. -/
theorem coe_works (job : Job) (p : ℕ) :
    (works job p : Multiset ℕ) = (peers job p).val := by
  refine (Multiset.Nodup.ext ?_ (peers job p).nodup).mpr fun w => ?_
  · exact Multiset.coe_nodup.mpr (List.nodup_range.filter _)
  · rw [Multiset.mem_coe, works, List.mem_filter, List.mem_range,
      Finset.mem_val, mem_peers]
    simp [and_comm]

/-- **The invariant**: the works outstanding in a pool are the peers whose
block is with a sending thread. -/
structure Inv (job : Job) (s : State) : Prop where
  /-- The pools. -/
  pool : ∀ p < job.workers, ThreadPool.Inv (threads job) (s.pool p)
  /-- The works. -/
  held : ∀ p < job.workers,
    ThreadPool.outstanding (threads job) (s.pool p) =
      (sending job p fun w => (s.exchange.link p w).busy).val
  /-- A compute thread is in its loop or has left it. -/
  loop : ∀ p < job.workers,
    handingOver (s.exchange.worker p).pc = false → ¬Pushing (s.pool p)
  /-- The bytes that are left to be sent. -/
  quiet : Quiet job s.exchange

/-- The initial state. -/
theorem Inv.init (job : Job) : Inv job init where
  pool _ _ := ThreadPool.Inv.init _
  held p _ := by
    have hnone : (sending job p fun w => (Exchange.init.link p w).busy) = ∅ :=
      Finset.filter_eq_empty_iff.mpr fun _ _ h => by cases h
    show ThreadPool.outstanding (threads job) ThreadPool.init =
      (sending job p fun w => (Exchange.init.link p w).busy).val
    rw [hnone, ThreadPool.outstanding_init]
    rfl
  loop _ _ _ h := h.elim (fun h => h rfl) fun h => h rfl
  quiet _ _ _ _ _ _ _ := rfl

/-- A step of `Exchange` in which no block is handed over or done. -/
theorem Inv.of_exchange (h : Inv job s) {a : Exchange.Action}
    {t : Exchange.State} (hallowed : Allowed job s a)
    (hstep : Exchange.step job s.exchange a = some t)
    (hcompute : ∀ w out, a = .compute w out →
      computing (s.exchange.worker w).pc = false) :
    Inv job ⟨t, s.pool⟩ where
  pool := h.pool
  held p hp := by
    have hbusy := busy_of_step hstep hcompute fun q v hdone => by
      rw [hdone] at hallowed
      exact hallowed
    show ThreadPool.outstanding (threads job) (s.pool p) =
      (sending job p fun w => (t.link p w).busy).val
    rw [funext (hbusy p)]
    exact h.held p hp
  loop p hp hloop := by
    by_cases hactor : ∃ out, a = .compute p out
    · obtain ⟨out, rfl⟩ := hactor
      by_cases hhand : handingOver (s.exchange.worker p).pc = true
      · exact hallowed hhand
      · exact h.loop p hp (Bool.eq_false_iff.mpr hhand)
    · push Not at hactor
      refine h.loop p hp ?_
      rw [← handingOver_of_step hstep hactor]
      exact hloop
  quiet := h.quiet.step hstep

/-- The compute thread enters its loop: it pushes a work for each peer, and
every connection becomes busy with a block, so that the works that are
outstanding are again the blocks that are not sent. -/
theorem Inv.of_computed (h : Inv job s) (hlive : Exchange.Live job s.exchange)
    {out : ℕ → List UInt8} {t : Exchange.State}
    (hstep : Exchange.step job s.exchange (.compute w out) = some t)
    (hcomputing : computing (s.exchange.worker w).pc = true) :
    Inv job ⟨t, Function.update s.pool w ((s.pool w).start (works job w))⟩ := by
  obtain ⟨hhand, hbusy⟩ := computed_of_step hstep hcomputing
  have hw : w < job.workers := (Exchange.of_guard hstep).1.1
  have hidle : (s.exchange.worker w).pc.handing = false := by
    -- before the loop no connection of the worker is busy
    cases hpc : (s.exchange.worker w).pc with
    | iter i stage =>
      rw [hpc] at hcomputing
      cases stage with
      | compute => rfl
      | _ => cases hcomputing
    | _ => rfl
  constructor
  · intro p hp
    by_cases hpw : p = w
    · subst hpw
      dsimp only
      rw [Function.update_self]
      exact (h.pool p hp).step (a := .start (works job p)) rfl
    · dsimp only
      rw [Function.update_of_ne hpw]
      exact h.pool p hp
  · intro p hp
    by_cases hpw : p = w
    · subst hpw
      -- nothing was outstanding, and all peers are now
      have hnone : (sending job p fun w => (s.exchange.link p w).busy) = ∅ :=
        Finset.filter_eq_empty_iff.mpr fun q hq hc =>
          Bool.false_ne_true (((hlive.sends p hp).idle hidle q hq).symm.trans hc)
      have hall : (sending job p fun w => (t.link p w).busy) = peers job p :=
        Finset.filter_true_of_mem hbusy
      dsimp only
      rw [Function.update_self, ThreadPool.outstanding_start, h.held p hp,
        hnone, hall, coe_works]
      exact zero_add _
    · have hlink : ∀ q, (t.link p q).busy = (s.exchange.link p q).busy := by
        intro q
        cases Exchange.next_of_step hstep with
        | compute v out s' hup hc => rw [hc.link_of_ne hpw]
      dsimp only
      rw [Function.update_of_ne hpw, funext hlink]
      exact h.held p hp
  · intro p hp hloop
    by_cases hpw : p = w
    · subst hpw
      exact absurd (hloop.symm.trans hhand) Bool.false_ne_true
    · dsimp only
      -- the other workers and their pools stand still
      rw [Function.update_of_ne hpw]
      refine h.loop p hp ?_
      rw [← handingOver_of_step hstep fun out hc =>
        hpw (Exchange.Action.compute.inj hc).1.symm]
      exact hloop
  · exact h.quiet.step hstep

/-- A step inside a pool. -/
theorem Inv.of_pool (h : Inv job s) {b : ThreadPool.Action ℕ}
    {x : ThreadPool.State ℕ} (hp : p < job.workers) (hb : b.Internal)
    (hstep : ThreadPool.step (threads job) (s.pool p) b = some x) :
    Inv job { s with pool := Function.update s.pool p x } := by
  have hpools : ∀ (P : ℕ → ThreadPool.State ℕ → Prop), P p x →
      (∀ q < job.workers, P q (s.pool q)) →
      ∀ q < job.workers, P q (Function.update s.pool p x q) := by
    intro P hnew hold q hq
    by_cases hqp : q = p
    · subst hqp
      rw [Function.update_self]
      exact hnew
    · rw [Function.update_of_ne hqp]
      exact hold q hq
  refine ⟨?_, ?_, ?_, h.quiet⟩
  · exact hpools _ ((h.pool p hp).step hstep) h.pool
  · refine hpools (fun q y => ThreadPool.outstanding (threads job) y =
      (sending job q fun w => (s.exchange.link q w).busy).val) ?_ h.held
    rw [(h.pool p hp).outstanding_internal hb hstep]
    exact h.held p hp
  · refine hpools (fun q y => handingOver (s.exchange.worker q).pc = false →
      ¬Pushing y) (fun hloop => ?_) h.loop
    have hnot := h.loop p hp hloop
    unfold Pushing at hnot ⊢
    push Not at hnot ⊢
    exact ThreadPool.idle_of_internal hb hstep hnot.1 hnot.2

/-- A sending thread ends. -/
theorem Inv.of_finish (h : Inv job s) {i : ℕ} {t : Exchange.State}
    {x : ThreadPool.State ℕ} (hplace : (s.pool p).thread i = .run w)
    (hsent : Exchange.step job s.exchange (.sendDone p w) = some t)
    (hstep : ThreadPool.step (threads job) (s.pool p) (.finish i) = some x) :
    Inv job ⟨t, Function.update s.pool p x⟩ := by
  have hp : p < job.workers := (Exchange.of_guard hsent).1.1.1
  obtain ⟨hw, hbusy, -⟩ := Exchange.busy_of_sendDone hsent
  have hwp : w ≠ p := (Exchange.of_guard hsent).1.2.2
  obtain ⟨hless, hpusher, htodo⟩ :=
    (h.pool p hp).outstanding_finish hplace hstep
  have ht : t = (s.exchange.setLink p w
      { s.exchange.link p w with busy := false }).setWorker p
      { s.exchange.worker p with
        sendJobNum := (s.exchange.worker p).sendJobNum - 1 } := by
    cases Exchange.next_of_step hsent with
    | sendDone => rfl
  constructor
  · intro q hq
    by_cases hqp : q = p
    · subst hqp
      dsimp only
      rw [Function.update_self]
      exact (h.pool q hq).step hstep
    · dsimp only
      rw [Function.update_of_ne hqp]
      exact h.pool q hq
  · intro q hq
    by_cases hqp : q = p
    · subst hqp
      -- the peer leaves both
      have herase : (sending job q fun v => (t.link q v).busy) =
          (sending job q fun v => (s.exchange.link q v).busy).erase w := by
        ext v
        rw [Finset.mem_erase, sending, sending, Finset.mem_filter,
          Finset.mem_filter, ht, Exchange.setWorker_link]
        by_cases hv : v = w
        · subst hv
          simp
        · rw [Exchange.setLink_of_ne _ _ _ _ fun hc => hv hc.2]
          simp [hv]
      have hmem : w ∈ (sending job q fun v => (s.exchange.link q v).busy).val :=
        Finset.mem_filter.mpr ⟨mem_peers.mpr ⟨hwp, hw⟩, hbusy⟩
      dsimp only
      rw [Function.update_self, herase, Finset.erase_val, ← h.held q hq,
        ← hless, Multiset.erase_add_right_pos _ (Multiset.mem_singleton_self w)]
      simp
    · have hlink : ∀ v, (t.link q v).busy = (s.exchange.link q v).busy := by
        intro v
        rw [ht, Exchange.setWorker_link,
          Exchange.setLink_of_ne _ _ _ _ fun hc => hqp hc.1]
      dsimp only
      rw [Function.update_of_ne hqp, funext hlink]
      exact h.held q hq
  · intro q hq hloop
    rw [handingOver_of_step hsent fun out hc => by cases hc] at hloop
    have hnot := h.loop q hq hloop
    by_cases hqp : q = p
    · subst hqp
      dsimp only
      rw [Function.update_self, Pushing, hpusher, htodo]
      exact hnot
    · dsimp only
      rw [Function.update_of_ne hqp]
      exact hnot
  · exact h.quiet.step hsent

/-- **Every step keeps the invariant.** -/
theorem Inv.step (h : Inv job s) (hlive : Exchange.Live job s.exchange)
    (hstep : PooledExchange.step job s a = some s') : Inv job s' := by
  cases next_of_step hstep with
  | exchange b t hallowed hb =>
    cases b with
    | compute w out =>
      by_cases hcomputing : computing (s.exchange.worker w).pc = true
      · rw [poolsAfter, if_pos hcomputing]
        exact h.of_computed hlive hb hcomputing
      · rw [poolsAfter, if_neg hcomputing]
        refine h.of_exchange hallowed hb fun v out' hc => ?_
        obtain ⟨rfl, -⟩ := Exchange.Action.compute.inj hc
        exact Bool.eq_false_iff.mpr hcomputing
    | _ => exact h.of_exchange hallowed hb fun v out hc => by cases hc
  | pool p b x hup hb hx => exact h.of_pool hup.1 hb hx
  | finish p i w t x hplace hsent hx => exact h.of_finish hplace hsent hx

/-! ## Seen through `exchange` -/

/-- **A step is one of `Exchange`**, or leaves the workers as they are. -/
theorem exchange_of_step {ok : Exchange.State → Exchange.Action → Prop}
    (hok : Under ok s a) (hstep : step job s a = some s') :
    s'.exchange = s.exchange ∨
      ∃ b, ok s.exchange b ∧
        Exchange.step job s.exchange b = some s'.exchange := by
  cases next_of_step hstep with
  | exchange b t hallowed hb => exact Or.inr ⟨b, hok b rfl, hb⟩
  | pool p b x hup hb hx => exact Or.inl rfl
  | finish p i w t x hplace hsent hx =>
    exact Or.inr ⟨.sendDone p w, hok _ (under_finish hplace), hsent⟩

/-- **The runs are runs of `Exchange`.** -/
theorem exchange_of_run {ok : Exchange.State → Exchange.Action → Prop}
    {as : List Action} (hrun : Run (step job) (Under ok) s as s') :
    ∃ bs, bs.length ≤ as.length ∧
      Run (Exchange.step job) ok s.exchange bs s'.exchange :=
  hrun.project State.exchange fun _ _ _ hok hstep => exchange_of_step hok hstep

/-- All of the invariant holds in a run whose steps are orderly. -/
theorem inv_of_run {as : List Action}
    (hrun : Run (step job) (Under Exchange.Orderly) init as s) :
    Inv job s ∧ Exchange.Inv job s.exchange ∧ Exchange.Live job s.exchange := by
  refine hrun.invariant
    (I := fun s => Inv job s ∧ Exchange.Inv job s.exchange ∧
      Exchange.Live job s.exchange) (fun s a s' h hok hstep => ?_)
    ⟨Inv.init job, Exchange.Inv.init job, Exchange.Live.init job⟩
  refine ⟨h.1.step h.2.2 hstep, ?_⟩
  rcases exchange_of_step hok hstep with hsame | ⟨b, hb, hnext⟩
  · rw [hsame]
    exact h.2
  · exact ⟨h.2.1.step hb hnext, h.2.2.step h.2.1 hnext⟩

/-- A peer has at most one work. -/
theorem Inv.nodup (h : Inv job s) (hp : p < job.workers) :
    (ThreadPool.outstanding (threads job) (s.pool p)).Nodup := by
  rw [h.held p hp]
  exact Finset.nodup _

/-- The work of a peer is outstanding as long as its block is. -/
theorem Inv.mem_outstanding (h : Inv job s) (hp : p < job.workers) :
    w ∈ ThreadPool.outstanding (threads job) (s.pool p) ↔
      (w ≠ p ∧ w < job.workers) ∧ (s.exchange.link p w).busy = true := by
  rw [h.held p hp, Finset.mem_val, sending, Finset.mem_filter, mem_peers]

/-- **One thread sends to a peer.** Whatever the pools and the workers do
together is a run of `Exchange`. In it no pool reads an empty queue; the
works that are outstanding are the peers whose block is not sent, each once,
and `send_job_num` is their number; no two threads send to the same peer;
and outside the two waits of the main loop the pool has nothing to do. -/
theorem sent_by_one {as : List Action}
    (hrun : Run (step job) (Under Exchange.Orderly) init as s) :
    (∃ bs, bs.length ≤ as.length ∧
      Run (Exchange.step job) Exchange.Orderly Exchange.init bs s.exchange) ∧
    ∀ p < job.workers, (s.pool p).failed = false ∧
      (∀ w, w ∈ ThreadPool.outstanding (threads job) (s.pool p) ↔
        (w ≠ p ∧ w < job.workers) ∧ (s.exchange.link p w).busy = true) ∧
      (∀ i < threads job, ∀ j < threads job, ∀ w,
        (s.pool p).thread i = .run w → (s.pool p).thread j = .run w → i = j) ∧
      ((s.exchange.worker p).pc.handing = true →
        (s.exchange.worker p).sendJobNum =
          (ThreadPool.outstanding (threads job) (s.pool p)).card) ∧
      ((s.exchange.worker p).pc.handing = false →
        ThreadPool.outstanding (threads job) (s.pool p) = 0) := by
  obtain ⟨h, -, hlive⟩ := inv_of_run hrun
  refine ⟨exchange_of_run hrun, fun p hp => ⟨(h.pool p hp).alive,
    fun w => h.mem_outstanding hp, fun i hi j hj w =>
      ThreadPool.eq_of_run (h.nodup hp) hi hj, fun hhand => ?_,
    fun hhand => ?_⟩⟩
  · rw [(hlive.sends p hp).counts hhand, h.held p hp]
    rfl
  · refine Multiset.eq_zero_of_forall_notMem fun w hw => ?_
    obtain ⟨hpeer, hbusy⟩ := (h.mem_outstanding hp).mp hw
    rw [(hlive.sends p hp).idle hhand w (mem_peers.mpr hpeer)] at hbusy
    cases hbusy

/-- Two workers, of which the first has computed; its pool has taken the work
and sends the block. -/
def firstBlock : List Action :=
  (Exchange.startAll ++ Exchange.beginAll ++
      Exchange.computeAt 0 [1]).map .exchange ++
    List.replicate 5 (.pool 0 .push) ++ List.replicate 4 (.pool 0 (.go 0)) ++
    [.exchange (.send 0 1 1)]

/-- They are in the middle of their first iteration. -/
theorem sent_by_one_twoWorkers :
    ∃ s, Run (step (Exchange.twoWorkers 1 (by decide)))
        (Under Exchange.Orderly) init firstBlock s ∧
      (s.pool 0).failed = false ∧
      1 ∈ ThreadPool.outstanding 1 (s.pool 0) := by
  obtain ⟨s, hrun, hbusy⟩ := Transition.exists_run
    (step (Exchange.twoWorkers 1 (by decide))) (Under Exchange.Orderly) init
    firstBlock (fun s => (s.exchange.link 0 1).busy = true) (by decide +kernel)
  obtain ⟨halive, hmem, -⟩ := (sent_by_one hrun).2 0 Nat.two_pos
  exact ⟨s, hrun, halive, (hmem 1).mpr ⟨⟨Nat.one_ne_zero, Nat.one_lt_two⟩, hbusy⟩⟩

/-! ## The pools keep up -/

/-- A step can be taken by the rules of `Exchange.Steady`. -/
def CanGoOn (job : Job) (s : State) : Prop :=
  ∃ a s', Under (Exchange.Steady job) s a ∧ step job s a = some s'

/-- A pool that can move is a step that can be taken. -/
theorem canGoOn_of_pool (hup : s.exchange.Up job p)
    (hmove : ThreadPool.CanMove (threads job) (s.pool p)) : CanGoOn job s := by
  obtain ⟨b, x, hb, hstep⟩ := hmove
  refine ⟨.pool p b, { s with pool := Function.update s.pool p x },
    fun c hc => absurd hc (Option.not_mem_none c), ?_⟩
  show (if s.exchange.Up job p ∧ b.Internal then _ else none) = _
  rw [if_pos ⟨hup, hb⟩, hstep]
  rfl

/-- A step of `Exchange` that the pools leave to be done. -/
theorem canGoOn_of_exchange {b : Exchange.Action} {t : Exchange.State}
    (hok : Exchange.Steady job s.exchange b)
    (hstep : Exchange.step job s.exchange b = some t)
    (hallowed : Allowed job s b) : CanGoOn job s := by
  refine ⟨.exchange b, ⟨t, poolsAfter job s b⟩, fun c hc => ?_, ?_⟩
  · obtain rfl := Option.some.inj hc
    exact hok
  · show (if Allowed job s b then _ else none) = _
    rw [if_pos hallowed, hstep]
    rfl

/-- **The work for a peer is being run, or on its way to a thread.** -/
theorem Inv.run_or_move (h : Inv job s) (hp : p < job.workers) (hwp : w ≠ p)
    (hw : w < job.workers) (hbusy : (s.exchange.link p w).busy = true) :
    (∃ i < threads job, (s.pool p).thread i = .run w) ∨
      ThreadPool.CanMove (threads job) (s.pool p) := by
  by_cases hrun : ∃ i < threads job, (s.pool p).thread i = .run w
  · exact Or.inl hrun
  push Not at hrun
  refine Or.inr ((h.pool p hp).canMove_of_outstanding
    ((h.mem_outstanding hp).mpr ⟨⟨hwp, hw⟩, hbusy⟩) ?_ hrun)
  rw [h.held p hp, threads, ← Exchange.card_peers hp]
  exact Finset.card_le_card (Finset.filter_subset _ _)

/-- **Nobody waits for ever**: where a step of `Exchange` can be taken, it can
be taken here, or a pool can move. -/
theorem Inv.canGoOn (h : Inv job s) {b : Exchange.Action} {t : Exchange.State}
    (hok : Exchange.Steady job s.exchange b)
    (hstep : Exchange.step job s.exchange b = some t) : CanGoOn job s := by
  cases b with
  | compute w out =>
    have hw := (Exchange.of_guard hstep).1
    by_cases hpushing : Pushing (s.pool w)
    · exact canGoOn_of_pool hw ((h.pool w hw.1).canMove_of_pushing hpushing)
    · exact canGoOn_of_exchange hok hstep fun _ => hpushing
  | send p w n =>
    obtain ⟨⟨hup, hw, hwp⟩, hsend⟩ := Exchange.of_guard hstep
    obtain ⟨⟨hn, -, hle⟩, -⟩ := Exchange.of_guard hsend
    by_cases hgreeting : (s.exchange.worker p).pc = .greeting w
    · exact canGoOn_of_exchange hok hstep (Or.inl hgreeting)
    have hbusy : (s.exchange.link p w).busy = true := by
      by_contra hnot
      have hnil := h.quiet p hup.1 w hw hwp (Bool.eq_false_iff.mpr hnot)
        hgreeting
      rw [hnil, List.length_nil] at hle
      omega
    rcases h.run_or_move hup.1 hwp hw hbusy with hplace | hmove
    · exact canGoOn_of_exchange hok hstep (Or.inr hplace)
    · exact canGoOn_of_pool hup hmove
  | sendDone p w =>
    obtain ⟨⟨hup, hw, hwp⟩, -⟩ := Exchange.of_guard hstep
    obtain ⟨-, hbusy, -⟩ := Exchange.busy_of_sendDone hstep
    rcases h.run_or_move hup.1 hwp hw hbusy with ⟨i, hi, hplace⟩ | hmove
    · -- the work returns
      obtain ⟨x, hx⟩ : ∃ x, ThreadPool.step (threads job) (s.pool p)
          (.finish i) = some x := by
        refine ⟨{ s.pool p with
          thread := Function.update (s.pool p).thread i .back
          finished := (s.pool p).finished ++ [w] }, (if_pos hi).trans ?_⟩
        unfold ThreadPool.finishStep
        rw [hplace]
      refine ⟨.finish p i, ⟨t, Function.update s.pool p x⟩, fun c hc => ?_, ?_⟩
      · rw [under_finish hplace] at hc
        obtain rfl := Option.some.inj hc
        exact hok
      · rw [step_finish hplace, hstep, hx]
        rfl
    · exact canGoOn_of_pool hup hmove
  | listen | readBegin | dispatch | receive | bump | drain | collect | begin =>
    exact canGoOn_of_exchange hok hstep trivial

/-! ## Whole runs -/

/-- What the pools have before them. -/
def rests (job : Job) (pool : ℕ → ThreadPool.State ℕ) : ℕ :=
  ∑ p ∈ Finset.range job.workers, ThreadPool.rest (threads job) (pool p)

/-- Only the pool that moves has more or less before it. -/
theorem rests_update (pool : ℕ → ThreadPool.State ℕ) (hp : p < job.workers)
    (x : ThreadPool.State ℕ) :
    rests job (Function.update pool p x) +
        ThreadPool.rest (threads job) (pool p) =
      rests job pool + ThreadPool.rest (threads job) x := by
  have h := Transition.sum_exchange
    (f := fun q => ThreadPool.rest (threads job) (Function.update pool p x q))
    (g := fun q => ThreadPool.rest (threads job) (pool q)) hp fun q hq => by
      rw [Function.update_of_ne hq]
  rwa [Function.update_self] at h

/-- **What is left to be done.** A step of `Exchange` pays for the eleven
steps of each work that it gives. -/
def remaining (job : Job) (s : State) : ℕ :=
  11 * job.workers * Exchange.remaining job s.exchange + rests job s.pool

theorem length_works (hp : p < job.workers) :
    (works job p).length = threads job := by
  rw [← Multiset.coe_card, coe_works, threads, ← Exchange.card_peers hp]
  rfl

/-- The loop of a compute thread gives a work for each peer. -/
theorem rests_after (job : Job) (s : State) (b : Exchange.Action)
    (hup : ∀ w out, b = .compute w out → w < job.workers) :
    rests job (poolsAfter job s b) + 11 ≤ rests job s.pool + 11 * job.workers ∨
      poolsAfter job s b = s.pool := by
  cases b with
  | compute w out =>
    have hpools : poolsAfter job s (.compute w out) =
        if computing (s.exchange.worker w).pc then
          Function.update s.pool w ((s.pool w).start (works job w))
        else s.pool := rfl
    rw [hpools]
    by_cases hcomputing : computing (s.exchange.worker w).pc = true
    · have hw := hup w out rfl
      have hsum := rests_update s.pool hw ((s.pool w).start (works job w))
      rw [ThreadPool.rest_start, length_works hw] at hsum
      rw [if_pos hcomputing]
      unfold threads at hsum
      omega
    · exact Or.inr (if_neg hcomputing)
  | _ => exact Or.inr rfl

/-- **Every step takes something away from what is left.** A step of the workers
is worth eleven steps of every thread, which is what the pools may need when it
has filled their queues; any other step is one of those. -/
theorem Inv.remaining_lt (h : Inv job s)
    (hinv : Exchange.Inv job s.exchange) (hpace : Exchange.Pace job s.exchange)
    (hok : Under (Exchange.Steady job) s a)
    (hstep : PooledExchange.step job s a = some s') :
    remaining job s' < remaining job s := by
  have hlower : ∀ {b : Exchange.Action} {t : Exchange.State},
      Exchange.Steady job s.exchange b →
      Exchange.step job s.exchange b = some t → 0 < job.workers ∧
      11 * job.workers * Exchange.remaining job t + 11 * job.workers ≤
        11 * job.workers * Exchange.remaining job s.exchange := by
    intro b t hsteady hb
    have hlt := Exchange.remaining_lt hinv hpace hsteady.1.2.1 hsteady.2.1 hb
    refine ⟨Nat.pos_of_ne_zero fun hzero => ?_, ?_⟩
    · rw [Exchange.remaining, Exchange.remaining, hzero] at hlt
      exact absurd hlt (lt_irrefl 0)
    · rw [← Nat.mul_succ]
      exact Nat.mul_le_mul_left _ hlt
  unfold remaining
  cases next_of_step hstep with
  | exchange b t hallowed hb =>
    obtain ⟨hworkers, hless⟩ := hlower (hok b rfl) hb
    dsimp only
    -- the pools have more to do after it only if the loop has been entered
    rcases rests_after job s b fun w out hc => by
      subst hc
      exact (Exchange.of_guard hb).1.1 with hafter | hsame
    · omega
    · rw [hsame]
      omega
  | pool p b x hup hb hx =>
    have hsum := rests_update s.pool hup.1 x
    have hrest := (h.pool p hup.1).rest_step hb.goes hx
    dsimp only
    omega
  -- the step that ends a work is a step of both sides
  | finish p i w t x hplace hsent hx =>
    have hp : p < job.workers := (Exchange.of_guard hsent).1.1.1
    obtain ⟨-, hless⟩ := hlower (hok _ (under_finish hplace)) hsent
    have hsum := rests_update s.pool hp x
    have hrest := (h.pool p hp).rest_step (a := .finish i) trivial hx
    dsimp only
    omega

/-- All that is known of the runs of `Exchange`, and the pools' part. -/
theorem live_of_run {as : List Action}
    (hrun : Run (step job) (Under (Exchange.Steady job)) init as s) :
    Inv job s ∧ Exchange.Inv job s.exchange ∧ Exchange.Live job s.exchange ∧
      Exchange.Pace job s.exchange ∧ Exchange.Running job s.exchange := by
  obtain ⟨bs, -, hbelow⟩ := exchange_of_run hrun
  exact ⟨(inv_of_run (hrun.mono fun s a hok b hb => (hok b hb).1)).1,
    Exchange.live_of_run hbelow⟩

/-- The runs are bounded. -/
theorem remaining_run {as : List Action}
    (hrun : Run (step job) (Under (Exchange.Steady job)) init as s) :
    as.length + remaining job s ≤
      11 * job.workers * Exchange.longest job := by
  have hinit : remaining job init = 11 * job.workers * Exchange.longest job := by
    have hrests : rests job init.pool = 0 :=
      Finset.sum_eq_zero fun p _ => by
        simp [init, ThreadPool.init, ThreadPool.rest, ThreadPool.total,
          ThreadPool.Place.rest, ThreadPool.Pusher.rest]
    rw [remaining, hrests, ← Exchange.remaining_init]
    rfl
  rw [← hinit]
  refine hrun.length_le
    (I := fun s => Inv job s ∧ Exchange.Inv job s.exchange ∧
      Exchange.Live job s.exchange ∧ Exchange.Pace job s.exchange)
    (fun s a s' h hok hstep => ⟨⟨h.1.step h.2.2.1 hstep, ?_⟩,
      h.1.remaining_lt h.2.1 h.2.2.2 hok hstep⟩) ?_
  · rcases exchange_of_step hok hstep with hsame | ⟨b, hb, hnext⟩
    · rw [hsame]
      exact h.2
    · exact ⟨h.2.1.step hb.1 hnext, h.2.2.1.step h.2.1 hnext,
        h.2.2.2.step hnext⟩
  · have hnil : Run (step job) (Under (Exchange.Steady job)) init [] init :=
      Run.nil init
    obtain ⟨h, hinv, hlive, hpace, -⟩ := live_of_run hnil
    exact ⟨h, hinv, hlive, hpace⟩

/-- **With the pools the workers compute all iterations.** Where the sizes of
the blocks agree and each is read in one chunk, a run in which the workers' steps are
orderly and nobody stops is bounded, whatever steps the threads of the pools
take between; some step can be taken as long as the iterations are not over;
and the run is part of one that gets to their end, with every block of every
iteration counted and nothing outstanding in the pools. -/
theorem completes_with_pools (hsize : job.WellSized) {as : List Action}
    (hrun : Run (step job) (Under (Exchange.Steady job)) init as s) :
    as.length ≤ 11 * job.workers * Exchange.longest job ∧
      (Exchange.Finished job s.exchange ∨ CanGoOn job s) ∧
      ∃ bs s', Run (step job) (Under (Exchange.Steady job)) s bs s' ∧
        Exchange.Finished job s'.exchange ∧
        ∀ p < job.workers,
          ThreadPool.outstanding (threads job) (s'.pool p) = 0 ∧
            ∀ w < job.workers, w ≠ p →
              (s'.exchange.link p w).arrived.counted = job.iterations := by
  have hgoOn : ∀ {as : List Action} {s : State},
      Run (step job) (Under (Exchange.Steady job)) init as s →
      Exchange.Finished job s.exchange ∨ CanGoOn job s := by
    intro as s h
    obtain ⟨hpools, hinv, hlive, hpace, hrunning⟩ := live_of_run h
    rcases Exchange.canGoOn_or_finished hinv hlive hpace hrunning hsize with
      ⟨b, t, hok, hnew, hstep, hrunning'⟩ | hfin
    · refine Or.inr (hpools.canGoOn ⟨hok, hnew, fun u hu => ?_⟩ hstep)
      rw [hstep] at hu
      rw [← Option.some.inj hu]
      exact hrunning'
    · exact Or.inl hfin
  have hbound : ∀ bs s', Run (step job) (Under (Exchange.Steady job)) s bs s' →
      bs.length ≤ 11 * job.workers * Exchange.longest job := by
    intro bs s' hmore
    have hle := remaining_run (hrun.append hmore)
    rw [List.length_append] at hle
    omega
  -- by the bound a run that can always go on must get to the end
  obtain ⟨bs, s', hmore, hfin⟩ := Run.exists_end hbound
    fun bs s' hmore => hgoOn (hrun.append hmore)
  obtain ⟨-, hinv, -, -, hrunning⟩ := live_of_run (hrun.append hmore)
  have hsafe := (sent_by_one ((hrun.append hmore).mono
    fun s a hok b hb => (hok b hb).1)).2
  refine ⟨(Nat.le_add_right _ _).trans (remaining_run hrun), hgoOn hrun, bs, s',
    hmore, hfin, fun p hp => ⟨(hsafe p hp).2.2.2.2 ?_, fun w hw hwp =>
      hfin.counted hinv hrunning hp hw hwp⟩⟩
  rw [hfin p hp]
  rfl

/-- Two workers in the middle of their first iteration. -/
theorem completes_with_pools_twoWorkers :
    ∃ s bs s', Run (step (Exchange.twoWorkers 1 (by decide)))
        (Under (Exchange.Steady (Exchange.twoWorkers 1 (by decide)))) init
        firstBlock s ∧
      Run (step (Exchange.twoWorkers 1 (by decide)))
        (Under (Exchange.Steady (Exchange.twoWorkers 1 (by decide)))) s bs s' ∧
      Exchange.Finished (Exchange.twoWorkers 1 (by decide)) s'.exchange := by
  have hsize : (Exchange.twoWorkers 1 (by decide)).WellSized :=
    ⟨fun _ _ _ _ _ => rfl, Exchange.readable_twoWorkers⟩
  obtain ⟨s, hrun, -⟩ := Transition.exists_run
    (step (Exchange.twoWorkers 1 (by decide)))
    (Under (Exchange.Steady (Exchange.twoWorkers 1 (by decide)))) init
    firstBlock (fun _ => True) (by decide +kernel)
  obtain ⟨-, -, bs, s', hmore, hfin, -⟩ := completes_with_pools hsize hrun
  exact ⟨s, bs, s', hrun, hmore, hfin⟩

end PooledExchange
