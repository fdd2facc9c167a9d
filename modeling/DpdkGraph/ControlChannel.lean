import Mathlib
import DpdkGraph.Transition

/-!
# The control connections

Every worker has one connection to the master, on which it sends, one after
the other, the acknowledgement of its schedule, a message that it has
loaded, one acknowledgement for each iteration, and its list of top
vertices. The messages carry no length: the master takes what one `read`
returns for one message, at four different places. This module models the
connections byte by byte and asks whether the reads return the messages.

They do not in general (`not_framed_coalescedTop`). They do when no read
returns a part of what has been sent, and when a worker does not send two
messages in a row at the two places where nothing makes it wait
(`framed_of_run`).
-/

namespace ControlChannel

open Transition (Run exists_run)

/-! ## The messages -/

/-- What a job fixes. -/
structure Setup where
  /-- `M`. -/
  workers : ℕ
  /-- `niters`. -/
  iterations : ℕ
  /-- `ntop`. -/
  ntop : ℕ
  /-- The length of the package `S`. -/
  scheduleSize : ℕ
  /-- What worker `k` sends as its top list: the type of the values, then
  `ntop` pairs of four bytes each. -/
  topList : ℕ → List UInt8
  /-- The length of the list does not depend on its entries. -/
  topList_length : ∀ k, (topList k).length = ntop * 8 + 4
  /-- The package is built in a buffer of one megabyte. -/
  scheduleSize_le : scheduleSize ≤ 1024 * 1024
  /-- It is not empty. -/
  scheduleSize_pos : 0 < scheduleSize

/-- `"XGACKS"`. -/
def xgacks : List UInt8 := [0x58, 0x47, 0x41, 0x43, 0x4b, 0x53]

/-- `"XGREQS"`. -/
def xgreqs : List UInt8 := [0x58, 0x47, 0x52, 0x45, 0x51, 0x53]

/-- The length of `"tbegin"`. -/
def tbeginSize : ℕ := 6

/-- How many bytes the master asks for at an acknowledgement. -/
def ackCapacity : ℕ := 1024

/-- How many bytes the master asks for at a top list. -/
def topCapacity : ℕ := 1024 * 1024 * 10

/-! ## The system -/

/-- Where a worker is. -/
inductive WorkerPc
  /-- Reading the package `S`. -/
  | waitSchedule
  /-- Sending the acknowledgement of it. -/
  | schedAck
  /-- Loading, then sending the message about it. -/
  | loading
  /-- At the head of the main loop, with `i` iterations done. Beyond the
  last one the top list is sent. -/
  | head (i : ℕ)
  /-- In iteration `i`, then sending the acknowledgement of it. -/
  | working (i : ℕ)
  /-- The top list is sent. -/
  | finished
deriving DecidableEq

/-- A worker and its connection. -/
structure Worker where
  /-- Where it is. -/
  pc : WorkerPc
  /-- How many bytes from the master are unread. -/
  fromMaster : ℕ
  /-- The bytes for the master that are unread. -/
  toMaster : List UInt8
  /-- The messages sent so far. -/
  sent : List (List UInt8)
  /-- What the master's reads have returned so far. -/
  reads : List (List UInt8)

/-- Where the master is. -/
inductive Phase
  /-- Sending worker `k` its schedule. -/
  | schedule (k : ℕ)
  /-- Reading the acknowledgement of it. -/
  | awaitSchedule (k : ℕ)
  /-- Reading one message from every worker: with `r = 0` that they have
  loaded, then the acknowledgements of iteration `r - 1`. -/
  | collect (r : ℕ)
  /-- Beginning iteration `r`: `next` workers have been sent `tbegin`. -/
  | begin (r next : ℕ)
  /-- Reading the top lists. -/
  | top
deriving DecidableEq

/-- The whole system. -/
structure State where
  /-- The workers. -/
  worker : ℕ → Worker
  /-- Where the master is. -/
  phase : Phase
  /-- Which workers have been read from at this place. -/
  got : ℕ → Bool
  /-- Whether the assertion about the header has failed. -/
  failed : Bool
  /-- What the master takes for the top list of a worker. -/
  tops : ℕ → Option (List UInt8)

/-- The state in which the master sends the first schedule. -/
def init : State where
  worker _ := ⟨.waitSchedule, 0, [], [], []⟩
  phase := .schedule 0
  got _ := false
  failed := false
  tops _ := none

/-- Replaces worker `k`. -/
def State.setWorker (s : State) (k : ℕ) (x : Worker) : State :=
  { s with worker := Function.update s.worker k x }

/-- What can happen next. -/
inductive Action
  /-- The master sends the next schedule. -/
  | sendSchedule
  /-- A `read` or `recv` of the master returns `n` bytes of worker `k`;
  `junk` is what follows them in the buffer. -/
  | receive (k n : ℕ) (junk : List UInt8)
  /-- The master has read from all workers. -/
  | advance
  /-- The master sends the next `tbegin`. -/
  | begin
  /-- A `read` of worker `k` returns `n` bytes. -/
  | workerRead (k n : ℕ)
  /-- Worker `k` sends its next message. -/
  | workerSend (k : ℕ)

/-- `write(hosts[k].first, buf, len)` with the package `S`. -/
def sendScheduleStep (e : Setup) (s : State) : Option State :=
  match s.phase with
  | .schedule k =>
    if k < e.workers then
      let x := s.worker k
      some { s.setWorker k
          { x with fromMaster := x.fromMaster + e.scheduleSize } with
        phase := .awaitSchedule k }
    else none
  | _ => none

/-- The place after the acknowledgement of the schedule of worker `i`. -/
def Setup.afterSchedule (e : Setup) (i : ℕ) : Phase :=
  if i + 1 = e.workers then .collect 0 else .schedule (i + 1)

/-- The place after `next` has been sent the `tbegin` of iteration `r`. -/
def Setup.afterBegin (e : Setup) (r next : ℕ) : Phase :=
  if next + 1 = e.workers then .collect (r + 1) else .begin r (next + 1)

/-- The reads of the master. -/
def receiveStep (e : Setup) (s : State) (k n : ℕ) (junk : List UInt8) :
    Option State :=
  let x := s.worker k
  let bytes := x.toMaster.take n
  let taken := s.setWorker k
    { x with toMaster := x.toMaster.drop n, reads := x.reads ++ [bytes] }
  if k < e.workers ∧ 0 < n ∧ n ≤ x.toMaster.length then
    match s.phase with
    | .awaitSchedule i =>
      if i = k ∧ n ≤ ackCapacity then
        -- the buffer still holds the package sent
        if (bytes ++ xgreqs.drop n).take 6 = xgacks then
          some { taken with phase := e.afterSchedule i }
        else some { taken with failed := true }
      else none
    | .collect _ =>
      if s.got k = false ∧ n ≤ ackCapacity then
        some { taken with got := Function.update s.got k true }
      else none
    | .top =>
      if s.got k = false ∧ n ≤ topCapacity then
        some { taken with
          got := Function.update s.got k true
          tops := Function.update s.tops k
            (some ((bytes ++ junk).take (e.ntop * 8 + 4))) }
      else none
    | _ => none
  else none

/-- `while(cc < M) {}`. -/
def advanceStep (e : Setup) (s : State) : Option State :=
  match s.phase with
  | .collect r =>
    if ∀ k < e.workers, s.got k = true then
      some { s with
        phase := if r < e.iterations then .begin r 0 else .top
        got := fun _ => false }
    else none
  | _ => none

/-- `send(hosts[i].first, "tbegin", 6, 0)`. -/
def beginStep (e : Setup) (s : State) : Option State :=
  match s.phase with
  | .begin r next =>
    if next < e.workers then
      let x := s.worker next
      some { s.setWorker next
          { x with fromMaster := x.fromMaster + tbeginSize } with
        phase := e.afterBegin r next }
    else none
  | _ => none

/-- The reads of a worker. -/
def workerReadStep (e : Setup) (s : State) (k n : ℕ) : Option State :=
  let x := s.worker k
  if k < e.workers ∧ 0 < n ∧ n ≤ x.fromMaster then
    match x.pc with
    | .waitSchedule =>
      if n ≤ 1024 * 1024 then
        some (s.setWorker k
          { x with pc := .schedAck, fromMaster := x.fromMaster - n })
      else none
    | .head i =>
      if i < e.iterations ∧ n ≤ 1024 then
        some (s.setWorker k
          { x with pc := .working i, fromMaster := x.fromMaster - n })
      else none
    | _ => none
  else none

/-- Puts a message on the connection to the master. -/
def Worker.send (x : Worker) (message : List UInt8) (pc : WorkerPc) : Worker :=
  { x with
    pc := pc
    toMaster := x.toMaster ++ message
    sent := x.sent ++ [message] }

/-- The sends of a worker. -/
def workerSendStep (e : Setup) (s : State) (k : ℕ) : Option State :=
  let x := s.worker k
  if k < e.workers then
    match x.pc with
    | .schedAck => some (s.setWorker k (x.send xgacks .loading))
    | .loading => some (s.setWorker k (x.send xgacks (.head 0)))
    | .working i => some (s.setWorker k (x.send xgacks (.head (i + 1))))
    | .head i =>
      if e.iterations ≤ i then
        some (s.setWorker k (x.send (e.topList k) .finished))
      else none
    | _ => none
  else none

/-- **The next state**, where the action can happen. -/
def step (e : Setup) (s : State) (a : Action) : Option State :=
  if s.failed = true then none
  else
    match a with
    | .sendSchedule => sendScheduleStep e s
    | .receive k n junk => receiveStep e s k n junk
    | .advance => advanceStep e s
    | .begin => beginStep e s
    | .workerRead k n => workerReadStep e s k n
    | .workerSend k => workerSendStep e s k

/-! ## What the reads should return -/

/-- How many iterations the master has started. -/
def Phase.started (e : Setup) : Phase → ℕ
  | .schedule _ | .awaitSchedule _ => 0
  | .collect r => r
  | .begin r next => if 0 < next then r + 1 else r
  | .top => e.iterations

/-- **Framing**: every read of the master has returned one message of the
worker; the master has started no iteration before every worker has sent the
acknowledgement of the one before; and what it takes for the top list of a
worker is the list that worker has sent. -/
def Framed (e : Setup) (s : State) : Prop :=
  s.failed = false ∧
    ∀ k < e.workers,
      (s.worker k).reads <+: (s.worker k).sent ∧
      (∀ i, i + 1 < s.phase.started e → i + 3 ≤ (s.worker k).sent.length) ∧
      ∀ list, s.tops k = some list → list = e.topList k

/-! ## The conditions -/

/-- No read returns less than has been sent, as far as the buffer allows. -/
def Unsplit (s : State) : Action → Prop
  | .receive k n _ => n = (s.worker k).toMaster.length ∨
      n = if s.phase = .top then topCapacity else ackCapacity
  | .workerRead k n => n = (s.worker k).fromMaster
  | _ => True

/-- The message that a worker has loaded is sent when the acknowledgement of
the schedule has been read, and the top list when the last acknowledgement
has. -/
def Spaced (e : Setup) (s : State) : Action → Prop
  | .workerSend k =>
    ((s.worker k).pc = .loading ∨ (s.worker k).pc = .head e.iterations) →
      (s.worker k).toMaster = []
  | _ => True

instance (s : State) : DecidablePred (Unsplit s)
  | .receive _ n _ => inferInstanceAs (Decidable (n = _ ∨ n = _))
  | .workerRead _ n => inferInstanceAs (Decidable (n = _))
  | .sendSchedule | .advance | .begin | .workerSend _ =>
    inferInstanceAs (Decidable True)

instance (e : Setup) (s : State) : DecidablePred (Spaced e s)
  | .workerSend k =>
    inferInstanceAs (Decidable (_ ∨ _ → (s.worker k).toMaster = []))
  | .sendSchedule | .advance | .begin | .workerRead _ _ | .receive _ _ _ =>
    inferInstanceAs (Decidable True)

end ControlChannel
