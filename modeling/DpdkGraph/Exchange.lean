import Mathlib
import DpdkGraph.Reshard
import DpdkGraph.BlockBuffer
import DpdkGraph.Transition

/-!
# The workers, their network threads and the master

`M` workers run `N` synchronous iterations. Each of them has a *compute
thread*, which runs the engine's `run`: it loads the subgraph, connects to
the other workers, announces itself to each with an eight-byte handshake,
and then, once an iteration, computes, hands its out-blocks to sending
threads, waits for the in-blocks, and reports to the master. Its *network
thread* runs `dpdk_server`: it takes the bytes that arrive on the sockets
and gives them to `dpdk_handle_event` or to `dpdk_block_event`, whichever
the global `recv_fd` selects. The master begins an iteration once a read
from every worker has returned something.

The system is a partial function `step` on a global state. Every access of
a thread to a variable that another thread writes is a step of its own, and
a call of the transport or of `read` moves as many bytes as it likes. The
channels between the workers neither lose nor reorder bytes.

A worker's compute thread is modelled up to the values it computes: what it
leaves in `obuf` at the end of an iteration is a parameter of the step. The
worker's own main block, which never leaves the worker, is left out.
-/

namespace Exchange

open Reshard (toInt32)
open SparseRows (u32le readU32)
open BlockBuffer (overwrite)

/-! ## The state -/

/-- What a run of the engine is started with. -/
structure Job where
  /-- `M`, also the number of intervals. -/
  workers : ℕ
  /-- `N`. -/
  iterations : ℕ
  /-- The size of the in-block file at `w` for the edges that come from `p`. -/
  inSize : ℕ → ℕ → ℕ
  /-- The size of the out-block of `p` for `w`. -/
  outSize : ℕ → ℕ → ℕ
  /-- The content of the in-block file at `w` for the edges from `p`. -/
  loaded : ℕ → ℕ → List UInt8
  /-- The option `io.stripesize`. -/
  stripesize : ℕ
  /-- The tables of the sockets and of the lengths have 1024 places. -/
  workers_le : workers ≤ 1024
  /-- A file is read whole. -/
  loaded_length : ∀ w p, (loaded w p).length = inSize w p
  /-- The lengths are `int`s. -/
  inSize_lt : ∀ w p, inSize w p < 2 ^ 31
  /-- The lengths are `int`s. -/
  outSize_lt : ∀ p w, outSize p w < 2 ^ 31

/-- **What `preada_async` asserts** of the in-block files of `w`, its own one
included: each is read in one chunk, so that none is empty and none is longer
than a stripe. -/
def Job.Readable (job : Job) (w : ℕ) : Prop :=
  ∀ p < job.workers, 0 < job.inSize w p ∧ job.inSize w p ≤ job.stripesize

instance (job : Job) : DecidablePred job.Readable := fun _ =>
  inferInstanceAs (Decidable (∀ p < job.workers, _))

/-- Where the compute thread is within an iteration. -/
inductive Stage
  /-- At the head of the loop, reading from the master. -/
  | head
  /-- In `crucial_updates`. -/
  | compute
  /-- At `while(recv_job_num)`. -/
  | waitRecv
  /-- At `while(send_job_num)`. -/
  | waitSend
  /-- At `send_job_num = M-1`. -/
  | resetSend
  /-- At `recv_job_num = M-1`. -/
  | resetRecv
  /-- Sending the acknowledgement to the master. -/
  | ack
deriving DecidableEq

/-- Where the compute thread is. -/
inductive Pc
  /-- In `load_before_updates`: the files of `n` in-blocks are open. -/
  | loading (n : ℕ)
  /-- Connecting to worker `j`. -/
  | connecting (j : ℕ)
  /-- In `dpdk_write_all`, with the handshake for worker `j`. -/
  | greeting (j : ℕ)
  /-- At `while(recv_fd < M-1)`. -/
  | waitPeers
  /-- At `recv_fd = -999`. -/
  | closePeers
  /-- At the first `send_job_num = M-1`. -/
  | initSend
  /-- At the first `recv_job_num = M-1`. -/
  | initRecv
  /-- In the main loop. -/
  | iter (i : ℕ) (stage : Stage)
deriving DecidableEq

/-- Where the network thread is. -/
inductive Net
  /-- In `netdpsock_epoll_wait`. -/
  | idle
  /-- In `dpdk_handle_event`, before the receive, for the socket of `p`. -/
  | handle (p : ℕ)
  /-- About to read `recv_fd` for `recv_fd ++`. -/
  | count
  /-- About to write `v + 1` to `recv_fd`. -/
  | bump (v : ℤ)
  /-- In the receive loop of `dpdk_block_event`, for the socket of `p`. -/
  | block (p slot sender offset ptr : ℕ)
deriving DecidableEq

/-- Why a worker has stopped. -/
inductive Failure
  /-- A block file is not read in one chunk. -/
  | chunk
  /-- `netdpsock_connect` failed. -/
  | connect
  /-- The announced length is not the one of the in-block. -/
  | length
  /-- The announced number is no index of the tables. -/
  | bounds
  /-- No entry of `in_infos` has the socket. -/
  | slot
deriving DecidableEq

/-- `in_info`. The socket of worker `p` is written `p`. -/
structure InInfo where
  /-- `fd`. -/
  fd : Option ℕ
  /-- `len`. -/
  len : ℤ
  /-- `from`. -/
  sender : ℕ
  /-- `offset`. -/
  offset : ℕ
deriving DecidableEq

/-- What the network thread of a worker works on. -/
structure Inbox where
  /-- `inlength`. -/
  inlength : ℕ → ℤ
  /-- `inbuf`. -/
  inbuf : ℕ → List UInt8
  /-- `recv_fd`. -/
  recvFd : ℤ
  /-- `recv_job_num`. -/
  recvJobNum : ℤ
  /-- `in_infos`. -/
  infos : ℕ → InInfo
  /-- Where the network thread is. -/
  net : Net

/-- A worker. -/
structure Worker where
  /-- Where the compute thread is. -/
  pc : Pc
  /-- Whether an assertion has failed. -/
  failed : Option Failure
  /-- Whether the server socket accepts connections. -/
  listening : Bool
  /-- `send_job_num`. -/
  sendJobNum : ℤ
  /-- How many bytes for the master have not been read. -/
  toMaster : ℕ
  /-- How many bytes from the master have not been read. -/
  fromMaster : ℕ
  /-- What the network thread works on. -/
  inbox : Inbox

/-- What has arrived from a peer. -/
structure Arrived where
  /-- The bytes `dpdk_handle_event` has taken. -/
  parsed : List UInt8
  /-- The bytes `dpdk_block_event` has stored. -/
  stored : List UInt8
  /-- How often `recv_job_num` has been decremented for this peer. -/
  counted : ℕ

/-- The connection from one worker to another. -/
structure Link where
  /-- The bytes given to `dpdk_write_all` that are not sent. -/
  outbox : List UInt8
  /-- The bytes sent that are not received. -/
  flight : List UInt8
  /-- Whether a sending thread has the block of this iteration. -/
  busy : Bool
  /-- The blocks given to `dpdk_write_all` so far. -/
  left : List (List UInt8)
  /-- What the other side has received. -/
  arrived : Arrived

/-- The master: it has begun `round` iterations for every worker and one
more for the first `next` workers, and holds an answer of `y` to the last
iteration begun where `got y`. -/
structure Master where
  /-- The number of iterations begun. -/
  round : ℕ
  /-- How many workers the `tbegin` of this round has been sent to. -/
  next : ℕ
  /-- Whose message of this round has been read. -/
  got : ℕ → Bool

/-- The whole system. `link p w` is the connection from `p` to `w`. -/
structure State where
  /-- The workers. -/
  worker : ℕ → Worker
  /-- The connections. -/
  link : ℕ → ℕ → Link
  /-- The master. -/
  master : Master

/-- The state before `run`: the server thread of no worker listens yet. -/
def init : State where
  worker := fun _ =>
    { pc := .loading 0, failed := none, listening := false, sendJobNum := 0,
      toMaster := 0, fromMaster := 0,
      inbox :=
        { inlength := fun _ => -1, inbuf := fun _ => [], recvFd := 0,
          recvJobNum := 0, infos := fun _ => ⟨none, 0, 0, 0⟩, net := .idle } }
  link := fun _ _ =>
    { outbox := [], flight := [], busy := false, left := [],
      arrived := ⟨[], [], 0⟩ }
  master := ⟨0, 0, fun _ => false⟩

/-- Replaces worker `w`. -/
def State.setWorker (s : State) (w : ℕ) (x : Worker) : State :=
  { s with worker := Function.update s.worker w x }

/-- Replaces the connection from `p` to `w`. -/
def State.setLink (s : State) (p w : ℕ) (l : Link) : State :=
  { s with
    link := Function.update s.link p (Function.update (s.link p) w l) }

/-! ## The steps -/

/-- What can happen next. -/
inductive Action
  /-- The server thread of `w` starts to listen. -/
  | listen (w : ℕ)
  /-- The compute thread of `w` goes on; `out` is what it has left in `obuf`
  where it has computed. -/
  | compute (w : ℕ) (out : ℕ → List UInt8)
  /-- The compute thread of `w` reads `n` bytes from the master. -/
  | readBegin (w n : ℕ)
  /-- `netdpsock_send` of `p` takes `n` bytes for `w`. -/
  | send (p w n : ℕ)
  /-- A sending thread of `p` is done with the block for `w`. -/
  | sendDone (p w : ℕ)
  /-- The network thread of `w` gets an event for the socket of `p`. -/
  | dispatch (w p : ℕ)
  /-- The network thread of `w` receives `n` bytes; `junk` is what the rest
  of `recv_buf` holds. -/
  | receive (w n : ℕ) (junk : List UInt8)
  /-- The network thread of `w` goes on with `recv_fd ++`. -/
  | bump (w : ℕ)
  /-- The network thread of `w` gets `NETDP_EAGAIN`. -/
  | drain (w : ℕ)
  /-- The master reads `n` bytes from `w`. -/
  | collect (w n : ℕ)
  /-- The master sends the next `tbegin`. -/
  | begin

/-- The handshake of `p` for `w`: `exec_interval` and `olength[w]`. -/
def greeting (job : Job) (p w : ℕ) : List UInt8 :=
  u32le p ++ u32le (job.outSize p w)

/-- The length of `"XGACKS"` and of `"tbegin"`. -/
def messageSize : ℕ := 6

/-- `olength[j]` and `obuf[j]` as a sending thread finds them. -/
def Link.queue (l : Link) (block : List UInt8) : Link :=
  { l with outbox := l.outbox ++ block, busy := true,
           left := l.left ++ [block] }

/-- The compute thread of `w` goes on by one step of `run`. -/
def computeStep (job : Job) (s : State) (w : ℕ) (out : ℕ → List UInt8) :
    Option State :=
  let x := s.worker w
  match x.pc with
  | .loading n =>
    if n < job.workers then
      -- the values are in `inbuf` when `load_before_updates` returns
      some (s.setWorker w { x with
        pc := .loading (n + 1)
        inbox := { x.inbox with
          inlength := Function.update x.inbox.inlength n (job.inSize w n)
          inbuf := Function.update x.inbox.inbuf n (job.loaded w n) } })
    else if job.Readable w then
      some (s.setWorker w { x with
        pc := .connecting 0, toMaster := x.toMaster + messageSize })
    -- the reads are asked for once all files are open
    else some (s.setWorker w { x with failed := some .chunk })
  | .connecting j =>
    if job.workers ≤ j then some (s.setWorker w { x with pc := .waitPeers })
    else if j = w then
      some (s.setWorker w { x with pc := .connecting (j + 1) })
    else if (s.worker j).listening = true ∧ (s.worker j).failed = none then
      some ((s.setWorker w { x with pc := .greeting j }).setLink w j
        { s.link w j with outbox := greeting job w j })
    else some (s.setWorker w { x with failed := some .connect })
  | .greeting j =>
    if (s.link w j).outbox = [] then
      some (s.setWorker w { x with pc := .connecting (j + 1) })
    else none
  | .waitPeers =>
    if (job.workers : ℤ) - 1 ≤ x.inbox.recvFd then
      some (s.setWorker w { x with pc := .closePeers })
    else none
  | .closePeers =>
    some (s.setWorker w { x with
      pc := .initSend, inbox := { x.inbox with recvFd := -999 } })
  | .initSend =>
    some (s.setWorker w { x with
      pc := .initRecv, sendJobNum := (job.workers : ℤ) - 1 })
  | .initRecv =>
    some (s.setWorker w { x with
      pc := .iter 0 .head
      inbox := { x.inbox with recvJobNum := (job.workers : ℤ) - 1 } })
  | .iter _ .head => none
  | .iter i .compute =>
    if ∀ j < job.workers, (out j).length = job.outSize w j then
      some { s.setWorker w { x with pc := .iter i .waitRecv } with
        link := Function.update s.link w fun j =>
          if j < job.workers ∧ j ≠ w then (s.link w j).queue (out j)
          else s.link w j }
    else none
  | .iter i .waitRecv =>
    if x.inbox.recvJobNum = 0 then
      some (s.setWorker w { x with pc := .iter i .waitSend })
    else none
  | .iter i .waitSend =>
    if x.sendJobNum = 0 then
      some (s.setWorker w { x with pc := .iter i .resetSend })
    else none
  | .iter i .resetSend =>
    some (s.setWorker w { x with
      pc := .iter i .resetRecv, sendJobNum := (job.workers : ℤ) - 1 })
  | .iter i .resetRecv =>
    some (s.setWorker w { x with
      pc := .iter i .ack
      inbox := { x.inbox with recvJobNum := (job.workers : ℤ) - 1 } })
  | .iter i .ack =>
    some (s.setWorker w { x with
      pc := .iter (i + 1) .head, toMaster := x.toMaster + messageSize })

/-- `read(fd_master, buf, 1024)` at the head of the loop. -/
def readBeginStep (job : Job) (s : State) (w n : ℕ) : Option State :=
  let x := s.worker w
  match x.pc with
  | .iter i .head =>
    if i < job.iterations ∧ 0 < n ∧ n ≤ 1024 ∧ n ≤ x.fromMaster then
      some (s.setWorker w { x with
        pc := .iter i .compute, fromMaster := x.fromMaster - n })
    else none
  | _ => none

/-- `netdpsock_send` within `dpdk_write_all`. -/
def sendStep (s : State) (p w n : ℕ) : Option State :=
  let l := s.link p w
  if 0 < n ∧ n ≤ 64 * 1024 ∧ n ≤ l.outbox.length then
    some (s.setLink p w { l with
      outbox := l.outbox.drop n, flight := l.flight ++ l.outbox.take n })
  else none

/-- The end of `m_send_to_worker`. -/
def sendDoneStep (s : State) (p w : ℕ) : Option State :=
  let l := s.link p w
  let x := s.worker p
  if l.busy = true ∧ l.outbox = [] then
    some ((s.setLink p w { l with busy := false }).setWorker p
      { x with sendJobNum := x.sendJobNum - 1 })
  else none

/-- The entry of `in_infos` that `dpdk_block_event` finds for a socket. -/
def findSlot (job : Job) (w : ℕ) (infos : ℕ → InInfo) (p : ℕ) : Option ℕ :=
  (List.range job.workers).find? fun i =>
    decide (i ≠ w ∧ (infos i).fd = some p)

/-- `dpdk_server` on an event: `recv_fd` selects the function called. -/
def dispatchStep (job : Job) (s : State) (w p : ℕ) : Option State :=
  let x := s.worker w
  if x.listening = true ∧ x.inbox.net = .idle ∧ p < job.workers ∧ p ≠ w ∧
      (s.link p w).flight ≠ [] then
    if -1 < x.inbox.recvFd then
      some (s.setWorker w { x with inbox := { x.inbox with net := .handle p } })
    else
      match findSlot job w x.inbox.infos p with
      | some slot =>
        let e := x.inbox.infos slot
        some (s.setWorker w { x with
          inbox := { x.inbox with net := .block p slot e.sender e.offset 0 } })
      | none => some (s.setWorker w { x with failed := some .slot })
  else none

/-- An `int` at a place of `recv_buf`. -/
def intAt (buf : List UInt8) (k : ℕ) : ℤ :=
  toInt32 ((readU32 (buf.drop k)).elim 0 fun r => (r.1 : ℤ))

/-- What `dpdk_handle_event` does with the two numbers it has read. -/
def Worker.accept (x : Worker) (p : ℕ) (sender olen : ℤ) : Worker :=
  if 0 ≤ sender ∧ sender < 1024 then
    if olen = x.inbox.inlength sender.toNat then
      { x with inbox := { x.inbox with
          infos := Function.update x.inbox.infos sender.toNat
            ⟨some p, olen, sender.toNat, 0⟩
          net := .count } }
    else { x with failed := some .length }
  else { x with failed := some .bounds }

/-- `netdpsock_recvfrom`, and what is done with the bytes. -/
def receiveStep (s : State) (w n : ℕ) (junk : List UInt8) : Option State :=
  let x := s.worker w
  match x.inbox.net with
  | .handle p =>
    let l := s.link p w
    if 0 < n ∧ n ≤ 8 ∧ n ≤ l.flight.length ∧ junk.length = 8 - n then
      -- both numbers are read off the buffer, however little has arrived
      let buf := l.flight.take n ++ junk
      some ((s.setLink p w { l with
          flight := l.flight.drop n
          arrived := { l.arrived with
            parsed := l.arrived.parsed ++ l.flight.take n } }).setWorker w
        (x.accept p (intAt buf 0) (intAt buf 4)))
    else none
  | .block p slot sender offset ptr =>
    let l := s.link p w
    if 0 < n ∧ n ≤ 64 * 1024 ∧ n ≤ l.flight.length then
      some ((s.setLink p w { l with
          flight := l.flight.drop n
          arrived := { l.arrived with
            stored := l.arrived.stored ++ l.flight.take n } }).setWorker w
        { x with inbox := { x.inbox with
            inbuf := Function.update x.inbox.inbuf sender
              (overwrite (x.inbox.inbuf sender) (offset + ptr)
                (l.flight.take n))
            net := .block p slot sender offset (ptr + n) } })
    else none
  | _ => none

/-- `recv_fd ++`, a read and a write. -/
def bumpStep (s : State) (w : ℕ) : Option State :=
  let x := s.worker w
  match x.inbox.net with
  | .count =>
    some (s.setWorker w { x with
      inbox := { x.inbox with net := .bump x.inbox.recvFd } })
  | .bump v =>
    some (s.setWorker w { x with
      inbox := { x.inbox with recvFd := v + 1, net := .idle } })
  | _ => none

/-- The end of `dpdk_block_event`. -/
def drainStep (s : State) (w : ℕ) : Option State :=
  let x := s.worker w
  match x.inbox.net with
  | .block p slot _ offset ptr =>
    let e := x.inbox.infos slot
    let l := s.link p w
    if ptr = 0 then none
    else if ((offset + ptr : ℕ) : ℤ) = e.len then
      some ((s.setLink p w { l with
          arrived := { l.arrived with counted := l.arrived.counted + 1 }
        }).setWorker w
        { x with inbox := { x.inbox with
            infos := Function.update x.inbox.infos slot { e with offset := 0 }
            recvJobNum := x.inbox.recvJobNum - 1
            net := .idle } })
    else
      some (s.setWorker w { x with inbox := { x.inbox with
        infos := Function.update x.inbox.infos slot
          { e with offset := offset + ptr }
        net := .idle } })
  | _ => none

/-- The master's `read` of an answer; anything read counts as the answer. -/
def collectStep (s : State) (w n : ℕ) : Option State :=
  let x := s.worker w
  if s.master.next = 0 ∧ s.master.got w = false ∧ 0 < n ∧ n ≤ 1024 ∧
      n ≤ x.toMaster then
    some { s.setWorker w { x with toMaster := x.toMaster - n } with
      master := { s.master with got := Function.update s.master.got w true } }
  else none

/-- The master sends `tbegin` to the next worker. -/
def beginStep (job : Job) (s : State) : Option State :=
  let m := s.master
  if m.round < job.iterations ∧ m.next < job.workers ∧
      ∀ y < job.workers, m.got y = true then
    let x := s.worker m.next
    some { s.setWorker m.next
        { x with fromMaster := x.fromMaster + messageSize } with
      master :=
        if m.next + 1 = job.workers then ⟨m.round + 1, 0, fun _ => false⟩
        else { m with next := m.next + 1 } }
  else none

/-- Whether worker `w` exists and runs. -/
def State.Up (job : Job) (s : State) (w : ℕ) : Prop :=
  w < job.workers ∧ (s.worker w).failed = none

instance (job : Job) (s : State) (w : ℕ) : Decidable (s.Up job w) :=
  inferInstanceAs (Decidable (_ ∧ _))

/-- **The next state**, where the action can happen. -/
def step (job : Job) (s : State) : Action → Option State
  | .listen w =>
    if s.Up job w then
      some (s.setWorker w { s.worker w with listening := true })
    else none
  | .compute w out => if s.Up job w then computeStep job s w out else none
  | .readBegin w n => if s.Up job w then readBeginStep job s w n else none
  | .send p w n =>
    if s.Up job p ∧ w < job.workers ∧ w ≠ p then sendStep s p w n else none
  | .sendDone p w =>
    if s.Up job p ∧ w < job.workers ∧ w ≠ p then sendDoneStep s p w else none
  | .dispatch w p => if s.Up job w then dispatchStep job s w p else none
  | .receive w n junk => if s.Up job w then receiveStep s w n junk else none
  | .bump w => if s.Up job w then bumpStep s w else none
  | .drain w => if s.Up job w then drainStep s w else none
  | .collect w n => if w < job.workers then collectStep s w n else none
  | .begin => beginStep job s

end Exchange
