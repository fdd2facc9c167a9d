import DpdkGraph.BlockLoading
import DpdkGraph.Tiling

/-!
# The queues of reads

The I/O manager has a queue of reads and one of urgent reads for each of its
threads, and a counter of the reads that are pending there. `preada_async`
splits a read at the borders of the stripes; for each of its chunks it raises
the counter of a thread and then puts the chunk into the queue of that
thread. `preada_now` does the same with the urgent queue, where there are
several multiplexes. A thread with pending reads looks into the urgent queue
first. `wait_for_reads` waits for the counters, one thread after the other.

Each read is a process of its own here, so that any number of program threads
may queue them in any order, also while the wait is under way. An action is a
turn up to the next access to what is shared. A thread that finds nothing
sleeps and looks again.

The writes of the manager are left out: nobody writes to the files that are
read. As the builds disable the compression, a compressed session is read
like a plain one, but only from the start of the file and in one chunk.
-/

namespace ReadQueues

open Reshard (toInt32)
open BlockLoading (StripeChunk preada)

/-- The options of the I/O manager. -/
structure IoManager where
  multiplex : ℕ
  multiplex_pos : 0 < multiplex
  /-- The threads of a multiplex. -/
  niothreads : ℕ
  niothreads_pos : 0 < niothreads
  stripesize : ℕ
  stripesize_pos : 0 < stripesize

/-- The number of I/O threads. -/
def IoManager.threads (M : IoManager) : ℕ := M.multiplex * M.niothreads

/-- An open session. -/
structure Session (M : IoManager) where
  /-- The files with the name of the session, one in each multiplex. -/
  file : ℕ → List UInt8
  /-- The multiplex that has the first stripe. -/
  startMplex : ℕ
  startMplex_lt : startMplex < M.multiplex
  compressed : Bool

/-- An asynchronous read, or a synchronous one that goes through the urgent
queues. -/
structure Request (M : IoManager) where
  session : Session M
  /-- The address of the buffer. -/
  tbuf : ℕ
  /-- How many bytes are read … -/
  nbytes : ℕ
  /-- … and from where in the file. -/
  off : ℕ
  /-- A call of `preada_now`. -/
  now : Bool
  now_multiplex : now = true → 1 < M.multiplex ∧ session.compressed = false
  /-- The numbers of the stripes are `int`s. -/
  stripe_lt : (off + nbytes) / M.stripesize + session.startMplex < 2 ^ 31

/-- **The reads of a program**, to different places of the memory. -/
structure Program (N : ℕ) where
  M : IoManager
  request : Fin N → Request M
  /-- The buffers of two reads are apart. -/
  apart : ∀ i j, i ≠ j → (request i).tbuf + (request i).nbytes ≤ (request j).tbuf
    ∨ (request j).tbuf + (request j).nbytes ≤ (request i).tbuf

/-! ## Stripes -/

section Stripes

variable {M : IoManager} (s : Session M)

/-- `mplex_for_offset`. -/
def mplexForOffset (off : ℕ) : ℤ :=
  (toInt32 ((off / M.stripesize : ℕ) : ℤ) + s.startMplex).tmod M.multiplex

/-- The loop of `stripe_offsets`, from `idx` to `stop`; `random` are the
random numbers, of which the turn at `idx` draws one. -/
def stripesFrom (random : ℕ → ℕ) (stop idx bufoff : ℕ) : List StripeChunk :=
  if idx < stop then
    ⟨mplexForOffset s idx * M.niothreads + (random idx % M.niothreads : ℕ), bufoff,
        min (M.stripesize - idx % M.stripesize) (stop - idx)⟩
      :: stripesFrom random stop (idx + min (M.stripesize - idx % M.stripesize) (stop - idx))
        (bufoff + min (M.stripesize - idx % M.stripesize) (stop - idx))
  else []
termination_by stop - idx
decreasing_by
  have := Nat.mod_lt idx M.stripesize_pos
  omega

/-- `stripe_offsets`. -/
def stripeOffsets (random : ℕ → ℕ) (nbytes off : ℕ) : List StripeChunk :=
  stripesFrom s random (off + nbytes) off 0

end Stripes

/-! ## The states -/

variable {N : ℕ}

/-- A task: a chunk of a read. -/
structure IoTask (N : ℕ) where
  /-- The read, with its session and its buffer. -/
  request : Fin N
  /-- The place of the descriptor, which is the number of the thread. -/
  fd : ℕ
  length : ℕ
  /-- The place in the file … -/
  offset : ℕ
  /-- … and in the buffer. -/
  ptroffset : ℕ
deriving DecidableEq

/-- Where a call of `preada_async` or `preada_now` is. -/
inductive Pc
  | before
  /-- At the chunk `i` of `stripelist`, which is counted as pending or not. -/
  | loop (stripelist : List StripeChunk) (i : ℕ) (counted : Bool)
deriving DecidableEq

/-- What an I/O thread does. -/
inductive IoThread (N : ℕ)
  | idle
  /-- It has found the urgent queue empty. -/
  | looking
  /-- It has a task, and has executed it or not. -/
  | running (task : IoTask N) (executed : Bool)
deriving DecidableEq

/-- Where `wait_for_reads` is. -/
inductive Waiter
  | idle
  /-- Before the counter of the thread `i`. -/
  | waiting (i : ℕ)
  | returned
deriving DecidableEq

/-- The state of the program. -/
structure State (N : ℕ) where
  pc : Fin N → Pc
  prioqueue : ℕ → List (IoTask N)
  readqueue : ℕ → List (IoTask N)
  /-- An `int`: what is pending are chunks, whose places in the memory are
  disjoint and which have a task each; it does not hold `2 ^ 31` of them. -/
  pendingReads : ℕ → ℤ
  thread : ℕ → IoThread N
  mem : ℕ → UInt8
  waiter : Waiter
  /-- The reads that have been executed so far. -/
  executed : List (IoTask N)
  /-- An assertion has failed. -/
  failed : Bool

/-- Before all reads. -/
def init (mem : ℕ → UInt8) : State N where
  pc := fun _ => .before
  prioqueue := fun _ => []
  readqueue := fun _ => []
  pendingReads := fun _ => 0
  thread := fun _ => .idle
  mem := mem
  waiter := .idle
  executed := []
  failed := false

/-- The thread of a chunk. -/
def threadOf (chunk : StripeChunk) : ℕ := chunk.mplexThread.toNat

variable (P : Program N)

/-- The task for a chunk of the read `i`. -/
def taskOf (i : Fin N) (chunk : StripeChunk) : IoTask N :=
  ⟨i, threadOf chunk, chunk.len, chunk.offset + (P.request i).off, chunk.offset⟩

/-! ## The steps -/

/-- The call begins: the read is split. A read of a compressed session has to
be one chunk from the start of the file. -/
def start (i : Fin N) (random : ℕ → ℕ) (s : State N) : Option (State N) :=
  match s.pc i with
  | .before =>
    if (P.request i).session.compressed = true
        ∧ ¬((stripeOffsets (P.request i).session random (P.request i).nbytes
          (P.request i).off).length = 1 ∧ (P.request i).off = 0) then
      some { s with failed := true }
    else
      some { s with
        pc := Function.update s.pc i
          (.loop (stripeOffsets (P.request i).session random (P.request i).nbytes
            (P.request i).off) 0 false) }
  | .loop _ _ _ => none

/-- Counts the next chunk as pending. -/
def count (i : Fin N) (s : State N) : Option (State N) :=
  match s.pc i with
  | .loop stripelist k false =>
    stripelist[k]?.map fun chunk =>
      { s with
        pc := Function.update s.pc i (.loop stripelist k true)
        pendingReads := Function.update s.pendingReads (threadOf chunk)
          (s.pendingReads (threadOf chunk) + 1) }
  | _ => none

/-- Puts the chunk into a queue of its thread. -/
def push (i : Fin N) (s : State N) : Option (State N) :=
  match s.pc i with
  | .loop stripelist k true =>
    stripelist[k]?.map fun chunk =>
      if (P.request i).now then
        { s with
          pc := Function.update s.pc i (.loop stripelist (k + 1) false)
          prioqueue := Function.update s.prioqueue (threadOf chunk)
            (s.prioqueue (threadOf chunk) ++ [taskOf P i chunk]) }
      else
        { s with
          pc := Function.update s.pc i (.loop stripelist (k + 1) false)
          readqueue := Function.update s.readqueue (threadOf chunk)
            (s.readqueue (threadOf chunk) ++ [taskOf P i chunk]) }
  | _ => none

/-- A thread with pending reads looks into its urgent queue. -/
def look (t : ℕ) (s : State N) : Option (State N) :=
  match s.thread t with
  | .idle =>
    if 0 < s.pendingReads t then
      match s.prioqueue t with
      | [] => some { s with thread := Function.update s.thread t .looking }
      | x :: rest =>
        some { s with
          prioqueue := Function.update s.prioqueue t rest
          thread := Function.update s.thread t (.running x false) }
    else none
  | _ => none

/-- And then into the other one. -/
def fetch (t : ℕ) (s : State N) : Option (State N) :=
  match s.thread t with
  | .looking =>
    match s.readqueue t with
    | [] => some { s with thread := Function.update s.thread t .idle }
    | x :: rest =>
      some { s with
        readqueue := Function.update s.readqueue t rest
        thread := Function.update s.thread t (.running x false) }
  | _ => none

/-- The bytes that a task reads, or nothing where an assertion fails. -/
def taskData (x : IoTask N) : Option (List UInt8) :=
  if (P.request x.request).session.compressed then
    if x.offset = 0 then
      preada ((P.request x.request).session.file (x.fd / P.M.niothreads)) x.length 0
    else none
  else preada ((P.request x.request).session.file (x.fd / P.M.niothreads)) x.length x.offset

/-- The address that a task reads to. -/
def taskPtr (x : IoTask N) : ℕ :=
  if (P.request x.request).session.compressed then (P.request x.request).tbuf
  else (P.request x.request).tbuf + x.ptroffset

/-- The memory with bytes from an address on. -/
def store (ptr : ℕ) (data : List UInt8) (mem : ℕ → UInt8) (a : ℕ) : UInt8 :=
  if ptr ≤ a ∧ a < ptr + data.length then data.getD (a - ptr) 0 else mem a

/-- Executes the task of a thread. -/
def execute (t : ℕ) (s : State N) : Option (State N) :=
  match s.thread t with
  | .running x false =>
    match taskData P x with
    | some data =>
      some { s with
        mem := store (taskPtr P x) data s.mem
        thread := Function.update s.thread t (.running x true)
        executed := s.executed ++ [x] }
    | none => some { s with failed := true }
  | _ => none

/-- Lowers the counter of the thread. -/
def finish (t : ℕ) (s : State N) : Option (State N) :=
  match s.thread t with
  | .running _ true =>
    some { s with
      pendingReads := Function.update s.pendingReads t (s.pendingReads t - 1)
      thread := Function.update s.thread t .idle }
  | _ => none

/-- `wait_for_reads` is called. -/
def call (s : State N) : Option (State N) :=
  match s.waiter with
  | .waiting _ => none
  | _ => some { s with waiter := .waiting 0 }

/-- A turn of `wait_for_reads`. -/
def poll (s : State N) : Option (State N) :=
  match s.waiter with
  | .waiting i =>
    if i < P.M.threads then
      if s.pendingReads i > 0 then none else some { s with waiter := .waiting (i + 1) }
    else some { s with waiter := .returned }
  | _ => none

/-- What can happen next. -/
inductive Action (N : ℕ)
  | start (i : Fin N) (random : ℕ → ℕ)
  | count (i : Fin N)
  | push (i : Fin N)
  | look (t : ℕ)
  | fetch (t : ℕ)
  | execute (t : ℕ)
  | finish (t : ℕ)
  | call
  | poll

/-- The steps. A failed assertion ends the program. -/
def step (s : State N) : Action N → Option (State N)
  | .start i random => if s.failed then none else start P i random s
  | .count i => if s.failed then none else count i s
  | .push i => if s.failed then none else push P i s
  | .look t => if s.failed ∨ P.M.threads ≤ t then none else look t s
  | .fetch t => if s.failed ∨ P.M.threads ≤ t then none else fetch t s
  | .execute t => if s.failed ∨ P.M.threads ≤ t then none else execute P t s
  | .finish t => if s.failed ∨ P.M.threads ≤ t then none else finish t s
  | .call => if s.failed then none else call s
  | .poll => if s.failed then none else poll P s

/-- `s'` follows `s`, in any order of the threads. -/
abbrev Leads (s : State N) (as : List (Action N)) (s' : State N) : Prop :=
  Transition.Run (step P) (fun _ _ => True) s as s'

end ReadQueues
