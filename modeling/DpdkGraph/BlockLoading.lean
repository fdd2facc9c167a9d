import Mathlib
import DpdkGraph.Reshard
import DpdkGraph.Transition

/-!
# Loading the in-blocks of an interval

`load_edata_XG` opens the block files of the interval that is executed,
sets a buffer up for each of them, and asks the I/O manager to read them.
The reads are asynchronous: a request is split at the borders of the
stripes, and each of its chunks is put into the queue of an I/O thread,
whose counter of pending reads has been raised before. `wait_for_reads`
waits for these counters, one thread after the other.

The main thread and the I/O threads are modelled as one transition system.
An action is a turn of the main thread, up to its next access to what it
shares, or a turn of an I/O thread: it takes a task, reads, and lowers its
counter. A thread that finds nothing to do sleeps and looks again; that is
no step here.

The block sessions are opened as compressed ones, and for these
`preada_async` asserts that a request has exactly one chunk. The builds
disable the compression, so that a compressed read is a plain one of the
whole file. Nothing is preloaded, as by default.
-/

namespace BlockLoading

open Reshard

/-- What a run of the sharder leaves for the interval `exec`, and the
options of the I/O manager. -/
structure Job where
  /-- the number of intervals -/
  P : ℕ
  /-- the interval of the worker -/
  exec : Fin P
  /-- `sizeof(ET)` -/
  edgeSize : ℕ
  edgeSize_pos : 0 < edgeSize
  /-- the bytes of `ET()` -/
  ET : List UInt8
  length_ET : ET.length = edgeSize
  /-- the content of the block files -/
  file : Fin P → List UInt8
  /-- A block file holds whole edge values. -/
  dvd_length : ∀ k, edgeSize ∣ (file k).length
  multiplex : ℕ
  multiplex_pos : 0 < multiplex
  niothreads : ℕ
  niothreads_pos : 0 < niothreads
  /-- the option `io.stripesize`, an `int` -/
  ioStripesize : ℕ
  ioStripesize_pos : 0 < ioStripesize
  ioStripesize_lt : ioStripesize < 2 ^ 31
  /-- whether the directory of a multiplex has the block files too -/
  found : ℕ → Bool
  /-- the hash of the name of a block file, modulo `multiplex` -/
  startMplex : Fin P → ℕ
  startMplex_lt : ∀ k, startMplex k < multiplex

variable (J : Job)

/-- The option counts only where there are several multiplexes. -/
def Job.stripesize : ℕ :=
  if J.multiplex > 1 then J.ioStripesize else 1024 * 1024 * 1024

/-- The number of I/O threads, of all multiplexes. -/
def Job.threads : ℕ := J.multiplex * J.niothreads

theorem Job.stripesize_pos : 0 < J.stripesize := by
  unfold Job.stripesize
  split
  · exact J.ioStripesize_pos
  · norm_num

theorem Job.stripesize_lt : J.stripesize < 2 ^ 31 := by
  unfold Job.stripesize
  split
  · exact J.ioStripesize_lt
  · norm_num

/-! ## The I/O manager -/

/-- A part of a request, within one stripe. -/
structure StripeChunk where
  mplexThread : ℤ
  offset : ℕ
  len : ℕ
deriving DecidableEq

/-- The multiplex that has an offset of the block file `k`. -/
def mplexForOffset (k : Fin J.P) (off : ℕ) : ℤ :=
  (toInt32 ((off / J.stripesize : ℕ) : ℤ) + J.startMplex k).tmod J.multiplex

/-- The loop of `stripeOffsets`, from `idx` to `stop`; `random` are the
random numbers, of which the turn at `idx` draws one. -/
def stripesFrom (k : Fin J.P) (random : ℕ → ℕ) (stop idx bufoff : ℕ) :
    List StripeChunk :=
  if idx < stop then
    let blockoff := idx % J.stripesize
    let blocklen := min (J.stripesize - blockoff) (stop - idx)
    ⟨mplexForOffset J k idx * J.niothreads
      + (random idx % J.niothreads : ℕ), bufoff, blocklen⟩
      :: stripesFrom k random stop (idx + blocklen) (bufoff + blocklen)
  else []
termination_by stop - idx
decreasing_by
  have := Nat.mod_lt idx J.stripesize_pos
  omega

/-- The chunks of a request of `nbytes` bytes at `off`. -/
def stripeOffsets (k : Fin J.P) (random : ℕ → ℕ) (nbytes off : ℕ) :
    List StripeChunk :=
  stripesFrom J k random (off + nbytes) off 0

/-- A request to read, in the queue of an I/O thread: the block it is for,
the chunk, and the flag that tells the request is served. -/
structure IoTask where
  block : Fin J.P
  length : ℕ
  offset : ℕ
  ptroffset : ℕ
  doneptr : Fin J.P

/-- Reads `nbytes` bytes of a file at `off`; at the end of the file an
assertion fails. -/
def preada (content : List UInt8) (nbytes off : ℕ) : Option (List UInt8) :=
  if nbytes = 0 ∨ off + nbytes ≤ content.length then
    some ((content.drop off).take nbytes)
  else none

/-- With the compression disabled a compressed read is one from the start of
the file. -/
def readCompressed (content : List UInt8) (nbytes : ℕ) :
    Option (List UInt8) :=
  preada content nbytes 0

/-! ## The states -/

/-- Where the main thread is. -/
inductive Pc
  /-- before it opens block file `i` -/
  | opening (i : ℕ)
  /-- before it requests the `n`-th block, counted from `exec` on -/
  | requesting (n : ℕ)
  /-- before it counts the chunk as pending -/
  | counting (n : Fin J.P) (chunk : StripeChunk)
  /-- before it puts the chunk into the queue -/
  | pushing (n : Fin J.P) (chunk : StripeChunk)
  /-- before it copies the block of the interval itself -/
  | copying
  /-- waiting for thread `i` in `wait_for_reads` -/
  | waiting (i : ℕ)
  | done
  /-- An assertion has failed. -/
  | failed
deriving DecidableEq

/-- The state of the program. -/
structure State where
  pc : Pc J
  /-- the buffers, as far as they are allocated -/
  inbuf : Fin J.P → List UInt8
  inlength : Fin J.P → ℤ
  /-- one flag for each request, in the order of the requests -/
  doneptr : Fin J.P → ℤ
  mainToMainBuf : List UInt8
  readqueue : ℕ → List (IoTask J)
  pendingReads : ℕ → ℤ
  /-- the task of an I/O thread, and whether it has read it -/
  task : ℕ → Option (IoTask J × Bool)

/-- Before `load_edata_XG`: no lengths are known and no thread has a
task. -/
def init : State J where
  pc := .opening 0
  inbuf := fun _ => []
  inlength := fun _ => -1
  doneptr := fun _ => 1
  mainToMainBuf := []
  readqueue := fun _ => []
  pendingReads := fun _ => 0
  task := fun _ => none

/-! ## The main thread -/

/-- Whether `open_session` finds the block files: without multiplexing in
their own directory, else in that of every multiplex. -/
def Job.opens : Bool :=
  J.multiplex == 1 || (List.range J.multiplex).all J.found

/-- The buffer of a block file of `fsize` bytes as it is set up, with one
byte more than the file has. -/
def initialBuf (fsize : ℕ) : List UInt8 :=
  let n := (toInt32 ((fsize / J.edgeSize : ℕ) : ℤ)).toNat
  (List.replicate n J.ET).flatten
    ++ List.replicate (fsize + 1 - n * J.edgeSize) 0

/-- Opens a block file, and sets its buffer up. -/
def openBlock (i : Fin J.P) (s : State J) : State J :=
  let fsize := (J.file i).length
  if fsize % J.edgeSize = 0 ∧ J.opens then
    { s with
      pc := .opening (i + 1)
      inbuf := Function.update s.inbuf i (initialBuf J fsize)
      inlength := Function.update s.inlength i (toInt32 fsize) }
  else { s with pc := .failed }

/-- The block of the `n`-th request. -/
def Job.block (n : Fin J.P) : Fin J.P :=
  ⟨(J.exec + n) % J.P, Nat.mod_lt _ (Fin.pos n)⟩

/-- The first half of `preada_async`: splits the request for a block, and
asserts that it is one chunk, as the session is a compressed one. -/
def request (n : Fin J.P) (random : ℕ → ℕ) (s : State J) : State J :=
  match stripeOffsets J (J.block n) random (J.file (J.block n)).length 0 with
  | [chunk] => { s with pc := .counting n chunk }
  | _ => { s with pc := .failed }

/-- Counts the chunk as pending. -/
def count (n : Fin J.P) (chunk : StripeChunk) (s : State J) : State J :=
  let t := chunk.mplexThread.toNat
  { s with
    pc := .pushing n chunk
    pendingReads := Function.update s.pendingReads t (s.pendingReads t + 1) }

/-- Puts the chunk into the queue of its thread. -/
def push (n : Fin J.P) (chunk : StripeChunk) (s : State J) : State J :=
  let t := chunk.mplexThread.toNat
  { s with
    pc := .requesting (n + 1)
    readqueue := Function.update s.readqueue t
      (s.readqueue t
        ++ [⟨J.block n, chunk.len, chunk.offset, chunk.offset, n⟩]) }

/-- The copy of the block of the interval itself, for the synchronous
mode. -/
def copy (s : State J) : State J :=
  { s with
    pc := .waiting 0
    mainToMainBuf :=
      (s.inbuf J.exec).take (s.inlength J.exec).toNat }

/-- A turn of the main thread; `random` are the random numbers it draws. -/
def mainStep (random : ℕ → ℕ) (s : State J) : Option (State J) :=
  match s.pc with
  | .opening i =>
    if h : i < J.P then some (openBlock J ⟨i, h⟩ s)
    else some { s with pc := .requesting 0 }
  | .requesting n =>
    if h : n < J.P then some (request J ⟨n, h⟩ random s)
    else some { s with pc := .copying }
  | .counting n chunk => some (count J n chunk s)
  | .pushing n chunk => some (push J n chunk s)
  | .copying => some (copy J s)
  | .waiting i =>
    if i < J.threads then
      if s.pendingReads i > 0 then none
      else some { s with pc := .waiting (i + 1) }
    else some { s with pc := .done }
  | .done => none
  | .failed => none

/-! ## The I/O threads -/

/-- Takes a task: only a thread with pending reads looks into its queue. -/
def take (t : ℕ) (s : State J) : Option (State J) :=
  match s.task t, s.readqueue t with
  | none, x :: rest =>
    if s.pendingReads t > 0 then
      some { s with
        readqueue := Function.update s.readqueue t rest
        task := Function.update s.task t (some (x, false)) }
    else none
  | _, _ => none

/-- Reads the file of the task into the buffer; a compressed task is read
from the start of the file to the start of the buffer. -/
def read (t : ℕ) (s : State J) : Option (State J) :=
  match s.task t with
  | some (x, false) =>
    if x.offset = 0 then
      match readCompressed (J.file x.block) x.length with
      | some data =>
        some { s with
          inbuf := Function.update s.inbuf x.block
            (data ++ (s.inbuf x.block).drop data.length)
          task := Function.update s.task t (some (x, true)) }
      | none => some { s with pc := .failed }
    else some { s with pc := .failed }
  | _ => none

/-- Lowers the counter of the thread, and the flag of the request. -/
def finish (t : ℕ) (s : State J) : Option (State J) :=
  match s.task t with
  | some (x, true) =>
    some { s with
      pendingReads := Function.update s.pendingReads t
        (s.pendingReads t - 1)
      doneptr := Function.update s.doneptr x.doneptr (s.doneptr x.doneptr - 1)
      task := Function.update s.task t none }
  | _ => none

/-- What can happen next: a turn of the main thread, or one of an I/O
thread. -/
inductive Action
  | main (random : ℕ → ℕ)
  | take (t : ℕ)
  | read (t : ℕ)
  | finish (t : ℕ)

/-- The steps. A failed assertion ends the program, and there are no other
threads than those of the I/O manager. -/
def step (s : State J) : Action → Option (State J)
  | .main random => mainStep J random s
  | .take t => if t < J.threads ∧ s.pc ≠ .failed then take J t s else none
  | .read t => if t < J.threads ∧ s.pc ≠ .failed then read J t s else none
  | .finish t => if t < J.threads ∧ s.pc ≠ .failed then finish J t s else none

/-- `s` is reached by the actions `as`, in any order of the threads. -/
abbrev Reaches (as : List Action) (s : State J) : Prop :=
  Transition.Run (step J) (fun _ _ => True) (init J) as s

end BlockLoading
