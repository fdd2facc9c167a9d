import Mathlib
import DpdkGraph.BufferedFile
import DpdkGraph.SparseRows
import DpdkGraph.QuickSort
import DpdkGraph.Intervals

/-!
# Writing the shard of an interval

`reshard` turns the edges that touch the interval of one shard into that
shard's files. Sorted by source, the edges fall into *in-edges*, whose
source lies in the interval of another shard, and *out-edges*, whose source
lies in the shard's own interval. The adjacency of the in-edges, and of the
edges within the interval, goes to the main file; that of an out-edge to
the file of the shard of its destination. The values go to one `.in` file
per source shard and one `.out` file per destination shard.

One loop walks the sorted edges. It keeps the edges of the row under
construction back (`pending`) and writes them when the source, the file or
the mode changes; each adjacency file has a cursor `curvid` and a flag that
tells whether the row under the cursor has been written, from which the
runs of vertices without edges are computed. The stages of one step are
`slide`, `leaveOut` and `changeVid`, in the order of the source.

The static-data variant of the loop is modelled, with the builds' active
assertions: a failed assertion is `none`.
-/

namespace Reshard

open SparseRows

variable {V : Type}

/-- `(int) x`, for a 32-bit `int`. -/
def toInt32 (x : ℤ) : ℤ := x.bmod (2 ^ 32)

/-- A number that fits is kept. -/
theorem toInt32_natCast {n : ℕ} (h : n < 2 ^ 31) : toInt32 n = n := by
  unfold toInt32
  exact Int.bmod_eq_of_le (by omega) (by omega)

/-! ## One adjacency file -/

/-- The adjacency part of a `write_sliding`: the file and its buffer, the
cursor, and whether the row under the cursor has been written. -/
structure WriteSliding where
  /-- `f_s`, with `s_buff` in front of it. -/
  s : BufferedFile UInt8
  /-- The vertex under the cursor. -/
  curvid : ℕ
  /-- `vid_written`. -/
  vidWritten : Bool
deriving DecidableEq

namespace WriteSliding

/-- `!vid_written`, as a number. -/
def unwritten (w : WriteSliding) : ℕ := if w.vidWritten then 0 else 1

/-- Writes a row: its length, then the destinations. -/
def writeRow (cap : ℕ) (es : List (EdgeWithValue V)) (w : WriteSliding) :
    WriteSliding :=
  let s := w.s.put cap 1 5 (countBytes es.length)
  { w with s := s.putAll cap 1 4 (fun e => u32le e.dst) es }

/-- Writes the pending edges as a row, if there are any. -/
def writePending (cap : ℕ) (es : List (EdgeWithValue V)) (w : WriteSliding) :
    WriteSliding :=
  if es = [] then w else { w.writeRow cap es with vidWritten := true }

/-- The byte pairs of a run of `nz` vertices without edges, at most 255 of
them in a pair; the first pair is written whatever `nz` is. -/
def zeroRun : ℕ → ℤ → List (List UInt8)
  | 0, _ => []
  | fuel + 1, nz =>
    let tnz := min 254 (nz - 1)
    [0, UInt8.ofInt tnz] ::
      (if 0 < nz - 1 - tnz then zeroRun fuel (nz - 1 - tnz) else [])

/-- Writes the run of vertices without edges between the cursor and `src`.
The cursor itself stays. -/
def writeZeros (cap src : ℕ) (w : WriteSliding) : WriteSliding :=
  if (w.curvid + 1 - w.unwritten) % 2 ^ 32 < src then
    let nz := toInt32 ((src : ℤ) - w.curvid - 1 + w.unwritten)
    { w with s := w.s.putAll cap 1 2 id (zeroRun (nz.toNat + 1) nz) }
  else w

/-- Moves the cursor of a file that the scan leaves to `src`. -/
def switchTo (cap src : ℕ) (i : ℕ) (w : WriteSliding) : WriteSliding :=
  { w.writeZeros cap src with
    curvid := src
    vidWritten := decide (i ≠ 0) && decide (w.curvid = src) }

/-- Moves the cursor of the main file to `src`. -/
def moveTo (cap src : ℕ) (w : WriteSliding) : WriteSliding :=
  { w.writeZeros cap src with curvid := src, vidWritten := false }

end WriteSliding

/-! ## The state of the loop -/

/-- What a call of `reshard` reads besides the edges. -/
structure Params where
  /-- `intervals`. -/
  intervals : IntervalPartition
  /-- `shard`. -/
  shard : ℕ
  /-- `compressed_block_size`, the size of every buffer. -/
  compressedBlockSize : ℕ
  /-- `sizeof(FinalEdgeDataType)`. -/
  valueSize : ℕ

/-- **The variables that decide where rows go**: the adjacency files and the
walk over the sorted edges. -/
structure Walk (V : Type) where
  /-- The adjacency files, by shard; that of the own shard is the main one. -/
  wsl : ℕ → WriteSliding
  /-- `current_sliding_shard`; none is `-1`. -/
  currentSlidingShard : Option ℕ
  /-- `current_memory_shard`. -/
  currentMemoryShard : ℕ
  /-- The source of the previous edge. -/
  curvid : ℕ
  /-- Whether out-edges have been seen since the last switch back. -/
  willout : Bool
  /-- `index`, the shard of the last out-edge's destination. -/
  index : ℕ
  /-- `shovelbuf[istart .. i)`, the edges not written yet. -/
  pending : List (EdgeWithValue V)
  /-- The position in the sorted edges. -/
  i : ℕ

namespace Walk

/-- The variables before the loop: every cursor at the first vertex of the
interval, that of the main file at vertex 0. -/
def init (c : Params) : Walk V where
  wsl k := ⟨.empty, if k = c.shard then 0 else c.intervals.first c.shard, false⟩
  currentSlidingShard := none
  currentMemoryShard := 0
  curvid := 0
  willout := false
  index := 0
  pending := []
  i := 0

/-- Changes one adjacency file. -/
def onFile (w : Walk V) (k : ℕ) (f : WriteSliding → WriteSliding) : Walk V :=
  { w with wsl := Function.update w.wsl k (f (w.wsl k)) }

/-- Writes the pending edges to file `k`; none are pending after. -/
def flushTo (c : Params) (k : ℕ) (w : Walk V) : Walk V :=
  { w.onFile k (.writePending c.compressedBlockSize w.pending) with
    pending := [] }

/-- Whether the current file and its cursor are the ones for `src`. -/
def inPlace (src : ℕ) (w : Walk V) : Bool :=
  decide (w.currentMemoryShard = w.index)
    && decide (src = (w.wsl w.currentMemoryShard).curvid)

/-- Whether the pending edges belong to the current file. -/
def pendingInInterval (c : Params) (w : Walk V) : Bool :=
  w.pending.all fun e => decide
    (c.intervals.first w.currentMemoryShard ≤ e.dst
      ∧ e.dst ≤ c.intervals.second w.currentMemoryShard)

/-- The body of the loop that leaves the current file for that of `index`:
the pending edges are written, which asserts that they belong there, and
the cursor moves to `src`. -/
def switchStep (c : Params) (src : ℕ) (w : Walk V) : Option (Walk V) :=
  if w.pendingInInterval c then
    some
      { (w.flushTo c w.currentMemoryShard).onFile w.currentMemoryShard
          (.switchTo c.compressedBlockSize src w.i) with
        currentMemoryShard := w.index }
  else none

/-- The loop itself, with a bound on its rounds. -/
def switchLoop (c : Params) (src : ℕ) : ℕ → Walk V → Option (Walk V)
  | 0, w => if w.inPlace src then some w else none
  | fuel + 1, w =>
    if w.inPlace src then some w
    else (w.switchStep c src).bind (switchLoop c src fuel)

/-- The first stage of a step: the sliding shard moves to the shard of the
source, and an out-edge makes the file of its destination's shard current.
Two rounds of the inner loop are always enough. -/
def slide (c : Params) (e : EdgeWithValue V) (w : Walk V) : Option (Walk V) :=
  (c.intervals.advance w.currentSlidingShard e.src).bind fun k =>
    if k ≠ c.shard then some { w with currentSlidingShard := some k }
    else
      (switchLoop c e.src 2
        { w with
          currentSlidingShard := some k
          willout := true
          index := (c.intervals.shardOf e.dst).getD w.index }).map
      fun w => { w with curvid := e.src }

/-- The second stage: on the first in-edge of the shard after the own one,
the pending out-edges are written and the main file becomes current. -/
def leaveOut (c : Params) (w : Walk V) : Walk V :=
  if w.currentSlidingShard = some (c.shard + 1) ∧ w.willout then
    { w.flushTo c w.currentMemoryShard with
      willout := false
      currentMemoryShard := c.shard }
  else w

/-- The third stage: on a new source, the pending edges are written to the
main file, whose cursor moves on. -/
def changeVid (c : Params) (src : ℕ) (w : Walk V) : Walk V :=
  if src ≠ w.curvid then
    { (w.flushTo c c.shard).onFile c.shard (.moveTo c.compressedBlockSize src) with
      currentMemoryShard := c.shard }
  else w

/-- The end of a step: the edge is pending. -/
def keep (e : EdgeWithValue V) (w : Walk V) : Walk V :=
  { w with curvid := e.src, pending := w.pending ++ [e], i := w.i + 1 }

/-- What the stopper does: the pending edges are written to the current
file. -/
def stop (c : Params) (w : Walk V) : Walk V :=
  if w.pending = [] then w
  else w.onFile w.currentMemoryShard (.writeRow c.compressedBlockSize w.pending)

/-- One step of the walk. -/
def step (c : Params) (w : Walk V) (e : EdgeWithValue V) : Option (Walk V) :=
  if e.stopper then
    some { w.stop c with pending := w.pending ++ [e], i := w.i + 1 }
  else (w.slide c e).map fun w => ((w.leaveOut c).changeVid c e.src).keep e

/-- The walk over the sorted edges. -/
def run (c : Params) : Walk V → List (EdgeWithValue V) → Option (Walk V)
  | w, [] => some w
  | w, e :: es => (w.step c e).bind fun w => run c w es

end Walk

/-- **The edge value files.** -/
structure Values (V : Type) where
  /-- `e_buff[0]`, the incoming values by source shard. -/
  eBuff0 : ℕ → BufferedFile V
  /-- `e_buff[1]`, the outgoing values by destination shard; that of the own
  shard is the main `.in` file. -/
  eBuff1 : ℕ → BufferedFile V
  /-- Bytes of incoming values flushed so far. -/
  edatasize : ℕ

namespace Values

/-- Empty files. -/
def init : Values V := ⟨fun _ => .empty, fun _ => .empty, 0⟩

/-- Buffers one edge value. -/
def putValue (c : Params) (v : V) (b : BufferedFile V) : BufferedFile V :=
  b.put c.compressedBlockSize c.valueSize c.valueSize [v]

/-- The bytes that buffering one more edge value flushes to the file. -/
def flushedBytes (c : Params) (b : BufferedFile V) : ℕ :=
  if b.overflows c.compressedBlockSize c.valueSize c.valueSize then
    b.buff.length * c.valueSize
  else 0

/-- The value of an in-edge from shard `k`. -/
def putIn (c : Params) (k : ℕ) (v : V) (vals : Values V) : Values V :=
  { vals with
    eBuff0 := Function.update vals.eBuff0 k (putValue c v (vals.eBuff0 k))
    edatasize := vals.edatasize + flushedBytes c (vals.eBuff0 k) }

/-- The value of an out-edge to shard `index`. -/
def putOut (c : Params) (index : ℕ) (v : V) (vals : Values V) : Values V :=
  { vals with
    eBuff1 := Function.update vals.eBuff1 index (putValue c v (vals.eBuff1 index))
    edatasize := if index = c.shard then
      vals.edatasize + flushedBytes c (vals.eBuff1 index) else vals.edatasize }

/-- The value of an edge, by where the walk has come to. -/
def put (c : Params) (w : Walk V) (v : V) (vals : Values V) : Values V :=
  match w.currentSlidingShard with
  | none => vals
  | some k => if k ≠ c.shard then vals.putIn c k v else vals.putOut c w.index v

end Values

/-- The state of the loop. -/
structure State (V : Type) extends Walk V, Values V

namespace State

/-- The state before the loop. -/
def init (c : Params) : State V := { Walk.init c, Values.init with }

/-- **One step of the loop.** The source buffers the value before the inner
loop of the walk; the two touch different variables. -/
def step (c : Params) (st : State V) (e : EdgeWithValue V) : Option (State V) :=
  (st.toWalk.step c e).map fun w =>
    { toWalk := w
      toValues := if e.stopper then st.toValues else st.toValues.put c w e.value }

/-- The loop over the sorted edges. -/
def run (c : Params) : State V → List (EdgeWithValue V) → Option (State V)
  | st, [] => some st
  | st, e :: es => (st.step c e).bind fun st => run c st es

end State

/-! ## The whole call -/

/-- The files that `reshard` leaves. -/
structure ShardFiles (V : Type) where
  /-- The adjacency files by shard; that of the own shard is the main one. -/
  adj : ℕ → List UInt8
  /-- The `.in` files, by source shard. -/
  inData : ℕ → List V
  /-- The `.out` files, by destination shard. -/
  outData : ℕ → List V
  /-- The number in the `.size` file. -/
  edatasize : ℕ

/-- The edges as `quickSort(shovelbuf, (int)numedges, …)` leaves them:
sorted, up to the number of them that is left of `numedges` as an `int`. -/
def sortEdges (rand : ℕ → ℕ) (edges : List (EdgeWithValue V)) :
    List (EdgeWithValue V) :=
  let n := (toInt32 edges.length).toNat
  (Qsort.quickSort EdgeWithValue.edgeTSrcLess rand n 0 (edges.take n)).1
    ++ edges.drop n

/-- Flushes every buffer into its file. -/
def finish (c : Params) (st : State V) : ShardFiles V where
  adj k := (st.wsl k).s.flush.file
  inData k := if k = c.shard then (st.eBuff1 k).flush.file
    else (st.eBuff0 k).flush.file
  outData k := (st.eBuff1 k).flush.file
  edatasize := st.edatasize + (st.eBuff1 c.shard).buff.length * c.valueSize
    + ((List.range c.intervals.nshards).map fun k =>
        if k = c.shard then 0 else (st.eBuff0 k).buff.length * c.valueSize).sum

/-- **`reshard`**: the files of one shard, from the edges in its shovel
buffer and the numbers that `rand()` returns. -/
def reshard (c : Params) (rand : ℕ → ℕ) (edges : List (EdgeWithValue V)) :
    Option (ShardFiles V) :=
  ((State.init c).run c (sortEdges rand edges)).map fun st =>
    finish c { st with toWalk := st.toWalk.stop c }

end Reshard
