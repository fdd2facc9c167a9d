import Mathlib
import DpdkGraph.Reshard

/-!
# Writing a shard whose edges have several values

In the builds with `DYNAMICEDATA` an edge has a vector of values, and comes
to `reshard` as one record for each of them, numbered by `valindex`. The
loop is the one of the static builds, over the first records: it looks ahead
for the others, writes the vector and jumps over them.

Besides it counts. `num_uniq_edges` counts the edges taken; a row that is
written has as many as came since the last one. They are booked when the row
is written: on the file of an out-edge, or, for the main file, on the block
of `current_writing_shard`, a second cursor that follows the sources one
edge behind the first. What is booked goes to the `.size` files, from which
the engine knows how many vectors a block has.

The memory behind the buffer is a parameter, since the look-ahead at the
last edge reads there. The buffers in front of the value files are left out.
-/

namespace DynamicReshard

open SparseRows
open Reshard (Params WriteSliding toInt32)

variable {V : Type}

/-- `edge_with_value`, with dynamic values. -/
structure ChivecEdge (V : Type) extends EdgeWithValue V where
  isChivecValue : Bool
  valindex : UInt16

/-- `edge_t_src_less`, with dynamic values. -/
def ChivecEdge.edgeTSrcLess (a b : ChivecEdge V) : Bool :=
  if a.src = b.src then
    if a.dst = b.dst then decide (a.valindex < b.valindex) else decide (a.dst < b.dst)
  else decide (a.src < b.src)

/-! ## The buffer -/

/-- `shovelbuf`, sorted, and the memory behind it. -/
structure Shovel (V : Type) where
  edges : List (ChivecEdge V)
  behind : ℕ → ChivecEdge V

namespace Shovel

variable (s : Shovel V)

def numedges : ℕ := s.edges.length

/-- `shovelbuf[i]`. -/
def get (i : ℕ) : ChivecEdge V := s.edges.getD i (s.behind i)

/-- `while(shovelbuf[i + count].valindex == count) { count++; }`. -/
def countFrom (i : ℕ) : ℕ → ℕ → ℕ
  | 0, count => count
  | fuel + 1, count =>
    if (s.get (i + count)).valindex.toNat = count then countFrom i fuel (count + 1)
    else count

/-- `edge_values`, of the edge at `i`. A `valindex` has 16 bits. -/
def edgeValues (i : ℕ) : ℕ :=
  if (s.get i).isChivecValue then s.countFrom i (2 ^ 16) 1 else 0

/-- The edge at `i`, with its vector. -/
def vector (i : ℕ) : EdgeWithValue (List V) where
  src := (s.get i).src
  dst := (s.get i).dst
  value := (List.range (s.edgeValues i)).map fun v => (s.get (i + v)).value

end Shovel

/-! ## The variables -/

/-- **The counters** of edges, from which the sizes that the files record are
made in the end. -/
structure Books where
  numUniqEdges : ℕ
  lastEdgeCount : ℕ
  /-- `current_writing_shard`; none is `-1`. -/
  currentWritingShard : Option ℕ
  /-- `uniq_edges`, by source shard. -/
  uniqEdges : ℕ → ℕ
  /-- `wsl[k].uniq_edges`, by destination shard. -/
  wslUniqEdges : ℕ → ℕ
  memEdges : ℕ

namespace Books

/-- `num_uniq_edges - 1 - last_edge_count`, the edges before the current one
that have not been written. -/
def count (b : Books) : ℕ := b.numUniqEdges - 1 - b.lastEdgeCount

/-- `n` edges are booked on the file `k`. For the main file the cursor of
the sources has come to a shard by then. -/
def book (c : Params) (k n : ℕ) (b : Books) : Books :=
  if k = c.shard then
    { b with
      memEdges := b.memEdges + n
      uniqEdges := Function.update b.uniqEdges (b.currentWritingShard.getD 0)
        (b.uniqEdges (b.currentWritingShard.getD 0) + n) }
  else
    { b with
      wslUniqEdges := Function.update b.wslUniqEdges k (b.wslUniqEdges k + n) }

/-- The edges before the current one are booked on the file `k`. -/
def settle (c : Params) (k : ℕ) (b : Books) : Books :=
  { b.book c k b.count with lastEdgeCount := b.numUniqEdges - 1 }

end Books

/-- **The variables of the loop** over the records, with the files. `jumpover`
counts the further records of the edge at hand, which the next round jumps
over. -/
structure State (V : Type) where
  /-- The adjacency files, by shard; that of the own shard is the main one. -/
  wsl : ℕ → WriteSliding
  /-- `current_sliding_shard`; none is `-1`. -/
  currentSlidingShard : Option ℕ
  currentMemoryShard : ℕ
  curvid : ℕ
  willout : Bool
  index : ℕ
  istart : ℕ
  i : ℕ
  jumpover : ℕ
  lastdst : ℕ
  books : Books
  /-- `f_e[0]`, the vectors of in-edges by source shard. -/
  inBlock : ℕ → List (EdgeWithValue (List V))
  /-- `f_e[1]`, the vectors of out-edges by destination shard; those of the
  own shard are in the main block. -/
  outBlock : ℕ → List (EdgeWithValue (List V))

/-- A row of `count` edges, to these destinations. -/
def writeRow (cap count : ℕ) (dsts : List ℕ) (x : WriteSliding) : WriteSliding :=
  { x with s := (x.s.put cap 1 5 (countBytes count)).putAll cap 1 4 u32le dsts }

namespace State

/-- The variables before the loop. -/
def init (c : Params) : State V where
  wsl k := ⟨.empty, if k = c.shard then 0 else c.intervals.first c.shard, false⟩
  currentSlidingShard := none
  currentMemoryShard := 0
  curvid := 0
  willout := false
  index := 0
  istart := 0
  i := 0
  jumpover := 0
  lastdst := 0xffffffff
  books := ⟨0, 0, none, fun _ => 0, fun _ => 0, 0⟩
  inBlock _ := []
  outBlock _ := []

/-- Changes one adjacency file. -/
def onFile (st : State V) (k : ℕ) (f : WriteSliding → WriteSliding) : State V :=
  { st with wsl := Function.update st.wsl k (f (st.wsl k)) }

variable (c : Params) (s : Shovel V)

/-- The destinations in `shovelbuf[istart .. i)`, the records of an edge
taken as one. -/
def rowDsts (st : State V) : List ℕ :=
  ((List.range' st.istart (st.i - st.istart)).filter fun j =>
    decide (j = st.istart ∨ (s.get (j - 1)).dst ≠ (s.get j).dst)).map
      fun j => (s.get j).dst

/-- The edges before the current one are written to the file `k`, and
booked. -/
def flushTo (k : ℕ) (st : State V) : State V :=
  { st with
    wsl := if 0 < st.books.count then Function.update st.wsl k
        { writeRow c.compressedBlockSize st.books.count (st.rowDsts s) (st.wsl k) with
          vidWritten := true }
      else st.wsl
    books := st.books.settle c k
    istart := st.i + st.jumpover }

/-- Whether the current file and its cursor are the ones for `src`. -/
def inPlace (src : ℕ) (st : State V) : Bool :=
  decide (st.currentMemoryShard = st.index)
    && decide (src = (st.wsl st.currentMemoryShard).curvid)

/-- The assertion on the destinations of the row. -/
def rowInInterval (st : State V) : Bool :=
  decide (st.books.count = 0)
    || (List.range' st.istart (st.i - st.istart)).all fun j => decide
      (c.intervals.first st.currentMemoryShard ≤ (s.get j).dst
        ∧ (s.get j).dst ≤ c.intervals.second st.currentMemoryShard)

/-- The body of the loop that leaves the current file for that of `index`. -/
def switchStep (src : ℕ) (st : State V) : Option (State V) :=
  if st.rowInInterval c s then
    some
      { (st.flushTo c s st.currentMemoryShard).onFile st.currentMemoryShard
          (.switchTo c.compressedBlockSize src st.i) with
        currentMemoryShard := st.index }
  else none

/-- The loop itself, with a bound on its rounds. -/
def switchLoop (src : ℕ) : ℕ → State V → Option (State V)
  | 0, st => if st.inPlace src then some st else none
  | fuel + 1, st =>
    if st.inPlace src then some st
    else (st.switchStep c s src).bind (switchLoop src fuel)

/-- The edge at `i`, from `src` to `dst`, is taken: both cursors of the
shards move, the vector is written, and the file of an out-edge becomes
current. Two rounds of the inner loop are always enough. -/
def slide (src dst : ℕ) (st : State V) : Option (State V) :=
  (c.intervals.advance st.currentSlidingShard src).bind fun k =>
    (c.intervals.advance st.books.currentWritingShard st.curvid).bind fun j =>
      if k ≠ c.shard then
        some
          { st with
            currentSlidingShard := some k
            jumpover := s.edgeValues st.i - 1
            books :=
              { st.books with
                currentWritingShard := some j
                numUniqEdges := st.books.numUniqEdges + 1 }
            inBlock := Function.update st.inBlock k
              (st.inBlock k ++ [s.vector st.i]) }
      else
        (switchLoop c s src 2
          { st with
            currentSlidingShard := some k
            jumpover := s.edgeValues st.i - 1
            books :=
              { st.books with
                currentWritingShard := some j
                numUniqEdges := st.books.numUniqEdges + 1 }
            willout := true
            index := (c.intervals.shardOf dst).getD st.index
            outBlock := Function.update st.outBlock
              ((c.intervals.shardOf dst).getD st.index)
              (st.outBlock ((c.intervals.shardOf dst).getD st.index)
                ++ [s.vector st.i]) }).map
        fun st => { st with curvid := src }

/-- On the first in-edge of the shard after the own one, the out-edges are
written and the main file becomes current. -/
def leaveOut (st : State V) : State V :=
  if st.currentSlidingShard = some (c.shard + 1) ∧ st.willout then
    { st.flushTo c s st.currentMemoryShard with
      willout := false
      currentMemoryShard := c.shard }
  else st

/-- On a new source, the row is written to the main file, whose cursor moves
on. -/
def changeVid (src : ℕ) (st : State V) : State V :=
  if src ≠ st.curvid then
    { (st.flushTo c s c.shard).onFile c.shard (.moveTo c.compressedBlockSize src) with
      currentMemoryShard := c.shard }
  else st

/-- What the stopper does. It is not counted itself, so the edges not
written are those behind `last_edge_count`. -/
def stop (st : State V) : State V :=
  if 0 < st.books.numUniqEdges - st.books.lastEdgeCount then
    { st.onFile st.currentMemoryShard (writeRow c.compressedBlockSize
        (st.books.numUniqEdges - st.books.lastEdgeCount) (st.rowDsts s)) with
      books := st.books.book c st.currentMemoryShard
        (st.books.numUniqEdges - st.books.lastEdgeCount) }
  else st

/-- What is done for an edge, or for the stopper. -/
def take (src dst : ℕ) (st : State V) : Option (State V) :=
  if st.lastdst = dst ∧ src = st.curvid then none
  else if src = 0 ∧ dst = 0 then some (stop c s { st with lastdst := dst })
  else (slide c s src dst { st with lastdst := dst }).map fun st =>
    { (st.leaveOut c s).changeVid c s src with curvid := src }

/-- The records of an edge are jumped over. -/
def jump (st : State V) : State V := { st with i := st.i + st.jumpover, jumpover := 0 }

/-- **One round of the loop**, at the edge that comes next or the stopper. -/
def round (st : State V) : Option (State V) :=
  (if st.jump.i < s.numedges then
      st.jump.take c s (s.get st.jump.i).src (s.get st.jump.i).dst
    else st.jump.take c s 0 0).map fun st => { st with i := st.i + 1 }

/-- The loop, with a bound on its rounds. -/
def run : ℕ → State V → Option (State V)
  | 0, st => if st.i ≤ s.numedges then none else some st
  | fuel + 1, st =>
    if st.i ≤ s.numedges then (st.round c s).bind (run fuel) else some st

end State

/-! ## The whole call -/

/-- What `reshard` leaves. -/
structure Files (V : Type) where
  /-- The adjacency files by shard; that of the own shard is the main one. -/
  adj : ℕ → List UInt8
  /-- The blocks of in-edges, by source shard. -/
  inBlock : ℕ → List (EdgeWithValue (List V))
  /-- The blocks of out-edges, by destination shard. -/
  outBlock : ℕ → List (EdgeWithValue (List V))
  /-- The numbers in the `.in.size` files. -/
  inSize : ℕ → ℕ
  /-- The numbers in the `.out.size` files. -/
  outSize : ℕ → ℕ
  /-- The number in the `.size` file. -/
  size : ℕ

/-- The buffers are flushed and the sizes are written, each times
`sizeof(int)`. -/
def finish (c : Params) (st : State V) : Files V where
  adj k := (st.wsl k).s.flush.file
  inBlock k := if k = c.shard then st.outBlock k else st.inBlock k
  outBlock := st.outBlock
  inSize k := st.books.uniqEdges k * 4
  outSize k := st.books.wslUniqEdges k * 4
  size := st.books.memEdges * 4

/-- The records as `quickSort(shovelbuf, (int)numedges, …)` leaves them. -/
def sortEdges (rand : ℕ → ℕ) (edges : List (ChivecEdge V)) : List (ChivecEdge V) :=
  (Qsort.quickSort ChivecEdge.edgeTSrcLess rand (toInt32 edges.length).toNat 0
    (edges.take (toInt32 edges.length).toNat)).1
      ++ edges.drop (toInt32 edges.length).toNat

/-- **`reshard`**, with dynamic values: the files of one shard, from the
records in its shovel buffer, the numbers that `rand()` returns and the
memory behind the buffer. -/
def reshard (c : Params) (rand : ℕ → ℕ) (behind : ℕ → ChivecEdge V)
    (edges : List (ChivecEdge V)) : Option (Files V) :=
  (State.run c ⟨sortEdges rand edges, behind⟩ (edges.length + 1) (.init c)).map
    (finish c)

end DynamicReshard
