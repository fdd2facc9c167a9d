import Mathlib
import DpdkGraph.Intervals
import DpdkGraph.Transition
import DpdkGraph.VertexProgram

/-!
# The engine's iterations

Worker `w` of a job computes the vertices of interval `w`. The value of an
edge may be kept in several places: an edge inside the interval has a slot
in the main block and one in the copy of it, `main_to_main_buf`; an edge
between two workers has a slot in an `obuf` of its source's worker and one
in an `inbuf` of its destination's worker. Which places an edge object reads
and writes is decided when the graph is loaded, by two functions that go
through different files: `load_vertices_XG` and `read_next_vertices_XG`.

In an iteration a worker computes, which is a sequence of requests of its
vertices, sends its `obuf`s, waits until the blocks of the other workers are
stored in its `inbuf`s, and copies `main_to_main_buf` over the main block.
Blocks are stored as a whole here; the bytes are the subject of `Exchange`.

The files are the ones a sharding without faults leaves: the main adjacency
file holds the in-edges of the interval, sorted by source, the file of an
out-block the edges to another interval, and the values are in the order of
the edges.
-/

namespace Engine

open VertexProgram

/-! ## The input and the job -/

/-- What all partitions share. -/
structure Input (V E : Type) where
  /-- The edges, sorted by source, and by destination for one source. -/
  edges : List (EdgeWithValue E)
  sorted : edges.Pairwise fun a b => a.src ≤ b.src
  /-- There are no self loops. -/
  noloop : ∀ e ∈ edges, e.src ≠ e.dst
  /-- The vertex program. -/
  program : Program V E
  /-- The vertex data before the first iteration. -/
  value : ℕ → V

variable {V E : Type}

/-- The edges between two intervals. -/
def InBlock (part : IntervalPartition) (a b : ℕ) (e : EdgeWithValue E) : Prop :=
  part.Mem a e.src ∧ part.Mem b e.dst

instance (part : IntervalPartition) (a b : ℕ) :
    DecidablePred (InBlock part a b (E := E)) := fun _ =>
  inferInstanceAs (Decidable (_ ∧ _))

namespace Input

variable (x : Input V E) (part : IntervalPartition)

/-- The edges with their numbers. -/
def numbered : List (EdgeWithValue E × ℕ) := x.edges.zipIdx

/-- The block of values of the edges from interval `a` to interval `b`. -/
def block (a b : ℕ) : List E :=
  (x.edges.filter fun e => decide (InBlock part a b e)).map
    EdgeWithValue.value

/-- The entries of the main adjacency file of interval `w`. -/
def mainFile (w : ℕ) : List (EdgeWithValue E × ℕ) :=
  x.numbered.filter fun e => decide (part.Mem w e.1.dst)

/-- The entries of the adjacency file for the edges from `w` to `p`. -/
def outFile (w p : ℕ) : List (EdgeWithValue E × ℕ) :=
  x.numbered.filter fun e => decide (InBlock part w p e.1)

end Input

/-- The intervals cover the endpoints of the edges. -/
def Covered (x : Input V E) (part : IntervalPartition) : Prop :=
  ∀ e ∈ x.edges, (∃ k, part.Mem k e.src) ∧ ∃ k, part.Mem k e.dst

/-! ## The edge objects -/

/-- Where the value of an edge is kept at a worker; the slots are counted in
edge values. -/
inductive Ptr
  | inbuf (p slot : ℕ)
  | obuf (p slot : ℕ)
  | mainToMain (slot : ℕ)
deriving DecidableEq, Repr

/-- The buffers of a worker. -/
abbrev Memory (E : Type) := Ptr → E

/-- `CE_Graph_edge`. -/
structure Edge where
  /-- The number of the edge. -/
  edge : ℕ
  /-- `vertexid`: the other endpoint. -/
  vertexid : ℕ
  /-- `data_ptr`. -/
  dataPtr : Ptr
  /-- `data_ptr_syn`. -/
  dataPtrSyn : Option Ptr
deriving DecidableEq, Repr

/-- `get_data`. -/
def Edge.getData (e : Edge) (m : Memory E) : E := m e.dataPtr

/-- Where `set_data` writes to. -/
def Edge.target (e : Edge) : Ptr := e.dataPtrSyn.getD e.dataPtr

/-- `set_data`. -/
def Edge.setData (e : Edge) (m : Memory E) (x : E) : Memory E :=
  Function.update m e.target x

/-! ## Loading -/

/-- The variables of the loop of `load_vertices_XG` that say where the value
of the next edge is: `bid` is the block under the cursor and `brange` the
end of it. -/
structure Cursor where
  edgeptr : ℕ
  edgeptrSyn : ℕ
  bid : ℕ
  brange : ℕ

/-- The cursor before the first edge. -/
def Cursor.start (blocksizes : ℕ → ℕ) : Cursor := ⟨0, 0, 0, blocksizes 0⟩

/-- `inbuf[bid] + (edgeptr - (brange - blocksizes[bid]))`. -/
def Cursor.eptr (blocksizes : ℕ → ℕ) (c : Cursor) : Ptr :=
  .inbuf c.bid (c.edgeptr - (c.brange - blocksizes c.bid))

/-- The cursor after an edge; `own` says whether its source is a vertex of
the worker. When the end of the block is reached, the next one is taken,
whatever its length. -/
def Cursor.next (blocksizes : ℕ → ℕ) (own : Bool) (c : Cursor) : Cursor :=
  let edgeptr := c.edgeptr + 1
  let edgeptrSyn := if own then c.edgeptrSyn + 1 else c.edgeptrSyn
  if c.brange ≤ edgeptr then
    ⟨edgeptr, edgeptrSyn, c.bid + 1, c.brange + blocksizes (c.bid + 1)⟩
  else ⟨edgeptr, edgeptrSyn, c.bid, c.brange⟩

/-- The edge objects that are added to the vertices: the vertex, whether it
is one of its in- or out-edges, and the object. -/
abbrev Added := List (ℕ × Side × Edge)

/-- The loop of `load_vertices_XG`, in synchronous mode. Every destination
of a main file is a vertex of the worker, so that no row is left early; the
objects of the edges inside the interval have a second pointer. -/
def loadVerticesFrom (blocksizes : ℕ → ℕ) (own : ℕ → Bool) :
    Cursor → List (EdgeWithValue E × ℕ) → Added
  | _, [] => []
  | c, (e, k) :: es =>
    let eptr := c.eptr blocksizes
    let syn := Ptr.mainToMain c.edgeptrSyn
    (if own e.src then [(e.src, .outedge, ⟨k, e.dst, eptr, some syn⟩)]
      else []) ++
    [(e.dst, .inedge, ⟨k, e.src, eptr, if own e.src then some syn else none⟩)]
      ++ loadVerticesFrom blocksizes own (c.next blocksizes (own e.src)) es

/-- **`load_vertices_XG`** of worker `w`. -/
def loadVerticesXG (x : Input V E) (part : IntervalPartition) (w : ℕ) : Added :=
  let blocksizes p := (x.block part p w).length
  loadVerticesFrom blocksizes (fun v => decide (part.Mem w v))
    (.start blocksizes) (x.mainFile part w)

/-- **`read_next_vertices_XG`** of worker `w` for the edges to interval
`p`. -/
def readNextVerticesXG (x : Input V E) (part : IntervalPartition) (w p : ℕ) :
    Added :=
  (x.outFile part w p).zipIdx.map fun entry =>
    (entry.1.1.src, .outedge,
      ⟨entry.1.2, entry.1.1.dst, .obuf p entry.2, none⟩)

/-- All the edge objects that worker `w` adds, one thread per file. -/
def loadBeforeUpdates (x : Input V E) (part : IntervalPartition) (w : ℕ) :
    Added :=
  loadVerticesXG x part w ++
    ((List.range part.nshards).filter (· ≠ w)).flatMap
      fun p => readNextVerticesXG x part w p

/-- The edge objects of a vertex, of one kind. -/
def Added.edges (added : Added) (side : Side) (v : ℕ) : List Edge :=
  (added.filter fun a => decide (a.1 = v ∧ a.2.1 = side)).map fun a => a.2.2

/-- **A job**: the partition, and what the order of the threads that load
decides. -/
structure Job (x : Input V E) where
  /-- The intervals of the workers. -/
  part : IntervalPartition
  covered : Covered x part
  /-- The out-edges of a vertex of a worker, in the order in which the
  threads have added them. -/
  outedges : ℕ → ℕ → List Edge
  added : ∀ w v, (outedges w v).Perm
    ((loadBeforeUpdates x part w).edges .outedge v)
  /-- Whether the read of a slot of the main block was over when the block
  was copied to `main_to_main_buf`. -/
  copied : ℕ → ℕ → Bool
  /-- What the buffers hold otherwise, and beyond their ends. -/
  blank : ℕ → Memory E

namespace Job

variable {x : Input V E} (job : Job x)

/-- The number of workers. -/
def workers : ℕ := job.part.nshards

/-- The edge objects of a vertex. Only one thread adds in-edges. -/
def edges (w : ℕ) : Side → ℕ → List Edge
  | .inedge, v => (loadBeforeUpdates x job.part w).edges .inedge v
  | .outedge, v => job.outedges w v

/-- What `update` knows of a vertex. -/
def vertex (w v : ℕ) : Vertex where
  id := v
  inedges := (job.edges w .inedge v).map Edge.vertexid
  outedges := (job.edges w .outedge v).map Edge.vertexid

end Job

/-! ## The states -/

/-- Where a worker is in an iteration. -/
inductive Phase
  /-- It waits for the message that begins the iteration. -/
  | waiting
  /-- It computes. -/
  | computing
  /-- It has computed, and waits for the blocks. -/
  | exchanging
deriving DecidableEq, Repr

/-- A worker. -/
structure Worker (V E : Type) where
  /-- The blocks: `inbuf`, `obuf` and `main_to_main_buf`. -/
  memory : Memory E
  /-- The vertex data. -/
  value : ℕ → V
  /-- What is left of the calls of `update`. -/
  todo : ℕ → Update V E Unit
  iter : ℕ
  phase : Phase
  /-- Whose blocks of this iteration are stored. -/
  got : ℕ → Bool

/-- A value of an edge that an endpoint finds or writes in an iteration. -/
structure Record (E : Type) where
  iteration : ℕ
  /-- The endpoint that writes or reads. -/
  side : Side
  /-- The number of the edge. -/
  edge : ℕ
  value : E
deriving DecidableEq, Repr

/-- The workers, and the history of the edges: what the endpoints have
written, the last one first, and what their objects held when an iteration
began. -/
structure State (V E : Type) where
  worker : ℕ → Worker V E
  /-- What has been written to the edges, the last first. -/
  writes : List (Record E)
  /-- What the endpoints have found when their iterations began. -/
  found : List (Record E)

/-- The buffers after loading. -/
def Job.loaded {x : Input V E} (job : Job x) (w : ℕ) : Memory E
  | .inbuf p slot =>
    (x.block job.part p w).getD slot (job.blank w (.inbuf p slot))
  | .obuf p slot =>
    (x.block job.part w p).getD slot (job.blank w (.obuf p slot))
  | .mainToMain slot =>
    if job.copied w slot then
      (x.block job.part w w).getD slot (job.blank w (.inbuf w slot))
    else job.blank w (.mainToMain slot)

/-- Before the first iteration. -/
def init {x : Input V E} (job : Job x) : State V E where
  worker w :=
    { memory := job.loaded w
      value := x.value
      todo := fun _ => .done ()
      iter := 0
      phase := .waiting
      got := fun _ => false }
  writes := []
  found := []

def State.setWorker (s : State V E) (w : ℕ) (y : Worker V E) : State V E :=
  { s with worker := Function.update s.worker w y }

/-! ## The steps -/

/-- What can happen next. -/
inductive Action
  /-- Worker `w` begins the iteration. -/
  | begin (w : ℕ)
  /-- A thread of worker `w` takes the next request of vertex `v`. -/
  | request (w v : ℕ)
  /-- All calls of worker `w` have returned. -/
  | finish (w : ℕ)
  /-- The block from worker `p` is stored at worker `w`. -/
  | deliver (p w : ℕ)
  /-- Worker `w` has all blocks, copies `main_to_main_buf` over the main
  block and reports to the master. -/
  | sync (w : ℕ)
deriving DecidableEq, Repr

/-- The objects of the edges of a worker, with their sides. -/
def Job.objects {x : Input V E} (job : Job x) (w : ℕ) : List (Side × Edge) :=
  (List.range' (job.part.first w)
      (job.part.second w + 1 - job.part.first w)).flatMap fun v =>
    (job.edges w .inedge v).map (Side.inedge, ·) ++
      (job.edges w .outedge v).map (Side.outedge, ·)

variable {x : Input V E} (job : Job x) (s : State V E)

/-- The master begins an iteration when all workers have reported the one
before. -/
def beginStep (w : ℕ) : Option (State V E) :=
  let y := s.worker w
  if w < job.workers ∧ y.phase = .waiting ∧
      ∀ u < job.workers, y.iter ≤ (s.worker u).iter then
    some
      { s.setWorker w
          { y with
            todo := fun v => x.program y.iter (job.vertex w v)
            phase := .computing } with
        found := (job.objects w).map (fun o =>
          ⟨y.iter, o.1, o.2.edge, o.2.getData y.memory⟩) ++ s.found }
  else none

/-- The state after a request of vertex `v`. -/
def answer (w v : ℕ) : Update V E Unit → Option (State V E)
  | .done _ => none
  | .getData next =>
    some (s.setWorker w
      { s.worker w with
        todo := Function.update (s.worker w).todo v
          (next ((s.worker w).value v)) })
  | .setData d next =>
    some (s.setWorker w
      { s.worker w with
        value := Function.update (s.worker w).value v d
        todo := Function.update (s.worker w).todo v next })
  | .getEdge side i next =>
    (job.edges w side v)[i]?.map fun e =>
      s.setWorker w
        { s.worker w with
          todo := Function.update (s.worker w).todo v
            (next (e.getData (s.worker w).memory)) }
  | .setEdge side i d next =>
    (job.edges w side v)[i]?.map fun e =>
      { s.setWorker w
          { s.worker w with
            memory := e.setData (s.worker w).memory d
            todo := Function.update (s.worker w).todo v next } with
        writes := ⟨(s.worker w).iter, side, e.edge, d⟩ :: s.writes }

def requestStep (w v : ℕ) : Option (State V E) :=
  if job.part.Mem w v ∧ (s.worker w).phase = .computing then
    answer job s w v ((s.worker w).todo v)
  else none

def finishStep (w : ℕ) : Option (State V E) :=
  if w < job.workers ∧ (s.worker w).phase = .computing ∧
      ∀ v < job.part.second w + 1, job.part.first w ≤ v →
        ((s.worker w).todo v).isDone = true then
    some (s.setWorker w { s.worker w with phase := .exchanging })
  else none

/-- The `inbuf` for `p` after the block of `p` has been stored. -/
def Job.stored (p w : ℕ) (source memory : Memory E) : Memory E
  | .inbuf q slot =>
    if q = p ∧ slot < (x.block job.part p w).length then source (.obuf w slot)
    else memory (.inbuf q slot)
  | .obuf q slot => memory (.obuf q slot)
  | .mainToMain slot => memory (.mainToMain slot)

/-- A worker sends its blocks when it has computed; the network thread of
the receiver stores them whatever the receiver does. -/
def deliverStep (p w : ℕ) : Option (State V E) :=
  if p < job.workers ∧ w < job.workers ∧ p ≠ w ∧
      (s.worker p).phase = .exchanging ∧
      (s.worker p).iter = (s.worker w).iter ∧ (s.worker w).got p = false then
    some (s.setWorker w
      { s.worker w with
        memory := job.stored p w (s.worker p).memory (s.worker w).memory
        got := Function.update (s.worker w).got p true })
  else none

/-- The main block after `main_to_main_buf` has been copied over it. -/
def Job.synced (w : ℕ) (memory : Memory E) : Memory E
  | .inbuf q slot =>
    if q = w ∧ slot < (x.block job.part w w).length then
      memory (.mainToMain slot)
    else memory (.inbuf q slot)
  | .obuf q slot => memory (.obuf q slot)
  | .mainToMain slot => memory (.mainToMain slot)

def syncStep (w : ℕ) : Option (State V E) :=
  if w < job.workers ∧ (s.worker w).phase = .exchanging ∧
      ∀ p < job.workers, p ≠ w → (s.worker w).got p = true then
    some (s.setWorker w
      { s.worker w with
        memory := job.synced w (s.worker w).memory
        iter := (s.worker w).iter + 1
        phase := .waiting
        got := fun _ => false })
  else none

/-- **The steps of a job.** -/
def step : Action → Option (State V E)
  | .begin w => beginStep job s w
  | .request w v => requestStep job s w v
  | .finish w => finishStep job s w
  | .deliver p w => deliverStep job s p w
  | .sync w => syncStep job s w

end Engine
