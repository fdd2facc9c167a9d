import Mathlib
import DpdkGraph.BlockDecoding
import DpdkGraph.InEdgePointers
import DpdkGraph.LoadCompletion
import DpdkGraph.SharedAppends

/-!
# The edge records of a worker's vertices

Before anything is loaded `init_vertices` gives each vertex a segment of
one array, `edata`: room for as many in-edge records as the degree file
counts, and behind it room for the out-edge records. Nothing marks where a
segment ends. Then `load_before_updates` runs the loaders side by side: one
has the in-blocks read, goes through the main adjacency file and adds the
in-edges, and the out-edges that stay in the interval; one for each other
interval goes through the file of the out-edges to it.

`add_inedge` writes the record and then raises `inc`, for only one loader
adds in-edges; `add_outedge` raises `outc` with an atomic instruction and
then writes the record. These are the two kinds of append of
`SharedAppends`; a lane is one side of a vertex. The files are read with the
functions on bytes, `MainShard.Loader.loadVerticesXG` and
`BlockDecoding.Request.read`; how the in-blocks are read is the matter of
`BlockLoading`, which an instance for the worker is part of.

In-edges are stored and out-edges are enabled, as by default, and all
vertices are scheduled, as `initialize_scheduler` leaves them.
-/

namespace Loading

open SparseRows (Item expand encode)
open Reshard (toInt32)
open MainShard (OwnShard)
open VertexProgram (Side)

/-- `degree`, of two `int`s. -/
structure Degree where
  indegree : ℤ
  outdegree : ℤ
deriving DecidableEq, Repr

/-- **A worker and what it loads**: block files that decode to the graph,
and a degree file that has the degrees of the graph. -/
structure Subgraph where
  part : IntervalPartition
  /-- The edges of the graph, as pairs of a source and a destination. -/
  edges : List (ℕ × ℕ)
  /-- There are no self loops. -/
  noloop : ∀ e ∈ edges, e.1 ≠ e.2
  covered : ∀ e ∈ edges, (∃ k, part.Mem k e.1) ∧ ∃ k, part.Mem k e.2
  /-- The main shard; `main.exec` is the interval of the worker. -/
  main : OwnShard
  exec_lt : main.exec < part.nshards
  windowSt : main.loader.windowSt = part.first main.exec
  windowEn : main.loader.windowEn = part.second main.exec
  /-- All vertices are scheduled. -/
  scheduled : main.loader.scheduled = fun _ => true
  inedges : main.loader.inedges = true
  outedges : main.loader.outedges = true
  /-- The main file has the edges to the vertices of the worker. -/
  main_decodes : main.pairs.Perm
    (edges.filter fun e => decide (part.Mem main.exec e.2))
  /-- The in-blocks have a value for each edge from an interval. -/
  main_blocks : main.blocks = (List.range part.nshards).map fun p =>
    edges.countP fun e => decide (part.Mem p e.1 ∧ part.Mem main.exec e.2)
  /-- The files of the in-blocks, and the I/O manager that reads them. -/
  edata : BlockLoading.Job
  edata_P : edata.P = part.nshards
  edata_exec : (edata.exec : ℕ) = main.exec
  edata_edgeSize : edata.edgeSize = main.loader.edgeSize
  /-- A file has as many bytes as the schedule says. -/
  edata_file : ∀ k, (edata.file k).length = main.loader.blocksizes.getD k 0
  /-- The rows of the adjacency files of the out-blocks. -/
  outItems : ℕ → List Item
  out_valid : ∀ p < part.nshards, p ≠ main.exec → ∀ it ∈ outItems p, it.Valid
  /-- They have the edges from the worker to another one. -/
  out_decodes : ∀ p < part.nshards, p ≠ main.exec →
    (expand (part.first main.exec) (outItems p)).Perm (edges.filter fun e =>
      decide (part.Mem main.exec e.1 ∧ part.Mem p e.2))
  /-- The number of edge values of an out-block. -/
  slots : ℕ → ℕ
  slots_eq : ∀ p, slots p = edges.countP fun e =>
    decide (part.Mem main.exec e.1 ∧ part.Mem p e.2)
  /-- The degree file. -/
  degree : ℕ → Degree
  /-- It has the degrees of the graph. -/
  indegree_eq : ∀ v, (degree v).indegree =
    (edges.countP fun e => decide (e.2 = v) : ℕ)
  outdegree_eq : ∀ v, (degree v).outdegree =
    (edges.countP fun e => decide (e.1 = v) : ℕ)
  /-- Its numbers are `int`s. -/
  degree_lt : ∀ v, (degree v).indegree < 2 ^ 31 ∧ (degree v).outdegree < 2 ^ 31

/-- `svertex_t`: the parts of it that are set before the load. -/
structure Svertex where
  vertexid : ℕ
  inedgesPtr : ℤ
  outedgesPtr : ℤ
deriving DecidableEq, Repr

namespace Subgraph

variable (x : Subgraph)

/-- `sub_interval_st`, the first vertex of the interval. -/
def st : ℕ := x.part.first x.main.exec

/-- The number of vertices of the interval. -/
def size : ℕ := x.part.second x.main.exec + 1 - x.st

/-- `nvertices`, an `int`, and `vertices.size()`: from `2 ^ 31` vertices on it
is negative, or `0`, and no vector of that length is made. -/
@[irreducible] def nvertices : ℕ := if x.size < 2 ^ 31 then x.size else 0

/-! ## The segments -/

/-- What a vertex adds to `ecounter`: an `int`, with `store_inedges` being
one. -/
def room (v : ℕ) : ℤ :=
  toInt32 ((x.degree v).indegree + (x.degree v).outdegree)

/-- `num_edges_subinterval`. A negative sum stands for a `size_t` that no
array is long enough for. -/
def numEdgesSubinterval : ℕ → ℕ → ℤ
  | 0, _ => 0
  | n + 1, v => x.room v + numEdgesSubinterval n (v + 1)

/-- The length of `edata`. -/
def numEdges : ℤ := x.numEdgesSubinterval x.nvertices x.st

/-- The loop of `init_vertices`, with `n` vertices left, from `v` on. The
pointers are counted from the start of `edata`. -/
def initVertices : ℕ → ℕ → ℤ → List Svertex
  | 0, _, _ => []
  | n + 1, v, ecounter =>
    ⟨v, ecounter, ecounter + (x.degree v).indegree⟩
      :: initVertices n (v + 1) (ecounter + x.room v)

/-- The vertices, before the load. -/
def vertices : List Svertex := x.initVertices x.nvertices x.st 0

/-- `vertices[v - sub_interval_st]`. -/
def vertex (v : ℕ) : Svertex := x.vertices.getD (v - x.st) ⟨v, 0, 0⟩

/-- A cell that is carved out for a vertex. -/
def InSegment (v : ℕ) (z : ℤ) : Prop :=
  (x.vertex v).inedgesPtr ≤ z
    ∧ z < (x.vertex v).outedgesPtr + (x.degree v).outdegree

/-! ## The loaders -/

/-- What the loader of the main shard adds: the side of a vertex, and the
vertex at the other end of the edge. -/
def mainAppends : List ((Side × ℕ) × ℕ) :=
  match x.main.load with
  | some l => l.records.map fun r => ((r.side, r.vertex), r.vertexid)
  | none => []

/-- The call of `read_next_vertices_XG` for the out-edges to interval `p`. -/
def request (p : ℕ) : BlockDecoding.Request where
  start := x.st
  nvecs := x.nvertices
  rangeSt := x.part.first p
  rangeEnd := x.part.second p
  edgeSize := x.main.loader.edgeSize
  scheduled := fun _ => true
  adj := encode (x.outItems p)
  edatafilesize := x.slots p * x.main.loader.edgeSize

/-- What the loader of the out-edges to interval `p` adds. -/
def outAppends (p : ℕ) : List ((Side × ℕ) × ℕ) :=
  ((x.request p).read.getD []).map fun r => ((.outedge, r.vertex), r.target)

/-- The body of the loop of `load_before_updates`, which runs from `-1`;
here it runs from `0`. -/
def program : ℕ → List ((Side × ℕ) × ℕ)
  | 0 => x.mainAppends
  | p + 1 => if p < x.part.nshards ∧ p ≠ x.main.exec then x.outAppends p else []

/-- **`load_before_updates`**: `add_inedge` and `add_outedge` are the two
kinds of append, and both assert that the edge is not a loop. -/
def system : SharedAppends.System (Side × ℕ) ℕ where
  threads := x.part.nshards + 1
  program := x.program
  atomic k := decide (k.1 = .outedge)
  base k :=
    match k.1 with
    | .inedge => (x.vertex k.2).inedgesPtr
    | .outedge => (x.vertex k.2).outedgesPtr
  allowed k other := decide (other ≠ k.2)

/-- `v` is a vertex of the worker. -/
def Mem (v : ℕ) : Prop := x.part.Mem x.main.exec v

/-- The in-neighbours of a vertex, one for each edge. -/
def inNeighbours (v : ℕ) : List ℕ :=
  (x.edges.filter fun e => decide (e.2 = v)).map Prod.fst

/-- The out-neighbours of a vertex, one for each edge. -/
def outNeighbours (v : ℕ) : List ℕ :=
  (x.edges.filter fun e => decide (e.1 = v)).map Prod.snd

/-- A state that the loaders reach, in some order of their steps. -/
def Reaches (ps : List ℕ) (s : SharedAppends.State (Side × ℕ) ℕ) : Prop :=
  SharedAppends.Reaches x.system ps s

end Subgraph

end Loading
