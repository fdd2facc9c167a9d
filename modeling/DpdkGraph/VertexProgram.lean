import Mathlib

/-!
# Vertex programs

A vertex program is a function `update`, which the engine calls once per
vertex and iteration. What a call does to the graph it does through a few
methods: `get_data` and `set_data` of the vertex, and `get_data` and
`set_data` of its in- and out-edges. A call is the tree of these requests
(`Update`): after a request it goes on as the answer tells it to. The
threads of a worker take the requests of different vertices in any order,
so that a call is not one step of the engine but as many as it has requests.

`Update.outcome` is what a call comes to that is let alone, for programs
that write to their own vertex and its out-edges only.
-/

namespace VertexProgram

/-- Whether an edge is one of the in-edges or of the out-edges of a
vertex. -/
inductive Side
  | inedge
  | outedge
deriving DecidableEq, Repr

/-- The other endpoint's side. -/
def Side.other : Side → Side
  | .inedge => .outedge
  | .outedge => .inedge

/-- What is left of a call of `update`, which returns an `α` in the end. -/
inductive Update (V E α : Type) where
  /-- The call returns. -/
  | done (a : α)
  /-- `vertex.get_data()`. -/
  | getData (next : V → Update V E α)
  /-- `vertex.set_data(d)`. -/
  | setData (d : V) (next : Update V E α)
  /-- `vertex.inedge(i)->get_data()`, or `outedge`. -/
  | getEdge (side : Side) (i : ℕ) (next : E → Update V E α)
  /-- `vertex.inedge(i)->set_data(x)`, or `outedge`. -/
  | setEdge (side : Side) (i : ℕ) (x : E) (next : Update V E α)

namespace Update

variable {V E α β : Type}

/-- One call after the other. -/
def bind : Update V E α → (α → Update V E β) → Update V E β
  | done a, f => f a
  | getData next, f => getData fun d => (next d).bind f
  | setData d next, f => setData d (next.bind f)
  | getEdge side i next, f => getEdge side i fun x => (next x).bind f
  | setEdge side i x next, f => setEdge side i x (next.bind f)

instance : Monad (Update V E) where
  pure := done
  bind := bind

/-- Whether the call has returned. -/
def isDone : Update V E α → Bool
  | done _ => true
  | _ => false

/-- The in-edge that the call asks to write to. -/
def inWrite : Update V E α → Option ℕ
  | setEdge .inedge i _ _ => some i
  | _ => none

/-- The calls that write to no in-edge. -/
def OutOnly : Update V E α → Prop
  | done _ => True
  | getData next => ∀ d, (next d).OutOnly
  | setData _ next => next.OutOnly
  | getEdge _ _ next => ∀ x, (next x).OutOnly
  | setEdge side _ _ next => side = .outedge ∧ next.OutOnly

/-- The calls that read no out-edge after they have written it; `written`
are the out-edges written so far. -/
def ReadsFirst : (ℕ → Prop) → Update V E α → Prop
  | _, done _ => True
  | written, getData next => ∀ d, (next d).ReadsFirst written
  | written, setData _ next => next.ReadsFirst written
  | written, getEdge side i next =>
    (side = .outedge → ¬written i) ∧ ∀ x, (next x).ReadsFirst written
  | written, setEdge side i _ next =>
    next.ReadsFirst fun j => written j ∨ (side = .outedge ∧ j = i)

/-- **What a call comes to** that is let alone: it starts at a vertex of
value `d`, reads the values `ins` of the in-edges and `outs` of the
out-edges, and has already turned the latter into `new`. There is no result
where it asks for an edge that is not there, or writes to an in-edge. -/
def outcome : Update V E α → V → List E → List E → List E →
    Option (α × V × List E)
  | done a, d, _, _, new => some (a, d, new)
  | getData next, d, ins, outs, new => (next d).outcome d ins outs new
  | setData d next, _, ins, outs, new => next.outcome d ins outs new
  | getEdge .inedge i next, d, ins, outs, new =>
    ins[i]?.bind fun x => (next x).outcome d ins outs new
  | getEdge .outedge i next, d, ins, outs, new =>
    outs[i]?.bind fun x => (next x).outcome d ins outs new
  | setEdge .inedge _ _ _, _, _, _, _ => none
  | setEdge .outedge i x next, d, ins, outs, new =>
    if i < new.length then next.outcome d ins outs (new.set i x) else none

end Update

/-- What a call of `update` knows of its vertex besides the values:
`vertex.id()` and the `vertex_id()` of its edges. -/
structure Vertex where
  /-- `vertex.id()`. -/
  id : ℕ
  /-- The sources of the in-edges. -/
  inedges : List ℕ
  /-- The destinations of the out-edges. -/
  outedges : List ℕ

namespace Vertex

/-- `vertex.num_edges()`. -/
def numEdges (vertex : Vertex) : ℕ :=
  vertex.inedges.length + vertex.outedges.length

/-- `vertex.edge(i)`: first the in-edges, then the out-edges. -/
def edge (vertex : Vertex) (i : ℕ) : Side × ℕ :=
  if i < vertex.inedges.length then (.inedge, i)
  else (.outedge, i - vertex.inedges.length)

/-- `vertex.edge(i)->vertex_id()`. -/
def neighbor (vertex : Vertex) (i : ℕ) : ℕ :=
  (vertex.inedges ++ vertex.outedges).getD i 0

end Vertex

/-- **A vertex program**: the call of `update` for a vertex in an
iteration. -/
abbrev Program (V E : Type) := ℕ → Vertex → Update V E Unit

/-- **The result does not depend on the order in which the out-edges are
listed.** The edges come with names, and are listed as `(name, destination,
value)`. -/
def OrderFree {V E : Type} (program : Program V E) : Prop :=
  ∀ (iteration id : ℕ) (d : V) (ins : List (ℕ × E))
    (outs outs' : List (ℕ × ℕ × E)), outs.Perm outs' →
    (outs.map Prod.fst).Nodup →
    ∀ d₁ new, (program iteration ⟨id, ins.map Prod.fst,
        outs.map fun o => o.2.1⟩).outcome d (ins.map Prod.snd)
          (outs.map fun o => o.2.2) (outs.map fun o => o.2.2) =
        some ((), d₁, new) →
      ∃ new', (program iteration ⟨id, ins.map Prod.fst,
          outs'.map fun o => o.2.1⟩).outcome d (ins.map Prod.snd)
            (outs'.map fun o => o.2.2) (outs'.map fun o => o.2.2) =
          some ((), d₁, new') ∧
        ((outs.map Prod.fst).zip new).Perm ((outs'.map Prod.fst).zip new')

/-! ## Connected components -/

namespace ConnectedComponents

open Update

/-- `vertex.edge(i)->get_data()`. -/
def readEdge (vertex : Vertex) (i : ℕ) : Update ℕ ℕ ℕ :=
  getEdge (vertex.edge i).1 (vertex.edge i).2 done

/-- `vertex.edge(i)->set_data(x)`. -/
def writeEdge (vertex : Vertex) (i x : ℕ) : Update ℕ ℕ Unit :=
  setEdge (vertex.edge i).1 (vertex.edge i).2 x (done ())

/-- The least label among the vertex and its neighbours. In the first
iteration the neighbour's id stands for its label. -/
def minLabel (iteration : ℕ) (vertex : Vertex) (curmin : ℕ) : Update ℕ ℕ ℕ :=
  let smaller (curmin i : ℕ) : Update ℕ ℕ ℕ := do
    let nblabel ← readEdge vertex i
    pure (min (if iteration = 0 then vertex.neighbor i else nblabel) curmin)
  (List.range vertex.numEdges).foldlM smaller curmin

/-- **`update` of `connectedcomponents.cpp`.** What it tells the scheduler
and the set of converged vertices changes no value and is left out. -/
def update (iteration : ℕ) (vertex : Vertex) : Update ℕ ℕ Unit := do
  if iteration = 0 then
    setData vertex.id (done ())
  let curmin ← getData done
  let curmin ← minLabel iteration vertex curmin
  setData curmin (done ())
  let label ← getData done
  if 0 < iteration then
    (List.range vertex.numEdges).forM fun i => do
      if label < (← readEdge vertex i) then
        writeEdge vertex i label
  else
    (List.range vertex.outedges.length).forM fun i =>
      setEdge .outedge i label (done ())

end ConnectedComponents

end VertexProgram
