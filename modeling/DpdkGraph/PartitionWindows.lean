import DpdkGraph.Intervals
import DpdkGraph.Tiling
import DpdkGraph.RowCursor
import DpdkGraph.ShardAdjacency

/-!
# The windows of the partitioner

`create_partition_files` goes over the vertices in windows, one for each
shard of the first sharding, and over each window in sub-windows. A
sub-window gets its edges from the shard of the window, which is in memory
(`load_vertices`: in-edges, and the out-edges that stay in the interval),
and from the other shards, whose files slide past (`read_next_vertices`:
out-edges). The vertices are then assigned to buckets one after the other.
This is done once to assign them and again for each optimisation.

The sliding shards are opened once, before the first pass, and nothing
takes them back: only the shard of a window is set anew when its window is
through, to where its file goes on behind the window. In the first pass all
is well. In a later one, the windows before its own find a shard where the
pass before has left it, at the end of its file; only the last shard, set
anew when there is nothing left to read, starts over. So the out-edges from
an interval to a later one, other than the last, are not given to their
source (`complete_iff`).
-/

namespace PartitionWindows

open SparseRows ShardAdjacency

/-- **A sharded graph**, as the first sharding leaves it: the edges of each
shard, as pairs of source and destination. -/
structure ShardedGraph where
  /-- `intervals`. -/
  part : IntervalPartition
  /-- There is a shard. -/
  nshards_pos : 0 < part.nshards
  /-- Each shard has an edge, so that no interval is empty. -/
  full : ∀ p < part.nshards, part.first p ≤ part.second p
  /-- The edges of a shard. -/
  shards : ℕ → List (ℕ × ℕ)
  /-- They are sorted by source, and then by destination. -/
  sorted : ∀ p, (shards p).Pairwise fun a b => toLex a ≤ toLex b
  /-- Their destinations are in the interval. -/
  dst_mem : ∀ p < part.nshards, ∀ e ∈ shards p, part.Mem p e.2
  /-- Their sources are in some interval. -/
  src_mem : ∀ p < part.nshards, ∀ e ∈ shards p, ∃ q, part.Mem q e.1

namespace ShardedGraph

variable (g : ShardedGraph)

/-- `max_vertex_id`: the last interval ends there. -/
def maxVertexId : ℕ := g.part.second (g.part.nshards - 1)

/-- All edges. -/
def edges : List (ℕ × ℕ) := (List.range g.part.nshards).flatMap g.shards

/-- The sources of the in-edges of a vertex. -/
def inedges (v : ℕ) : List ℕ := (g.edges.filter fun e => e.2 = v).map Prod.fst

/-- The destinations of the out-edges of a vertex. -/
def outedges (v : ℕ) : List ℕ := (g.edges.filter fun e => e.1 = v).map Prod.snd

/-- `filename_shard_adj`: the adjacency file of a shard. -/
def file (p : ℕ) : List Item := adjacency (g.shards p)

end ShardedGraph

/-! ## What a vertex is given -/

/-- A call of a shard reader. -/
inductive LoadEvent where
  /-- `add_inedge` for the vertex, from the source. -/
  | inedge (vertex src : ℕ)
  /-- `add_outedge` for the vertex, to the destination. -/
  | outedge (vertex dst : ℕ)
deriving Repr, DecidableEq

/-- `CE_Graph_vertex`: the edges given so far. They are counted with an
`int`. -/
structure Vertex where
  /-- The in-edges, `inc` of them. -/
  inedges : List ℕ
  /-- The out-edges, `outc` of them. -/
  outedges : List ℕ
  /-- `inc` fits. -/
  inc_lt : inedges.length < 2 ^ 31
  /-- `outc` fits. -/
  outc_lt : outedges.length < 2 ^ 31

/-- A vertex without edges. -/
def Vertex.empty : Vertex := ⟨[], [], by decide, by decide⟩

/-- `add_inedge`; a count that overflows has no meaning. -/
def Vertex.addInedge (x : Vertex) (src : ℕ) : Option Vertex :=
  if h : (x.inedges ++ [src]).length < 2 ^ 31 then
    some ⟨x.inedges ++ [src], x.outedges, h, x.outc_lt⟩
  else none

/-- `add_outedge`. -/
def Vertex.addOutedge (x : Vertex) (dst : ℕ) : Option Vertex :=
  if h : (x.outedges ++ [dst]).length < 2 ^ 31 then
    some ⟨x.inedges, x.outedges ++ [dst], x.inc_lt, h⟩
  else none

/-- The vertices after a call. -/
def LoadEvent.apply (vertices : ℕ → Vertex) : LoadEvent → Option (ℕ → Vertex)
  | inedge v src =>
    ((vertices v).addInedge src).map fun x => Function.update vertices v x
  | outedge v dst =>
    ((vertices v).addOutedge dst).map fun x => Function.update vertices v x

/-- The vertex that a call is for. -/
def LoadEvent.vertex : LoadEvent → ℕ
  | inedge v _ => v
  | outedge v _ => v

/-- The in-edges of a vertex among the calls. -/
def insOf (v : ℕ) (events : List LoadEvent) : List ℕ :=
  events.filterMap fun
    | .inedge u src => if u = v then some src else none
    | .outedge _ _ => none

/-- The out-edges of a vertex among the calls. -/
def outsOf (v : ℕ) (events : List LoadEvent) : List ℕ :=
  events.filterMap fun
    | .inedge _ _ => none
    | .outedge u dst => if u = v then some dst else none

/-! ## The readers -/

/-- A row of `load_vertices`, for the sub-window from `st` to `en`: when a
destination is beyond the sub-window and the source is outside, the row is
left. -/
def loadRow (st en vid : ℕ) : List ℕ → List LoadEvent
  | [] => []
  | target :: ts =>
    (if st ≤ vid ∧ vid ≤ en then [.outedge vid target] else []) ++
      if st ≤ target then
        if target ≤ en then .inedge target vid :: loadRow st en vid ts
        else if st ≤ vid ∧ vid ≤ en then loadRow st en vid ts else []
      else loadRow st en vid ts

/-- `load_vertices` of the shard in memory. -/
def loadVertices (st en : ℕ) : ℕ → List Item → List LoadEvent
  | _, [] => []
  | vid, it :: its =>
    loadRow st en vid it.targets ++ loadVertices st en (vid + it.span) its

/-- `read_next_vertices` of a sliding shard. -/
def readNextVertices (c : Cursor) (st en : ℕ) : List LoadEvent × Cursor :=
  ((c.read st (en + 1)).1.map fun q => .outedge q.1 q.2, (c.read st (en + 1)).2)

/-- A sub-window that has been loaded. -/
structure Step where
  /-- Its first and its last vertex. -/
  sub : ℕ × ℕ
  /-- The calls of the readers. -/
  events : List LoadEvent

/-- The vertices of a sub-window, when the calls come in the order given:
the shards are read by several threads. The loop that has determined the
sub-window runs with an `int`, one beyond its end. -/
def Step.vertices (s : Step) (order : List LoadEvent) : Option (ℕ → Vertex) :=
  if s.sub.2 + 1 < 2 ^ 31 then order.foldlM LoadEvent.apply fun _ => Vertex.empty
  else none

section Passes

variable (g : ShardedGraph)

/-- A sub-window of window `w`: the shard of the window from memory, the
others from where they are. -/
def subWindow (w : ℕ) (cursors : ℕ → Cursor) (sub : ℕ × ℕ) : Step × (ℕ → Cursor) :=
  (⟨sub, loadVertices sub.1 sub.2 0 (g.file w) ++
      ((List.range g.part.nshards).filter fun p => p ≠ w).flatMap fun p =>
        (readNextVertices (cursors p) sub.1 sub.2).1⟩,
    fun p => if p = w then cursors p else (readNextVertices (cursors p) sub.1 sub.2).2)

/-- The sub-windows of window `w`, and at its end `set_offset`. -/
def window (w : ℕ) : List (ℕ × ℕ) → (ℕ → Cursor) → List Step × (ℕ → Cursor)
  | [], cursors =>
    ([], Function.update cursors w (Cursor.goOn (g.file w) (g.part.second w)))
  | sub :: subs, cursors =>
    ((subWindow g w cursors sub).1 :: (window w subs (subWindow g w cursors sub).2).1,
      (window w subs (subWindow g w cursors sub).2).2)

/-- The first `k` windows of a pass with the sub-windows `split`. -/
def pass (split : ℕ → List (ℕ × ℕ)) (cursors : ℕ → Cursor) :
    ℕ → List Step × (ℕ → Cursor)
  | 0 => ([], cursors)
  | k + 1 =>
    ((pass split cursors k).1 ++ (window g k (split k) (pass split cursors k).2).1,
      (window g k (split k) (pass split cursors k).2).2)

/-- The passes, one after the other. -/
def passes : List (ℕ → List (ℕ × ℕ)) → (ℕ → Cursor) → List Step
  | [], _ => []
  | split :: splits, cursors =>
    (pass g split cursors g.part.nshards).1 ++
      passes splits (pass g split cursors g.part.nshards).2

/-- The sub-windows of a pass: for each window they tile its interval, and
none is empty. -/
def Splits (split : ℕ → List (ℕ × ℕ)) : Prop :=
  ∀ w < g.part.nshards, Tiles (g.part.first w) (split w) (g.part.second w + 1)
    ∧ ∀ sub ∈ split w, sub.1 ≤ sub.2

end Passes

/-- **A run of `create_partition_files`**: the graph, and how each pass has
split the windows. -/
structure Run where
  /-- The graph. -/
  graph : ShardedGraph
  /-- The pass that assigns the vertices. -/
  assignment : ℕ → List (ℕ × ℕ)
  /-- The passes that optimise the assignment, `opti_times - 1` of them. -/
  optimizations : List (ℕ → List (ℕ × ℕ))
  /-- They go over each window. -/
  splits : ∀ split ∈ assignment :: optimizations, Splits graph split

namespace Run

variable (x : Run)

/-- The sub-windows of all passes; the sliding shards are opened at the
start. -/
def steps : List Step :=
  passes x.graph (x.assignment :: x.optimizations) fun p => ⟨0, x.graph.file p⟩

/-- **A sub-window is complete**: whatever the order of the calls, each of
its vertices has been given its in-edges once and its out-edges once, and
no others. -/
def WindowLaw (s : Step) : Prop :=
  ∀ order, order.Perm s.events → ∃ vertices, s.vertices order = some vertices
    ∧ ∀ v, Within s.sub v → (vertices v).inedges.Perm (x.graph.inedges v)
      ∧ (vertices v).outedges.Perm (x.graph.outedges v)

/-- **Every sub-window of every pass is complete.** -/
def Complete : Prop := ∀ s ∈ x.steps, x.WindowLaw s

/-- The counters suffice: one for the vertices, and two for the edges of
each vertex. -/
def CountsFit : Prop :=
  x.graph.maxVertexId + 1 < 2 ^ 31 ∧ ∀ v ≤ x.graph.maxVertexId,
    (x.graph.inedges v).length < 2 ^ 31 ∧ (x.graph.outedges v).length < 2 ^ 31

/-- No edge leads from an interval to a later one, other than the last. -/
def NoForward : Prop :=
  ∀ e ∈ x.graph.edges, ∀ a b, x.graph.part.Mem a e.1 → x.graph.part.Mem b e.2 →
    b + 1 < x.graph.part.nshards → b ≤ a

end Run

/-! ## The calls, collected -/

section Collect

@[simp] theorem insOf_append (v : ℕ) (l l' : List LoadEvent) :
    insOf v (l ++ l') = insOf v l ++ insOf v l' := List.filterMap_append

@[simp] theorem outsOf_append (v : ℕ) (l l' : List LoadEvent) :
    outsOf v (l ++ l') = outsOf v l ++ outsOf v l' := List.filterMap_append

theorem insOf_perm (v : ℕ) {l l' : List LoadEvent} (h : l.Perm l') :
    (insOf v l).Perm (insOf v l') := h.filterMap _

theorem outsOf_perm (v : ℕ) {l l' : List LoadEvent} (h : l.Perm l') :
    (outsOf v l).Perm (outsOf v l') := h.filterMap _

/-- A vertex without a call gets nothing. -/
theorem insOf_eq_nil {v : ℕ} {l : List LoadEvent} (h : ∀ ev ∈ l, ev.vertex ≠ v) :
    insOf v l = [] ∧ outsOf v l = [] := by
  constructor
  · refine List.filterMap_eq_nil_iff.mpr fun ev hev => ?_
    cases ev with
    | inedge u src => exact if_neg (h _ hev)
    | outedge u dst => rfl
  · refine List.filterMap_eq_nil_iff.mpr fun ev hev => ?_
    cases ev with
    | inedge u src => rfl
    | outedge u dst => exact if_neg (h _ hev)

/-- What a call adds. -/
theorem LoadEvent.apply_spec {vertices vertices' : ℕ → Vertex} {ev : LoadEvent}
    (h : ev.apply vertices = some vertices') (v : ℕ) :
    (vertices' v).inedges = (vertices v).inedges ++ insOf v [ev]
      ∧ (vertices' v).outedges = (vertices v).outedges ++ outsOf v [ev] := by
  cases ev with
  | inedge u src =>
    obtain ⟨x, hx, rfl⟩ := Option.map_eq_some_iff.mp h
    unfold Vertex.addInedge at hx
    split at hx
    · rw [Option.some.injEq] at hx
      subst hx
      by_cases huv : u = v
      · subst huv
        simp [insOf, outsOf]
      · simp [insOf, outsOf, huv, Function.update_of_ne (Ne.symm huv)]
    · exact absurd hx.symm (Option.some_ne_none x)
  | outedge u dst =>
    obtain ⟨x, hx, rfl⟩ := Option.map_eq_some_iff.mp h
    unfold Vertex.addOutedge at hx
    split at hx
    · rw [Option.some.injEq] at hx
      subst hx
      by_cases huv : u = v
      · subst huv
        simp [insOf, outsOf]
      · simp [insOf, outsOf, huv, Function.update_of_ne (Ne.symm huv)]
    · exact absurd hx.symm (Option.some_ne_none x)

/-- **What the calls add.** -/
theorem foldlM_apply_spec {events : List LoadEvent} {vertices vertices' : ℕ → Vertex}
    (h : events.foldlM LoadEvent.apply vertices = some vertices') (v : ℕ) :
    (vertices' v).inedges = (vertices v).inedges ++ insOf v events
      ∧ (vertices' v).outedges = (vertices v).outedges ++ outsOf v events := by
  induction events generalizing vertices with
  | nil =>
    rw [List.foldlM_nil, Option.pure_def, Option.some.injEq] at h
    subst h
    exact ⟨(List.append_nil _).symm, (List.append_nil _).symm⟩
  | cons ev events ih =>
    rw [List.foldlM_cons, Option.bind_eq_bind] at h
    obtain ⟨vertices₁, hev, h⟩ := Option.bind_eq_some_iff.mp h
    obtain ⟨hin, hout⟩ := LoadEvent.apply_spec hev v
    obtain ⟨hins, houts⟩ := ih h
    rw [hins, houts, hin, hout, List.append_assoc, List.append_assoc, ← insOf_append,
      ← outsOf_append]
    exact ⟨rfl, rfl⟩

/-- A call succeeds while there is room. -/
theorem LoadEvent.exists_apply {vertices : ℕ → Vertex} {ev : LoadEvent}
    (h : ∀ v, ((vertices v).inedges ++ insOf v [ev]).length < 2 ^ 31
      ∧ ((vertices v).outedges ++ outsOf v [ev]).length < 2 ^ 31) :
    ∃ vertices', ev.apply vertices = some vertices' := by
  cases ev with
  | inedge u src =>
    have hu := (h u).1
    rw [show insOf u [.inedge u src] = [src] by simp [insOf]] at hu
    show ∃ vertices', ((vertices u).addInedge src).map _ = some vertices'
    unfold Vertex.addInedge
    rw [dif_pos hu]
    exact ⟨_, rfl⟩
  | outedge u dst =>
    have hu := (h u).2
    rw [show outsOf u [.outedge u dst] = [dst] by simp [outsOf]] at hu
    show ∃ vertices', ((vertices u).addOutedge dst).map _ = some vertices'
    unfold Vertex.addOutedge
    rw [dif_pos hu]
    exact ⟨_, rfl⟩

/-- All calls succeed if there is room for all of them. -/
theorem exists_foldlM_apply {events : List LoadEvent} {vertices : ℕ → Vertex}
    (h : ∀ v, ((vertices v).inedges ++ insOf v events).length < 2 ^ 31
      ∧ ((vertices v).outedges ++ outsOf v events).length < 2 ^ 31) :
    ∃ vertices', events.foldlM LoadEvent.apply vertices = some vertices' := by
  induction events generalizing vertices with
  | nil => exact ⟨vertices, rfl⟩
  | cons ev events ih =>
    have hsplit : ∀ v, insOf v (ev :: events) = insOf v [ev] ++ insOf v events
        ∧ outsOf v (ev :: events) = outsOf v [ev] ++ outsOf v events := fun v => by
      rw [← insOf_append, ← outsOf_append]
      exact ⟨rfl, rfl⟩
    have hone : ∀ v, ((vertices v).inedges ++ insOf v [ev]).length < 2 ^ 31
        ∧ ((vertices v).outedges ++ outsOf v [ev]).length < 2 ^ 31 := by
      intro v
      obtain ⟨hin, hout⟩ := h v
      rw [(hsplit v).1, List.length_append, List.length_append] at hin
      rw [(hsplit v).2, List.length_append, List.length_append] at hout
      rw [List.length_append, List.length_append]
      omega
    obtain ⟨vertices₁, hev⟩ := LoadEvent.exists_apply hone
    have hmore : ∀ v, ((vertices₁ v).inedges ++ insOf v events).length < 2 ^ 31
        ∧ ((vertices₁ v).outedges ++ outsOf v events).length < 2 ^ 31 := by
      intro v
      obtain ⟨hin, hout⟩ := LoadEvent.apply_spec hev v
      rw [hin, hout, List.append_assoc, List.append_assoc, ← (hsplit v).1,
        ← (hsplit v).2]
      exact h v
    obtain ⟨vertices', hrest⟩ := ih hmore
    exact ⟨vertices', by rw [List.foldlM_cons, hev]; exact hrest⟩

end Collect

/-! ## The shard in memory -/

section Memory

variable {st en : ℕ}

/-- The calls for an edge of the shard in memory. -/
def edgeEvents (st en : ℕ) (e : ℕ × ℕ) : List LoadEvent :=
  (if st ≤ e.1 ∧ e.1 ≤ en then [.outedge e.1 e.2] else []) ++
    if st ≤ e.2 ∧ e.2 ≤ en then [.inedge e.2 e.1] else []

/-- Behind a destination beyond the sub-window there is none within. -/
theorem edgeEvents_beyond {vid : ℕ} {ts : List ℕ} (hvid : ¬(st ≤ vid ∧ vid ≤ en))
    (hts : ∀ t ∈ ts, en < t) : ts.flatMap (fun t => edgeEvents st en (vid, t)) = [] := by
  refine List.flatMap_eq_nil_iff.mpr fun t ht => ?_
  have := hts t ht
  unfold edgeEvents
  rw [if_neg hvid, if_neg fun h => absurd h.2 (Nat.not_le.mpr this), List.append_nil]

/-- A row is passed on edge by edge: it is left only where no destination
of the sub-window comes any more. -/
theorem loadRow_eq {vid : ℕ} {ts : List ℕ} (hts : ts.Pairwise (· ≤ ·)) :
    loadRow st en vid ts = ts.flatMap fun t => edgeEvents st en (vid, t) := by
  induction ts with
  | nil => rfl
  | cons t ts ih =>
    obtain ⟨ht, hts⟩ := List.pairwise_cons.mp hts
    rw [List.flatMap_cons, ← ih hts, loadRow]
    show _ = (_ ++ if st ≤ t ∧ t ≤ en then [LoadEvent.inedge t vid] else []) ++ _
    rw [List.append_assoc]
    congr 1
    by_cases hst : st ≤ t
    · by_cases hen : t ≤ en
      · rw [if_pos hst, if_pos hen, if_pos ⟨hst, hen⟩]
        rfl
      · rw [if_pos hst, if_neg hen, if_neg (c := st ≤ t ∧ t ≤ en) fun h => hen h.2]
        split
        · rfl
        · next hvid =>
          rw [ih hts, edgeEvents_beyond hvid fun u hu =>
            (Nat.lt_of_not_le hen).trans_le (ht u hu)]
          rfl
    · rw [if_neg hst, if_neg fun h => hst h.1]
      rfl

/-- **`load_vertices` passes on each edge** of a file whose rows are
sorted. -/
theorem loadVertices_eq {v : ℕ} {its : List Item}
    (h : (expand v its).Pairwise fun a b => toLex a ≤ toLex b) :
    loadVertices st en v its = (expand v its).flatMap (edgeEvents st en) := by
  induction its generalizing v with
  | nil => rfl
  | cons it its ih =>
    rw [expand] at h
    obtain ⟨hrow, hrest, -⟩ := List.pairwise_append.mp h
    have hts : it.targets.Pairwise (· ≤ ·) := by
      refine (List.pairwise_map.mp hrow).imp fun hab => ?_
      rcases Prod.Lex.toLex_le_toLex.mp hab with hlt | hle
      · exact absurd hlt (lt_irrefl v)
      · exact hle.2
    unfold loadVertices
    rw [ih hrest, loadRow_eq hts, expand, List.flatMap_append, List.flatMap_map]

/-- The calls for an edge are for vertices of the sub-window. -/
theorem within_of_mem_edgeEvents {e : ℕ × ℕ} {ev : LoadEvent}
    (h : ev ∈ edgeEvents st en e) : Within (st, en) ev.vertex := by
  unfold edgeEvents at h
  rcases List.mem_append.mp h with h | h
  · split at h
    · next hsrc =>
      rw [List.mem_singleton] at h
      subst h
      exact hsrc
    · exact absurd h List.not_mem_nil
  · split at h
    · next hdst =>
      rw [List.mem_singleton] at h
      subst h
      exact hdst
    · exact absurd h List.not_mem_nil

variable (v : ℕ)

/-- The in-edges of a vertex of the sub-window, from memory. -/
theorem insOf_edgeEvents (hv : st ≤ v ∧ v ≤ en) (l : List (ℕ × ℕ)) :
    insOf v (l.flatMap (edgeEvents st en))
      = (l.filter fun e => e.2 = v).map Prod.fst := by
  induction l with
  | nil => rfl
  | cons e l ih =>
    rw [List.flatMap_cons, insOf_append, ih, List.filter_cons]
    have hone : insOf v (edgeEvents st en e) = if e.2 = v then [e.1] else [] := by
      have hout : insOf v (if st ≤ e.1 ∧ e.1 ≤ en then [.outedge e.1 e.2] else []) = [] := by
        split <;> rfl
      unfold edgeEvents
      rw [insOf_append, hout, List.nil_append]
      by_cases he : e.2 = v
      · rw [if_pos he, if_pos (he ▸ hv)]
        simp [insOf, he]
      · rw [if_neg he]
        split
        · simp [insOf, he]
        · rfl
    rw [hone]
    by_cases he : e.2 = v
    · simp [he]
    · simp [he]

/-- The out-edges of a vertex of the sub-window, from memory. -/
theorem outsOf_edgeEvents (hv : st ≤ v ∧ v ≤ en) (l : List (ℕ × ℕ)) :
    outsOf v (l.flatMap (edgeEvents st en))
      = (l.filter fun e => e.1 = v).map Prod.snd := by
  induction l with
  | nil => rfl
  | cons e l ih =>
    rw [List.flatMap_cons, outsOf_append, ih, List.filter_cons]
    have hone : outsOf v (edgeEvents st en e) = if e.1 = v then [e.2] else [] := by
      have hin : outsOf v (if st ≤ e.2 ∧ e.2 ≤ en then [.inedge e.2 e.1] else []) = [] := by
        split <;> rfl
      unfold edgeEvents
      rw [outsOf_append, hin, List.append_nil]
      by_cases he : e.1 = v
      · rw [if_pos he, if_pos (he ▸ hv)]
        simp [outsOf, he]
      · rw [if_neg he]
        split
        · simp [outsOf, he]
        · rfl
    rw [hone]
    by_cases he : e.1 = v
    · simp [he]
    · simp [he]

/-- A sliding shard gives no in-edges. -/
theorem insOf_outedges (l : List (ℕ × ℕ)) :
    insOf v (l.map fun q => .outedge q.1 q.2) = [] := by
  induction l with
  | nil => rfl
  | cons q l ih =>
    rw [List.map_cons]
    exact ih

/-- The out-edges of a vertex of the sub-window, from a sliding shard. -/
theorem outsOf_outedges (hv : st ≤ v ∧ v ≤ en) (l : List (ℕ × ℕ)) :
    outsOf v ((l.filter fun q => decide (st ≤ q.1 ∧ q.1 < en + 1)).map
        fun q => .outedge q.1 q.2)
      = (l.filter fun e => e.1 = v).map Prod.snd := by
  induction l with
  | nil => rfl
  | cons q l ih =>
    rw [List.filter_cons, List.filter_cons]
    by_cases hq : q.1 = v
    · rw [if_pos (decide_eq_true ⟨hq ▸ hv.1, Nat.lt_succ_of_le (hq ▸ hv.2)⟩),
        if_pos (decide_eq_true hq), List.map_cons, List.map_cons, ← ih]
      simp [outsOf, hq]
    · rw [if_neg (c := decide (q.1 = v) = true) (by simpa using hq), ← ih]
      split
      · simp [outsOf, hq]
      · rfl

end Memory

/-! ## One sub-window -/

namespace ShardedGraph

variable (g : ShardedGraph)

theorem src_sorted (p : ℕ) : (g.shards p).Pairwise fun a b => a.1 ≤ b.1 := by
  refine (g.sorted p).imp fun hab => ?_
  rcases Prod.Lex.toLex_le_toLex.mp hab with hlt | hle
  · exact hlt.le
  · exact hle.1.le

/-- The adjacency file of a shard stands for its edges. -/
@[simp] theorem expand_file (p : ℕ) : expand 0 (g.file p) = g.shards p :=
  expand_adjacency (g.src_sorted p)

/-- A vertex is no larger than the largest one. -/
theorem le_maxVertexId {q v : ℕ} (h : g.part.Mem q v) : v ≤ g.maxVertexId := by
  have hpos := g.nshards_pos
  refine h.2.2.trans ?_
  by_cases hq : q = g.part.nshards - 1
  · rw [hq]
    exact le_rfl
  · have hlast : g.part.nshards - 1 < g.part.nshards := by omega
    have hlt : q < g.part.nshards - 1 := by
      have := h.1
      omega
    exact ((IntervalPartition.second_lt_first hlt hlast).trans_le
      (g.full _ hlast)).le

/-- A file ends with the largest vertex at the latest. -/
theorem span_file_le {p : ℕ} (hp : p < g.part.nshards) :
    span (g.file p) ≤ g.maxVertexId + 1 :=
  span_adjacency_le (g.src_sorted p) fun e he =>
    (g.src_mem p hp e he).elim fun _ hq => g.le_maxVertexId hq

/-- The edges, those of one shard first. -/
theorem edges_perm {w : ℕ} (hw : w < g.part.nshards) :
    g.edges.Perm (g.shards w ++
      ((List.range g.part.nshards).filter fun p => p ≠ w).flatMap g.shards) := by
  have hperm : (List.range g.part.nshards).Perm
      (w :: (List.range g.part.nshards).filter fun p => p ≠ w) := by
    refine (List.perm_cons_erase (List.mem_range.mpr hw)).trans (List.Perm.of_eq ?_)
    rw [List.nodup_range.erase_eq_filter]
    congr 2
    funext p
    exact (decide_not).symm
  refine (hperm.flatMap_right _).trans (List.Perm.of_eq ?_)
  rw [List.flatMap_cons]

end ShardedGraph

section Step

variable {g : ShardedGraph} {w s : ℕ} {cursors : ℕ → Cursor}

/-- No source of a shard comes before its interval. -/
def NoEarlier (g : ShardedGraph) (p : ℕ) : Prop :=
  ∀ e ∈ g.shards p, g.part.first p ≤ e.1

/-- **The sliding shards are where window `w` needs them** from the vertex
`s` on: none has passed a row from there on, except one whose own window is
still to come and that has no row before it. -/
def Fit (g : ShardedGraph) (w s : ℕ) (cursors : ℕ → Cursor) : Prop :=
  ∀ p < g.part.nshards, (cursors p).Ahead (g.file p) s
    ∨ w ≤ p ∧ NoEarlier g p ∧ (cursors p).In (g.file p)

/-- A sliding shard that fits gives all rows of the sub-window. -/
theorem Fit.read (h : Fit g w s cursors) {en p : ℕ} (hen : en ≤ g.part.second w)
    (hp : p < g.part.nshards) (hpw : p ≠ w) :
    ((cursors p).read s (en + 1)).1
      = (g.shards p).filter fun q => decide (s ≤ q.1 ∧ q.1 < en + 1) := by
  rcases h p hp with hahead | ⟨hle, hnone, hin⟩
  · rw [hahead.read_fst, g.expand_file]
  · have hempty : ((g.shards p).filter
        fun q => decide (s ≤ q.1 ∧ q.1 < en + 1)) = [] := by
      rw [List.filter_eq_nil_iff]
      intro q hq
      have hfirst := hnone q hq
      have := IntervalPartition.second_lt_first (lt_of_le_of_ne hle (Ne.symm hpw)) hp
      rw [decide_eq_true_eq]
      omega
    have hsub : ((cursors p).read s (en + 1)).1.Sublist _ := hin.read_fst
    rw [g.expand_file, hempty] at hsub
    rw [hempty, List.sublist_nil.mp hsub]

/-- The calls of a step give each vertex of the sub-window its edges, and
concern no other vertex. -/
structure Exact (g : ShardedGraph) (t : Step) : Prop where
  /-- The vertices of the sub-window. -/
  edges : ∀ v, Within t.sub v → (insOf v t.events).Perm (g.inedges v)
    ∧ (outsOf v t.events).Perm (g.outedges v)
  /-- No others. -/
  within : ∀ ev ∈ t.events, Within t.sub ev.vertex
  /-- They are vertices of the graph. -/
  le : t.sub.2 ≤ g.maxVertexId

/-- The calls of a sub-window whose shards fit. -/
theorem Fit.events_eq (h : Fit g w s cursors) {en : ℕ}
    (hen : en ≤ g.part.second w) :
    (subWindow g w cursors (s, en)).1.events
      = (g.shards w).flatMap (edgeEvents s en) ++
        ((List.range g.part.nshards).filter fun p => p ≠ w).flatMap fun p =>
          ((g.shards p).filter fun q => decide (s ≤ q.1 ∧ q.1 < en + 1)).map
            fun q => .outedge q.1 q.2 := by
  have hload : loadVertices s en 0 (g.file w) = (g.shards w).flatMap (edgeEvents s en) := by
    rw [loadVertices_eq (by rw [g.expand_file]; exact g.sorted w), g.expand_file]
  show loadVertices s en 0 (g.file w) ++ _ = _
  rw [hload]
  congr 1
  refine List.flatMap_congr fun p hp => ?_
  unfold readNextVertices
  rw [h.read hen (List.mem_range.mp (List.mem_of_mem_filter hp))
    (of_decide_eq_true (List.mem_filter.mp hp).2)]

/-- **The calls of a sub-window whose shards fit** give each vertex its
edges. -/
theorem Fit.exact (h : Fit g w s cursors) {en : ℕ} (hw : w < g.part.nshards)
    (hs : g.part.first w ≤ s) (hen : en ≤ g.part.second w) (hle : s ≤ en) :
    Exact g (subWindow g w cursors (s, en)).1 := by
  have hothers : ∀ p ∈ (List.range g.part.nshards).filter (fun p => p ≠ w),
      p < g.part.nshards ∧ p ≠ w := fun p hp =>
    ⟨List.mem_range.mp (List.mem_of_mem_filter hp),
      of_decide_eq_true (List.mem_filter.mp hp).2⟩
  have hmem : ∀ v, Within (s, en) v → g.part.Mem w v := fun v hv =>
    ⟨hw, hs.trans hv.1, hv.2.trans hen⟩
  refine ⟨fun v hv => ?_, fun ev hev => ?_, g.le_maxVertexId (hmem en ⟨hle, le_rfl⟩)⟩
  · have hv : s ≤ v ∧ v ≤ en := hv
    rw [h.events_eq hen, insOf_append, outsOf_append, insOf_edgeEvents v hv,
      outsOf_edgeEvents v hv]
    unfold ShardedGraph.inedges ShardedGraph.outedges
    constructor
    · -- the in-edges are all in the shard of the window
      refine List.Perm.trans (List.Perm.of_eq ?_)
        (((g.edges_perm hw).filter _).map _).symm
      rw [List.filter_append, List.map_append]
      congr 1
      have hslide : insOf v (((List.range g.part.nshards).filter fun p => p ≠ w).flatMap
          fun p => ((g.shards p).filter fun q => decide (s ≤ q.1 ∧ q.1 < en + 1)).map
            fun q => .outedge q.1 q.2) = [] := by
        unfold insOf
        rw [List.filterMap_flatMap]
        exact List.flatMap_eq_nil_iff.mpr fun p _ => insOf_outedges v _
      rw [hslide]
      symm
      rw [List.map_eq_nil_iff, List.filter_eq_nil_iff]
      intro e he hdst
      obtain ⟨p, hp, he⟩ := List.mem_flatMap.mp he
      have hpe := g.dst_mem p (hothers p hp).1 e he
      rw [of_decide_eq_true hdst] at hpe
      exact (hothers p hp).2 (hpe.unique (hmem v hv))
    · refine List.Perm.trans (List.Perm.of_eq ?_)
        (((g.edges_perm hw).filter _).map _).symm
      rw [List.filter_append, List.map_append]
      congr 1
      unfold outsOf
      rw [List.filterMap_flatMap, List.filter_flatMap, List.map_flatMap]
      exact List.flatMap_congr fun p _ => outsOf_outedges v hv _
  · rw [h.events_eq hen] at hev
    rcases List.mem_append.mp hev with hev | hev
    · obtain ⟨e, _, hev⟩ := List.mem_flatMap.mp hev
      exact within_of_mem_edgeEvents hev
    · obtain ⟨p, _, hev⟩ := List.mem_flatMap.mp hev
      obtain ⟨q, hq, rfl⟩ := List.mem_map.mp hev
      have hrow := of_decide_eq_true (List.mem_filter.mp hq).2
      exact ⟨hrow.1, Nat.lt_succ_iff.mp hrow.2⟩

/-- **A sub-window whose shards fit** leaves them where the next one needs
them. -/
theorem Fit.subWindow (h : Fit g w s cursors) {en : ℕ} (hs : s ≤ en) :
    Fit g w (en + 1) (subWindow g w cursors (s, en)).2 := by
  intro p hp
  show (if p = w then cursors p else (readNextVertices (cursors p) s en).2).Ahead _ _ ∨ _
    ∧ _ ∧ (if p = w then cursors p else (readNextVertices (cursors p) s en).2).In _
  split
  · rcases h p hp with hahead | hnone
    · exact Or.inl (hahead.mono (by omega))
    · exact Or.inr hnone
  · rcases h p hp with hahead | ⟨hle, hnone, hin⟩
    · exact Or.inl (hahead.read_snd (by omega))
    · exact Or.inr ⟨hle, hnone, hin.read_snd⟩

end Step

/-! ## Passes that are complete -/

section Complete

variable {x : Run}

/-- The order of the calls does not matter. -/
theorem Exact.windowLaw {t : Step} (h : Exact x.graph t) (hfit : x.CountsFit) :
    x.WindowLaw t := by
  intro order horder
  have hroom : ∀ v, (Vertex.empty.inedges ++ insOf v order).length < 2 ^ 31
      ∧ (Vertex.empty.outedges ++ outsOf v order).length < 2 ^ 31 := by
    intro v
    show (insOf v order).length < 2 ^ 31 ∧ (outsOf v order).length < 2 ^ 31
    rw [(insOf_perm v horder).length_eq, (outsOf_perm v horder).length_eq]
    by_cases hv : Within t.sub v
    · rw [(h.edges v hv).1.length_eq, (h.edges v hv).2.length_eq]
      exact hfit.2 v (hv.2.trans h.le)
    · obtain ⟨hin, hout⟩ := insOf_eq_nil (v := v) (l := t.events)
        fun ev hev heq => hv (heq ▸ h.within ev hev)
      rw [hin, hout]
      exact ⟨by decide, by decide⟩
  obtain ⟨vertices, hvertices⟩ := exists_foldlM_apply hroom
  refine ⟨vertices, ?_, fun v hv => ?_⟩
  · unfold Step.vertices
    rw [if_pos (lt_of_le_of_lt (Nat.succ_le_succ h.le) hfit.1)]
    exact hvertices
  · obtain ⟨hin, hout⟩ := foldlM_apply_spec hvertices v
    rw [hin, hout]
    exact ⟨(insOf_perm v horder).trans (h.edges v hv).1,
      (outsOf_perm v horder).trans (h.edges v hv).2⟩

variable {g : ShardedGraph} {cursors : ℕ → Cursor}

/-- **A window whose shards fit**: its sub-windows are exact, and the
shards are left where the next window needs them. -/
theorem Fit.window {w s : ℕ} {subs : List (ℕ × ℕ)} (hw : w < g.part.nshards)
    (h : Fit g w s cursors) (hs : g.part.first w ≤ s)
    (htiles : Tiles s subs (g.part.second w + 1)) (hsubs : ∀ sub ∈ subs, sub.1 ≤ sub.2) :
    (∀ t ∈ (window g w subs cursors).1, Exact g t)
      ∧ Fit g (w + 1) (g.part.second w + 1) (window g w subs cursors).2 := by
  induction subs generalizing s cursors with
  | nil =>
    have hend : s = g.part.second w + 1 := htiles
    subst hend
    refine ⟨fun t ht => absurd ht List.not_mem_nil, fun p hp => ?_⟩
    show (Function.update cursors w _ p).Ahead _ _ ∨ _ ∧ _
      ∧ (Function.update cursors w _ p).In _
    by_cases hpw : p = w
    · subst hpw
      rw [Function.update_self]
      exact Or.inl (Cursor.ahead_goOn _ _)
    · rw [Function.update_of_ne hpw]
      rcases h p hp with hahead | ⟨hle, hnone⟩
      · exact Or.inl hahead
      · exact Or.inr ⟨lt_of_le_of_ne hle (Ne.symm hpw), hnone⟩
  | cons sub subs ih =>
    obtain ⟨st, en⟩ := sub
    obtain ⟨hst, -, htiles⟩ := htiles
    have hst : st = s := hst
    subst hst
    obtain ⟨hle, hsubs⟩ := List.forall_mem_cons.mp hsubs
    have hle : st ≤ en := hle
    have hen : en ≤ g.part.second w := Nat.succ_le_succ_iff.mp htiles.le
    obtain ⟨hexact, hfit⟩ := ih (h.subWindow hle) (hs.trans (by omega)) htiles hsubs
    exact ⟨List.forall_mem_cons.mpr ⟨h.exact hw hs hen hle, hexact⟩, hfit⟩

/-- Where window `w` starts, also for the end of the last one. -/
def bound (g : ShardedGraph) : ℕ → ℕ
  | 0 => 0
  | w + 1 => g.part.second w + 1

theorem bound_eq_first {w : ℕ} (hw : w < g.part.nshards) :
    bound g w = g.part.first w := by
  cases w with
  | zero => exact IntervalPartition.first_zero.symm
  | succ w => exact (IntervalPartition.first_succ hw).symm

/-- **A pass whose shards fit** is exact. -/
theorem Fit.pass {split : ℕ → List (ℕ × ℕ)} (h : Fit g 0 0 cursors)
    (hsplit : Splits g split) {k : ℕ} (hk : k ≤ g.part.nshards) :
    (∀ t ∈ (pass g split cursors k).1, Exact g t)
      ∧ Fit g k (bound g k) (pass g split cursors k).2 := by
  induction k with
  | zero => exact ⟨fun t ht => absurd ht List.not_mem_nil, h⟩
  | succ k ih =>
    obtain ⟨hexact, hfit⟩ := ih (by omega)
    obtain ⟨htiles, hsubs⟩ := hsplit k hk
    have hstart : bound g k = g.part.first k := bound_eq_first hk
    rw [← hstart] at htiles
    obtain ⟨hexact', hfit'⟩ := hfit.window hk hstart.ge htiles hsubs
    exact ⟨fun t ht => (List.mem_append.mp ht).elim (hexact t) (hexact' t), hfit'⟩

/-- The shards are opened at their start. -/
theorem fit_start (g : ShardedGraph) : Fit g 0 0 fun p => ⟨0, g.file p⟩ :=
  fun _ _ => Or.inl (Cursor.ahead_start _ _)

/-- The window of a shard sets it anew. -/
theorem window_self (w : ℕ) (subs : List (ℕ × ℕ)) (cursors : ℕ → Cursor) :
    (window g w subs cursors).2 w = Cursor.goOn (g.file w) (g.part.second w) := by
  induction subs generalizing cursors with
  | nil => exact Function.update_self _ _ _
  | cons sub subs ih => exact ih _

/-- **After a pass the shards fit for another one**, when no edge leads
forward. -/
theorem fit_again {split : ℕ → List (ℕ × ℕ)} (h : Fit g 0 0 cursors)
    (hsplit : Splits g split)
    (hforward : ∀ p, p + 1 < g.part.nshards → NoEarlier g p) :
    Fit g 0 0 (pass g split cursors g.part.nshards).2 := by
  obtain ⟨-, hfit⟩ := h.pass hsplit le_rfl
  intro p hp
  by_cases hlast : p + 1 < g.part.nshards
  · refine Or.inr ⟨Nat.zero_le p, hforward p hlast, ?_⟩
    rcases hfit p hp with hahead | ⟨hle, -⟩
    · exact hahead.place
    · omega
  · -- the last shard starts over
    obtain ⟨n, hn⟩ : ∃ n, g.part.nshards = n + 1 := ⟨p, by omega⟩
    have hpn : p = n := by omega
    subst hpn
    rw [hn]
    show ((window g p (split p) (pass g split cursors p).2).2 p).Ahead _ _ ∨ _
    rw [window_self, Cursor.goOn_of_span_le]
    · exact Or.inl (Cursor.ahead_start _ _)
    · refine (g.span_file_le hp).trans_eq ?_
      unfold ShardedGraph.maxVertexId
      rw [hn, Nat.add_sub_cancel]

/-- All passes are exact, when no edge leads forward. -/
theorem exact_passes {splits : List (ℕ → List (ℕ × ℕ))}
    (hforward : ∀ p, p + 1 < g.part.nshards → NoEarlier g p)
    (hsplits : ∀ split ∈ splits, Splits g split) (h : Fit g 0 0 cursors) :
    ∀ t ∈ passes g splits cursors, Exact g t := by
  induction splits generalizing cursors with
  | nil => exact fun t ht => absurd ht List.not_mem_nil
  | cons split splits ih =>
    obtain ⟨hsplit, hsplits⟩ := List.forall_mem_cons.mp hsplits
    intro t ht
    rcases List.mem_append.mp ht with ht | ht
    · exact (h.pass hsplit le_rfl).1 t ht
    · exact ih hsplits (fit_again h hsplit hforward) t ht

/-- No edge leads forward: no source of a shard but the last comes before
its interval. -/
theorem Run.NoForward.noEarlier (h : x.NoForward) {p : ℕ}
    (hp : p + 1 < x.graph.part.nshards) : NoEarlier x.graph p := by
  intro e he
  have hpn : p < x.graph.part.nshards := by omega
  obtain ⟨q, hq⟩ := x.graph.src_mem p hpn e he
  have hedge : e ∈ x.graph.edges :=
    List.mem_flatMap.mpr ⟨p, List.mem_range.mpr hpn, he⟩
  have hpq := h e hedge q p hq (x.graph.dst_mem p hpn e he) hp
  rcases hpq.eq_or_lt with rfl | hlt
  · exact hq.2.1
  · have hfull := x.graph.full p hpn
    have := IntervalPartition.second_lt_first hlt hq.1
    exact (hfull.trans this.le).trans hq.2.1

/-- **Every pass is complete**, when there is one or no edge leads
forward. -/
theorem Run.complete_of_noForward (hfit : x.CountsFit)
    (h : x.optimizations = [] ∨ x.NoForward) : x.Complete := by
  intro t ht
  refine Exact.windowLaw ?_ hfit
  rcases h with hone | hforward
  · unfold Run.steps at ht
    rw [hone] at ht
    have ht : t ∈ (pass x.graph x.assignment (fun p => ⟨0, x.graph.file p⟩)
        x.graph.part.nshards).1 ++ [] := ht
    rw [List.append_nil] at ht
    exact ((fit_start x.graph).pass (x.splits _ List.mem_cons_self) le_rfl).1 t ht
  · exact exact_passes (fun p hp => hforward.noEarlier hp) x.splits
      (fit_start x.graph) t ht

end Complete

/-! ## Passes that are not -/

section Missing

variable {g : ShardedGraph} {cursors : ℕ → Cursor}

/-- The sliding shards stand at places of their files. -/
def Placed (g : ShardedGraph) (cursors : ℕ → Cursor) : Prop :=
  ∀ p < g.part.nshards, (cursors p).In (g.file p)

theorem Placed.subWindow (h : Placed g cursors) (w : ℕ) (sub : ℕ × ℕ) :
    Placed g (subWindow g w cursors sub).2 := by
  intro p hp
  show (if p = w then cursors p else (readNextVertices (cursors p) sub.1 sub.2).2).In _
  split
  · exact h p hp
  · exact (h p hp).read_snd

theorem Placed.window (h : Placed g cursors) (w : ℕ) (subs : List (ℕ × ℕ)) :
    Placed g (window g w subs cursors).2 := by
  induction subs generalizing cursors with
  | nil =>
    intro p hp
    show (Function.update cursors w _ p).In _
    by_cases hpw : p = w
    · subst hpw
      rw [Function.update_self]
      exact (Cursor.ahead_goOn _ _).place
    · rw [Function.update_of_ne hpw]
      exact h p hp
  | cons sub subs ih => exact ih (h.subWindow w sub)

theorem Placed.pass (h : Placed g cursors) (split : ℕ → List (ℕ × ℕ)) (k : ℕ) :
    Placed g (pass g split cursors k).2 := by
  induction k with
  | zero => exact h
  | succ k ih => exact ih.window k (split k)

/-- A shard with no row left has none in the windows of the others. -/
theorem rest_subWindow {w b : ℕ} (hbw : b ≠ w) (h : (cursors b).rest = [])
    (sub : ℕ × ℕ) : ((subWindow g w cursors sub).2 b).rest = [] := by
  show (if b = w then cursors b else ((cursors b).read _ _).2).rest = []
  rw [if_neg hbw, Cursor.read_of_rest_nil h]
  exact h

theorem rest_window {w b : ℕ} (hbw : b ≠ w) (h : (cursors b).rest = [])
    (subs : List (ℕ × ℕ)) : ((window g w subs cursors).2 b).rest = [] := by
  induction subs generalizing cursors with
  | nil =>
    show (Function.update cursors w _ b).rest = []
    rw [Function.update_of_ne hbw]
    exact h
  | cons sub subs ih => exact ih (rest_subWindow hbw h sub)

/-- Up to its own window. -/
theorem rest_pass {b k : ℕ} (hk : k ≤ b) (h : (cursors b).rest = [])
    (split : ℕ → List (ℕ × ℕ)) : ((pass g split cursors k).2 b).rest = [] := by
  induction k with
  | zero => exact h
  | succ k ih => exact rest_window (by omega) (ih (by omega)) (split k)

/-- **The window of the last shard drains the others.** -/
theorem window_drains {w b s : ℕ} {subs : List (ℕ × ℕ)} (hbw : b ≠ w)
    (hin : (cursors b).In (g.file b)) (hspan : span (g.file b) ≤ g.part.second w + 1)
    (htiles : Tiles s subs (g.part.second w + 1))
    (hnone : subs = [] → (cursors b).rest = []) :
    ((window g w subs cursors).2 b).rest = [] := by
  induction subs generalizing cursors s with
  | nil => exact rest_window hbw (hnone rfl) []
  | cons sub subs ih =>
    have hcursor : (subWindow g w cursors sub).2 b
        = ((cursors b).read sub.1 (sub.2 + 1)).2 := if_neg hbw
    refine ih ?_ htiles.2.2 fun hsubs => ?_
    · rw [hcursor]
      exact hin.read_snd
    · subst hsubs
      have hend : sub.2 + 1 = g.part.second w + 1 := htiles.2.2
      rw [hcursor]
      exact hin.read_rest (hspan.trans_eq hend.symm)

/-- After a pass, no shard but the last has a row left. -/
theorem rest_after_pass {split : ℕ → List (ℕ × ℕ)} (hsplit : Splits g split)
    (h : Placed g cursors) {b : ℕ} (hb : b + 1 < g.part.nshards) :
    ((pass g split cursors g.part.nshards).2 b).rest = [] := by
  obtain ⟨n, hn⟩ : ∃ n, g.part.nshards = n + 1 := ⟨g.part.nshards - 1, by omega⟩
  have hlast : n < g.part.nshards := by omega
  obtain ⟨htiles, -⟩ := hsplit n hlast
  rw [hn]
  refine window_drains (by omega) (h.pass split n b (by omega)) ?_ htiles fun hnil => ?_
  · refine (g.span_file_le (by omega)).trans_eq ?_
    unfold ShardedGraph.maxVertexId
    rw [hn, Nat.add_sub_cancel]
  · rw [hnil] at htiles
    have hend : g.part.first n = g.part.second n + 1 := htiles
    have := g.full n hlast
    omega

/-- Each sub-window of a window is one of its steps. -/
theorem exists_step {w : ℕ} {subs : List (ℕ × ℕ)} {sub : ℕ × ℕ} (hsub : sub ∈ subs)
    (h : Placed g cursors) {b : ℕ} (hbw : b ≠ w) :
    ∃ cursors', (subWindow g w cursors' sub).1 ∈ (window g w subs cursors).1
      ∧ Placed g cursors' ∧ ((cursors b).rest = [] → (cursors' b).rest = []) := by
  induction subs generalizing cursors with
  | nil => exact absurd hsub List.not_mem_nil
  | cons sub' subs ih =>
    rcases List.mem_cons.mp hsub with rfl | hsub
    · exact ⟨cursors, List.mem_cons_self, h, id⟩
    · obtain ⟨cursors', hmem, hplaced, hrest⟩ := ih hsub (h.subWindow w sub')
      exact ⟨cursors', List.mem_cons_of_mem _ hmem, hplaced,
        fun hnil => hrest (rest_subWindow hbw hnil sub')⟩

/-- The steps of a window are among those of the pass. -/
theorem window_subset_pass {split : ℕ → List (ℕ × ℕ)} {a k : ℕ} (hak : a < k) :
    (window g a (split a) (pass g split cursors a).2).1
      ⊆ (pass g split cursors k).1 := by
  induction k with
  | zero => omega
  | succ k ih =>
    intro t ht
    refine List.mem_append.mpr ?_
    rcases (Nat.lt_succ_iff.mp hak).eq_or_lt with rfl | hlt
    · exact Or.inr ht
    · exact Or.inl (ih hlt ht)

theorem mem_outsOf {v d : ℕ} {events : List LoadEvent} :
    d ∈ outsOf v events ↔ .outedge v d ∈ events := by
  unfold outsOf
  rw [List.mem_filterMap]
  constructor
  · rintro ⟨ev, hev, h⟩
    cases ev with
    | inedge u src => exact absurd h.symm (Option.some_ne_none d)
    | outedge u dst =>
      have h : (if u = v then some dst else none) = some d := h
      split at h
      · next huv =>
        rw [Option.some.injEq] at h
        rw [← huv, ← h]
        exact hev
      · exact absurd h.symm (Option.some_ne_none d)
  · exact fun h => ⟨_, h, if_pos rfl⟩

/-- **A shard with no row left gives none**, and no other shard has the
edges into its interval. -/
theorem outedge_not_mem (h : Placed g cursors) {a b : ℕ} (ha : a < g.part.nshards)
    (hab : a ≠ b) (hrest : (cursors b).rest = []) {d : ℕ} (hd : g.part.Mem b d)
    (sub : ℕ × ℕ) (u : ℕ) :
    .outedge u d ∉ (subWindow g a cursors sub).1.events := by
  have hsource : ∀ p < g.part.nshards, ∀ e ∈ g.shards p, e.2 = d → p = b :=
    fun p hp e he hed => (g.dst_mem p hp e he).unique (hed ▸ hd)
  intro hmem
  rcases List.mem_append.mp hmem with hmem | hmem
  · rw [loadVertices_eq (by rw [g.expand_file]; exact g.sorted a), g.expand_file] at hmem
    obtain ⟨e, he, hev⟩ := List.mem_flatMap.mp hmem
    refine hab (hsource a ha e he ?_)
    unfold edgeEvents at hev
    rcases List.mem_append.mp hev with hev | hev
    · split at hev
      · rw [List.mem_singleton, LoadEvent.outedge.injEq] at hev
        exact hev.2.symm
      · exact absurd hev List.not_mem_nil
    · split at hev
      · rw [List.mem_singleton] at hev
        exact absurd hev LoadEvent.noConfusion
      · exact absurd hev List.not_mem_nil
  · obtain ⟨p, hp, hmem⟩ := List.mem_flatMap.mp hmem
    obtain ⟨q, hq, hqd⟩ := List.mem_map.mp hmem
    rw [LoadEvent.outedge.injEq] at hqd
    have hpn := List.mem_range.mp (List.mem_of_mem_filter hp)
    have hrow : q ∈ g.shards p := by
      rw [← g.expand_file]
      exact List.mem_of_mem_filter ((h p hpn).read_fst.subset hq)
    have hpb := hsource p hpn q hrow hqd.2
    subst hpb
    rw [Cursor.read_of_rest_nil hrest] at hq
    exact absurd hq List.not_mem_nil

/-- A vertex lies in a sub-window of each pass. -/
theorem exists_sub {split : ℕ → List (ℕ × ℕ)} (hsplit : Splits g split) {a v : ℕ}
    (ha : g.part.Mem a v) : ∃ sub ∈ split a, Within sub v :=
  (hsplit a ha.1).1.cover ha.2.1 (Nat.lt_succ_of_le ha.2.2)

theorem placed_start (g : ShardedGraph) : Placed g fun p => ⟨0, g.file p⟩ :=
  fun _ _ => (Cursor.ahead_start _ 0).place

end Missing

section Only

variable {x : Run}

/-- Each vertex lies in an interval. -/
theorem ShardedGraph.exists_mem (g : ShardedGraph) {v : ℕ} (hv : v ≤ g.maxVertexId) :
    ∃ a, g.part.Mem a v := by
  have hreach : ∀ k < g.part.nshards, v ≤ g.part.second k → ∃ a, g.part.Mem a v := by
    intro k
    induction k with
    | zero =>
      intro hk hle
      refine ⟨0, hk, ?_, hle⟩
      rw [IntervalPartition.first_zero]
      exact Nat.zero_le v
    | succ k ih =>
      intro hk hle
      by_cases hlt : v ≤ g.part.second k
      · exact ih (by omega) hlt
      · refine ⟨k + 1, hk, ?_, hle⟩
        rw [IntervalPartition.first_succ hk]
        omega
  have := g.nshards_pos
  exact hreach (g.part.nshards - 1) (by omega) hv

/-- A complete run has counted without overflow. -/
theorem Run.countsFit_of_complete (h : x.Complete) : x.CountsFit := by
  have hstep : ∀ v ≤ x.graph.maxVertexId, ∃ t ∈ x.steps, Within t.sub v := by
    intro v hv
    obtain ⟨a, ha⟩ := x.graph.exists_mem hv
    obtain ⟨sub, hsub, hw⟩ := exists_sub (x.splits _ List.mem_cons_self) ha
    obtain ⟨cursors', hmem, -⟩ := exists_step (b := a + 1) hsub
      ((placed_start x.graph).pass x.assignment a) (Nat.succ_ne_self a)
    exact ⟨(subWindow x.graph a cursors' sub).1,
      List.mem_append_left _ (window_subset_pass ha.1 hmem), hw⟩
  refine ⟨?_, fun v hv => ?_⟩
  · obtain ⟨t, ht, hw⟩ := hstep _ le_rfl
    obtain ⟨vertices, hvertices, -⟩ := h t ht t.events (List.Perm.refl _)
    unfold Step.vertices at hvertices
    split at hvertices
    · next hlt => exact lt_of_le_of_lt (Nat.succ_le_succ hw.2) hlt
    · exact absurd hvertices.symm (Option.some_ne_none vertices)
  · obtain ⟨t, ht, hw⟩ := hstep v hv
    obtain ⟨vertices, -, hgiven⟩ := h t ht t.events (List.Perm.refl _)
    obtain ⟨hin, hout⟩ := hgiven v hw
    rw [← hin.length_eq, ← hout.length_eq]
    exact ⟨(vertices v).inc_lt, (vertices v).outc_lt⟩

/-- **A second pass misses the edges that lead forward**: the readers of the
files stay where the pass before has left them, so that an edge to a later
interval, other than the last, is not given to its source. -/
theorem Run.noForward_of_complete (h : x.Complete) :
    x.optimizations = [] ∨ x.NoForward := by
  cases hopt : x.optimizations with
  | nil => exact Or.inl rfl
  | cons split splits =>
    refine Or.inr fun e he a b ha hb hlast => ?_
    by_contra hab
    have hsplits := x.splits
    rw [hopt] at hsplits
    have hassign := hsplits _ List.mem_cons_self
    have hsplit := hsplits _ (List.mem_cons_of_mem _ List.mem_cons_self)
    -- the second pass, up to the window of the source
    have hplaced := (placed_start x.graph).pass x.assignment x.graph.part.nshards
    have hrest := rest_pass (g := x.graph) (k := a) (by omega)
      (rest_after_pass hassign (placed_start x.graph) hlast) split
    obtain ⟨sub, hsub, hw⟩ := exists_sub hsplit ha
    obtain ⟨cursors', hmem, hplaced', hrest'⟩ := exists_step hsub
      (hplaced.pass split a) (Nat.lt_of_not_le hab).ne'
    have hstep : (subWindow x.graph a cursors' sub).1 ∈ x.steps := by
      unfold Run.steps
      rw [hopt]
      exact List.mem_append_right _
        (List.mem_append_left _ (window_subset_pass ha.1 hmem))
    -- its source is not given the edge
    obtain ⟨vertices, hvertices, hgiven⟩ := h _ hstep _ (List.Perm.refl _)
    have hout : e.2 ∈ (vertices e.1).outedges := by
      refine (hgiven e.1 hw).2.mem_iff.mpr ?_
      exact List.mem_map_of_mem (List.mem_filter.mpr ⟨he, decide_eq_true rfl⟩)
    unfold Step.vertices at hvertices
    split at hvertices
    · rw [(foldlM_apply_spec hvertices e.1).2] at hout
      have hgot : e.2 ∈ outsOf e.1 (subWindow x.graph a cursors' sub).1.events := hout
      exact outedge_not_mem hplaced' ha.1 (by omega) (hrest' hrest) hb sub e.1
        (mem_outsOf.mp hgot)
    · exact absurd hvertices.symm (Option.some_ne_none vertices)

end Only

/-- **When every pass is complete**: exactly when the counters suffice and,
if there is an optimisation pass, no edge leads from an interval to a later
one other than the last. -/
theorem complete_iff (x : Run) :
    x.Complete ↔ x.CountsFit ∧ (x.optimizations = [] ∨ x.NoForward) :=
  ⟨fun h => ⟨Run.countsFit_of_complete h, Run.noForward_of_complete h⟩,
    fun h => Run.complete_of_noForward h.1 h.2⟩

/-- Three intervals of one vertex each, with edges from vertex 0 to the
other two and one back from vertex 1. -/
def forwardGraph : ShardedGraph where
  part := ⟨[(0, 0), (1, 1), (2, 2)], rfl, by decide, by decide, by decide⟩
  nshards_pos := by decide
  full := by decide
  shards := fun p => [[(1, 0)], [(0, 1)], [(0, 2)]].getD p []
  sorted := by
    intro p
    match p with
    | 0 => exact List.pairwise_singleton _ _
    | 1 => exact List.pairwise_singleton _ _
    | 2 => exact List.pairwise_singleton _ _
    | p + 3 => exact List.Pairwise.nil
  dst_mem := by decide
  src_mem := by
    intro p hp
    match p, hp with
    | 0, _ => exact fun e he => ⟨1, by rw [List.mem_singleton.mp he]; decide⟩
    | 1, _ => exact fun e he => ⟨0, by rw [List.mem_singleton.mp he]; decide⟩
    | 2, _ => exact fun e he => ⟨0, by rw [List.mem_singleton.mp he]; decide⟩

/-- The assignment pass and one optimisation pass over it. -/
def forwardRun : Run where
  graph := forwardGraph
  assignment := fun w => [(w, w)]
  optimizations := [fun w => [(w, w)]]
  splits := by
    have hsplit : Splits forwardGraph fun w => [(w, w)] := by
      intro w hw
      match w, hw with
      | 0, _ => exact ⟨⟨rfl, by decide, rfl⟩, by decide⟩
      | 1, _ => exact ⟨⟨rfl, by decide, rfl⟩, by decide⟩
      | 2, _ => exact ⟨⟨rfl, by decide, rfl⟩, by decide⟩
    intro split hmem
    rcases List.mem_cons.mp hmem with rfl | hmem
    · exact hsplit
    · rw [List.mem_singleton.mp hmem]
      exact hsplit

/-- **A second pass is not complete**: vertex 0 is not given its out-edge
to vertex 1 again. -/
theorem not_complete_forwardRun : ¬forwardRun.Complete := by
  intro h
  rcases Run.noForward_of_complete h with hone | hforward
  · exact absurd hone (List.cons_ne_nil _ _)
  · have hle := hforward (0, 1) (by decide) 0 1 (by decide) (by decide) (by decide)
    exact absurd hle (by decide)

end PartitionWindows
