import DpdkGraph.SlotAgreement

/-!
# Handing the edges out to the shards

`reshovel` reads the shovel files once more, gives the vertices of each edge
their new ids, counts their degrees, and puts the edge in the buffer of the
shard of its destination and, if that is another one, in the buffer of the
shard of its source. A full buffer is emptied: into the `.re` file of a
shard of this machine, or as a packet to the machine of the shard, which
says at which offset its bytes belong. At the end what is left in the
buffers is handed out as well.

Nothing is lost at the borders of buffers or files, whatever the sizes, as
long as the numbers fit: the buffer of `2^31` edges or more is emptied with
an edge count that is an `int`, and so are the degrees
(`conserves_iff_numbersFit`).
-/

namespace Redistribution

open Reshard (toInt32 touching)

variable {V : Type}

/-- The ids and the shards of the vertices. -/
inductive Numbering where
  /-- `opti_times == 0`: the ids stay, and the shard is looked up. -/
  | plain
  /-- The vertices have been put in buckets and renumbered. -/
  | renumbered (vertexsMap vertexToBucks : ℕ → ℕ)

namespace Numbering

/-- The id of a vertex from here on. -/
def number : Numbering → ℕ → ℕ
  | plain, v => v
  | renumbered vertexsMap _, v => vertexsMap v

/-- The shard of a vertex. -/
def interval (part : IntervalPartition) : Numbering → ℕ → Option ℕ
  | plain, v => part.shardOf v
  | renumbered _ vertexToBucks, v => some (vertexToBucks v)

end Numbering

/-- **What is to be handed out.** The numbering is one onto the intervals:
each vertex gets an id of its own, in the interval of its shard. -/
structure Job (V : Type) where
  /-- `intervals`. -/
  part : IntervalPartition
  /-- `max_vertex_id`. -/
  maxVertexId : ℕ
  /-- The ids and the shards. -/
  numbering : Numbering
  /-- No two vertices get the same id. -/
  injOn : Set.InjOn numbering.number (Set.Iic maxVertexId)
  /-- The shard of a vertex is the one whose interval has its id. -/
  covered : ∀ v ≤ maxVertexId, ∃ k, numbering.interval part v = some k
    ∧ part.Mem k (numbering.number v)
  /-- `machines`, with this one. -/
  machines : ℕ
  /-- `sizeof(edge_with_value<EdgeDataType>)`. -/
  edgeSize : ℕ
  /-- `edges_max_in_buffer`. -/
  edgesMaxInBuffer : ℕ
  /-- A buffer holds an edge. -/
  edgesMaxInBuffer_pos : 0 < edgesMaxInBuffer
  /-- The shovel files. -/
  shovels : List (List (EdgeWithValue V))
  /-- Their vertices. -/
  vid : ∀ e ∈ shovels.flatten, e.src ≤ maxVertexId ∧ e.dst ≤ maxVertexId
  /-- `preprocessing_add_edge` has dropped self loops. -/
  noloop : ∀ e ∈ shovels.flatten, e.src ≠ e.dst

namespace Job

variable (x : Job V)

/-- The id of a vertex from here on. -/
def number (v : ℕ) : ℕ := x.numbering.number v

/-- The shard of a vertex. -/
def interval (v : ℕ) : Option ℕ := x.numbering.interval x.part v

/-- The edge with the new ids. -/
def renumber (e : EdgeWithValue V) : EdgeWithValue V :=
  ⟨x.number e.src, x.number e.dst, e.value⟩

/-- The shard is on this machine. -/
def isLocal (k : ℕ) : Bool := k % x.machines == x.machines - 1

end Job

/-! ## Reading a shovel file -/

/-- Where the reading of a shovel file has come to. -/
structure Reader (V : Type) where
  /-- `buff_shovel`. -/
  buff : List (EdgeWithValue V)
  /-- `idx`, the next edge in the buffer. -/
  idx : ℕ
  /-- What the file descriptor has before it. -/
  rest : List (EdgeWithValue V)

/-- `reada` before an edge, if the buffer has not been filled or is through. -/
def Reader.fill (full : ℕ) (r : Reader V) : Reader V :=
  if r.idx = 0 ∨ r.idx = full then ⟨r.rest.take full, 0, r.rest.drop full⟩ else r

/-- The loop over the edges of a file, as many as its size says. -/
def readEdges (full : ℕ) : ℕ → Reader V → Option (List (EdgeWithValue V))
  | 0, _ => some []
  | n + 1, r =>
    (r.fill full).buff[(r.fill full).idx]?.bind fun e =>
      (readEdges full n { r.fill full with idx := (r.fill full).idx + 1 }).map fun l =>
        e :: l

/-- A shovel file is read from its start, with a buffer for twice the edges
of the others. -/
def readShovel (edgesMaxInBuffer : ℕ) (file : List (EdgeWithValue V)) :
    Option (List (EdgeWithValue V)) :=
  readEdges (edgesMaxInBuffer * 2) file.length ⟨[], 0, file⟩

/-- The edges of all files, one after the other. -/
def readShovels (edgesMaxInBuffer : ℕ) :
    List (List (EdgeWithValue V)) → Option (List (EdgeWithValue V))
  | [] => some []
  | file :: files =>
    (readShovel edgesMaxInBuffer file).bind fun l =>
      (readShovels edgesMaxInBuffer files).map fun l' => l ++ l'

/-! ## The buffers -/

/-- What belongs to a shard. -/
structure Shard (V : Type) where
  /-- The edges in its buffer, `edges_in_buff` of them. -/
  buff : List (EdgeWithValue V)
  /-- Its `.re` file, on this machine. -/
  file : List (EdgeWithValue V)
  /-- The packets for it, each with its offset. -/
  packets : List (ℕ × List (EdgeWithValue V))
  /-- `offsets`: the bytes sent so far. -/
  offset : ℕ

/-- Nothing has been handed out. -/
def Shard.empty : Shard V := ⟨[], [], [], 0⟩

/-- Hands out edges of the buffer. -/
def Shard.handOut (isLocal : Bool) (edgeSize : ℕ) (l : List (EdgeWithValue V))
    (s : Shard V) : Shard V :=
  if isLocal then ⟨[], s.file ++ l, s.packets, s.offset⟩
  else ⟨[], s.file, s.packets ++ [(s.offset, l)], s.offset + l.length * edgeSize⟩

/-- `finish_reshovel_block`: the number of edges is an `int`; with a
negative one the write does not end well. -/
def Shard.finishBlock (isLocal : Bool) (edgeSize edges : ℕ) (s : Shard V) :
    Option (Shard V) :=
  if toInt32 edges < 0 then none
  else some (s.handOut isLocal edgeSize (s.buff.take (toInt32 edges).toNat))

/-- An edge is put in the buffer of the shard. -/
def Shard.put (isLocal : Bool) (edgeSize edgesMaxInBuffer : ℕ) (s : Shard V)
    (e : EdgeWithValue V) : Option (Shard V) :=
  if s.buff.length = edgesMaxInBuffer - 1 then
    Shard.finishBlock isLocal edgeSize edgesMaxInBuffer { s with buff := s.buff ++ [e] }
  else some { s with buff := s.buff ++ [e] }

/-- `finish_reshovel`: what is left. -/
def Shard.finish (isLocal : Bool) (edgeSize : ℕ) (s : Shard V) : Shard V :=
  s.handOut isLocal edgeSize s.buff

/-- The edges that the shard has been handed. -/
def Shard.delivered (s : Shard V) : List (EdgeWithValue V) :=
  s.file ++ s.packets.flatMap Prod.snd

/-! ## The degrees -/

/-- `degree`: two `int`s. -/
structure Degree where
  /-- The in-degree. -/
  indegree : ℕ
  /-- The out-degree. -/
  outdegree : ℕ
  /-- It fits. -/
  in_lt : indegree < 2 ^ 31
  /-- It fits, too. -/
  out_lt : outdegree < 2 ^ 31

/-- No edges. -/
def Degree.zero : Degree := ⟨0, 0, by decide, by decide⟩

/-- `indegree++`; a count that overflows has no meaning. -/
def Degree.addIn (d : Degree) : Option Degree :=
  if h : d.indegree + 1 < 2 ^ 31 then some ⟨d.indegree + 1, d.outdegree, h, d.out_lt⟩
  else none

/-- `outdegree++`. -/
def Degree.addOut (d : Degree) : Option Degree :=
  if h : d.outdegree + 1 < 2 ^ 31 then some ⟨d.indegree, d.outdegree + 1, d.in_lt, h⟩
  else none

/-- The degrees after an edge. -/
def countEdge (degrees : ℕ → Degree) (e : EdgeWithValue V) : Option (ℕ → Degree) :=
  if e.src ≠ e.dst then
    (degrees e.src).addOut.bind fun d =>
      (Function.update degrees e.src d e.dst).addIn.map fun d' =>
        Function.update (Function.update degrees e.src d) e.dst d'
  else some degrees

/-! ## `reshovel` -/

/-- What the loop keeps. -/
structure State (V : Type) where
  /-- `degrees`. -/
  degrees : ℕ → Degree
  /-- The shards. -/
  shards : ℕ → Shard V

namespace Job

variable (x : Job V)

/-- An edge is put in the buffer of shard `k`. -/
def putShard (shards : ℕ → Shard V) (k : ℕ) (e : EdgeWithValue V) :
    Option (ℕ → Shard V) :=
  ((shards k).put (x.isLocal k) x.edgeSize x.edgesMaxInBuffer e).map fun s =>
    Function.update shards k s

/-- The buffers after an edge: first that of the destination's shard. -/
def putEdge (shards : ℕ → Shard V) (a b : ℕ) (e : EdgeWithValue V) :
    Option (ℕ → Shard V) :=
  (x.putShard shards b e).bind fun shards =>
    if a ≠ b then x.putShard shards a e else some shards

/-- One round of the loop. The new ids must lie in the intervals. -/
def step (s : State V) (e : EdgeWithValue V) : Option (State V) :=
  (x.interval e.src).bind fun a =>
    (x.interval e.dst).bind fun b =>
      if x.part.Mem a (x.number e.src) ∧ x.part.Mem b (x.number e.dst) then
        (countEdge s.degrees (x.renumber e)).bind fun degrees =>
          (x.putEdge s.shards a b (x.renumber e)).map fun shards => ⟨degrees, shards⟩
      else none

/-- **`reshovel`.** -/
def reshovel : Option (State V) :=
  (readShovels x.edgesMaxInBuffer x.shovels).bind fun edges =>
    (edges.foldlM x.step ⟨fun _ => Degree.zero, fun _ => Shard.empty⟩).map fun s =>
      ⟨s.degrees, fun k => (s.shards k).finish (x.isLocal k) x.edgeSize⟩

/-- The edges with their new ids, in the order of the files. -/
def edges : List (EdgeWithValue V) := x.shovels.flatten.map x.renumber

end Job

/-- Each packet belongs right behind those before it. -/
def Contiguous (edgeSize : ℕ) (packets : List (ℕ × List (EdgeWithValue V))) : Prop :=
  ∀ before p after, packets = before ++ p :: after →
    p.1 = (before.flatMap Prod.snd).length * edgeSize

/-- **Nothing is lost or repeated**: each shard is handed the edges that
touch its interval, in order, and the degrees are those of the graph. -/
structure ConservationLaw (x : Job V) (s : State V) : Prop where
  /-- The edges of a shard. -/
  delivered : ∀ k < x.part.nshards, (s.shards k).delivered = touching x.part k x.edges
  /-- A shard of this machine gets a file, and the others get packets. -/
  place : ∀ k, if x.isLocal k then (s.shards k).packets = [] else (s.shards k).file = []
  /-- The offsets of the packets. -/
  contiguous : ∀ k, Contiguous x.edgeSize (s.shards k).packets
  /-- The in-degrees. -/
  indegree : ∀ v, (s.degrees v).indegree = x.edges.countP fun e => e.dst = v
  /-- The out-degrees. -/
  outdegree : ∀ v, (s.degrees v).outdegree = x.edges.countP fun e => e.src = v

/-- `reshovel` ends, with nothing lost or repeated. -/
def Job.Conserves (x : Job V) : Prop := ∃ s, x.reshovel = some s ∧ ConservationLaw x s

/-- **The numbers fit**: a buffer holds fewer than `2^31` edges, or no shard
gets as many as it holds; and each vertex has fewer than `2^31` edges in
each direction. -/
structure Job.NumbersFit (x : Job V) : Prop where
  /-- The edges of a buffer. -/
  buffer : x.edgesMaxInBuffer < 2 ^ 31 ∨ ∀ k < x.part.nshards,
    (touching x.part k x.edges).length < x.edgesMaxInBuffer
  /-- The edges of a vertex. -/
  degrees : ∀ v, (x.edges.countP fun e => e.dst = v) < 2 ^ 31
    ∧ (x.edges.countP fun e => e.src = v) < 2 ^ 31

/-! ## The files are read whole -/

/-- What a reader still has to give, between two edges. -/
inductive Reader.Has (full : ℕ) (r : Reader V) (l : List (EdgeWithValue V)) : Prop where
  /-- The next edge comes from the file. -/
  | file (hidx : r.idx = 0 ∨ r.idx = full) (hrest : r.rest = l)
  /-- It comes from the buffer, which is full if the file goes on. -/
  | buffer (hpos : 0 < r.idx) (hlt : r.idx < full) (hle : r.buff.length ≤ full)
      (hshort : r.buff.length < full → r.rest = [])
      (hrest : r.buff.drop r.idx ++ r.rest = l)

/-- After `fill`, the next edge is in the buffer. -/
theorem Reader.Has.fill {full : ℕ} (hfull : 0 < full) {r : Reader V}
    {l : List (EdgeWithValue V)} (h : r.Has full l) :
    (r.fill full).idx < full ∧ (r.fill full).buff.length ≤ full
      ∧ ((r.fill full).buff.length < full → (r.fill full).rest = [])
      ∧ (r.fill full).buff.drop (r.fill full).idx ++ (r.fill full).rest = l := by
  cases h with
  | file hidx hrest =>
    unfold Reader.fill
    rw [if_pos hidx, hrest]
    refine ⟨hfull, (List.length_take_le full l), fun hlt => ?_, ?_⟩
    · refine List.drop_eq_nil_of_le ?_
      have hlt : (l.take full).length < full := hlt
      rw [List.length_take] at hlt
      omega
    · exact List.take_append_drop full l
  | buffer hpos hlt hle hshort hrest =>
    unfold Reader.fill
    rw [if_neg (not_or.mpr ⟨hpos.ne', hlt.ne⟩)]
    exact ⟨hlt, hle, hshort, hrest⟩

/-- The edges come in the order of the file. -/
theorem readEdges_eq {full : ℕ} (hfull : 0 < full) {r : Reader V}
    {l : List (EdgeWithValue V)} (h : r.Has full l) :
    readEdges full l.length r = some l := by
  induction l generalizing r with
  | nil => rfl
  | cons e l ih =>
    obtain ⟨hlt, hle, hshort, hrest⟩ := h.fill hfull
    rw [List.length_cons, readEdges]
    generalize r.fill full = r' at hlt hle hshort hrest
    have hidx : r'.idx < r'.buff.length := by
      by_contra hge
      rw [List.drop_eq_nil_of_le (Nat.not_lt.mp hge), hshort (by omega)] at hrest
      exact absurd hrest (List.cons_ne_nil e l).symm
    rw [List.drop_eq_getElem_cons hidx, List.cons_append, List.cons.injEq] at hrest
    obtain ⟨rfl, hrest⟩ := hrest
    have hnext : ({ r' with idx := r'.idx + 1 } : Reader V).Has full l := by
      by_cases hend : r'.idx + 1 = full
      · refine .file (Or.inr hend) ?_
        rw [List.drop_eq_nil_of_le (by omega), List.nil_append] at hrest
        exact hrest
      · exact .buffer (Nat.succ_pos _) (by show r'.idx + 1 < full; omega) hle hshort hrest
    rw [List.getElem?_eq_getElem hidx, Option.bind_some, ih hnext]
    rfl

/-- **Every shovel file is read whole.** -/
theorem readShovels_eq {edgesMaxInBuffer : ℕ} (hpos : 0 < edgesMaxInBuffer)
    (files : List (List (EdgeWithValue V))) :
    readShovels edgesMaxInBuffer files = some files.flatten := by
  induction files with
  | nil => rfl
  | cons file files ih =>
    have hfile : readShovel edgesMaxInBuffer file = some file :=
      readEdges_eq (Nat.mul_pos hpos Nat.two_pos) (.file (Or.inl rfl) rfl)
    unfold readShovels
    rw [hfile, Option.bind_some, ih]
    rfl

/-! ## The degrees -/

/-- The degrees of the edges so far. -/
def DegreesOf (degrees : ℕ → Degree) (done : List (EdgeWithValue V)) : Prop :=
  ∀ v, (degrees v).indegree = (done.countP fun e => e.dst = v)
    ∧ (degrees v).outdegree = done.countP fun e => e.src = v

theorem Degree.addIn_eq_some {d d' : Degree} (h : d.addIn = some d') :
    d'.indegree = d.indegree + 1 ∧ d'.outdegree = d.outdegree := by
  unfold Degree.addIn at h
  split at h
  · rw [Option.some.injEq] at h
    subst h
    exact ⟨rfl, rfl⟩
  · exact absurd h.symm (Option.some_ne_none d')

theorem Degree.addOut_eq_some {d d' : Degree} (h : d.addOut = some d') :
    d'.indegree = d.indegree ∧ d'.outdegree = d.outdegree + 1 := by
  unfold Degree.addOut at h
  split at h
  · rw [Option.some.injEq] at h
    subst h
    exact ⟨rfl, rfl⟩
  · exact absurd h.symm (Option.some_ne_none d')

/-- **An edge is counted** at both its ends, which are different vertices. -/
theorem DegreesOf.add {degrees degrees' : ℕ → Degree}
    {done : List (EdgeWithValue V)} (h : DegreesOf degrees done) {e : EdgeWithValue V}
    (hloop : e.src ≠ e.dst) (hcount : countEdge degrees e = some degrees') :
    DegreesOf degrees' (done ++ [e]) := by
  unfold countEdge at hcount
  rw [if_pos hloop] at hcount
  obtain ⟨d, hd, hcount⟩ := Option.bind_eq_some_iff.mp hcount
  obtain ⟨d', hd', rfl⟩ := Option.map_eq_some_iff.mp hcount
  rw [Function.update_of_ne hloop.symm] at hd'
  obtain ⟨hin, hout⟩ := Degree.addOut_eq_some hd
  obtain ⟨hin', hout'⟩ := Degree.addIn_eq_some hd'
  intro v
  obtain ⟨hv, hv'⟩ := h v
  rw [List.countP_append, List.countP_append, List.countP_singleton, List.countP_singleton]
  by_cases hdst : e.dst = v
  · subst hdst
    rw [Function.update_self, hin', hout', hv, hv']
    simp [hloop]
  · rw [Function.update_of_ne (Ne.symm hdst)]
    by_cases hsrc : e.src = v
    · subst hsrc
      rw [Function.update_self, hin, hout, hv, hv']
      simp [hdst]
    · rw [Function.update_of_ne (Ne.symm hsrc), hv, hv']
      simp [hdst, hsrc]

/-- It can be counted if the degrees with it fit. -/
theorem DegreesOf.exists_countEdge {degrees : ℕ → Degree}
    {done : List (EdgeWithValue V)} (h : DegreesOf degrees done) {e : EdgeWithValue V}
    (hloop : e.src ≠ e.dst)
    (hin : ((done ++ [e]).countP fun e' => e'.dst = e.dst) < 2 ^ 31)
    (hout : ((done ++ [e]).countP fun e' => e'.src = e.src) < 2 ^ 31) :
    ∃ degrees', countEdge degrees e = some degrees' := by
  rw [List.countP_append, List.countP_singleton, if_pos (decide_eq_true rfl)] at hin hout
  unfold countEdge
  rw [if_pos hloop]
  unfold Degree.addOut
  rw [dif_pos ((h e.src).2 ▸ hout), Option.bind_some, Function.update_of_ne hloop.symm]
  unfold Degree.addIn
  rw [dif_pos ((h e.dst).1 ▸ hin)]
  exact ⟨_, rfl⟩

/-! ## The shards -/

namespace Shard

variable {isLocal : Bool} {edgeSize edgesMaxInBuffer : ℕ} {s : Shard V}
  {l : List (EdgeWithValue V)}

/-- **What a shard holds** of the edges `l` for it: those handed out, and
the others in the buffer. -/
structure Holds (isLocal : Bool) (edgeSize : ℕ) (s : Shard V)
    (l : List (EdgeWithValue V)) : Prop where
  /-- They are handed out or in the buffer. -/
  edges : s.delivered ++ s.buff = l
  /-- As a file or as packets. -/
  place : if isLocal then s.packets = [] else s.file = []
  /-- The offset is the bytes sent. -/
  offset : s.offset = (s.packets.flatMap Prod.snd).length * edgeSize
  /-- The packets are contiguous. -/
  contiguous : Contiguous edgeSize s.packets

theorem holds_empty (isLocal : Bool) (edgeSize : ℕ) :
    (empty : Shard V).Holds isLocal edgeSize [] := by
  refine ⟨rfl, ?_, (Nat.zero_mul _).symm, fun before p after h => ?_⟩
  · split <;> rfl
  · exact absurd h.symm (List.append_ne_nil_of_right_ne_nil _ (List.cons_ne_nil _ _))

/-- One more packet. -/
theorem Contiguous.append {packets : List (ℕ × List (EdgeWithValue V))}
    (h : Contiguous edgeSize packets) :
    Contiguous edgeSize
      (packets ++ [((packets.flatMap Prod.snd).length * edgeSize, l)]) := by
  intro before p after heq
  rcases List.eq_nil_or_concat after with rfl | ⟨after, q, rfl⟩
  · obtain ⟨rfl, hp⟩ := List.append_inj' heq rfl
    rw [List.cons.injEq] at hp
    rw [← hp.1]
  · rw [List.concat_eq_append, ← List.cons_append, ← List.append_assoc] at heq
    obtain ⟨hpackets, -⟩ := List.append_inj' heq rfl
    exact h before p after hpackets

/-- Handing the buffer out. -/
theorem Holds.handOut (h : s.Holds isLocal edgeSize l) :
    (s.handOut isLocal edgeSize s.buff).Holds isLocal edgeSize l := by
  have hedges := h.edges
  have hplace := h.place
  unfold Shard.handOut
  cases isLocal with
  | true =>
    refine ⟨?_, hplace, h.offset, h.contiguous⟩
    show (s.file ++ s.buff ++ s.packets.flatMap Prod.snd) ++ [] = l
    rw [← hedges]
    unfold delivered
    rw [show s.packets = [] from hplace]
    simp
  | false =>
    refine ⟨?_, hplace, ?_, ?_⟩
    · show s.file ++ (s.packets ++ [(s.offset, s.buff)]).flatMap Prod.snd ++ [] = l
      rw [← hedges]
      unfold delivered
      simp
    · show s.offset + s.buff.length * edgeSize
        = ((s.packets ++ [(s.offset, s.buff)]).flatMap Prod.snd).length * edgeSize
      rw [List.flatMap_append, List.length_append, Nat.add_mul, h.offset]
      simp
    · show Contiguous edgeSize (s.packets ++ [(s.offset, s.buff)])
      rw [h.offset]
      exact Contiguous.append h.contiguous

/-- An edge in the buffer. -/
theorem Holds.push (h : s.Holds isLocal edgeSize l) (e : EdgeWithValue V) :
    ({ s with buff := s.buff ++ [e] } : Shard V).Holds isLocal edgeSize (l ++ [e]) := by
  refine ⟨?_, h.place, h.offset, h.contiguous⟩
  show s.delivered ++ (s.buff ++ [e]) = _
  rw [← List.append_assoc, h.edges]

/-- **An edge is put in the buffer**, and nothing is lost if the count of a
full buffer fits an `int`, or it does not get full. -/
theorem Holds.put (h : s.Holds isLocal edgeSize l) (hpos : 0 < edgesMaxInBuffer)
    (e : EdgeWithValue V)
    (hfits : edgesMaxInBuffer < 2 ^ 31 ∨ l.length + 1 < edgesMaxInBuffer) :
    ∃ s', s.put isLocal edgeSize edgesMaxInBuffer e = some s'
      ∧ s'.Holds isLocal edgeSize (l ++ [e]) := by
  have hpush := h.push e
  unfold Shard.put
  split
  · next hfull =>
    have hle : s.buff.length ≤ l.length := by
      rw [← h.edges, List.length_append]
      exact Nat.le_add_left _ _
    have hint : toInt32 (edgesMaxInBuffer : ℤ) = edgesMaxInBuffer :=
      Reshard.toInt32_natCast (by omega)
    have hlength : edgesMaxInBuffer = (s.buff ++ [e]).length := by
      rw [List.length_append, List.length_singleton]
      omega
    unfold finishBlock
    rw [hint, if_neg (by omega), Int.toNat_natCast]
    refine ⟨_, rfl, ?_⟩
    show (Shard.handOut isLocal edgeSize ((s.buff ++ [e]).take edgesMaxInBuffer) _).Holds
      isLocal edgeSize (l ++ [e])
    rw [List.take_of_length_le hlength.ge]
    exact hpush.handOut
  · exact ⟨_, rfl, hpush⟩

/-- **What is left is handed out** at the end. -/
theorem Holds.finish (h : s.Holds isLocal edgeSize l) :
    (s.finish isLocal edgeSize).delivered = l
      ∧ (if isLocal then (s.finish isLocal edgeSize).packets = []
          else (s.finish isLocal edgeSize).file = [])
      ∧ Contiguous edgeSize (s.finish isLocal edgeSize).packets := by
  have hfinish := h.handOut
  have hbuff : (s.handOut isLocal edgeSize s.buff).buff = [] := by
    unfold Shard.handOut
    split <;> rfl
  have hedges := hfinish.edges
  rw [hbuff, List.append_nil] at hedges
  exact ⟨hedges, hfinish.place, hfinish.contiguous⟩

/-! Where the count does not fit. -/

/-- Handing out gives what it is given. -/
theorem length_handOut (isLocal : Bool) (edgeSize : ℕ) (s : Shard V)
    (l : List (EdgeWithValue V)) :
    (s.handOut isLocal edgeSize l).delivered.length = s.delivered.length + l.length
      ∧ (s.handOut isLocal edgeSize l).buff = [] := by
  unfold Shard.handOut delivered
  split
  · refine ⟨?_, rfl⟩
    show (s.file ++ l ++ s.packets.flatMap Prod.snd).length = _
    rw [List.length_append, List.length_append, List.length_append]
    omega
  · refine ⟨?_, rfl⟩
    show (s.file ++ (s.packets ++ [(s.offset, l)]).flatMap Prod.snd).length = _
    rw [List.flatMap_append, List.length_append, List.length_append, List.length_append]
    simp [Nat.add_assoc]

/-- The buffer has not been full for the `n` edges so far, or some have been
lost. -/
def Short (edgesMaxInBuffer : ℕ) (s : Shard V) (n : ℕ) : Prop :=
  (s.delivered.length + s.buff.length = n ∧ s.buff.length = n ∧ n < edgesMaxInBuffer)
    ∨ s.delivered.length + s.buff.length < n

/-- **A full buffer of `2^31` edges or more loses some**: its count becomes a
negative `int` or a smaller one, and what is behind that count is not handed
out. -/
theorem Short.put {n : ℕ} (h : s.Short edgesMaxInBuffer n)
    (hmax : 2 ^ 31 ≤ edgesMaxInBuffer) {e : EdgeWithValue V} {s' : Shard V}
    (hput : s.put isLocal edgeSize edgesMaxInBuffer e = some s') :
    s'.Short edgesMaxInBuffer (n + 1) := by
  unfold Shard.put at hput
  split at hput
  · next hfull =>
    unfold finishBlock at hput
    split at hput
    · exact absurd hput.symm (Option.some_ne_none s')
    · next hsign =>
      rw [Option.some.injEq] at hput
      subst hput
      obtain ⟨hlength, hbuff⟩ := length_handOut isLocal edgeSize
        { s with buff := s.buff ++ [e] }
        ((s.buff ++ [e]).take (toInt32 (edgesMaxInBuffer : ℤ)).toNat)
      -- what is handed out at once is less than the buffer has
      have hsmall : (toInt32 (edgesMaxInBuffer : ℤ)).toNat < 2 ^ 31 := by
        have hlt := Int.bmod_lt (x := (edgesMaxInBuffer : ℤ)) (m := 2 ^ 32) (by decide)
        unfold toInt32 at hsign ⊢
        omega
      have htake := List.length_take_le (toInt32 (edgesMaxInBuffer : ℤ)).toNat
        (s.buff ++ [e])
      have hdelivered : ({ s with buff := s.buff ++ [e] } : Shard V).delivered.length
          = s.delivered.length := rfl
      refine Or.inr ?_
      show (Shard.handOut isLocal edgeSize _ _).delivered.length
        + (Shard.handOut isLocal edgeSize _ _).buff.length < n + 1
      rw [hlength, hbuff, hdelivered, List.length_nil]
      -- nothing is lost yet, or something is and will be missing
      rcases h with ⟨hsum, -, -⟩ | hlt
      · omega
      · have htake' := List.length_take_le' (toInt32 (edgesMaxInBuffer : ℤ)).toNat
          (s.buff ++ [e])
        rw [List.length_append, List.length_singleton] at htake'
        omega
  · next hroom =>
    rw [Option.some.injEq] at hput
    subst hput
    have hlength : (s.buff ++ [e]).length = s.buff.length + 1 := List.length_append
    rcases h with ⟨hsum, hn, hlt⟩ | hlt
    · refine Or.inl ⟨?_, ?_, by omega⟩
      · show s.delivered.length + (s.buff ++ [e]).length = n + 1
        omega
      · show (s.buff ++ [e]).length = n + 1
        omega
    · refine Or.inr ?_
      show s.delivered.length + (s.buff ++ [e]).length < n + 1
      omega

/-- At the end, too. -/
theorem Short.finish {n : ℕ} (h : s.Short edgesMaxInBuffer n)
    (hall : (s.finish isLocal edgeSize).delivered.length = n) : n < edgesMaxInBuffer := by
  have hlength : (s.finish isLocal edgeSize).delivered.length
      = s.delivered.length + s.buff.length := (length_handOut _ _ _ _).1
  rcases h with ⟨-, -, hlt⟩ | hlt
  · exact hlt
  · omega

end Shard

/-! ## Runs -/

theorem touching_append (part : IntervalPartition) (k : ℕ)
    (l l' : List (EdgeWithValue V)) :
    touching part k (l ++ l') = touching part k l ++ touching part k l' :=
  List.filter_append l l'

namespace Job

variable {x : Job V}

/-- A buffer that is not the edge's is left alone. -/
theorem putEdge_eq_some {shards shards' : ℕ → Shard V} {a b : ℕ} {e : EdgeWithValue V}
    (h : x.putEdge shards a b e = some shards') (k : ℕ) :
    if k = a ∨ k = b then
      (shards k).put (x.isLocal k) x.edgeSize x.edgesMaxInBuffer e = some (shards' k)
    else shards' k = shards k := by
  obtain ⟨shards₁, hb, h⟩ := Option.bind_eq_some_iff.mp h
  obtain ⟨s, hs, rfl⟩ := Option.map_eq_some_iff.mp hb
  split at h
  · next hab =>
    obtain ⟨s', hs', rfl⟩ := Option.map_eq_some_iff.mp h
    rw [Function.update_of_ne hab] at hs'
    by_cases hka : k = a
    · subst hka
      rw [if_pos (Or.inl rfl), Function.update_self]
      exact hs'
    · rw [Function.update_of_ne hka]
      by_cases hkb : k = b
      · subst hkb
        rw [if_pos (Or.inr rfl), Function.update_self]
        exact hs
      · rw [if_neg (not_or.mpr ⟨hka, hkb⟩), Function.update_of_ne hkb]
  · next hab =>
    rw [not_not] at hab
    subst hab
    rw [Option.some.injEq] at h
    subst h
    by_cases hk : k = a
    · subst hk
      rw [if_pos (Or.inl rfl), Function.update_self]
      exact hs
    · rw [if_neg (not_or.mpr ⟨hk, hk⟩), Function.update_of_ne hk]

/-- Both buffers can take the edge. -/
theorem exists_putEdge {shards : ℕ → Shard V} {a b : ℕ} {e : EdgeWithValue V}
    (h : ∀ k, k = a ∨ k = b → ∃ s,
      (shards k).put (x.isLocal k) x.edgeSize x.edgesMaxInBuffer e = some s) :
    ∃ shards', x.putEdge shards a b e = some shards' := by
  obtain ⟨s, hs⟩ := h b (Or.inr rfl)
  unfold putEdge putShard
  rw [hs, Option.map_some, Option.bind_some]
  split
  · next hab =>
    obtain ⟨s', hs'⟩ := h a (Or.inl rfl)
    rw [Function.update_of_ne hab, hs']
    exact ⟨_, rfl⟩
  · exact ⟨_, rfl⟩

/-- The two shards of an edge. -/
theorem exists_shards {e : EdgeWithValue V} (he : e ∈ x.shovels.flatten) :
    ∃ a b, x.interval e.src = some a ∧ x.interval e.dst = some b
      ∧ x.part.Mem a (x.renumber e).src ∧ x.part.Mem b (x.renumber e).dst := by
  obtain ⟨hsrc, hdst⟩ := x.vid e he
  obtain ⟨a, ha, hmem⟩ := x.covered _ hsrc
  obtain ⟨b, hb, hmem'⟩ := x.covered _ hdst
  exact ⟨a, b, ha, hb, hmem, hmem'⟩

/-- An edge is no self loop with the new ids either. -/
theorem renumber_noloop {e : EdgeWithValue V} (he : e ∈ x.shovels.flatten) :
    (x.renumber e).src ≠ (x.renumber e).dst := by
  obtain ⟨hsrc, hdst⟩ := x.vid e he
  exact fun heq => x.noloop e he (x.injOn hsrc hdst heq)

theorem step_eq {s : State V} {e : EdgeWithValue V} {a b : ℕ}
    (ha : x.interval e.src = some a) (hb : x.interval e.dst = some b)
    (hmem : x.part.Mem a (x.renumber e).src) (hmem' : x.part.Mem b (x.renumber e).dst) :
    x.step s e = (countEdge s.degrees (x.renumber e)).bind fun degrees =>
      (x.putEdge s.shards a b (x.renumber e)).map fun shards => ⟨degrees, shards⟩ := by
  unfold step
  rw [ha, Option.bind_some, hb, Option.bind_some]
  exact if_pos ⟨hmem, hmem'⟩

/-- **After some edges**, the shards hold those that touch their intervals,
and the degrees are theirs. -/
structure After (x : Job V) (s : State V) (done : List (EdgeWithValue V)) : Prop where
  /-- The shards. -/
  shards : ∀ k, (s.shards k).Holds (x.isLocal k) x.edgeSize (touching x.part k done)
  /-- The degrees. -/
  degrees : DegreesOf s.degrees done

/-- The counters suffice for all edges. -/
theorem NumbersFit.mono (h : x.NumbersFit) {done more : List (EdgeWithValue V)}
    (heq : done ++ more = x.edges) (v : ℕ) :
    (done.countP fun e => e.dst = v) < 2 ^ 31
      ∧ (done.countP fun e => e.src = v) < 2 ^ 31 := by
  obtain ⟨hin, hout⟩ := h.degrees v
  rw [← heq, List.countP_append] at hin hout
  omega

/-- **One edge** is taken from the shovels: it gets its new ids, goes to the
buffers of the shards of its ends, and is counted at both. -/
theorem After.step {s : State V} {done more : List (EdgeWithValue V)}
    {e : EdgeWithValue V} (h : x.After s done) (hfit : x.NumbersFit)
    (he : e ∈ x.shovels.flatten) (heq : done ++ x.renumber e :: more = x.edges) :
    ∃ s', x.step s e = some s' ∧ x.After s' (done ++ [x.renumber e]) := by
  obtain ⟨a, b, ha, hb, hmem, hmem'⟩ := exists_shards he
  have hloop := renumber_noloop he
  have heq' : (done ++ [x.renumber e]) ++ more = x.edges := by
    rw [List.append_assoc]
    exact heq
  obtain ⟨degrees, hdegrees⟩ := h.degrees.exists_countEdge hloop
    (hfit.mono heq' _).1 (hfit.mono heq' _).2
  have htouch : ∀ k, touching x.part k (done ++ [x.renumber e])
      = touching x.part k done ++ if k = a ∨ k = b then [x.renumber e] else [] := by
    intro k
    rw [← Reshard.touching_singleton hmem hmem' k]
    exact touching_append _ k _ _
  -- a shard that gets the edge has room, or its count fits
  have hroom : ∀ k, k = a ∨ k = b → x.edgesMaxInBuffer < 2 ^ 31
      ∨ (touching x.part k done).length + 1 < x.edgesMaxInBuffer := by
    intro k hk
    refine hfit.buffer.imp id fun hless => ?_
    have hkn : k < x.part.nshards := hk.elim (fun h => h ▸ hmem.1) fun h => h ▸ hmem'.1
    have hlength := hless k hkn
    rw [← heq', touching_append, htouch, if_pos hk, List.length_append, List.length_append,
      List.length_singleton] at hlength
    omega
  obtain ⟨shards, hshards⟩ := exists_putEdge fun k hk =>
    (Shard.Holds.put (h.shards k) x.edgesMaxInBuffer_pos (x.renumber e) (hroom k hk)).imp
      fun _ hs => hs.1
  refine ⟨⟨degrees, shards⟩, ?_, fun k => ?_, h.degrees.add hloop hdegrees⟩
  · rw [step_eq ha hb hmem hmem', hdegrees, Option.bind_some, hshards]
    rfl
  · have hput := putEdge_eq_some hshards k
    rw [htouch]
    by_cases hk : k = a ∨ k = b
    · rw [if_pos hk] at hput ⊢
      obtain ⟨s', hs', hholds⟩ := Shard.Holds.put (h.shards k) x.edgesMaxInBuffer_pos
        (x.renumber e) (hroom k hk)
      rw [hput, Option.some.injEq] at hs'
      subst hs'
      exact hholds
    · rw [if_neg hk] at hput ⊢
      rw [List.append_nil]
      show (shards k).Holds _ _ _
      rw [hput]
      exact h.shards k

/-- All edges. -/
theorem After.run {s : State V} {done : List (EdgeWithValue V)}
    {more : List (EdgeWithValue V)} (h : x.After s done) (hfit : x.NumbersFit)
    (hmore : ∀ e ∈ more, e ∈ x.shovels.flatten)
    (heq : done ++ more.map x.renumber = x.edges) :
    ∃ s', more.foldlM x.step s = some s' ∧ x.After s' x.edges := by
  induction more generalizing s done with
  | nil =>
    rw [List.map_nil, List.append_nil] at heq
    subst heq
    exact ⟨s, rfl, h⟩
  | cons e more ih =>
    obtain ⟨he, hmore⟩ := List.forall_mem_cons.mp hmore
    obtain ⟨s₁, hs₁, hafter⟩ := h.step hfit he heq
    obtain ⟨s', hs', hend⟩ := ih hafter hmore (by rw [List.append_assoc]; exact heq)
    refine ⟨s', ?_, hend⟩
    rw [List.foldlM_cons, hs₁]
    exact hs'

/-- **Nothing is lost if the numbers fit.** -/
theorem conserves_of_numbersFit (h : x.NumbersFit) : x.Conserves := by
  have hstart : x.After ⟨fun _ => Degree.zero, fun _ => Shard.empty⟩ [] :=
    ⟨fun k => Shard.holds_empty _ _, fun v => ⟨rfl, rfl⟩⟩
  obtain ⟨s, hs, hafter⟩ := hstart.run h (fun e he => he) (List.nil_append x.edges)
  refine ⟨⟨s.degrees, fun k => (s.shards k).finish (x.isLocal k) x.edgeSize⟩, ?_, ?_⟩
  · unfold reshovel
    rw [readShovels_eq x.edgesMaxInBuffer_pos, Option.bind_some, hs]
    rfl
  · exact ⟨fun k _ => (hafter.shards k).finish.1, fun k => (hafter.shards k).finish.2.1,
      fun k => (hafter.shards k).finish.2.2, fun v => (hafter.degrees v).1,
      fun v => (hafter.degrees v).2⟩

/-- Every shard has lost some, or has not filled its buffer. -/
theorem short_run (hmax : 2 ^ 31 ≤ x.edgesMaxInBuffer) {s s' : State V}
    {done more : List (EdgeWithValue V)}
    (h : ∀ k, (s.shards k).Short x.edgesMaxInBuffer (touching x.part k done).length)
    (hmore : ∀ e ∈ more, e ∈ x.shovels.flatten) (hrun : more.foldlM x.step s = some s') :
    ∀ k, (s'.shards k).Short x.edgesMaxInBuffer
      (touching x.part k (done ++ more.map x.renumber)).length := by
  induction more generalizing s done with
  | nil =>
    rw [List.foldlM_nil, Option.pure_def, Option.some.injEq] at hrun
    subst hrun
    rw [List.map_nil, List.append_nil]
    exact h
  | cons e more ih =>
    obtain ⟨he, hmore⟩ := List.forall_mem_cons.mp hmore
    rw [List.foldlM_cons, Option.bind_eq_bind] at hrun
    obtain ⟨s₁, hs₁, hrun⟩ := Option.bind_eq_some_iff.mp hrun
    obtain ⟨a, b, ha, hb, hmem, hmem'⟩ := exists_shards he
    rw [step_eq ha hb hmem hmem'] at hs₁
    obtain ⟨degrees, -, hs₁⟩ := Option.bind_eq_some_iff.mp hs₁
    obtain ⟨shards, hshards, rfl⟩ := Option.map_eq_some_iff.mp hs₁
    have hstep : ∀ k, (shards k).Short x.edgesMaxInBuffer
        (touching x.part k (done ++ [x.renumber e])).length := by
      intro k
      have hput := putEdge_eq_some hshards k
      rw [touching_append, Reshard.touching_singleton hmem hmem' k]
      by_cases hk : k = a ∨ k = b
      · rw [if_pos hk] at hput ⊢
        rw [List.length_append, List.length_singleton]
        exact Shard.Short.put (h k) hmax hput
      · rw [if_neg hk] at hput ⊢
        rw [List.append_nil, hput]
        exact h k
    have hend := ih (s := ⟨degrees, shards⟩) hstep hmore hrun
    rw [List.append_assoc] at hend
    exact hend

/-- **Only then.** -/
theorem numbersFit_of_conserves (h : x.Conserves) : x.NumbersFit := by
  obtain ⟨s', hrun, hlaw⟩ := h
  refine ⟨?_, fun v => ?_⟩
  · by_contra hbig
    rw [not_or, Nat.not_lt] at hbig
    refine hbig.2 fun k hk => ?_
    unfold reshovel at hrun
    rw [readShovels_eq x.edgesMaxInBuffer_pos, Option.bind_some] at hrun
    obtain ⟨s, hs, rfl⟩ := Option.map_eq_some_iff.mp hrun
    have hstart : ∀ k, ((⟨fun _ => Degree.zero, fun _ => Shard.empty⟩ : State V).shards
        k).Short x.edgesMaxInBuffer (touching x.part k []).length :=
      fun _ => Or.inl ⟨rfl, rfl, x.edgesMaxInBuffer_pos⟩
    have hshort := short_run hbig.1 hstart (fun e he => he) hs k
    exact hshort.finish (congrArg List.length (hlaw.delivered k hk))
  · rw [← hlaw.indegree, ← hlaw.outdegree]
    exact ⟨(s'.degrees v).in_lt, (s'.degrees v).out_lt⟩

end Job

/-- **When nothing is lost or repeated**: exactly when a full buffer's count
fits an `int`, or no buffer gets full, and the degrees fit. -/
theorem conserves_iff_numbersFit (x : Job V) : x.Conserves ↔ x.NumbersFit :=
  ⟨Job.numbersFit_of_conserves, Job.conserves_of_numbersFit⟩

/-- With the ids as they are, the shards are handed what the loop over
whole buffers hands them. -/
theorem delivered_eq_reshovel {x : Job V} {s : State V}
    (hlaw : ConservationLaw x s) (hplain : x.numbering = .plain) :
    ∃ shovel, Reshard.reshovel x.part x.edgesMaxInBuffer x.shovels.flatten = some shovel
      ∧ ∀ k < x.part.nshards, (s.shards k).delivered = shovel k := by
  have hedges : x.edges = x.shovels.flatten := by
    have hone : ∀ e : EdgeWithValue V, x.renumber e = e := by
      intro e
      unfold Job.renumber Job.number
      rw [hplain]
      rfl
    unfold Job.edges
    rw [List.map_congr_left fun e _ => hone e, List.map_id']
  have hmem : ∀ v ≤ x.maxVertexId, ∃ k, x.part.Mem k v := by
    intro v hv
    obtain ⟨k, -, hk⟩ := x.covered v hv
    rw [hplain] at hk
    exact ⟨k, hk⟩
  let G : Reshard.Graph x.part V := ⟨x.shovels.flatten, x.noloop, fun e he =>
    ⟨hmem _ (x.vid e he).1, hmem _ (x.vid e he).2⟩⟩
  refine ⟨_, Reshard.reshovel_spec G x.edgesMaxInBuffer, fun k hk => ?_⟩
  rw [hlaw.delivered k hk, hedges]

/-- A star with `2^31` edges from vertex 0, on one machine with one shard
and buffers of one edge. -/
def star : Job Unit where
  part := ⟨[(0, 2 ^ 31)], rfl, by decide, by decide, by decide⟩
  maxVertexId := 2 ^ 31
  numbering := .plain
  injOn := fun _ _ _ _ h => h
  covered := fun v hv =>
    have hmem : IntervalPartition.Mem ⟨[(0, 2 ^ 31)], rfl, by decide, by decide, by decide⟩
        0 v := ⟨Nat.one_pos, Nat.zero_le v, hv⟩
    ⟨0, IntervalPartition.shardOf_eq_some hmem, hmem⟩
  machines := 1
  edgeSize := 8
  edgesMaxInBuffer := 1
  edgesMaxInBuffer_pos := Nat.one_pos
  shovels := [(List.range (2 ^ 31)).map fun i => ⟨0, i + 1, ()⟩]
  vid := by
    intro e he
    rw [List.flatten_singleton] at he
    obtain ⟨i, hi, rfl⟩ := List.mem_map.mp he
    exact ⟨Nat.zero_le _, List.mem_range.mp hi⟩
  noloop := by
    intro e he
    rw [List.flatten_singleton] at he
    obtain ⟨i, -, rfl⟩ := List.mem_map.mp he
    exact (Nat.succ_ne_zero i).symm

/-- **The out-degree of the centre overflows.** -/
theorem not_conserves_star : ¬star.Conserves := by
  intro h
  have hlt := ((Job.numbersFit_of_conserves h).degrees 0).2
  have hedges : star.edges
      = (List.range (2 ^ 31)).map fun i => (⟨0, i + 1, ()⟩ : EdgeWithValue Unit) := by
    show (List.flatten [_]).map star.renumber = _
    rw [List.flatten_singleton, List.map_map]
    rfl
  rw [hedges, List.countP_eq_length.mpr, List.length_map, List.length_range] at hlt
  · exact lt_irrefl _ hlt
  · intro e he
    obtain ⟨i, -, rfl⟩ := List.mem_map.mp he
    exact decide_eq_true rfl

end Redistribution
