import Mathlib
import DpdkGraph.ShardReaders
import DpdkGraph.LaggingCursor
import DpdkGraph.VertexProgram

/-!
# The main shard is loaded

`load_vertices_XG` goes through the main adjacency file of a worker and adds
an edge object to the vertices at both ends of an edge that are in the
window and scheduled. With the edges it counts through their values: the
values of the in-edges of a worker come in one block for each source
interval, and `edgeptr`, `bid` and `brange` say where the next one is. A
second pointer, into the copy of the worker's own block, is counted through
by `edgeptr_syn`.

A row of a source that has no vertex to add to is left at the first
destination behind the window; the pointer is then put behind the row and
the blocks follow it in a loop. Otherwise they follow it edge by edge.

This is the function on bytes, with any window and any vertices scheduled;
`loadFrom_encode` turns it into a function on the rows. Where `blocksizes`
is read at its end or behind, the cursor is lost: what the program does from
there on is not determined. The edge objects are only looked at when their
values are loaded (`async_edata_loading`), and `only_adjacency` is not set.
-/

namespace MainShard

open SparseRows
open Reshard (readRow readZeros readRow_spec encode_skip toInt32)
open VertexProgram (Side)

/-- What `load_vertices_XG` is called with and finds in its shard. -/
structure Loader where
  windowSt : ℕ
  windowEn : ℕ
  /-- `scheduled`, of the vertices. -/
  scheduled : ℕ → Bool
  inedges : Bool
  outedges : Bool
  /-- `asyn == 0`. -/
  synchronous : Bool
  /-- `sizeof(ET)`. -/
  edgeSize : ℕ
  /-- The sizes of the in-blocks, in bytes; there are `P` of them. -/
  blocksizes : List ℕ

/-- The variables of the loop that say where the value of the next edge
is. -/
structure Cursor where
  /-- The place among the values of the in-edges. -/
  edgeptr : ℕ
  /-- That among those of the inner edges, an `int`. -/
  edgeptrSyn : ℤ
  /-- The block … -/
  bid : ℕ
  /-- … and where it ends. -/
  brange : ℕ
deriving DecidableEq, Repr

/-- An edge object, with the vertex that it is added to. -/
structure Record where
  /-- The number of the edge in the file. -/
  edge : ℕ
  side : Side
  vertex : ℕ
  vertexid : ℕ
  /-- `data_ptr`: an in-block and the place in it. -/
  dataPtr : ℕ × ℕ
  /-- `data_ptr_syn`: the place in `main_to_main_buf`. -/
  dataPtrSyn : Option ℤ
deriving DecidableEq, Repr

/-- What has been added, and the cursor, unless it is lost. -/
structure Loaded where
  records : List Record
  cursor : Option Cursor
deriving DecidableEq, Repr

/-- More is added in front. -/
def Loaded.prepend (records : List Record) (l : Loaded) : Loaded :=
  { l with records := records ++ l.records }

namespace Loader

variable (l : Loader)

def inWindow (v : ℕ) : Bool := decide (l.windowSt ≤ v ∧ v ≤ l.windowEn)

/-- `vertex != NULL`, for the vertex `vid`. -/
def hasVertex (vid : ℕ) : Bool := l.inWindow vid && l.scheduled vid

/-- `inbuf[bid] + (edgeptr - (brange - blocksizes[bid]))`. -/
def eptr (c : Cursor) : ℕ × ℕ :=
  (c.bid, c.edgeptr - (c.brange - l.blocksizes.getD c.bid 0))

/-- `add_outedge`. -/
def outRecord (vid target : ℕ) (c : Cursor) : List Record :=
  if l.hasVertex vid && l.outedges then
    [⟨c.edgeptr / l.edgeSize, .outedge, vid, target, l.eptr c,
      if l.synchronous then some c.edgeptrSyn else none⟩]
  else []

/-- `add_inedge`. -/
def inRecord (vid target : ℕ) (c : Cursor) : List Record :=
  if l.inWindow target && l.inedges && l.scheduled target then
    [⟨c.edgeptr / l.edgeSize, .inedge, target, vid, l.eptr c,
      if l.inWindow vid && l.synchronous then some c.edgeptrSyn else none⟩]
  else []

/-- Whether the row of `vid` is left at a destination. -/
def leaves (vid target : ℕ) : Bool :=
  decide (l.windowSt ≤ target ∧ l.windowEn < target) && !l.hasVertex vid

/-- `bid++; brange += blocksizes[bid];`. -/
def nextBlock (c : Cursor) : Option Cursor :=
  (l.blocksizes[c.bid + 1]?).map fun size =>
    { c with bid := c.bid + 1, brange := c.brange + size }

/-- The cursor behind an edge: one block further at most. -/
def advance (vid : ℕ) (c : Cursor) : Option Cursor :=
  let moved : Cursor :=
    { c with
      edgeptr := c.edgeptr + l.edgeSize
      edgeptrSyn :=
        if l.inWindow vid then toInt32 (c.edgeptrSyn + l.edgeSize)
        else c.edgeptrSyn }
  if moved.brange ≤ moved.edgeptr then l.nextBlock moved else some moved

/-- `while(edgeptr >= brange)`. There are fewer blocks ahead than `fuel`. -/
def skip : ℕ → Cursor → Option Cursor
  | 0, _ => none
  | fuel + 1, c =>
    if c.brange ≤ c.edgeptr then (l.nextBlock c).bind (skip fuel) else some c

/-- The loop over the destinations of the row of `vid`. -/
def loadRow (vid : ℕ) : Cursor → List ℕ → Loaded
  | c, [] => ⟨[], some c⟩
  | c, target :: more =>
    if l.leaves vid target then
      ⟨[], l.skip (l.blocksizes.length + 1)
        { c with edgeptr := c.edgeptr + (more.length + 1) * l.edgeSize }⟩
    else
      match l.advance vid c with
      | none => ⟨l.outRecord vid target c ++ l.inRecord vid target c, none⟩
      | some c' =>
        (loadRow vid c' more).prepend
          (l.outRecord vid target c ++ l.inRecord vid target c)

/-- The loop over the file, at vertex `vid`, for at most `fuel` items. There
is no result for bytes that end within an item. -/
def loadFrom : ℕ → ℕ → Cursor → List UInt8 → Option Loaded
  | _, _, c, [] => some ⟨[], some c⟩
  | 0, _, _, _ :: _ => none
  | fuel + 1, vid, c, ns :: ptr =>
    if ns = 0x00 then
      (readZeros ptr).bind fun nz => loadFrom fuel (vid + 1 + nz.1) c nz.2
    else
      (readRow ns ptr).bind fun row =>
        match (l.loadRow vid c row.1).cursor with
        | none => some (l.loadRow vid c row.1)
        | some c' =>
          (loadFrom fuel (vid + 1) c' row.2).map fun more =>
            more.prepend (l.loadRow vid c row.1).records

/-- The cursor before the first edge. -/
def start : Option Cursor := l.blocksizes.head?.map fun size => ⟨0, 0, 0, size⟩

/-- **`load_vertices_XG`**, for the bytes of the main adjacency file. An item
takes at least a byte, so the length bounds the rounds. -/
def loadVerticesXG (adjdata : List UInt8) : Option Loaded :=
  match l.start with
  | none => some ⟨[], none⟩
  | some c => l.loadFrom adjdata.length 0 c adjdata

/-! ## The rows -/

/-- The loop over the items of the file, at vertex `vid`. -/
def loadItems : ℕ → Cursor → List Item → Loaded
  | _, c, [] => ⟨[], some c⟩
  | vid, c, it :: its =>
    match (l.loadRow vid c it.targets).cursor with
    | none => l.loadRow vid c it.targets
    | some c' =>
      (loadItems (vid + it.span) c' its).prepend
        (l.loadRow vid c it.targets).records

/-- **The file is read row by row.** The bytes of an item are taken off
together, so that the loop over the bytes does what the loop over the items
does. The induction is on the items; a row that leaves no cursor ends both. -/
theorem loadFrom_encode {its : List Item} (hv : ∀ it ∈ its, it.Valid)
    (hshort : ∀ it ∈ its, it.targets.length < 2 ^ 31) {fuel vid : ℕ}
    {c : Cursor} (hfuel : (encode its).length ≤ fuel) :
    l.loadFrom fuel vid c (encode its) = some (l.loadItems vid c its) := by
  induction its generalizing fuel vid c with
  | nil => cases fuel <;> rfl
  | cons it its ih =>
    have hit : it.Valid := hv it List.mem_cons_self
    have hits : ∀ i ∈ its, i.Valid :=
      fun i hi => hv i (List.mem_cons_of_mem _ hi)
    have hrows : ∀ i ∈ its, i.targets.length < 2 ^ 31 :=
      fun i hi => hshort i (List.mem_cons_of_mem _ hi)
    have hpos : 0 < (encodeItem it).length :=
      List.length_pos_iff.mpr (encodeItem_ne_nil hit)
    rw [encode_cons, List.length_append] at hfuel
    obtain ⟨f, rfl⟩ : ∃ f, fuel = f + 1 := ⟨fuel - 1, by omega⟩
    rw [encode_cons]
    cases it with
    | skip more =>
      -- a pair of bytes passes over `nz` vertices more
      obtain ⟨nz, hnz, henc⟩ := encode_skip hit
      rw [henc]
      show l.loadFrom f (vid + 1 + nz.toNat) c (encode its) = _
      rw [hnz, ih hits hrows (by omega), Nat.add_assoc vid]
      rfl
    | row ts =>
      -- a row is read to its end, or up to where no cursor is left
      obtain ⟨ns, ptr, happ, hns, hrow⟩ := readRow_spec hit
        (hshort (.row ts) List.mem_cons_self) (encode its)
      rw [happ, loadFrom, if_neg hns, hrow, Option.bind_some]
      show _ = some (match (l.loadRow vid c ts).cursor with
        | none => l.loadRow vid c ts
        | some c' => (l.loadItems (vid + 1) c' its).prepend
            (l.loadRow vid c ts).records)
      cases hcursor : (l.loadRow vid c ts).cursor with
      | none => rfl
      | some c' =>
        show (l.loadFrom f (vid + 1) c' (encode its)).map _ = _
        rw [ih hits hrows (by omega)]
        rfl

end Loader

/-! ## Well-formed shards -/

/-- **A well-formed main shard**: the file is a sequence of rows, no longer
than an `int` can count, and the blocks have as many edge values as the rows
have edges. Blocks may be empty. -/
structure Shard where
  loader : Loader
  edgeSize_pos : 0 < loader.edgeSize
  /-- What the adjacency file stands for. -/
  items : List Item
  valid : ∀ it ∈ items, it.Valid
  /-- The length of a row is an `int`. -/
  short : ∀ it ∈ items, it.targets.length < 2 ^ 31
  /-- How many edge values the in-blocks have. -/
  blocks : List ℕ
  blocks_ne_nil : blocks ≠ []
  blocksizes : loader.blocksizes = blocks.map (loader.edgeSize * ·)
  /-- Together they have as many as there are edges. -/
  sum_blocks : blocks.sum = (items.flatMap Item.targets).length

namespace Shard

variable (x : Shard)

/-- `P`. -/
def P : ℕ := x.blocks.length

/-- The number of edges. -/
def edges : ℕ := (x.items.flatMap Item.targets).length

/-- The number of edges before block `k`. -/
def ends (k : ℕ) : ℕ := (x.blocks.take k).sum

/-- The block of an edge: how many blocks end before it, or at it. -/
def blockOf (e : ℕ) : ℕ :=
  (List.range x.P).countP fun k => decide (x.ends (k + 1) ≤ e)

/-- What `load_vertices_XG` makes of the shard. -/
def load : Option Loaded := x.loader.loadVerticesXG (encode x.items)

theorem P_pos : 0 < x.P := List.length_pos_iff.mpr x.blocks_ne_nil

@[simp] theorem ends_zero : x.ends 0 = 0 := rfl

theorem ends_succ {k : ℕ} (h : k < x.blocks.length) :
    x.ends (k + 1) = x.ends k + x.blocks[k] := by
  unfold ends
  rw [List.take_succ_eq_append_getElem h, List.sum_append, List.sum_singleton]

theorem ends_P : x.ends x.P = x.edges := by
  unfold ends P edges
  rw [List.take_length, x.sum_blocks]

theorem ends_mono : Monotone x.ends := by
  intro a b h
  unfold ends
  have hsplit : (x.blocks.take b).take a = x.blocks.take a := by
    rw [List.take_take, min_eq_left h]
  have hsum := congrArg List.sum (List.take_append_drop a (x.blocks.take b))
  rw [List.sum_append, hsplit] at hsum
  omega

theorem ends_le_edges (k : ℕ) : x.ends k ≤ x.edges := by
  by_cases h : k ≤ x.P
  · rw [← x.ends_P]
    exact x.ends_mono h
  · unfold ends edges
    rw [List.take_of_length_le (le_of_not_ge h), x.sum_blocks]

/-- The block of an edge, by its bounds. -/
theorem blockOf_eq {e K : ℕ} (hK : K ≤ x.P) (hbelow : x.ends K ≤ e)
    (habove : K < x.P → e < x.ends (K + 1)) : x.blockOf e = K := by
  obtain ⟨n, hn⟩ : ∃ n, x.P = K + n := ⟨x.P - K, by omega⟩
  unfold blockOf
  rw [hn, List.range_add, List.countP_append]
  have hfirst : (List.range K).countP (fun k => decide (x.ends (k + 1) ≤ e)) =
      K := by
    rw [List.countP_eq_length.mpr, List.length_range]
    intro k hk
    have hlt : k + 1 ≤ K := List.mem_range.mp hk
    exact decide_eq_true ((x.ends_mono hlt).trans hbelow)
  have hrest : ((List.range n).map (K + ·)).countP
      (fun k => decide (x.ends (k + 1) ≤ e)) = 0 := by
    rw [List.countP_eq_zero]
    intro k hk hle
    obtain ⟨j, hj, rfl⟩ := List.mem_map.mp hk
    have hj := List.mem_range.mp hj
    have hmono := x.ends_mono (show K + 1 ≤ K + j + 1 by omega)
    have := habove (by omega)
    have := of_decide_eq_true hle
    omega
  rw [hfirst, hrest, Nat.add_zero]

/-- An edge is in its block. -/
theorem blockOf_spec {e : ℕ} (he : e < x.edges) :
    x.blockOf e < x.P ∧ x.ends (x.blockOf e) ≤ e ∧
      e < x.ends (x.blockOf e + 1) := by
  have hex : ∃ k, e < x.ends (k + 1) := by
    refine ⟨x.P - 1, ?_⟩
    rw [Nat.sub_add_cancel x.P_pos, x.ends_P]
    exact he
  have hfind := Nat.find_spec hex
  have hmin : ∀ k < Nat.find hex, x.ends (k + 1) ≤ e :=
    fun k hk => not_lt.mp (Nat.find_min hex hk)
  have hlt : Nat.find hex < x.P := by
    have hle : Nat.find hex ≤ x.P - 1 := Nat.find_min' hex (by
      rw [Nat.sub_add_cancel x.P_pos, x.ends_P]
      exact he)
    have := x.P_pos
    omega
  have hbelow : x.ends (Nat.find hex) ≤ e := by
    cases hK : Nat.find hex with
    | zero => exact Nat.zero_le e
    | succ k => exact hmin k (by omega)
  rw [x.blockOf_eq hlt.le hbelow fun _ => hfind]
  exact ⟨hlt, hbelow, hfind⟩

/-! ## The cursor and the blocks -/

/-- **The cursor has passed `e` edges** and has not been lost. -/
structure Tracks (e : ℕ) (c : Cursor) : Prop where
  edgeptr : c.edgeptr = x.loader.edgeSize * e
  brange : c.brange = x.loader.edgeSize * x.ends (c.bid + 1)
  bid_lt : c.bid < x.P
  /-- The block under the cursor does not begin behind it. -/
  above : x.ends c.bid ≤ e

theorem getElem?_blocksizes (k : ℕ) :
    x.loader.blocksizes[k]? =
      (x.blocks[k]?).map (x.loader.edgeSize * ·) := by
  rw [x.blocksizes, List.getElem?_map]

/-- The next block, if there is one. -/
theorem nextBlock_eq {c : Cursor}
    (h : c.brange = x.loader.edgeSize * x.ends (c.bid + 1)) :
    x.loader.nextBlock c =
      if c.bid + 1 < x.P then
        some { c with
          bid := c.bid + 1
          brange := x.loader.edgeSize * x.ends (c.bid + 1 + 1) }
      else none := by
  unfold Loader.nextBlock
  rw [x.getElem?_blocksizes]
  split
  · next hlt =>
    rw [List.getElem?_eq_getElem hlt, x.ends_succ hlt, Nat.mul_add, h]
    rfl
  · next hge =>
    rw [List.getElem?_eq_none (not_lt.mp hge)]
    rfl

/-- **The cursor behind an edge**: it goes on when the block under it ends
there, and is lost if that was the last one. -/
theorem advance_eq (vid : ℕ) {e : ℕ} {c : Cursor} (h : x.Tracks e c) :
    x.loader.advance vid c =
      if x.ends (c.bid + 1) ≤ e + 1 ∧ c.bid + 1 = x.P then none
      else some
        { edgeptr := x.loader.edgeSize * (e + 1)
          edgeptrSyn :=
            if x.loader.inWindow vid then
              toInt32 (c.edgeptrSyn + x.loader.edgeSize)
            else c.edgeptrSyn
          bid := if x.ends (c.bid + 1) ≤ e + 1 then c.bid + 1 else c.bid
          brange := x.loader.edgeSize * x.ends
            ((if x.ends (c.bid + 1) ≤ e + 1 then c.bid + 1 else c.bid) + 1) } := by
  have hcmp : c.brange ≤ c.edgeptr + x.loader.edgeSize ↔
      x.ends (c.bid + 1) ≤ e + 1 := by
    rw [h.brange, h.edgeptr, ← Nat.mul_succ]
    exact Nat.mul_le_mul_left_iff x.edgeSize_pos
  have hptr : c.edgeptr + x.loader.edgeSize = x.loader.edgeSize * (e + 1) := by
    rw [h.edgeptr, Nat.mul_succ]
  have hbid := h.bid_lt
  unfold Loader.advance
  dsimp only
  generalize (if x.loader.inWindow vid = true then
    toInt32 (c.edgeptrSyn + x.loader.edgeSize) else c.edgeptrSyn) = syn
  by_cases hend : x.ends (c.bid + 1) ≤ e + 1
  · have hnext := x.nextBlock_eq (c := { c with
      edgeptr := c.edgeptr + x.loader.edgeSize
      edgeptrSyn := syn }) h.brange
    rw [if_pos (hcmp.mpr hend), hnext, if_pos hend]
    dsimp only
    by_cases hlast : c.bid + 1 < x.P
    · rw [if_pos hlast, if_neg fun hl => absurd hl.2 (by omega), hptr]
    · rw [if_neg hlast, if_pos ⟨hend, by omega⟩]
  · rw [if_neg fun hle => hend (hcmp.mp hle), if_neg hend,
      if_neg fun hl => hend hl.1, hptr, h.brange]

/-- The cursor that is not lost has passed one edge more. -/
theorem Tracks.next (vid : ℕ) {e : ℕ} {c c' : Cursor} (h : x.Tracks e c)
    (hadv : x.loader.advance vid c = some c') :
    x.Tracks (e + 1) c' ∧
      c'.bid = if x.ends (c.bid + 1) ≤ e + 1 then c.bid + 1 else c.bid := by
  have hbid := h.bid_lt
  rw [x.advance_eq vid h] at hadv
  split at hadv
  · exact absurd hadv (by simp)
  · next hstay =>
    rw [Option.some.injEq] at hadv
    subst hadv
    refine ⟨⟨rfl, rfl, ?_, ?_⟩, rfl⟩
    · dsimp only
      split
      · next hend =>
        have : ¬c.bid + 1 = x.P := fun hl => hstay ⟨hend, hl⟩
        omega
      · exact hbid
    · dsimp only
      split
      · next hend => exact hend
      · exact h.above.trans (Nat.le_succ e)

theorem tracks_start : ∃ c, x.loader.start = some c ∧ x.Tracks 0 c ∧
    c = ⟨0, 0, 0, x.loader.edgeSize * x.ends 1⟩ := by
  have hP := x.P_pos
  have hhead : x.loader.blocksizes.head? =
      some (x.loader.edgeSize * x.ends 1) := by
    rw [List.head?_eq_getElem?, x.getElem?_blocksizes,
      List.getElem?_eq_getElem hP, x.ends_succ hP, ends_zero, Nat.zero_add]
    rfl
  refine ⟨_, by unfold Loader.start; rw [hhead]; rfl, ⟨rfl, rfl, hP, le_rfl⟩, rfl⟩

/-- **What is loaded**, row by row. -/
theorem load_eq : x.load = some (x.loader.loadItems 0
    ⟨0, 0, 0, x.loader.edgeSize * x.ends 1⟩ x.items) := by
  obtain ⟨c, hstart, -, rfl⟩ := x.tracks_start
  unfold load Loader.loadVerticesXG
  rw [hstart]
  exact x.loader.loadFrom_encode x.valid x.short le_rfl

end Shard

end MainShard
