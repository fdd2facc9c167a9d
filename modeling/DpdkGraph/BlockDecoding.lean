import Mathlib
import DpdkGraph.ShardReaders

/-!
# A block of out-edges is decoded

`read_next_vertices_XG` goes through the adjacency file of a worker for one
other interval with three cursors: a byte of the file, the place of the next
edge value in `obuf[p]`, and a vertex of the window. A row of a scheduled
vertex is read edge by edge; one of a vertex that is not scheduled is passed
over, by code of its own. A run of vertices without edges may be longer than
what is left of the window.

The cursors keep together for every file that the grammar allows, including
rows that give a short count in 32 bits, and every choice of scheduled
vertices. What does not fit is the size of the file of edge values: it is
kept in the `int` `esize`, although the size of the adjacency file beside it
is a `size_t`. From 2 GiB on the buffer is not allocated, or too small.
-/

namespace BlockDecoding

open SparseRows
open Reshard (toInt32)

/-! ## The function -/

/-- What `read_next_vertices_XG` is called with and finds. -/
structure Request where
  /-- The first vertex of the window, `prealloc[0]`. -/
  start : ℕ
  nvecs : ℕ
  rangeSt : ℕ
  rangeEnd : ℕ
  /-- `sizeof(ET)`. -/
  edgeSize : ℕ
  /-- `scheduled`, of the vertices. -/
  scheduled : ℕ → Bool
  /-- The adjacency file, of `jsize` bytes. -/
  adj : List UInt8
  /-- The size of the file of edge values. -/
  edatafilesize : ℕ

/-- An out-edge object, with the vertex that it is added to. -/
structure Record where
  vertex : ℕ
  target : ℕ
  /-- `evalue`, from the start of `obuf[p]`. -/
  evalue : ℤ
deriving DecidableEq, Repr

namespace Request

variable (r : Request)

/-- `esize`, an `int`. -/
def esize : ℤ := toInt32 r.edatafilesize

/-- The 32-bit number at `adjoffset`; a number that ends behind the file
fails the assertion. -/
def u32At (adjoffset : ℕ) : Option ℕ := (readU32 (r.adj.drop adjoffset)).map Prod.fst

/-- `n`, after the byte `ns`, and the cursor behind it. -/
def count (ns : UInt8) (adjoffset : ℕ) : Option (ℤ × ℕ) :=
  if ns = 0xff then (r.u32At adjoffset).map fun n : ℕ => (toInt32 n, adjoffset + 4)
  else some (ns.toNat, adjoffset)

/-- `while(--n >= 0)`: the edges of a scheduled vertex, with both cursors
behind them. The size of the block is compared without a sign. -/
def outedges (vid : ℕ) : ℕ → ℕ → ℤ → Option (List Record × ℕ × ℤ)
  | 0, adjoffset, ed => some ([], adjoffset, ed)
  | n + 1, adjoffset, ed =>
    (r.u32At adjoffset).bind fun target =>
      if 0 ≤ ed + r.edgeSize ∧ ed + r.edgeSize ≤ r.esize then
        -- the last assertion is the one of `add_outedge`
        if r.rangeSt ≤ target ∧ target ≤ r.rangeEnd ∧ target ≠ vid then
          (outedges vid n (adjoffset + 4) (ed + r.edgeSize)).map fun more =>
            (⟨vid, target, ed⟩ :: more.1, more.2)
        else none
      else none

/-- The row of a vertex that is not scheduled is passed over. -/
def passOver (n : ℤ) (adjoffset : ℕ) (ed : ℤ) : Option (List Record × ℕ × ℤ) :=
  if 0 ≤ adjoffset + 4 * n ∧ adjoffset + 4 * n ≤ r.adj.length then
    some ([], (adjoffset + 4 * n).toNat, ed + n * r.edgeSize)
  else none

/-- The row of the vertex `vid`. The least `int` has no predecessor. -/
def readRow (vid : ℕ) (n : ℤ) (adjoffset : ℕ) (ed : ℤ) :
    Option (List Record × ℕ × ℤ) :=
  if r.scheduled vid then
    if n = -2 ^ 31 then none else r.outedges vid n.toNat adjoffset ed
  else r.passOver n adjoffset ed

/-- The loop over the vertices of the window. `i` and `curvid` are `int`s,
which must not overflow. -/
def readFrom : ℕ → ℕ → ℤ → ℕ → ℤ → Option (List Record)
  | 0, _, _, _, _ => none
  | rounds + 1, i, curvid, adjoffset, ed =>
    if i < r.nvecs then
      match r.adj[adjoffset]? with
      | none => some []
      | some ns =>
        if ns = 0x00 then
          r.adj[adjoffset + 1]?.bind fun nz =>
            if i + (1 + nz.toNat) < 2 ^ 31 ∧ curvid + (1 + nz.toNat : ℕ) < 2 ^ 31 then
              readFrom rounds (i + (1 + nz.toNat)) (curvid + (1 + nz.toNat : ℕ))
                (adjoffset + 2) ed
            else none
        else
          (r.count ns (adjoffset + 1)).bind fun n =>
            if ((r.start + i : ℕ) : ℤ) = curvid % 2 ^ 32 then
              (r.readRow (r.start + i) n.1 n.2 ed).bind fun row =>
                if curvid + (1 : ℕ) < 2 ^ 31 then
                  (readFrom rounds (i + 1) (curvid + (1 : ℕ)) row.2.1 row.2.2).map
                    (row.1 ++ ·)
                else none
            else none
    else some []

/-- **`read_next_vertices_XG`**: the edges that it adds. The buffer has
`esize + 1` bytes, an `int` that must not overflow; with a negative size
there is none. Each round takes a vertex of the window at least. -/
def read : Option (List Record) :=
  if 0 ≤ r.esize ∧ r.esize + 1 < 2 ^ 31 then
    r.readFrom (r.nvecs + 1) 0 (toInt32 r.start) 0 0
  else none

end Request

/-! ## What a block is -/

/-- How the grammar writes an item: the count of a row has one byte, or
`0xff` and 32 bits. -/
inductive Codes : Item → List UInt8 → Prop
  | skip (nz : UInt8) : Codes (.skip nz.toNat) [0x00, nz]
  | short (ns : UInt8) (targets : List ℕ) (hpos : ns ≠ 0x00) (hlt : ns ≠ 0xff)
      (hcount : targets.length = ns.toNat) (hids : ∀ t ∈ targets, t < 2 ^ 32) :
      Codes (.row targets) (ns :: targets.flatMap u32le)
  | long (targets : List ℕ) (hcount : targets.length < 2 ^ 32)
      (hids : ∀ t ∈ targets, t < 2 ^ 32) :
      Codes (.row targets) (0xff :: u32le targets.length ++ targets.flatMap u32le)

/-- **An adjacency file that conforms to the grammar** for the vertices of
a window, with the interval of its destinations, and a file of edge values
of the same number of edges. -/
structure Block where
  start : ℕ
  nvecs : ℕ
  rangeSt : ℕ
  rangeEnd : ℕ
  edgeSize : ℕ
  /-- The items, with their bytes. -/
  pieces : List (Item × List UInt8)
  nvecs_lt : nvecs < 2 ^ 31
  start_add_nvecs_le : start + nvecs ≤ 2 ^ 32
  edgeSize_pos : 0 < edgeSize
  codes : ∀ x ∈ pieces, Codes x.1 x.2
  /-- The rows are those of vertices of the window. -/
  sources : ∀ q ∈ expand start (pieces.map Prod.fst), q.1 < start + nvecs
  targets : ∀ q ∈ expand start (pieces.map Prod.fst),
    rangeSt ≤ q.2 ∧ q.2 ≤ rangeEnd
  /-- The block leads to another interval. -/
  ne : ∀ q ∈ expand start (pieces.map Prod.fst), q.2 ≠ q.1

namespace Block

variable (b : Block)

/-- The edges of the block. -/
def edges : List (ℕ × ℕ) := expand b.start (b.pieces.map Prod.fst)

/-- The size of the file of edge values. -/
def edatafilesize : ℕ := b.edges.length * b.edgeSize

/-- The call for the block. -/
def request (scheduled : ℕ → Bool) : Request where
  start := b.start
  nvecs := b.nvecs
  rangeSt := b.rangeSt
  rangeEnd := b.rangeEnd
  edgeSize := b.edgeSize
  scheduled := scheduled
  adj := b.pieces.flatMap Prod.snd
  edatafilesize := b.edatafilesize

end Block

/-- The edges of a list, the first of which is number `j` of the block, each
with its own slot. -/
def slots (edgeSize j : ℕ) (l : List (ℕ × ℕ)) : List Record :=
  (l.zipIdx j).map fun q => ⟨q.1.1, q.1.2, (q.2 * edgeSize : ℕ)⟩

/-- The vertex, counted from the start of the window, with which the loop
ends: it does not take an item behind the window. -/
def reach (nvecs : ℕ) : ℕ → List Item → ℕ
  | i, [] => i
  | i, it :: its => if i < nvecs then reach nvecs (i + it.span) its else i

namespace Block

variable (b : Block)

/-- What is added to the scheduled vertices. -/
def records (scheduled : ℕ → Bool) : List Record :=
  (slots b.edgeSize 0 b.edges).filter fun x => scheduled x.vertex

/-- **The block is decoded**, whichever vertices are scheduled: the call
comes to its end, with each scheduled vertex having exactly its edges, each
with its own slot. -/
def Decodes : Prop :=
  ∀ scheduled : ℕ → Bool, (b.request scheduled).read = some (b.records scheduled)

/-- The vertex with which the loop ends. -/
def last : ℕ := reach b.nvecs 0 (b.pieces.map Prod.fst)

/-- **The sizes and the numbers of vertices fit an `int`.** -/
def Fits : Prop :=
  b.edatafilesize + 1 < 2 ^ 31 ∧ b.last < 2 ^ 31 ∧ toInt32 b.start + b.last < 2 ^ 31

end Block

/-! ## Reading a row -/

@[simp] theorem length_u32le (n : ℕ) : (u32le n).length = 4 := rfl

@[simp] theorem length_flatMap_u32le (targets : List ℕ) :
    (targets.flatMap u32le).length = 4 * targets.length := by
  induction targets with
  | nil => rfl
  | cons target more ih =>
    rw [List.flatMap_cons, List.length_append, ih, List.length_cons, length_u32le]
    ring

@[simp] theorem length_slots (edgeSize j : ℕ) (l : List (ℕ × ℕ)) :
    (slots edgeSize j l).length = l.length := by
  simp [slots]

theorem slots_append (edgeSize j : ℕ) (l l' : List (ℕ × ℕ)) :
    slots edgeSize j (l ++ l')
      = slots edgeSize j l ++ slots edgeSize (j + l.length) l' := by
  rw [slots, List.zipIdx_append, List.map_append]
  rfl

/-- The slots of a row are all of its vertex. -/
theorem vertex_of_mem_slots {edgeSize j vid : ℕ} {targets : List ℕ} {x : Record}
    (hx : x ∈ slots edgeSize j (targets.map fun t => (vid, t))) : x.vertex = vid := by
  obtain ⟨q, hq, rfl⟩ := List.mem_map.mp hx
  obtain ⟨t, -, ht⟩ := List.mem_map.mp (List.fst_mem_of_mem_zipIdx hq)
  rw [← ht]

/-- The row of a vertex is kept or left out as a whole. -/
theorem filter_slots (edgeSize j vid : ℕ) (targets : List ℕ) (scheduled : ℕ → Bool) :
    (slots edgeSize j (targets.map fun t => (vid, t))).filter
        (fun x => scheduled x.vertex)
      = if scheduled vid then slots edgeSize j (targets.map fun t => (vid, t))
        else [] := by
  split
  · next h =>
    refine List.filter_eq_self.mpr fun x hx => ?_
    rw [vertex_of_mem_slots hx, h]
  · next h =>
    refine List.filter_eq_nil_iff.mpr fun x hx => ?_
    rw [vertex_of_mem_slots hx]
    exact h

namespace Request

variable {r : Request}

theorem u32At_eq {n : ℕ} (hn : n < 2 ^ 32) {before after : List UInt8}
    (hadj : r.adj = before ++ (u32le n ++ after)) :
    r.u32At before.length = some n := by
  unfold u32At
  rw [hadj, List.drop_left, readU32_u32le hn]
  rfl

/-- **The row of a scheduled vertex**: its edges with their slots, and both
cursors behind the row. -/
theorem outedges_eq {vid : ℕ} {targets : List ℕ} {before after : List UInt8} {j : ℕ}
    (hadj : r.adj = before ++ (targets.flatMap u32le ++ after))
    (hids : ∀ t ∈ targets, t < 2 ^ 32)
    (hrange : ∀ t ∈ targets, r.rangeSt ≤ t ∧ t ≤ r.rangeEnd ∧ t ≠ vid)
    (hsize : ((j + targets.length) * r.edgeSize : ℕ) ≤ r.esize) :
    r.outedges vid targets.length before.length (j * r.edgeSize : ℕ)
      = some (slots r.edgeSize j (targets.map fun t => (vid, t)),
          before.length + 4 * targets.length,
          (((j + targets.length) * r.edgeSize : ℕ) : ℤ)) := by
  induction targets generalizing before j with
  | nil => rfl
  | cons target more ih =>
    rw [List.flatMap_cons, List.append_assoc] at hadj
    have hmore : r.adj = (before ++ u32le target) ++ (more.flatMap u32le ++ after) := by
      rw [hadj, List.append_assoc]
    have hnext : ((j * r.edgeSize : ℕ) : ℤ) + r.edgeSize = ((j + 1) * r.edgeSize : ℕ) := by
      push_cast
      ring
    have hcount : j + (more.length + 1) = j + 1 + more.length := by ring
    rw [List.length_cons, hcount] at hsize
    have ih' := @ih (before ++ u32le target) (j + 1) hmore
      (fun t ht => hids t (List.mem_cons_of_mem _ ht))
      (fun t ht => hrange t (List.mem_cons_of_mem _ ht)) hsize
    rw [List.length_append, length_u32le] at ih'
    have hslot : ((j + 1) * r.edgeSize : ℕ) ≤ r.esize := by
      refine le_trans ?_ hsize
      exact_mod_cast Nat.mul_le_mul_right _ (Nat.le_add_right _ _)
    rw [List.length_cons, outedges, u32At_eq (hids target List.mem_cons_self) hadj,
      Option.bind_some, hnext, if_pos ⟨Int.natCast_nonneg _, hslot⟩,
      if_pos (hrange target List.mem_cons_self), ih', hcount]
    refine congrArg some (Prod.ext rfl (Prod.ext ?_ rfl))
    show before.length + 4 + 4 * more.length = before.length + 4 * (more.length + 1)
    ring

/-- **The row of a vertex that is not scheduled**: both cursors come behind
the row as well. -/
theorem passOver_eq {targets : List ℕ} {before after : List UInt8} {j : ℕ}
    (hadj : r.adj = before ++ (targets.flatMap u32le ++ after)) :
    r.passOver targets.length before.length (j * r.edgeSize : ℕ)
      = some ([], before.length + 4 * targets.length,
          (((j + targets.length) * r.edgeSize : ℕ) : ℤ)) := by
  have hlen : before.length + 4 * targets.length ≤ r.adj.length := by
    rw [hadj, List.length_append, List.length_append, length_flatMap_u32le]
    omega
  rw [passOver, if_pos ⟨by positivity, by exact_mod_cast hlen⟩]
  refine congrArg some (Prod.ext rfl (Prod.ext ?_ ?_))
  · show ((before.length : ℤ) + 4 * (targets.length : ℤ)).toNat
      = before.length + 4 * targets.length
    omega
  · show ((j * r.edgeSize : ℕ) : ℤ) + (targets.length : ℤ) * r.edgeSize = _
    push_cast
    ring

/-- **Both ways through a row agree** on where they leave the cursors. -/
theorem readRow_eq {vid : ℕ} {targets : List ℕ} {before after : List UInt8} {j : ℕ}
    (hadj : r.adj = before ++ (targets.flatMap u32le ++ after))
    (hids : ∀ t ∈ targets, t < 2 ^ 32)
    (hrange : ∀ t ∈ targets, r.rangeSt ≤ t ∧ t ≤ r.rangeEnd ∧ t ≠ vid)
    (hsize : ((j + targets.length) * r.edgeSize : ℕ) ≤ r.esize) :
    r.readRow vid targets.length before.length (j * r.edgeSize : ℕ)
      = some ((slots r.edgeSize j (targets.map fun t => (vid, t))).filter
            (fun x => r.scheduled x.vertex),
          before.length + 4 * targets.length,
          (((j + targets.length) * r.edgeSize : ℕ) : ℤ)) := by
  rw [filter_slots, readRow]
  split
  · rw [if_neg (by omega), Int.toNat_natCast]
    exact outedges_eq hadj hids hrange hsize
  · exact passOver_eq hadj

/-- **The count of a row**, in either form: one byte, or `0xff` and the four
bytes of an `int`. As the row has fewer than `2 ^ 31` targets the `int` is their
number. -/
theorem count_eq {targets : List ℕ} {bytes : List UInt8}
    (hcodes : Codes (.row targets) bytes) (hshort : targets.length < 2 ^ 31)
    {before after : List UInt8} (hadj : r.adj = before ++ (bytes ++ after)) :
    ∃ ns more, bytes = (ns :: more) ++ targets.flatMap u32le ∧ ns ≠ 0x00
      ∧ r.count ns (before.length + 1)
        = some ((targets.length : ℤ), (before ++ ns :: more).length) := by
  cases hcodes with
  | short ns _ hpos hlt hcount _ =>
    refine ⟨ns, [], rfl, hpos, ?_⟩
    rw [count, if_neg hlt, hcount, List.length_append]
    rfl
  | long _ hcount _ =>
    refine ⟨0xff, u32le targets.length, rfl, by decide, ?_⟩
    have hbehind : r.adj = (before ++ [0xff])
        ++ (u32le targets.length ++ (targets.flatMap u32le ++ after)) := by
      rw [hadj]
      simp
    have hread := u32At_eq hcount hbehind
    have hint : toInt32 (targets.length : ℤ) = targets.length :=
      Reshard.toInt32_natCast (by omega)
    rw [List.length_append, List.length_singleton] at hread
    rw [count, if_pos rfl, hread, Option.map_some, hint, List.length_append]
    rfl

/-! ## The loop -/

/-- At the end of the file the loop is left. -/
theorem readFrom_length {rounds i : ℕ} {curvid ed : ℤ} :
    r.readFrom (rounds + 1) i curvid r.adj.length ed = some [] := by
  rw [readFrom, List.getElem?_eq_none le_rfl]
  exact ite_self _

/-- A run of vertices without edges. -/
theorem readFrom_skip {rounds i : ℕ} {curvid ed : ℤ} {nz : UInt8}
    {before after : List UInt8} (hadj : r.adj = before ++ ([0x00, nz] ++ after))
    (hi : i < r.nvecs) :
    r.readFrom (rounds + 1) i curvid before.length ed
      = if i + (1 + nz.toNat) < 2 ^ 31 ∧ curvid + (1 + nz.toNat : ℕ) < 2 ^ 31 then
          r.readFrom rounds (i + (1 + nz.toNat)) (curvid + (1 + nz.toNat : ℕ))
            (before ++ [0x00, nz]).length ed
        else none := by
  have hfirst : r.adj[before.length]? = some 0x00 := by
    rw [hadj, List.getElem?_append_right le_rfl, Nat.sub_self]
    rfl
  have hsecond : r.adj[before.length + 1]? = some nz := by
    rw [hadj, List.getElem?_append_right (Nat.le_add_right _ 1), Nat.add_sub_cancel_left]
    rfl
  rw [readFrom, if_pos hi, hfirst]
  simp only [if_true, hsecond, Option.bind_some, List.length_append]
  rfl

/-- A row of a vertex of the window. -/
theorem readFrom_row {rounds i j : ℕ} {curvid : ℤ} {targets : List ℕ}
    {bytes before after : List UInt8} (hcodes : Codes (.row targets) bytes)
    (hshort : targets.length < 2 ^ 31) (hadj : r.adj = before ++ (bytes ++ after))
    (hi : i < r.nvecs) (hvid : ((r.start + i : ℕ) : ℤ) = curvid % 2 ^ 32)
    (hrange : ∀ t ∈ targets, r.rangeSt ≤ t ∧ t ≤ r.rangeEnd ∧ t ≠ r.start + i)
    (hsize : ((j + targets.length) * r.edgeSize : ℕ) ≤ r.esize) :
    r.readFrom (rounds + 1) i curvid before.length (j * r.edgeSize : ℕ)
      = if curvid + (1 : ℕ) < 2 ^ 31 then
          (r.readFrom rounds (i + 1) (curvid + (1 : ℕ)) (before ++ bytes).length
              ((j + targets.length) * r.edgeSize : ℕ)).map
            ((slots r.edgeSize j (targets.map fun t => (r.start + i, t))).filter
              (fun x => r.scheduled x.vertex) ++ ·)
        else none := by
  have hids : ∀ t ∈ targets, t < 2 ^ 32 := by
    cases hcodes with
    | short _ _ _ _ _ hids => exact hids
    | long _ _ hids => exact hids
  obtain ⟨ns, more, rfl, hns, hcount⟩ := count_eq hcodes hshort hadj
  have hfirst : r.adj[before.length]? = some ns := by
    rw [hadj, List.getElem?_append_right le_rfl, Nat.sub_self]
    rfl
  have hbehind : r.adj = (before ++ ns :: more) ++ (targets.flatMap u32le ++ after) := by
    rw [hadj]
    simp
  have hrow := readRow_eq hbehind hids hrange hsize
  have hlen : (before ++ ns :: more).length + 4 * targets.length
      = (before ++ ((ns :: more) ++ targets.flatMap u32le)).length := by
    rw [← List.append_assoc, @List.length_append _ (before ++ ns :: more),
      length_flatMap_u32le]
  rw [hlen] at hrow
  rw [readFrom, if_pos hi, hfirst]
  simp only [if_neg hns, hcount, Option.bind_some, if_pos hvid, hrow]

end Request

theorem le_reach (nvecs i : ℕ) (its : List Item) : i ≤ reach nvecs i its := by
  induction its generalizing i with
  | nil => exact le_rfl
  | cons it its ih =>
    rw [reach]
    split
    · exact (Nat.le_add_right _ _).trans (ih _)
    · exact le_rfl

namespace Request

variable {r : Request}

/-- **The loop from vertex `i` on**, with the cursors at the items that are
left and at slot `j`. The induction is on those items; both cursors of the
files and the vertex go on together at each. -/
theorem readFrom_eq {pieces : List (Item × List UInt8)} {before : List UInt8}
    {rounds i j : ℕ} {curvid : ℤ} (hnvecs : r.start + r.nvecs ≤ 2 ^ 32)
    (hint : r.nvecs < 2 ^ 31) (hadj : r.adj = before ++ pieces.flatMap Prod.snd)
    (hcodes : ∀ x ∈ pieces, Codes x.1 x.2)
    (hshort : ∀ x ∈ pieces, x.1.targets.length < 2 ^ 31)
    (hedges : ∀ q ∈ expand (r.start + i) (pieces.map Prod.fst),
      q.1 < r.start + r.nvecs ∧ r.rangeSt ≤ q.2 ∧ q.2 ≤ r.rangeEnd ∧ q.2 ≠ q.1)
    (hsize : ((j + (expand (r.start + i) (pieces.map Prod.fst)).length)
      * r.edgeSize : ℕ) ≤ r.esize)
    (hrounds : r.nvecs - i < rounds) (hi : i < 2 ^ 31) (hcur : curvid < 2 ^ 31)
    (hcurvid : (curvid - (r.start + i : ℕ)) % 2 ^ 32 = 0) :
    r.readFrom rounds i curvid before.length (j * r.edgeSize : ℕ)
      = if reach r.nvecs i (pieces.map Prod.fst) < 2 ^ 31
            ∧ curvid + reach r.nvecs i (pieces.map Prod.fst) - i < 2 ^ 31 then
          some ((slots r.edgeSize j (expand (r.start + i) (pieces.map Prod.fst))).filter
            fun x => r.scheduled x.vertex)
        else none := by
  induction pieces generalizing before rounds i j curvid with
  | nil =>
    obtain ⟨k, rfl⟩ : ∃ k, rounds = k + 1 := ⟨rounds - 1, by omega⟩
    rw [List.flatMap_nil, List.append_nil] at hadj
    have hcond : reach r.nvecs i [] < 2 ^ 31
        ∧ curvid + reach r.nvecs i [] - i < 2 ^ 31 := by
      simpa [reach] using And.intro hi hcur
    rw [List.map_nil, if_pos hcond, ← hadj]
    exact readFrom_length
  | cons x more ih =>
    obtain ⟨it, bytes⟩ := x
    obtain ⟨k, rfl⟩ : ∃ k, rounds = k + 1 := ⟨rounds - 1, by omega⟩
    rw [List.flatMap_cons] at hadj
    have hbehind : r.adj = (before ++ bytes) ++ more.flatMap Prod.snd := by
      rw [hadj, List.append_assoc]
    have hlen := Reshard.length_expand_cons (r.start + i) it (more.map Prod.fst)
    have hsub : ∀ q ∈ expand (r.start + (i + it.span)) (more.map Prod.fst),
        q ∈ expand (r.start + i) (it :: more.map Prod.fst) := by
      intro q hq
      rw [← Nat.add_assoc] at hq
      exact List.mem_append_right _ hq
    rw [List.map_cons] at hedges hsize ⊢
    by_cases hin : i < r.nvecs
    · -- the item is read, and the rest from behind it on
      have hspan : 1 ≤ it.span := by cases it <;> simp [Item.span]
      have hreach : reach r.nvecs i (it :: more.map Prod.fst)
          = reach r.nvecs (i + it.span) (more.map Prod.fst) := if_pos hin
      have hle := le_reach r.nvecs (i + it.span) (more.map Prod.fst)
      rw [hlen, Nat.add_assoc r.start, ← Nat.add_assoc j] at hsize
      have hrest := fun hi' hcur' => @ih (before ++ bytes) k (i + it.span)
        (j + it.targets.length) (curvid + it.span) hbehind
        (fun x hx => hcodes x (List.mem_cons_of_mem _ hx))
        (fun x hx => hshort x (List.mem_cons_of_mem _ hx))
        (fun q hq => hedges q (hsub q hq)) hsize (by omega) hi' hcur'
        (by push_cast at hcurvid ⊢; omega)
      have hcond : curvid + it.span + reach r.nvecs (i + it.span) (more.map Prod.fst)
            - (i + it.span : ℕ)
          = curvid + reach r.nvecs (i + it.span) (more.map Prod.fst) - i := by
        push_cast
        ring
      have hexpand : slots r.edgeSize j (expand (r.start + i) (it :: more.map Prod.fst))
          = slots r.edgeSize j (it.targets.map fun t => (r.start + i, t))
            ++ slots r.edgeSize (j + it.targets.length)
              (expand (r.start + (i + it.span)) (more.map Prod.fst)) := by
        rw [expand, slots_append, List.length_map, Nat.add_assoc]
      have hover : ¬(i + it.span < 2 ^ 31 ∧ curvid + it.span < 2 ^ 31) →
          ¬(reach r.nvecs (i + it.span) (more.map Prod.fst) < 2 ^ 31
            ∧ curvid + reach r.nvecs (i + it.span) (more.map Prod.fst) - i < 2 ^ 31) := by
        omega
      rw [hreach, hexpand, List.filter_append]
      rw [hcond] at hrest
      have hit := hcodes (it, bytes) List.mem_cons_self
      cases it with
      | skip nz =>
        cases hit with
        | skip nz =>
          rw [readFrom_skip hadj hin]
          split
          · next h => exact hrest h.1 h.2
          · next h => exact (if_neg (hover h)).symm
      | row targets =>
        have hvid : ((r.start + i : ℕ) : ℤ) = curvid % 2 ^ 32 := by
          push_cast at hcurvid ⊢
          omega
        have hrow : ∀ t ∈ targets, r.rangeSt ≤ t ∧ t ≤ r.rangeEnd ∧ t ≠ r.start + i :=
          fun t ht => (hedges (r.start + i, t)
            (List.mem_append_left _ (List.mem_map_of_mem ht))).2
        have hslot : ((j + targets.length) * r.edgeSize : ℕ) ≤ r.esize := by
          refine le_trans ?_ hsize
          exact_mod_cast Nat.mul_le_mul_right _ (Nat.le_add_right _ _)
        rw [readFrom_row hit (hshort _ List.mem_cons_self) hadj hin hvid hrow hslot]
        split
        · next h =>
          refine (congrArg (Option.map _) (hrest (lt_of_le_of_lt hin hint) h)).trans ?_
          split <;> rfl
        · next h => exact (if_neg (hover fun hfit => h hfit.2)).symm
    · -- behind the window no edges are left
      have hnil : expand (r.start + i) (it :: more.map Prod.fst) = [] := by
        refine List.eq_nil_iff_forall_not_mem.mpr fun q hq => ?_
        have h1 := (mem_expand_bounds hq).1
        have h2 := (hedges q hq).1
        omega
      have hreach : reach r.nvecs i (it :: more.map Prod.fst) = i := if_neg hin
      rw [readFrom, if_neg hin, hreach, hnil, if_pos ⟨hi, by simpa using hcur⟩]
      rfl

/-- The slot of an edge that is added ends within `esize`. -/
theorem evalue_le_of_outedges {vid n adjoffset : ℕ} {ed : ℤ}
    {row : List Record × ℕ × ℤ} (h : r.outedges vid n adjoffset ed = some row) :
    ∀ x ∈ row.1, x.evalue + r.edgeSize ≤ r.esize := by
  induction n generalizing adjoffset ed row with
  | zero =>
    obtain rfl := Option.some.inj h
    exact fun x hx => absurd hx List.not_mem_nil
  | succ n ih =>
    obtain ⟨target, -, h⟩ := Option.bind_eq_some_iff.mp h
    split at h
    · next hsize =>
      split at h
      · obtain ⟨more, hmore, rfl⟩ := Option.map_eq_some_iff.mp h
        intro x hx
        rcases List.mem_cons.mp hx with rfl | hx
        · exact hsize.2
        · exact ih hmore x hx
      · exact absurd h (by simp)
    · exact absurd h (by simp)

theorem evalue_le_of_readRow {vid adjoffset : ℕ} {n ed : ℤ}
    {row : List Record × ℕ × ℤ} (h : r.readRow vid n adjoffset ed = some row) :
    ∀ x ∈ row.1, x.evalue + r.edgeSize ≤ r.esize := by
  unfold readRow passOver at h
  split at h
  · split at h
    · exact absurd h (by simp)
    · exact evalue_le_of_outedges h
  · split at h
    · obtain rfl := Option.some.inj h
      exact fun x hx => absurd hx List.not_mem_nil
    · exact absurd h (by simp)

/-- **No call gives an edge a slot behind `esize`**, whatever the file
has. -/
theorem evalue_le_of_readFrom {rounds i adjoffset : ℕ} {curvid ed : ℤ}
    {l : List Record} (h : r.readFrom rounds i curvid adjoffset ed = some l) :
    ∀ x ∈ l, x.evalue + r.edgeSize ≤ r.esize := by
  induction rounds generalizing i adjoffset curvid ed l with
  | zero => exact absurd h (by simp [readFrom])
  | succ rounds ih =>
    rw [readFrom] at h
    have hnone : ∀ {l : List Record}, some [] = some l →
        ∀ x ∈ l, x.evalue + r.edgeSize ≤ r.esize := by
      rintro l ⟨⟩
      exact fun x hx => absurd hx List.not_mem_nil
    split at h
    · split at h
      · exact hnone h
      · split at h
        · obtain ⟨nz, -, h⟩ := Option.bind_eq_some_iff.mp h
          split at h
          · exact ih h
          · exact absurd h (by simp)
        · obtain ⟨n, -, h⟩ := Option.bind_eq_some_iff.mp h
          split at h
          · obtain ⟨row, hrow, h⟩ := Option.bind_eq_some_iff.mp h
            split at h
            · obtain ⟨more, hmore, rfl⟩ := Option.map_eq_some_iff.mp h
              intro x hx
              rcases List.mem_append.mp hx with hx | hx
              · exact evalue_le_of_readRow hrow x hx
              · exact ih hmore x hx
            · exact absurd h (by simp)
          · exact absurd h (by simp)
    · exact hnone h

/-- A row that is read edge by edge has its slots within `esize`. -/
theorem le_esize_of_outedges {vid j adjoffset : ℕ} {n : ℕ} {row : List Record × ℕ × ℤ}
    (h : r.outedges vid n adjoffset (j * r.edgeSize : ℕ) = some row)
    (hj : (j * r.edgeSize : ℕ) ≤ r.esize) : ((j + n) * r.edgeSize : ℕ) ≤ r.esize := by
  induction n generalizing j adjoffset row with
  | zero => exact hj
  | succ n ih =>
    obtain ⟨target, -, h⟩ := Option.bind_eq_some_iff.mp h
    split at h
    · next hsize =>
      split at h
      · obtain ⟨more, hmore, -⟩ := Option.map_eq_some_iff.mp h
        have hnext : ((j * r.edgeSize : ℕ) : ℤ) + r.edgeSize = ((j + 1) * r.edgeSize : ℕ) := by
          push_cast
          ring
        rw [hnext] at hmore hsize
        have hrest := ih hmore hsize.2
        rwa [Nat.add_right_comm] at hrest
      · exact absurd h (by simp)
    · exact absurd h (by simp)

/-- Where the loop goes on behind a row, the row has been read. -/
theorem exists_readRow {rounds i : ℕ} {curvid ed : ℤ} {targets : List ℕ}
    {bytes before after : List UInt8} {l : List Record}
    (hcodes : Codes (.row targets) bytes) (hshort : targets.length < 2 ^ 31)
    (hadj : r.adj = before ++ (bytes ++ after)) (hi : i < r.nvecs)
    (h : r.readFrom (rounds + 1) i curvid before.length ed = some l) :
    ((r.start + i : ℕ) : ℤ) = curvid % 2 ^ 32
      ∧ ∃ adjoffset row, r.readRow (r.start + i) targets.length adjoffset ed = some row := by
  obtain ⟨ns, more, rfl, hns, hcount⟩ := count_eq hcodes hshort hadj
  have hfirst : r.adj[before.length]? = some ns := by
    rw [hadj, List.getElem?_append_right le_rfl, Nat.sub_self]
    rfl
  rw [readFrom, if_pos hi, hfirst] at h
  simp only [if_neg hns, hcount, Option.bind_some] at h
  split at h
  · next hvid =>
    obtain ⟨row, hrow, -⟩ := Option.bind_eq_some_iff.mp h
    exact ⟨hvid, _, row, hrow⟩
  · cases h

/-- **Where the loop comes to its end with all vertices scheduled**, the
slots of all edges are within `esize`. The induction is on the items that
are left, as before; a row that could be read gives the bound that lets the
next item be looked at. -/
theorem le_esize_of_readFrom {pieces : List (Item × List UInt8)} {before : List UInt8}
    {rounds i j : ℕ} {curvid : ℤ} {l : List Record}
    (hadj : r.adj = before ++ pieces.flatMap Prod.snd)
    (hcodes : ∀ x ∈ pieces, Codes x.1 x.2)
    (hshort : ∀ x ∈ pieces, x.1.targets.length < 2 ^ 31)
    (hedges : ∀ q ∈ expand (r.start + i) (pieces.map Prod.fst),
      q.1 < r.start + r.nvecs ∧ r.rangeSt ≤ q.2 ∧ q.2 ≤ r.rangeEnd ∧ q.2 ≠ q.1)
    (hall : ∀ v, r.scheduled v = true) (hj : (j * r.edgeSize : ℕ) ≤ r.esize)
    (h : r.readFrom rounds i curvid before.length (j * r.edgeSize : ℕ) = some l) :
    ((j + (expand (r.start + i) (pieces.map Prod.fst)).length) * r.edgeSize : ℕ)
      ≤ r.esize := by
  induction pieces generalizing before rounds i j curvid l with
  | nil => exact hj
  | cons x more ih =>
    obtain ⟨it, bytes⟩ := x
    obtain ⟨k, rfl⟩ : ∃ k, rounds = k + 1 := by
      cases rounds with
      | zero => cases h
      | succ k => exact ⟨k, rfl⟩
    rw [List.flatMap_cons] at hadj
    have hbehind : r.adj = (before ++ bytes) ++ more.flatMap Prod.snd := by
      rw [hadj, List.append_assoc]
    have hlen := Reshard.length_expand_cons (r.start + i) it (more.map Prod.fst)
    rw [List.map_cons] at hedges ⊢
    by_cases hin : i < r.nvecs
    · have hsub : ∀ q ∈ expand (r.start + (i + it.span)) (more.map Prod.fst),
          q ∈ expand (r.start + i) (it :: more.map Prod.fst) := by
        intro q hq
        rw [← Nat.add_assoc] at hq
        exact List.mem_append_right _ hq
      have hrest := fun l' => @ih (before ++ bytes) k (i + it.span) (j + it.targets.length)
        (curvid + it.span) l' hbehind (fun x hx => hcodes x (List.mem_cons_of_mem _ hx))
        (fun x hx => hshort x (List.mem_cons_of_mem _ hx)) (fun q hq => hedges q (hsub q hq))
      rw [hlen, Nat.add_assoc r.start, ← Nat.add_assoc j]
      have hit := hcodes (it, bytes) List.mem_cons_self
      cases it with
      | skip nz =>
        cases hit with
        | skip nz =>
          rw [readFrom_skip hadj hin] at h
          split at h
          · exact hrest _ hj h
          · cases h
      | row targets =>
        obtain ⟨hvid, adjoffset, row, hrow⟩ :=
          exists_readRow hit (hshort _ List.mem_cons_self) hadj hin h
        have hslots : ((j + targets.length) * r.edgeSize : ℕ) ≤ r.esize := by
          rw [readRow, hall] at hrow
          simp only [if_true, Int.toNat_natCast] at hrow
          split at hrow
          · cases hrow
          · exact le_esize_of_outedges hrow hj
        have hranges : ∀ t ∈ targets, r.rangeSt ≤ t ∧ t ≤ r.rangeEnd ∧ t ≠ r.start + i :=
          fun t ht => (hedges (r.start + i, t)
            (List.mem_append_left _ (List.mem_map_of_mem ht))).2
        rw [readFrom_row hit (hshort _ List.mem_cons_self) hadj hin hvid hranges hslots] at h
        split at h
        · obtain ⟨l', hl', -⟩ := Option.map_eq_some_iff.mp h
          exact hrest _ hslots hl'
        · cases h
    · -- behind the window no edges are left
      have hnil : expand (r.start + i) (it :: more.map Prod.fst) = [] := by
        refine List.eq_nil_iff_forall_not_mem.mpr fun q hq => ?_
        have h1 := (mem_expand_bounds hq).1
        have h2 := (hedges q hq).1
        omega
      rw [hnil]
      exact hj

end Request

/-! ## When a block is decoded -/

namespace Block

variable {b : Block}

/-- The last edge has the last slot of the block. -/
theorem exists_last_record (h : b.edges ≠ []) :
    ∃ x ∈ b.records (fun _ => true), x.evalue + b.edgeSize = b.edatafilesize := by
  obtain ⟨l, q, hl⟩ := List.eq_nil_or_concat b.edges |>.resolve_left h
  refine ⟨⟨q.1, q.2, (l.length * b.edgeSize : ℕ)⟩, ?_, ?_⟩
  · rw [records, List.filter_true, hl, List.concat_eq_append, slots_append, Nat.zero_add]
    exact List.mem_append_right _ List.mem_cons_self
  · show ((l.length * b.edgeSize : ℕ) : ℤ) + b.edgeSize = _
    rw [edatafilesize, hl, List.length_concat]
    push_cast
    ring

/-- **A block that is decoded is smaller than 2 GiB**: the slot of the last
edge ends within `esize`. -/
theorem edatafilesize_lt (h : b.Decodes) : b.edatafilesize + 1 < 2 ^ 31 := by
  by_cases hnil : b.edges = []
  · rw [edatafilesize, hnil]
    norm_num
  · have hread := h fun _ => true
    unfold Request.read at hread
    split at hread
    · next hsize =>
      obtain ⟨x, hx, hlast⟩ := exists_last_record hnil
      have hle : x.evalue + b.edgeSize ≤ (b.request fun _ => true).esize :=
        Request.evalue_le_of_readFrom hread x hx
      omega
    · exact absurd hread (by simp)

/-- The call, for a block whose values fit: it comes to its end if neither
`i` nor `curvid` overflows. -/
theorem read_eq (hsize : b.edatafilesize + 1 < 2 ^ 31) (scheduled : ℕ → Bool) :
    (b.request scheduled).read
      = if b.last < 2 ^ 31 ∧ toInt32 b.start + b.last - (0 : ℕ) < 2 ^ 31 then
          some (b.records scheduled)
        else none := by
  have hesize : (b.request scheduled).esize = b.edatafilesize := by
    show toInt32 _ = _
    unfold toInt32
    rw [Int.bmod_eq_of_le] <;> simp only [request] <;> omega
  have hfew : b.edges.length < 2 ^ 31 := by
    have hle : b.edges.length ≤ b.edatafilesize :=
      Nat.le_mul_of_pos_right _ b.edgeSize_pos
    omega
  have hshort : ∀ x ∈ b.pieces, x.1.targets.length < 2 ^ 31 := fun x hx =>
    lt_of_le_of_lt (Reshard.length_targets_le (List.mem_map_of_mem hx)) hfew
  have hwrap : (toInt32 b.start - (b.start + 0 : ℕ)) % 2 ^ 32 = 0 := by
    unfold toInt32
    rw [Int.bmod_def]
    split <;> push_cast <;> omega
  have hcur : toInt32 b.start < 2 ^ 31 := Int.bmod_lt (by norm_num)
  rw [Request.read, hesize, if_pos ⟨Int.natCast_nonneg _, by exact_mod_cast hsize⟩]
  have hedges : ∀ q ∈ b.edges, q.1 < b.start + b.nvecs
      ∧ b.rangeSt ≤ q.2 ∧ q.2 ≤ b.rangeEnd ∧ q.2 ≠ q.1 := fun q hq =>
    ⟨b.sources q hq, (b.targets q hq).1, (b.targets q hq).2, b.ne q hq⟩
  have hall : ((0 + b.edges.length) * b.edgeSize : ℕ) ≤ (b.request scheduled).esize := by
    rw [hesize, Nat.zero_add]
    rfl
  have hloop := @Request.readFrom_eq (b.request scheduled) b.pieces [] (b.nvecs + 1) 0 0
    (toInt32 b.start) b.start_add_nvecs_le b.nvecs_lt rfl b.codes hshort hedges hall
    (Nat.lt_succ_self _) (Nat.two_pow_pos 31) hcur hwrap
  rw [Nat.zero_mul] at hloop
  exact hloop

/-- **A block is decoded if and only if** its edge values take fewer than
`2 ^ 31 - 1` bytes and the two counters of vertices do not overflow. -/
theorem decodes_iff_fits (b : Block) : b.Decodes ↔ b.Fits := by
  constructor
  · intro h
    have hsize := edatafilesize_lt h
    have hread := h fun _ => true
    rw [read_eq hsize] at hread
    split at hread
    · next hint =>
      refine ⟨hsize, hint.1, ?_⟩
      simpa using hint.2
    · exact absurd hread (by simp)
  · rintro ⟨hsize, hlast, hcur⟩ scheduled
    rw [read_eq hsize, if_pos ⟨hlast, by simpa using hcur⟩]

/-- **A block that is read with all vertices scheduled fits**, if its rows
are counted by an `int`. -/
theorem fits_of_read {l : List Record}
    (hshort : ∀ x ∈ b.pieces, x.1.targets.length < 2 ^ 31)
    (h : (b.request fun _ => true).read = some l) : b.Fits := by
  have hread := h
  unfold Request.read at h
  split at h
  · next hesize =>
    have hzero : ((0 * b.edgeSize : ℕ) : ℤ) ≤ (b.request fun _ => true).esize := by
      rw [Nat.zero_mul]
      exact hesize.1
    have hle := @Request.le_esize_of_readFrom (b.request fun _ => true) b.pieces [] _ 0 0 _ _
      rfl b.codes hshort
      (fun q hq => ⟨b.sources q hq, (b.targets q hq).1, (b.targets q hq).2, b.ne q hq⟩)
      (fun _ => rfl) hzero (by rw [Nat.zero_mul]; exact h)
    rw [Nat.zero_add] at hle
    have hle : (b.edatafilesize : ℤ) ≤ (b.request fun _ => true).esize := hle
    have hsize : b.edatafilesize + 1 < 2 ^ 31 := by omega
    rw [read_eq hsize] at hread
    split at hread
    · next hint => exact ⟨hsize, hint.1, by simpa using hint.2⟩
    · cases hread
  · cases h

/-! ## The reader of the files of `reshard` -/

/-- What `reshard` writes conforms to the grammar. -/
theorem codes_encodeItem {it : Item} (hv : it.Valid) : Codes it (encodeItem it) := by
  cases it with
  | skip more =>
    obtain ⟨nz, hnz, henc⟩ := Reshard.encode_skip hv
    rw [henc, ← hnz]
    exact .skip nz
  | row targets =>
    obtain ⟨hne, hlen, hids⟩ := hv
    have hpos : 0 < targets.length := List.length_pos_iff.mpr hne
    rw [encodeItem, countBytes]
    split
    · next hshort =>
      have hcount : (UInt8.ofNat targets.length).toNat = targets.length := by
        rw [UInt8.toNat_ofNat', Nat.mod_eq_of_lt (by omega)]
      refine .short _ targets (fun h => ?_) (fun h => ?_) hcount.symm hids
      · rw [h] at hcount
        exact hpos.ne hcount
      · rw [h] at hcount
        exact hshort.ne hcount.symm
    · exact .long targets hlen hids

/-- **With all vertices scheduled the edges are those that the files of
`reshard` are read to**, by the function on items. -/
theorem map_read_eq {its : List Item} (hv : ∀ it ∈ its, it.Valid)
    (hits : b.pieces = its.map fun it => (it, encodeItem it)) (hfits : b.Fits) :
    ((b.request fun _ => true).read).map (List.map fun x => (x.vertex, x.target))
      = Reshard.readNextVerticesXG b.rangeSt b.rangeEnd b.nvecs b.start b.edges.length
          (b.request fun _ => true).adj := by
  have hedges : b.edges = expand b.start its := by
    rw [edges, hits, List.map_map]
    exact congrArg _ (List.map_id its)
  have hadj : (b.request fun _ => true).adj = encode its := by
    show b.pieces.flatMap Prod.snd = _
    rw [hits, List.flatMap_map]
    rfl
  have hfew : b.edges.length < 2 ^ 31 := by
    have hle : b.edges.length ≤ b.edatafilesize :=
      Nat.le_mul_of_pos_right _ b.edgeSize_pos
    have hsize := hfits.1
    omega
  have hold := Reshard.readNextVerticesXG_reads ⟨its, hv, hadj, hedges.symm⟩ hfew le_rfl
    b.sources b.targets
  rw [hold, read_eq hfits.1, if_pos ⟨hfits.2.1, by simpa using hfits.2.2⟩, records,
    List.filter_true, Option.map_some, slots, List.map_map]
  exact congrArg some (List.zipIdx_map_fst 0 b.edges)

end Block

/-! ## A block of 2 GiB -/

/-- The first vertex has edges to the next `n`, the interval of the block. -/
def oneRow (n : ℕ) (h : n < 2 ^ 31) : Block where
  start := 0
  nvecs := 1
  rangeSt := 1
  rangeEnd := n
  edgeSize := 4
  pieces := [(.row (List.range' 1 n),
    0xff :: u32le (List.range' 1 n).length ++ (List.range' 1 n).flatMap u32le)]
  nvecs_lt := by decide
  start_add_nvecs_le := by decide
  edgeSize_pos := by decide
  codes := by
    intro x hx
    obtain rfl := List.mem_singleton.mp hx
    refine .long _ ?_ fun t ht => ?_
    · rw [List.length_range']
      omega
    · have hrange := List.mem_range'_1.mp ht
      omega
  sources := by
    intro q hq
    have hrange := (mem_expand_bounds hq).2
    simpa [span, Item.span] using hrange
  targets := by
    intro q hq
    simp only [List.map_cons, List.map_nil, expand, Item.targets, List.append_nil,
      List.mem_map] at hq
    obtain ⟨t, ht, rfl⟩ := hq
    obtain ⟨hlow, hhigh⟩ := List.mem_range'_1.mp ht
    rw [Nat.add_comm] at hhigh
    exact ⟨hlow, Nat.le_of_lt_succ hhigh⟩
  ne := by
    intro q hq
    simp only [List.map_cons, List.map_nil, expand, Item.targets, List.append_nil,
      List.mem_map] at hq
    obtain ⟨t, ht, rfl⟩ := hq
    exact Nat.pos_iff_ne_zero.mp (List.mem_range'_1.mp ht).1

theorem edatafilesize_oneRow (n : ℕ) (h : n < 2 ^ 31) :
    (oneRow n h).edatafilesize = n * 4 := by
  simp [Block.edatafilesize, Block.edges, oneRow, expand, Item.targets]

/-- **A block with `2 ^ 29` edges of 4 bytes is not decoded.** -/
theorem not_decodes_twoGiB : ¬(oneRow (2 ^ 29) (by norm_num)).Decodes := by
  intro h
  have hsize := Block.edatafilesize_lt h
  rw [edatafilesize_oneRow] at hsize
  norm_num at hsize

end BlockDecoding
