import DpdkGraph.Region
import DpdkGraph.Reshard

/-!
# What a sub node keeps of the shovels

The sub node knows the type of the edge values by its name, and takes the
size of an edge from a table of its own (`EdgeType.edgeSize`), while the
main node sends edges of its template type (`EdgeType.mainType`). For the
types `length16` to `length64` the table has the size of the value alone.

For each of its shards the sub node has a slot: memory that grows when a
packet does not fit, or a file, the largest number of edges that a packet
reached, and the number of packets. `Slot.Has` says what a slot has after
some packets, in whatever order they came.
-/

namespace SubNode

open SparseRows (u32le readU32 readU32_u32le)
open Reshard (toInt32)

/-! ## The edge types -/

/-- The types of edge values. -/
inductive ValueType where
  | float | int | uint | short | double | char | bool | long
  | pairFloat | pairInt
  | length16 | length24 | length32 | length64
  /-- The value of edges without values. -/
  | dummy
deriving DecidableEq

namespace ValueType

/-- `sizeof`. -/
def size : ValueType → ℕ
  | float | int | uint => 4
  | short => 2
  | double | long => 8
  | char | bool | dummy => 1
  | pairFloat | pairInt => 8
  | length16 => 16
  | length24 => 24
  | length32 => 32
  | length64 => 64

/-- `alignof`. -/
def align : ValueType → ℕ
  | float | int | uint | pairFloat | pairInt => 4
  | short => 2
  | double | long => 8
  | char | bool | dummy | length16 | length24 | length32 | length64 => 1

/-- `sizeof(edge_with_value<T>)`: two ids of four bytes and the value. -/
def recordSize (T : ValueType) : ℕ :=
  (8 + T.size + max 4 T.align - 1) / max 4 T.align * max 4 T.align

theorem size_le (T : ValueType) : 8 + T.size ≤ T.recordSize := by
  cases T <;> decide

end ValueType

/-- The names of the option `edgedatatype`. -/
inductive EdgeType where
  | float | floatFloat | int | uint | intInt | short | double | char | boolean | long
  | none | length16 | length24 | length32 | length64
deriving DecidableEq

namespace EdgeType

/-- The values in the main node's records. -/
def mainType : EdgeType → ValueType
  | float => .float
  | floatFloat => .pairFloat
  | int => .int
  | uint => .uint
  | intInt => .pairInt
  | short => .short
  | double => .double
  | char => .char
  | boolean => .bool
  | long => .long
  | none => .dummy
  | length16 => .length16
  | length24 => .length24
  | length32 => .length32
  | length64 => .length64

/-- The values in the records that `submode` hands to `reshard`. -/
def subType : EdgeType → ValueType
  | none => .char
  | t => t.mainType

/-- **`edge_check`**: the `edge_size` of a type name. -/
def edgeSize : EdgeType → ℕ
  | float => ValueType.float.recordSize
  | floatFloat => ValueType.pairFloat.recordSize
  | int => ValueType.int.recordSize
  | uint => ValueType.uint.recordSize
  | intInt => ValueType.pairInt.recordSize
  | short => ValueType.short.recordSize
  | double => ValueType.double.recordSize
  | char => ValueType.char.recordSize
  | boolean => ValueType.bool.recordSize
  | long => ValueType.long.recordSize
  | none => ValueType.char.recordSize
  | length16 => ValueType.length16.size
  | length24 => ValueType.length24.size
  | length32 => ValueType.length32.size
  | length64 => ValueType.length64.size

/-- A value of so many bytes. -/
def isLength : EdgeType → Bool
  | length16 | length24 | length32 | length64 => true
  | _ => false

/-- The records of both sides are laid out the same. -/
theorem layout_subType (t : EdgeType) :
    t.subType.size = t.mainType.size ∧ t.subType.recordSize = t.mainType.recordSize := by
  cases t <;> exact ⟨rfl, rfl⟩

theorem edgeSize_pos (t : EdgeType) : 0 < t.edgeSize := by
  cases t <;> decide

theorem le_edgeSize {t : EdgeType} (h : t.isLength = true) : 16 ≤ t.edgeSize := by
  cases t <;> first | decide | cases h

/-- **The table**: the ids are left out for the values of so many bytes. -/
theorem recordSize_mainType (t : EdgeType) :
    t.mainType.recordSize = t.edgeSize + if t.isLength then 8 else 0 := by
  cases t <;> rfl

end EdgeType

/-! ## Records -/

/-- An edge, its value as bytes. -/
abbrev Edge := EdgeWithValue (List UInt8)

/-- The ids are `vid_t`s, and the value has the size of its type. -/
structure IsEdge (T : ValueType) (e : Edge) : Prop where
  /-- The source. -/
  src : e.src < 2 ^ 32
  /-- The destination. -/
  dst : e.dst < 2 ^ 32
  /-- The value. -/
  value : e.value.length = T.size

/-- The bytes of an edge. -/
def record (T : ValueType) (e : Edge) : List UInt8 :=
  u32le e.src ++ (u32le e.dst ++ (e.value
    ++ List.replicate (T.recordSize - (8 + T.size)) 0))

/-- The bytes of a sequence of edges. -/
def records (T : ValueType) (es : List Edge) : List UInt8 := es.flatMap (record T)

/-- Reads an edge off the front of an array. -/
def readRecord (T : ValueType) (bs : List UInt8) : Option (Edge × List UInt8) :=
  if bs.length < T.recordSize then none
  else (readU32 bs).bind fun src =>
    (readU32 src.2).map fun dst =>
      (⟨src.1, dst.1, dst.2.take T.size⟩, bs.drop T.recordSize)

/-- The first `n` edges of an array. -/
def readRecords (T : ValueType) : ℕ → List UInt8 → Option (List Edge)
  | 0, _ => some []
  | n + 1, bs =>
    (readRecord T bs).bind fun r => (readRecords T n r.2).map fun es => r.1 :: es

theorem length_record {T : ValueType} {e : Edge} (h : IsEdge T e) :
    (record T e).length = T.recordSize := by
  show (u32le e.src ++ (u32le e.dst ++ (e.value ++ _))).length = T.recordSize
  rw [List.length_append, List.length_append, List.length_append, List.length_replicate,
    h.value]
  show 4 + (4 + (T.size + (T.recordSize - (8 + T.size)))) = T.recordSize
  have hle := T.size_le
  omega

theorem length_records {T : ValueType} {es : List Edge} (h : ∀ e ∈ es, IsEdge T e) :
    (records T es).length = es.length * T.recordSize := by
  induction es with
  | nil => exact (Nat.zero_mul _).symm
  | cons e es ih =>
    obtain ⟨he, hes⟩ := List.forall_mem_cons.mp h
    show (record T e ++ records T es).length = _
    rw [List.length_append, length_record he, ih hes, List.length_cons, Nat.succ_mul,
      Nat.add_comm]

theorem readRecord_record {T : ValueType} {e : Edge} (h : IsEdge T e) (rest : List UInt8) :
    readRecord T (record T e ++ rest) = some (e, rest) := by
  have hlen := length_record h
  unfold readRecord
  rw [if_neg (by rw [List.length_append, hlen]; omega), List.drop_left' hlen]
  unfold record
  rw [List.append_assoc, readU32_u32le h.src, Option.bind_some]
  show (readU32 ((u32le e.dst ++ (e.value ++ _)) ++ rest)).map _ = _
  rw [List.append_assoc, readU32_u32le h.dst, Option.map_some]
  show some ((⟨e.src, e.dst, ((e.value ++ _) ++ rest).take T.size⟩ : Edge), rest) = _
  rw [List.append_assoc, List.take_left' h.value]

/-- **The edges are read back**, whatever comes behind them. -/
theorem readRecords_records {T : ValueType} {es : List Edge} (h : ∀ e ∈ es, IsEdge T e)
    (rest : List UInt8) : readRecords T es.length (records T es ++ rest) = some es := by
  induction es with
  | nil => rfl
  | cons e es ih =>
    obtain ⟨he, hes⟩ := List.forall_mem_cons.mp h
    show (readRecord T ((record T e ++ records T es) ++ rest)).bind _ = _
    rw [List.append_assoc, readRecord_record he, Option.bind_some, ih hes]
    rfl

/-! ## The slots -/

/-- A message `Shovel:k Offset:o` with its data. -/
structure Packet where
  /-- The shard. -/
  shard : ℕ
  /-- Where the data belongs, in bytes. -/
  offset : ℕ
  /-- The data. -/
  data : List UInt8
deriving DecidableEq

/-- Where the data ends. -/
def Packet.stop (p : Packet) : ℕ := p.offset + p.data.length

/-- The offset with the data. -/
def Packet.piece (p : Packet) : ℕ × List UInt8 := (p.offset, p.data)

/-- What a sub node knows. -/
structure Config where
  /-- `edge_type`. -/
  edgeType : EdgeType
  /-- `shovel_in_mem`, which depends on `membudget_mb`. -/
  shovelInMem : Bool
  /-- What new memory has in it. -/
  garbage : ℕ → UInt8

/-- `edge_size`. -/
def Config.edgeSize (c : Config) : ℕ := c.edgeType.edgeSize

/-- **One of the duties** of a sub node: a shard, and the memory or the file in
which its packets are put together. -/
structure Slot where
  /-- The shard. -/
  shard : ℕ
  /-- The number of edges there is room for in memory, at first an
  estimate. -/
  second : ℕ
  /-- The memory `shovel_mem`, or the file. -/
  data : Region UInt8
  /-- `edges`, an `int`. -/
  edges : ℤ
  /-- `packages`. -/
  packages : ℕ

/-- `* 1.2`, as a `long`. -/
def growth (second : ℕ) : ℕ := second * 6 / 5

/-- The memory grows until the data fits. -/
def makeRoom (c : Config) (stop : ℕ) : ℕ → Slot → Option Slot
  | 0, _ => none
  | fuel + 1, s =>
    if stop > s.second * c.edgeSize then
      makeRoom c stop fuel { s with
        second := growth s.second
        data := s.data.extend (growth s.second * c.edgeSize) c.garbage }
    else some s

/-- The data is copied into the memory or written to the file. -/
def Slot.store (c : Config) (fuel : ℕ) (s : Slot) (p : Packet) : Option Slot :=
  if c.shovelInMem then
    (makeRoom c p.stop fuel s).map fun s =>
      { s with data := s.data.write p.offset p.data }
  else some { s with data := s.data.pwrite 0 p.offset p.data }

/-- An `int` where a `size_t` is wanted. -/
def asSizeT (x : ℤ) : ℕ := (x % 2 ^ 64).toNat

/-- The largest number of edges so far. -/
def countEdges (edgeSize : ℕ) (edges : ℤ) (p : Packet) : ℤ :=
  if asSizeT edges < p.stop / edgeSize then toInt32 (p.stop / edgeSize : ℕ) else edges

/-- **A packet for the slot.** -/
def Slot.receive (c : Config) (fuel : ℕ) (s : Slot) (p : Packet) : Option Slot :=
  (s.store c fuel p).map fun s =>
    { s with edges := countEdges c.edgeSize s.edges p, packages := s.packages + 1 }

/-- How long a file is after a packet. -/
def fileSize (n : ℕ) (p : Packet) : ℕ := if p.data = [] then n else max n p.stop

/-- **What a slot has after some packets**: each at its offset, and the counts
of packets and edges. In memory there is room for all of them; a file is as long
as the furthest needs, or as it was. -/
structure Slot.Has (c : Config) (duty : ℕ) (stale : Region UInt8) (done : List Packet)
    (s : Slot) : Prop where
  /-- The data. -/
  held : ∀ p ∈ done, s.data.Holds p.offset p.data
  /-- The number of edges. -/
  edges : s.edges = done.foldl (countEdges c.edgeSize) 0
  /-- The number of packets. -/
  packages : s.packages = done.length
  /-- The room in memory. -/
  memory : c.shovelInMem = true → s.data.size = s.second * c.edgeSize ∧ duty ≤ s.second
    ∧ (duty < 5 → s.second = duty) ∧ ∀ p ∈ done, p.stop ≤ s.data.size
  /-- The size of the file. -/
  file : c.shovelInMem = false → s.data.size = done.foldl fileSize stale.size

/-! ## Growing -/

variable {c : Config} {duty : ℕ} {stale : Region UInt8} {s s' : Slot} {p : Packet}

theorem le_growth (n : ℕ) : n ≤ growth n := by
  unfold growth
  omega

theorem growth_of_lt {n : ℕ} (h : n < 5) : growth n = n := by
  unfold growth
  omega

theorem lt_growth {n : ℕ} (h : 5 ≤ n) : n < growth n := by
  unfold growth
  omega

/-- **What growing leaves as it is**: everything but the size. The number of
edges grows by a fifth each time, so that an estimate of less than five
stays. -/
structure Slot.Grown (c : Config) (stop : ℕ) (s s' : Slot) : Prop where
  /-- The shard. -/
  shard : s'.shard = s.shard
  /-- The number of edges. -/
  edges : s'.edges = s.edges
  /-- The number of packets. -/
  packages : s'.packages = s.packages
  /-- The room. -/
  second : s.second ≤ s'.second
  /-- A small estimate stays. -/
  second_of_lt : s.second < 5 → s'.second = s.second
  /-- The memory. -/
  size : s'.data.size = s'.second * c.edgeSize
  /-- The data fits. -/
  stop_le : stop ≤ s'.data.size
  /-- What was in it. -/
  held : ∀ off data, s.data.Holds off data → s'.data.Holds off data

theorem Slot.Grown.of_makeRoom {stop fuel : ℕ} (hsize : s.data.size = s.second * c.edgeSize)
    (h : makeRoom c stop fuel s = some s') : s.Grown c stop s' := by
  induction fuel generalizing s with
  | zero => cases h
  | succ fuel ih =>
    rw [makeRoom] at h
    split at h
    · have hle := le_growth s.second
      have hgrown := ih rfl h
      refine ⟨hgrown.shard, hgrown.edges, hgrown.packages, le_trans hle hgrown.second,
        fun hlt => ?_, hgrown.size, hgrown.stop_le, fun off data hheld => ?_⟩
      · have hsame := growth_of_lt hlt
        rw [hgrown.second_of_lt (by show growth s.second < 5; rw [hsame]; exact hlt)]
        exact hsame
      · refine hgrown.held off data (hheld.extend ?_ _)
        rw [hsize]
        exact Nat.mul_le_mul_right _ hle
    · next hnot =>
      cases h
      exact ⟨rfl, rfl, rfl, le_rfl, fun _ => rfl, hsize, hsize ▸ Nat.le_of_not_lt hnot,
        fun _ _ hheld => hheld⟩

/-- **The loop comes to an end**, unless the estimate is too small to grow: each
round adds an edge at least. -/
theorem exists_makeRoom {stop fuel : ℕ} (hfuel : 0 < fuel)
    (hlt : stop < fuel + s.second * c.edgeSize)
    (hroom : 5 ≤ s.second ∨ stop ≤ s.second * c.edgeSize) :
    ∃ s', makeRoom c stop fuel s = some s' := by
  induction fuel generalizing s with
  | zero => exact absurd hfuel (lt_irrefl 0)
  | succ fuel ih =>
    rw [makeRoom]
    by_cases hstop : stop > s.second * c.edgeSize
    · rw [if_pos hstop]
      have hfive := hroom.resolve_right (Nat.not_le_of_gt hstop)
      have hgrows : s.second * c.edgeSize + 1 ≤ growth s.second * c.edgeSize := by
        have hmul := Nat.mul_le_mul_right c.edgeSize (lt_growth hfive)
        have hpos : 0 < c.edgeSize := EdgeType.edgeSize_pos _
        rw [Nat.succ_mul] at hmul
        omega
      refine ih (by omega) ?_ (Or.inl (le_trans hfive (le_growth _)))
      show stop < fuel + growth s.second * c.edgeSize
      omega
    · rw [if_neg hstop]
      exact ⟨s, rfl⟩

/-! ## One packet -/

/-- **A packet is kept, and nothing else is lost**: the buffer has room for it,
by growing if it must, and it lies apart from the packets before. -/
theorem Slot.Has.receive {done : List Packet} {fuel : ℕ} (h : s.Has c duty stale done)
    (hapart : ∀ q ∈ done, Region.Apart q.piece p.piece)
    (hs : s.receive c fuel p = some s') :
    s'.shard = s.shard ∧ s'.Has c duty stale (done ++ [p]) := by
  obtain ⟨t, ht, rfl⟩ := Option.map_eq_some_iff.mp hs
  unfold Slot.store at ht
  split at ht
  · -- a slot in memory: what was there moves along when the buffer grows
    next hmem =>
    obtain ⟨u, hu, rfl⟩ := Option.map_eq_some_iff.mp ht
    obtain ⟨hsize, hle, hsmall, hdone⟩ := h.memory hmem
    have hgrown := Slot.Grown.of_makeRoom hsize hu
    refine ⟨hgrown.shard, ⟨?_, ?_, ?_, fun _ => ⟨hgrown.size, ?_, ?_, ?_⟩, ?_⟩⟩
    · intro q hq
      cases List.mem_append.mp hq with
      -- a packet of before
      | inl hq =>
        exact (hgrown.held _ _ (h.held q hq)).write (hapart q hq)
      | inr hq =>
        rw [List.mem_singleton.mp hq]
        exact Region.holds_write hgrown.stop_le
    · rw [List.foldl_append, ← h.edges, ← hgrown.edges]
      rfl
    · rw [List.length_append, ← h.packages, ← hgrown.packages]
      rfl
    · exact le_trans hle hgrown.second
    · intro hlt
      have hsame := hsmall hlt
      rw [← hsame]
      exact hgrown.second_of_lt (hsame ▸ hlt)
    · intro q hq
      show q.stop ≤ u.data.size
      cases List.mem_append.mp hq with
      | inl hq =>
        refine le_trans (hdone q hq) ?_
        rw [hsize, hgrown.size]
        exact Nat.mul_le_mul_right _ hgrown.second
      | inr hq =>
        rw [List.mem_singleton.mp hq]
        exact hgrown.stop_le
    · exact fun hfile => Bool.noConfusion (hmem.symm.trans hfile)
  · -- a slot with a file
    next hfile =>
    cases ht
    have hfile := Bool.eq_false_iff.mpr hfile
    refine ⟨rfl, ⟨?_, ?_, ?_, fun hmem => ?_, fun _ => ?_⟩⟩
    · intro q hq
      cases List.mem_append.mp hq with
      | inl hq => exact (h.held q hq).pwrite (hapart q hq) 0
      | inr hq =>
        rw [List.mem_singleton.mp hq]
        exact Region.holds_pwrite 0 _ _ _
    · rw [List.foldl_append, ← h.edges]
      rfl
    · rw [List.length_append, ← h.packages]
      rfl
    · exact Bool.noConfusion (hmem.symm.trans hfile)
    · rw [List.foldl_append, ← h.file hfile]
      show (s.data.pwrite 0 p.offset p.data).size = fileSize s.data.size p
      unfold fileSize
      split
      · -- an empty packet does not make the file longer
        next hnil => rw [hnil, Region.pwrite_nil]
      · next hne => exact Region.size_pwrite 0 _ hne _

/-- A packet is taken, if there is room for it or room can be made. -/
theorem Slot.Has.exists_receive {done : List Packet} {fuel : ℕ}
    (h : s.Has c duty stale done) (hfuel : p.stop < fuel)
    (hroom : c.shovelInMem = true → 5 ≤ duty ∨ p.stop ≤ duty * c.edgeSize) :
    ∃ s', s.receive c fuel p = some s' := by
  unfold Slot.receive Slot.store
  by_cases hmem : c.shovelInMem = true
  · obtain ⟨-, hle, -, -⟩ := h.memory hmem
    have hroom : 5 ≤ s.second ∨ p.stop ≤ s.second * c.edgeSize :=
      (hroom hmem).imp (fun h => le_trans h hle)
        fun h => le_trans h (Nat.mul_le_mul_right _ hle)
    obtain ⟨t, ht⟩ := exists_makeRoom (Nat.zero_lt_of_lt hfuel)
      (lt_of_lt_of_le hfuel (Nat.le_add_right _ _)) hroom
    rw [if_pos hmem, ht]
    exact ⟨_, rfl⟩
  · rw [if_neg hmem]
    exact ⟨_, rfl⟩

end SubNode
