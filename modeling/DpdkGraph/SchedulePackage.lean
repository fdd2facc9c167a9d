import Mathlib
import DpdkGraph.BlockBuffer
import DpdkGraph.ByteStream
import DpdkGraph.Region
import DpdkGraph.Text

/-!
# The schedule package

Before the first iteration the master sends each worker a package: a head,
eight numbers, a row of 15 bytes for each worker's address, and the records
of the tasks. It puts the pieces into a buffer at offsets computed by hand
and writes as many bytes as it has computed, by hand again. The second
computation counts seven numbers instead of eight, so that the package lacks
its last four bytes, whatever it holds (`not_roundTrip`).

As long as there is a task, these four bytes belong to the last record, and
the worker does not look at the records. What it does look at it finds, with
one exception: an address of 15 characters fills its row, and no NUL follows
it (`recovers_iff`).
-/

namespace Schedule

open SparseRows (u32le)
open Text (cstr)

/-! ## The package -/

/-- `task`. -/
structure Task where
  interval : Int32
  iter : Int32
  machine : Int32

/-- The address of a worker, in dots and digits. -/
structure Host where
  text : List UInt8
  noNul : 0 ∉ text
  le_length : 7 ≤ text.length
  length_le : text.length ≤ 15

/-- **What the master packs**, and what is in memory otherwise: seven of its
eight numbers are counted when the length is made, and the last one goes behind
the end. -/
structure Package where
  /-- `Tc`. -/
  tasks : List Task
  /-- `hosts`, as many as there are workers. -/
  hosts : List Host
  /-- `niters`. -/
  N : Int32
  /-- `nshards`. -/
  P : Int32
  /-- `crucial_option`. -/
  CO : Int32
  ntop : Int32
  asyn : Int32
  rdma : Int32
  /-- What follows the text of an address in the master's memory. -/
  behind : ℕ → ℕ → UInt8
  /-- What the buffer of the master held before. -/
  master : ℕ → UInt8
  /-- What the buffer of the worker held before. -/
  worker : ℕ → UInt8

/-- The bytes of an `int`. -/
def intBytes (x : Int32) : List UInt8 := u32le x.toUInt32.toNat

/-- The record of a task. -/
def Task.bytes (t : Task) : List UInt8 :=
  intBytes t.interval ++ intBytes t.iter ++ intBytes t.machine

/-- `"XGREQS"`. -/
def xgreqs : List UInt8 := [0x58, 0x47, 0x52, 0x45, 0x51, 0x53]

namespace Package

variable (p : Package)

/-- `ip`: fifteen bytes from the address on, its NUL included if there is
room for it. -/
def row (k : ℕ) (host : Host) : List UInt8 :=
  (host.text ++ 0 :: (List.range 15).map (p.behind k)).take 15

/-- The numbers, in their order. -/
def ints : List Int32 :=
  [Int32.ofNat p.tasks.length, Int32.ofNat p.hosts.length, p.N, p.P, p.CO,
    p.ntop, p.asyn, p.rdma]

/-- **The pieces and their places**, as the master computes them. -/
def memcpys : List (ℕ × List UInt8) :=
  (0, xgreqs) ::
    (p.ints.zipIdx.map fun x => (6 + 4 * x.2, intBytes x.1)) ++
    (p.hosts.zipIdx.map fun x => (6 + 8 * 4 + x.2 * 15, p.row x.2 x.1)) ++
    p.tasks.zipIdx.map fun x =>
      (6 + 8 * 4 + 15 * p.hosts.length + x.2 * 12, x.1.bytes)

/-- `len`: how many bytes are written to the connection. -/
def len : ℕ := 6 + 7 * 4 + 12 * p.tasks.length + 15 * p.hosts.length

/-- `buf` of the master, of one megabyte, when all has been packed. -/
def packed : Region UInt8 :=
  Region.writeAll p.memcpys ⟨1024 * 1024, p.master⟩

/-- What is sent. -/
def sent : List UInt8 := p.packed.slice 0 p.len

/-- `buf` of the worker, of one megabyte, when all that is sent has come with
one read. -/
def received : Region UInt8 := Region.write 0 p.sent ⟨1024 * 1024, p.worker⟩

end Package

/-- An `int` in memory. -/
def intAt (buf : Region UInt8) (off : ℕ) : Int32 :=
  (UInt32.ofNat ((buf.get off).toNat + 2 ^ 8 * (buf.get (off + 1)).toNat +
    2 ^ 16 * (buf.get (off + 2)).toNat +
    2 ^ 24 * (buf.get (off + 3)).toNat)).toInt32

/-- What the worker takes out of the package. -/
structure Parsed where
  c : Int32
  M : Int32
  N : Int32
  P : Int32
  CO : Int32
  ntop : Int32
  asyn : Int32
  rdma : Int32
  /-- The rows of 15 bytes. -/
  workerIP : ℕ → List UInt8

/-- **The worker takes the package apart.** -/
def parse (buf : Region UInt8) : Parsed where
  c := intAt buf 6
  M := intAt buf (6 + 4)
  N := intAt buf (6 + 2 * 4)
  P := intAt buf (6 + 3 * 4)
  CO := intAt buf (6 + 4 * 4)
  ntop := intAt buf (6 + 5 * 4)
  asyn := intAt buf (6 + 6 * 4)
  rdma := intAt buf (6 + 7 * 4)
  workerIP k := buf.slice (6 + 8 * 4 + k * 15) 15

/-- The worker has the numbers, and the addresses as text. -/
def Recovers (p : Package) (q : Parsed) : Prop :=
  [q.c, q.M, q.N, q.P, q.CO, q.ntop, q.asyn, q.rdma] = p.ints ∧
    ∀ x ∈ p.hosts.zipIdx, cstr (q.workerIP x.2) = some x.1.text

/-- **The package makes the round trip**: each piece is in the bytes that are
sent, and the worker recovers the numbers and the addresses. -/
def RoundTrip (p : Package) : Prop :=
  (∀ piece ∈ p.memcpys, (Region.ofList 0 p.sent).Holds piece.1 piece.2) ∧
    Recovers p (parse p.received)

/-! ## The places of the pieces -/

@[simp] theorem length_intBytes (x : Int32) : (intBytes x).length = 4 := rfl

@[simp] theorem length_bytes (t : Task) : t.bytes.length = 12 := rfl

@[simp] theorem length_row (p : Package) (k : ℕ) (host : Host) :
    (p.row k host).length = 15 := by
  unfold Package.row
  rw [List.length_take, List.length_append, List.length_cons, List.length_map,
    List.length_range]
  omega

namespace Package

variable (p : Package)

/-- The pieces, without their places. -/
def fields : List (List UInt8) :=
  [xgreqs] ++ (p.ints.zipIdx.map fun x => intBytes x.1) ++
    (p.hosts.zipIdx.map fun x => p.row x.2 x.1) ++
      p.tasks.zipIdx.map fun x => x.1.bytes

/-- The length of rows of one width. -/
theorem length_flatten_rows {β : Type} {width : ℕ} {f : β × ℕ → List UInt8}
    (hf : ∀ x, (f x).length = width) (l : List β) :
    (l.zipIdx.map f).flatten.length = width * l.length := by
  rw [BlockBuffer.length_flatten_of_forall (l := width), List.length_map,
    List.length_zipIdx]
  intro row hrow
  obtain ⟨x, -, rfl⟩ := List.mem_map.mp hrow
  exact hf x

/-- **The places computed by hand are those of pieces one behind the
other.** -/
theorem memcpys_eq : p.memcpys = Region.placed 0 p.fields := by
  have hints := Region.placed_rows (f := fun x : Int32 × ℕ => intBytes x.1)
    (fun x => length_intBytes x.1) 6 p.ints 0
  have hhosts := Region.placed_rows (f := fun x : Host × ℕ => p.row x.2 x.1)
    (fun x => length_row p x.2 x.1) (6 + 8 * 4) p.hosts 0
  have htasks := Region.placed_rows (f := fun x : Task × ℕ => x.1.bytes)
    (fun x => length_bytes x.1) (6 + 8 * 4 + 15 * p.hosts.length) p.tasks 0
  simp only [Nat.mul_zero, Nat.add_zero] at hints hhosts htasks
  have hlen : p.ints.length = 8 := rfl
  have hhead : xgreqs.length = 6 := rfl
  have hfour : 4 * 8 = 8 * 4 := rfl
  unfold fields memcpys
  rw [Region.placed_append, Region.placed_append, Region.placed_append]
  simp only [List.flatten_append, List.length_append, List.flatten_singleton,
    length_flatten_rows (fun x : Int32 × ℕ => length_intBytes x.1),
    length_flatten_rows (fun x : Host × ℕ => length_row p x.2 x.1), hlen, hhead,
    hfour, Nat.zero_add]
  rw [hints, hhosts, htasks]
  simp only [Nat.mul_comm 15, Nat.mul_comm 12]
  rfl

/-- The pieces take four bytes more than are sent. -/
theorem length_flatten_fields : p.fields.flatten.length = p.len + 4 := by
  have hlen : p.ints.length = 8 := rfl
  unfold fields len
  simp only [List.flatten_append, List.length_append, List.flatten_singleton,
    length_flatten_rows (fun x : Int32 × ℕ => length_intBytes x.1),
    length_flatten_rows (fun x : Host × ℕ => length_row p x.2 x.1),
    length_flatten_rows (fun x : Task × ℕ => length_bytes x.1), hlen]
  show 6 + _ + _ + _ = _
  omega

theorem length_sent : p.sent.length = p.len := by
  unfold sent Region.slice
  rw [List.length_map, List.length_range]

end Package

/-! ## The law -/

/-- **No package makes the round trip**: the last piece ends four bytes
behind what is sent. -/
theorem not_roundTrip (p : Package) : ¬RoundTrip p := by
  rintro ⟨hholds, -⟩
  have hne : p.fields.flatten ≠ [] := by
    intro hnil
    have hlen := p.length_flatten_fields
    rw [hnil, List.length_nil] at hlen
    omega
  obtain ⟨piece, hpiece, hpne, hend⟩ :
      ∃ x ∈ Region.placed 0 p.fields, x.2 ≠ []
        ∧ x.1 + x.2.length = 0 + p.fields.flatten.length :=
    Region.exists_mem_placed hne
  rw [← p.memcpys_eq] at hpiece
  have hpos : 0 < piece.2.length := List.length_pos_iff.mpr hpne
  have hlast := (hholds piece hpiece (piece.2.length - 1) (by omega)).1
  have hsize : (Region.ofList 0 p.sent).size = p.len := p.length_sent
  rw [p.length_flatten_fields] at hend
  omega

/-- One worker, `10.0.0.1`, with one task: the machine in the record of the
task is not sent. -/
theorem not_roundTrip_oneTask : ¬∀ p : Package, RoundTrip p := by
  intro h
  have hholds := (h ⟨[⟨0, 0, 0⟩], [⟨[49, 48, 46, 48, 46, 48, 46, 49],
    by decide, by decide, by decide⟩], 1, 1, 0, 20, 0, 0, fun _ _ => 0,
    fun _ => 0, fun _ => 0⟩).1 (53, Task.bytes ⟨0, 0, 0⟩) (by decide)
  exact absurd (hholds 8 (by decide)).1 (by decide)

/-! ## What the worker finds -/

/-- The buffer of the worker has the pieces that have been sent whole. -/
theorem received_holds (p : Package) (hfit : p.len + 4 ≤ 1024 * 1024)
    {piece : ℕ × List UInt8} (hmem : piece ∈ p.memcpys)
    (hend : piece.1 + piece.2.length ≤ p.len) :
    p.received.Holds piece.1 piece.2 := by
  have hpacked : p.packed.Holds piece.1 piece.2 := by
    refine Region.holds_writeAll ?_ ?_ piece hmem
    · rw [p.memcpys_eq]
      exact Region.pairwise_placed 0 _
    · intro q hq
      rw [p.memcpys_eq] at hq
      have hle := Region.end_le_of_mem_placed hq
      rw [p.length_flatten_fields, Nat.zero_add] at hle
      exact le_trans hle hfit
  intro i hi
  have hsent : piece.1 + i < p.sent.length := by
    rw [p.length_sent]
    omega
  have hroom : 0 + p.sent.length ≤ 1024 * 1024 := by
    rw [p.length_sent]
    omega
  have hget := (@Region.holds_write _ 0 p.sent ⟨1024 * 1024, p.worker⟩ hroom)
    (piece.1 + i) hsent
  rw [Nat.zero_add] at hget
  refine ⟨hget.1, hget.2.trans ?_⟩
  rw [← (hpacked i hi).2]
  simp [Package.sent, Region.slice]

/-- A number is read as it was packed. -/
theorem intAt_of_holds {r : Region UInt8} {off : ℕ} {x : Int32}
    (h : r.Holds off (intBytes x)) : intAt r off = x := by
  have hlt : x.toUInt32.toNat < 2 ^ 32 := x.toUInt32.toNat_lt
  have h0 : r.get off = UInt8.ofNat x.toUInt32.toNat := (h 0 (by simp)).2
  have h1 : r.get (off + 1) = UInt8.ofNat (x.toUInt32.toNat / 2 ^ 8) :=
    (h 1 (by simp)).2
  have h2 : r.get (off + 2) = UInt8.ofNat (x.toUInt32.toNat / 2 ^ 16) :=
    (h 2 (by simp)).2
  have h3 : r.get (off + 3) = UInt8.ofNat (x.toUInt32.toNat / 2 ^ 24) :=
    (h 3 (by simp)).2
  have hsum : (r.get off).toNat + 2 ^ 8 * (r.get (off + 1)).toNat +
      2 ^ 16 * (r.get (off + 2)).toNat + 2 ^ 24 * (r.get (off + 3)).toNat =
      x.toUInt32.toNat := by
    simp only [h0, h1, h2, h3, UInt8.toNat_ofNat']
    omega
  unfold intAt
  rw [hsum, UInt32.ofNat_toNat]
  rfl

/-- **An address is found as text if a NUL follows it in its row.** -/
theorem cstr_row (p : Package) (k : ℕ) (host : Host) :
    cstr (p.row k host) = some host.text ↔ host.text.length ≤ 14 := by
  have hle := host.length_le
  unfold Package.row
  rw [List.take_append]
  constructor
  · intro h
    by_contra hlong
    have hrest : 15 - host.text.length = 0 := by omega
    rw [hrest, List.take_zero, List.append_nil,
      List.take_of_length_le hle] at h
    unfold cstr at h
    rw [if_neg host.noNul] at h
    exact absurd h (by simp)
  · intro hshort
    obtain ⟨n, hn⟩ : ∃ n, 15 - host.text.length = n + 1 :=
      ⟨14 - host.text.length, by omega⟩
    rw [List.take_of_length_le hle, hn, List.take_succ_cons]
    exact Text.cstr_append host.noNul _

/-- **What the worker recovers** of a package with a task: the numbers, and the
addresses of at most 14 characters. Each address has fifteen bytes, of which the
last must be the end of the text. -/
theorem recovers_iff (p : Package) (htasks : p.tasks ≠ [])
    (hfit : p.len + 4 ≤ 1024 * 1024) :
    Recovers p (parse p.received) ↔
      ∀ host ∈ p.hosts, host.text.length ≤ 14 := by
  have hpos : 0 < p.tasks.length := List.length_pos_iff.mpr htasks
  have hlen : p.len = 6 + 7 * 4 + 12 * p.tasks.length + 15 * p.hosts.length :=
    rfl
  -- where the numbers are has been sent, and they are read from there
  have hints : ∀ x ∈ p.ints.zipIdx,
      intAt p.received (6 + 4 * x.2) = x.1 := by
    intro x hx
    refine intAt_of_holds
      (@received_holds p hfit (6 + 4 * x.2, intBytes x.1) ?_ ?_)
    · unfold Package.memcpys
      simp only [List.mem_cons, List.mem_append, List.cons_append]
      exact Or.inr (Or.inl (Or.inl (List.mem_map.mpr ⟨x, hx, rfl⟩)))
    · have hlt : x.2 < 8 := List.snd_lt_of_mem_zipIdx hx
      show 6 + 4 * x.2 + 4 ≤ p.len
      omega
  -- and so for the fifteen bytes of an address
  have hrows : ∀ x ∈ p.hosts.zipIdx,
      (parse p.received).workerIP x.2 = p.row x.2 x.1 := by
    intro x hx
    have hholds := @received_holds p hfit
      (6 + 8 * 4 + x.2 * 15, p.row x.2 x.1) ?_ ?_
    · have hslice := Region.slice_of_holds hholds
      rwa [length_row] at hslice
    · unfold Package.memcpys
      simp only [List.mem_cons, List.mem_append, List.cons_append]
      exact Or.inr (Or.inl (Or.inr (List.mem_map.mpr ⟨x, hx, rfl⟩)))
    · have hlt : x.2 < p.hosts.length := List.snd_lt_of_mem_zipIdx hx
      show 6 + 8 * 4 + x.2 * 15 + (p.row x.2 x.1).length ≤ p.len
      rw [length_row]
      omega
  have hnumbers : [(parse p.received).c, (parse p.received).M,
      (parse p.received).N, (parse p.received).P, (parse p.received).CO,
      (parse p.received).ntop, (parse p.received).asyn,
      (parse p.received).rdma] = p.ints := by
    show p.ints.zipIdx.map (fun x => intAt p.received (6 + 4 * x.2)) = p.ints
    rw [List.map_congr_left hints, List.zipIdx_map_fst]
  unfold Recovers
  constructor
  · rintro ⟨-, haddr⟩ host hhost
    obtain ⟨k, hk⟩ := List.getElem?_of_mem hhost
    have hmem : (host, k) ∈ p.hosts.zipIdx :=
      List.mk_mem_zipIdx_iff_getElem?.mpr hk
    have htext := haddr (host, k) hmem
    rwa [hrows (host, k) hmem, cstr_row] at htext
  · intro hshort
    refine ⟨hnumbers, fun x hx => ?_⟩
    rw [hrows x hx, cstr_row]
    exact hshort x.1 (List.fst_mem_of_mem_zipIdx hx)

end Schedule
