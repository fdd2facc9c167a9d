import Mathlib
import DpdkGraph.Reshard
import DpdkGraph.RowCursor
import DpdkGraph.Tiling

/-!
# The sliding shard of the preprocessing

A sliding shard streams the adjacency file of a shard through blocks and
gives the out-edges of the vertices window by window. It goes on where the
window before has left it, so it may stand before its window, and it may
have gone beyond the window's start with a run of vertices without edges.

The counts of the file are `int`s here. A signed number that leaves the
`int` has no meaning: the row of `2 ^ 31` edges, that counts down from the
least `int`, and a row that is passed over and takes `2 ^ 31` bytes or more.
Nor has the search of `move_close_to` behind the last vertex of an `int`.

On bytes that stand for items, a window is `Cursor.read` (`readFrom_encode`).
-/

namespace SlidingShard

open SparseRows
open Reshard (toInt32)

/-- `sblock`, of an adjacency file. -/
structure Block where
  /-- Where it starts in the file. -/
  offset : ℕ
  /-- What has been read. -/
  data : List UInt8
deriving Repr, DecidableEq

/-- What a sliding shard is opened with. -/
structure Config where
  /-- `filename_adj`: the file. -/
  file : List UInt8
  /-- `blocksize`. -/
  blocksize : ℕ
  /-- It is `compressed_block_size`, 4 MiB at least. -/
  le_blocksize : 4096 * 1024 ≤ blocksize
  /-- `range_st`. -/
  rangeSt : ℕ
  /-- `range_end`. -/
  rangeEnd : ℕ

/-- Where a sliding shard is. -/
structure State where
  /-- `curvid`. -/
  curvid : ℕ
  /-- `adjoffset`. -/
  adjoffset : ℕ
  /-- `curadjblock`. -/
  curadjblock : Option Block
deriving Repr, DecidableEq

/-- The constructor. -/
def start : State := ⟨0, 0, none⟩

/-- `curvid` is counted up. -/
def State.pass (s : State) (n : ℕ) : State := { s with curvid := (s.curvid + n) % 2 ^ 32 }

/-- `skip(n, sizeof(vid_t))`; the place is a `size_t`. -/
def State.skip (n : ℤ) (s : State) : Option State :=
  if -2 ^ 31 ≤ n * 4 ∧ n * 4 < 2 ^ 31 then
    some { s with
      adjoffset :=
        if 0 ≤ s.adjoffset + n * 4 then (s.adjoffset + n * 4).toNat
        else (s.adjoffset + n * 4 + 2 ^ 64).toNat }
  else none

namespace Config

variable (c : Config)

/-- The block that is read from the place in the file. -/
def newblock (s : State) : Block :=
  ⟨s.adjoffset, (c.file.drop s.adjoffset).take c.blocksize⟩

/-- `check_adjblock`: the block to read from. -/
def checkAdjblock (toread : ℕ) (s : State) : Block :=
  match s.curadjblock with
  | none => c.newblock s
  | some b => if b.offset + b.data.length ≤ s.adjoffset + toread then c.newblock s else b

/-- `read_val`: the next bytes, if the block has them. -/
def readVal (size : ℕ) (s : State) : Option (List UInt8 × State) :=
  if (c.checkAdjblock size s).offset ≤ s.adjoffset ∧ s.adjoffset + size
      ≤ (c.checkAdjblock size s).offset + (c.checkAdjblock size s).data.length then
    some (((c.checkAdjblock size s).data.drop
        (s.adjoffset - (c.checkAdjblock size s).offset)).take size,
      ⟨s.curvid, s.adjoffset + size, some (c.checkAdjblock size s)⟩)
  else none

/-- `read_val<uint8_t>`. -/
def readByte (s : State) : Option (UInt8 × State) :=
  (c.readVal 1 s).bind fun r => r.1.head?.map fun b => (b, r.2)

/-- `read_val` of 32 bits. -/
def readWord (s : State) : Option (ℕ × State) :=
  (c.readVal 4 s).bind fun r => (readU32 r.1).map fun w => (w.1, r.2)

/-- `n`: the length of a row whose first byte is `ns`. -/
def readLength (ns : UInt8) (s : State) : Option (ℤ × State) :=
  if ns = 0xff then (c.readWord s).map fun w => (toInt32 w.1, w.2)
  else some (ns.toNat, s)

/-- `n` destinations, each of which is checked. -/
def readTargets : ℕ → State → Option (List ℕ × State)
  | 0, s => some ([], s)
  | n + 1, s =>
    (c.readWord s).bind fun target =>
      if c.rangeSt ≤ target.1 ∧ target.1 ≤ c.rangeEnd then
        (readTargets n target.2).map fun r => (target.1 :: r.1, r.2)
      else none

/-- `while(--n >= 0)`: the destinations of a row in the window. -/
def readRow (n : ℤ) (s : State) : Option (List ℕ × State) :=
  if n = -2 ^ 31 then none else c.readTargets n.toNat s

/-- The loop of `read_next_vertices`: `i` is the number of the vertex in the
window, which the rounds left do not exceed. A row before the window is
passed over. -/
def readFrom (nvecs start : ℕ) :
    ℕ → ℤ → State → Option (List (ℕ × ℕ) × State)
  | 0, _, s => some ([], s)
  | fuel + 1, i, s =>
    if i < nvecs ∧ s.adjoffset < c.file.length then
      (c.readByte s).bind fun ns =>
        if ns.1 = 0x00 then
          (c.readByte ns.2).bind fun nz =>
            readFrom nvecs start fuel (i + nz.1.toNat + 1) (nz.2.pass (1 + nz.1.toNat))
        else
          (c.readLength ns.1 ns.2).bind fun n =>
            if i < 0 then
              (n.2.skip n.1).bind fun s => readFrom nvecs start fuel (i + 1) (s.pass 1)
            else if start + i = s.curvid then
              (c.readRow n.1 n.2).bind fun row =>
                (readFrom nvecs start fuel (i + 1) (row.2.pass 1)).map fun r =>
                  (row.1.map (fun target => (s.curvid, target)) ++ r.1, r.2)
            else none
    else some ([], s)

end Config

/-- `sparse_index.lower_bound(key)`: the vertex of the one entry there is,
which the constructor has put at key 0. -/
def lowerBound (key : ℤ) : Option ℤ := if key ≤ 0 then some 0 else none

/-- `move_close_to`: the entry found is never ahead. -/
def moveCloseTo (v : ℕ) (s : State) : Option State :=
  if v ≤ s.curvid then some s
  else (lowerBound (-toInt32 v)).bind fun closest =>
    if closest ≤ toInt32 v ∧ closest ≤ toInt32 s.curvid then some s else none

namespace Config

variable (c : Config)

/-- **`read_next_vertices`**, for `nvecs` vertices from `start` on, all of
them scheduled. -/
def readNextVertices (nvecs start : ℕ) (s : State) :
    Option (List (ℕ × ℕ) × State) :=
  (moveCloseTo start s).bind fun s =>
    c.readFrom nvecs start (nvecs - (toInt32 s.curvid - toInt32 start)).toNat
      (toInt32 s.curvid - toInt32 start) s

/-- The windows, one after the other: the out-edges read in each. -/
def readWindows : List (ℕ × ℕ) → State → Option (List (List (ℕ × ℕ)))
  | [], _ => some []
  | w :: ws, s =>
    (c.readNextVertices (w.2 + 1 - w.1) w.1 s).bind fun r =>
      (readWindows ws r.2).map fun ls => r.1 :: ls

end Config

/-! ## Bytes, through the blocks -/

section Bytes

variable {c : Config} {s : State} {v : ℕ} {ahead : List UInt8}

/-- **The reader stands at vertex `v` and has the bytes ahead of it**: whether
they are in the block that is loaded, or must be loaded first, does not show. -/
structure At (c : Config) (s : State) (v : ℕ) (ahead : List UInt8) : Prop where
  /-- The vertex. -/
  curvid : s.curvid = v
  /-- The place is in the file. -/
  le : s.adjoffset ≤ c.file.length
  /-- What comes from there on. -/
  drop : c.file.drop s.adjoffset = ahead
  /-- The block, if there is one, starts before it. -/
  block : ∀ b ∈ s.curadjblock, b.offset ≤ s.adjoffset
    ∧ b.data = (c.file.drop b.offset).take c.blocksize

/-- The start. -/
theorem at_start (c : Config) : At c start 0 c.file :=
  ⟨rfl, Nat.zero_le _, rfl, fun _ hb => absurd hb (by simp [start])⟩

/-- There are bytes ahead exactly before the end of the file. -/
theorem At.lt_iff (h : At c s v ahead) : s.adjoffset < c.file.length ↔ ahead ≠ [] := by
  rw [← h.drop, ne_eq, List.drop_eq_nil_iff, not_le]

/-- The block to read from lies in the file and has the bytes to read. -/
theorem At.checkAdjblock {bytes : List UInt8} (h : At c s v (bytes ++ ahead))
    (hsize : bytes.length ≤ 4096 * 1024) :
    (c.checkAdjblock bytes.length s).offset ≤ s.adjoffset
      ∧ (c.checkAdjblock bytes.length s).data
        = (c.file.drop (c.checkAdjblock bytes.length s).offset).take c.blocksize
      ∧ s.adjoffset + bytes.length ≤ (c.checkAdjblock bytes.length s).offset
          + (c.checkAdjblock bytes.length s).data.length := by
  have hblock := c.le_blocksize
  have hlength : s.adjoffset + bytes.length ≤ c.file.length := by
    have hdrop := congrArg List.length h.drop
    rw [List.length_drop, List.length_append] at hdrop
    have := h.le
    omega
  have hnew : (c.newblock s).offset ≤ s.adjoffset
      ∧ (c.newblock s).data = (c.file.drop (c.newblock s).offset).take c.blocksize
      ∧ s.adjoffset + bytes.length ≤ (c.newblock s).offset + (c.newblock s).data.length := by
    refine ⟨le_rfl, rfl, ?_⟩
    show s.adjoffset + bytes.length
      ≤ s.adjoffset + ((c.file.drop s.adjoffset).take c.blocksize).length
    rw [List.length_take, List.length_drop]
    omega
  unfold Config.checkAdjblock
  cases hb : s.curadjblock with
  | none => exact hnew
  | some b =>
    obtain ⟨hle, hdata⟩ := h.block b hb
    dsimp only
    split
    · exact hnew
    · next hend => exact ⟨hle, hdata, by omega⟩

/-- **`read_val` reads the bytes ahead**, from the block it has, or from a new
one that begins here. -/
theorem At.readVal (bytes : List UInt8) (h : At c s v (bytes ++ ahead))
    (hsize : bytes.length ≤ 4096 * 1024) :
    ∃ s', c.readVal bytes.length s = some (bytes, s') ∧ At c s' v ahead := by
  obtain ⟨hle, hdata, hend⟩ := h.checkAdjblock hsize
  have hbytes : ((c.checkAdjblock bytes.length s).data.drop
      (s.adjoffset - (c.checkAdjblock bytes.length s).offset)).take bytes.length
        = bytes := by
    rw [hdata] at hend ⊢
    rw [List.length_take] at hend
    rw [List.drop_take, List.drop_drop, Nat.add_sub_cancel' hle, h.drop,
      List.take_take, min_eq_left (by omega), List.take_left]
  refine ⟨⟨s.curvid, s.adjoffset + bytes.length,
    some (c.checkAdjblock bytes.length s)⟩, ?_, h.curvid, ?_, ?_, fun b hb => ?_⟩
  · unfold Config.readVal
    rw [if_pos ⟨hle, hend⟩, hbytes]
  · have hdrop := congrArg List.length h.drop
    rw [List.length_drop, List.length_append] at hdrop
    have := h.le
    show s.adjoffset + bytes.length ≤ _
    omega
  · show c.file.drop (s.adjoffset + bytes.length) = ahead
    rw [← List.drop_drop, h.drop, List.drop_left]
  · obtain rfl := Option.mem_some.mp hb
    exact ⟨hle.trans (Nat.le_add_right _ _), hdata⟩

theorem At.readByte {b : UInt8} (h : At c s v (b :: ahead)) :
    ∃ s', c.readByte s = some (b, s') ∧ At c s' v ahead := by
  obtain ⟨s', hread, hat⟩ := At.readVal [b] h (by simp)
  refine ⟨s', ?_, hat⟩
  unfold Config.readByte
  rw [show (1 : ℕ) = [b].length from rfl, hread]
  rfl

/-- Of a number the lowest 32 bits are read back. -/
theorem readU32_u32le_mod (n : ℕ) : readU32 (u32le n) = some (n % 2 ^ 32, []) := by
  simp only [u32le, readU32, UInt8.toNat_ofNat']
  congr 2
  omega

theorem At.readWord {n : ℕ} (h : At c s v (u32le n ++ ahead)) :
    ∃ s', c.readWord s = some (n % 2 ^ 32, s') ∧ At c s' v ahead := by
  obtain ⟨s', hread, hat⟩ := At.readVal (u32le n) h (by simp [u32le])
  refine ⟨s', ?_, hat⟩
  unfold Config.readWord
  rw [show (4 : ℕ) = (u32le n).length from rfl, hread, Option.bind_some,
    readU32_u32le_mod]
  rfl

/-- **The length of a row is read as an `int`**, which it is up to `2 ^ 31`
edges. -/
theorem At.readLength {n : ℕ} (hn : 0 < n) (h : At c s v (countBytes n ++ ahead)) :
    ∃ ns s₁ s₂, c.readByte s = some (ns, s₁) ∧ ns ≠ 0
      ∧ c.readLength ns s₁ = some (toInt32 n, s₂) ∧ At c s₂ v ahead := by
  unfold countBytes at h
  split at h
  · next hlt =>
    obtain ⟨s₁, hread, hat⟩ := At.readByte h
    have hnat : (UInt8.ofNat n).toNat = n := by
      rw [UInt8.toNat_ofNat']
      omega
    have hne : ∀ k : UInt8, k.toNat ≠ n → UInt8.ofNat n ≠ k := fun k hk heq =>
      hk (heq ▸ hnat)
    have hzero : (0 : UInt8).toNat = 0 := rfl
    have hff : (0xff : UInt8).toNat = 255 := rfl
    refine ⟨_, s₁, s₁, hread, hne 0 (by omega), ?_, hat⟩
    unfold Config.readLength
    rw [if_neg (hne 0xff (by omega)), hnat]
    rw [Reshard.toInt32_natCast (by omega)]
  · next hge =>
    have h : At c s v (0xff :: (u32le n ++ ahead)) := h
    obtain ⟨s₁, hread, hat⟩ := h.readByte
    obtain ⟨s₂, hword, hat⟩ := At.readWord hat
    refine ⟨0xff, s₁, s₂, hread, by decide, ?_, hat⟩
    unfold Config.readLength
    have hint : toInt32 ((n % 2 ^ 32 : ℕ) : ℤ) = toInt32 n := by
      unfold toInt32
      rw [Int.natCast_mod]
      exact Int.emod_bmod _ _
    rw [if_pos (by decide), hword, Option.map_some, hint]

/-- The destinations of a row are read back. -/
theorem At.readTargets {ts : List ℕ} (hts : ∀ t ∈ ts, t < 2 ^ 32)
    (hrange : ∀ t ∈ ts, c.rangeSt ≤ t ∧ t ≤ c.rangeEnd)
    (h : At c s v (ts.flatMap u32le ++ ahead)) :
    ∃ s', c.readTargets ts.length s = some (ts, s') ∧ At c s' v ahead := by
  induction ts generalizing s with
  | nil => exact ⟨s, rfl, h⟩
  | cons t ts ih =>
    rw [List.flatMap_cons, List.append_assoc] at h
    obtain ⟨s₁, hword, hat⟩ := At.readWord h
    obtain ⟨s', hread, hat⟩ := ih (fun u hu => hts u (List.mem_cons_of_mem _ hu))
      (fun u hu => hrange u (List.mem_cons_of_mem _ hu)) hat
    refine ⟨s', ?_, hat⟩
    rw [List.length_cons, Config.readTargets, hword, Option.bind_some,
      Nat.mod_eq_of_lt (hts t List.mem_cons_self),
      if_pos (hrange t List.mem_cons_self), hread]
    rfl

/-- As many destinations are read as are asked for. -/
theorem length_readTargets {n : ℕ} {r : List ℕ × State}
    (h : c.readTargets n s = some r) : r.1.length = n := by
  induction n generalizing s r with
  | zero =>
    obtain rfl := Option.some.inj h
    rfl
  | succ n ih =>
    rw [Config.readTargets] at h
    obtain ⟨target, -, h⟩ := Option.bind_eq_some_iff.mp h
    split at h
    · obtain ⟨r', hr', rfl⟩ := Option.map_eq_some_iff.mp h
      exact congrArg (· + 1) (ih hr')
    · exact absurd h (by simp)

/-- Bytes are passed over. -/
theorem At.skip {bytes : List UInt8} {n : ℕ} (h : At c s v (bytes ++ ahead))
    (hbytes : bytes.length = 4 * n) (hn : n < 2 ^ 29) :
    ∃ s', s.skip n = some s' ∧ At c s' v ahead := by
  have hdrop := congrArg List.length h.drop
  rw [List.length_drop, List.length_append] at hdrop
  have hle := h.le
  have hoffset : ((s.adjoffset : ℤ) + (n : ℤ) * 4).toNat
      = s.adjoffset + bytes.length := by
    omega
  refine ⟨⟨s.curvid, s.adjoffset + bytes.length, s.curadjblock⟩, ?_, h.curvid, ?_, ?_,
    fun b hb => ?_⟩
  · unfold State.skip
    rw [if_pos (by omega), if_pos (by omega), hoffset]
  · show s.adjoffset + bytes.length ≤ _
    omega
  · show c.file.drop (s.adjoffset + bytes.length) = ahead
    rw [← List.drop_drop, h.drop, List.drop_left]
  · obtain ⟨hoff, hdata⟩ := h.block b hb
    exact ⟨hoff.trans (Nat.le_add_right _ _), hdata⟩

theorem At.pass {n : ℕ} (h : At c s v ahead) (hn : v + n < 2 ^ 32) :
    At c (s.pass n) (v + n) ahead := by
  refine ⟨?_, h.le, h.drop, h.block⟩
  show (s.curvid + n) % 2 ^ 32 = v + n
  rw [h.curvid, Nat.mod_eq_of_lt hn]

end Bytes

/-! ## Items -/

section Items

variable {c : Config} (nvecs start fuel : ℕ) {v : ℕ} {i : ℤ} {s : State}
  {ahead : List UInt8}

/-- There are bytes ahead of a reader that has a row ahead. -/
theorem At.lt (h : At c s v ahead) (hne : ahead ≠ []) : s.adjoffset < c.file.length :=
  h.lt_iff.mpr hne

/-- A run of vertices without edges. -/
theorem At.readFrom_skip {more : ℕ} (h : At c s v (encodeItem (.skip more) ++ ahead))
    (hmore : more < 256) (hi : i < nvecs) (hv : v + (1 + more) < 2 ^ 32) :
    ∃ s', At c s' (v + (1 + more)) ahead
      ∧ c.readFrom nvecs start (fuel + 1) i s
        = c.readFrom nvecs start fuel (i + more + 1) s' := by
  obtain ⟨s₁, hns, hat₁⟩ := At.readByte (b := 0) h
  obtain ⟨s₂, hnz, hat₂⟩ := At.readByte (b := UInt8.ofNat more) hat₁
  have hnat : (UInt8.ofNat more).toNat = more := by
    rw [UInt8.toNat_ofNat']
    exact Nat.mod_eq_of_lt hmore
  refine ⟨s₂.pass (1 + more), hat₂.pass hv, ?_⟩
  rw [Config.readFrom, if_pos ⟨hi, h.lt (by simp [encodeItem])⟩, hns, Option.bind_some,
    if_pos rfl, hnz, Option.bind_some, hnat]

/-- The bytes of a row are its length and its destinations. -/
theorem encode_row_ne_nil {n : ℕ} : countBytes n ++ ahead ≠ [] := by
  unfold countBytes
  split <;> simp

/-- A row before the window is passed over. -/
theorem At.readFrom_pass {ts : List ℕ} (h : At c s v (encodeItem (.row ts) ++ ahead))
    (hts : ts ≠ []) (hlength : ts.length < 2 ^ 29) (hi : i < 0) (hv : v + 1 < 2 ^ 32) :
    ∃ s', At c s' (v + 1) ahead
      ∧ c.readFrom nvecs start (fuel + 1) i s
        = c.readFrom nvecs start fuel (i + 1) s' := by
  rw [encodeItem, List.append_assoc] at h
  obtain ⟨ns, s₁, s₂, hns, hne, hn, hat⟩ := At.readLength (List.length_pos_iff.mpr hts) h
  have hint : toInt32 ts.length = ts.length := Reshard.toInt32_natCast (by omega)
  have hbytes : (ts.flatMap u32le).length = 4 * ts.length := by
    rw [List.length_flatMap]
    show (ts.map fun _ => 4).sum = _
    rw [List.map_const', List.sum_replicate, smul_eq_mul, Nat.mul_comm]
  obtain ⟨s₃, hskip, hat⟩ := hat.skip hbytes hlength
  refine ⟨s₃.pass 1, hat.pass hv, ?_⟩
  rw [Config.readFrom, if_pos ⟨by omega, h.lt encode_row_ne_nil⟩, hns, Option.bind_some,
    if_neg hne, hn, Option.bind_some, if_pos hi, hint, hskip, Option.bind_some]

/-- A row of the window is read. -/
theorem At.readFrom_row {ts : List ℕ} (h : At c s v (encodeItem (.row ts) ++ ahead))
    (hvalid : (Item.row ts).Valid) (hlength : ts.length < 2 ^ 31)
    (hrange : ∀ t ∈ ts, c.rangeSt ≤ t ∧ t ≤ c.rangeEnd) (hi : 0 ≤ i) (hlt : i < nvecs)
    (hcur : start + i = v) (hv : v + 1 < 2 ^ 32) :
    ∃ s', At c s' (v + 1) ahead
      ∧ c.readFrom nvecs start (fuel + 1) i s
        = (c.readFrom nvecs start fuel (i + 1) s').map fun r =>
          (ts.map (fun t => (v, t)) ++ r.1, r.2) := by
  obtain ⟨hts, -, hbound⟩ := hvalid
  rw [encodeItem, List.append_assoc] at h
  obtain ⟨ns, s₁, s₂, hns, hne, hn, hat⟩ := At.readLength (List.length_pos_iff.mpr hts) h
  have hint : toInt32 ts.length = ts.length := Reshard.toInt32_natCast (by omega)
  obtain ⟨s₃, hread, hat⟩ := hat.readTargets hbound hrange
  have hrow : c.readRow (toInt32 ts.length) s₂ = some (ts, s₃) := by
    unfold Config.readRow
    rw [hint, if_neg (by omega), Int.toNat_natCast, hread]
  refine ⟨s₃.pass 1, hat.pass hv, ?_⟩
  have hcurvid : start + i = s.curvid := by rw [h.curvid, hcur]
  rw [Config.readFrom, if_pos ⟨hlt, h.lt encode_row_ne_nil⟩, hns, Option.bind_some,
    if_neg hne, hn, Option.bind_some, if_neg (by omega), if_pos hcurvid, hrow,
    Option.bind_some, h.curvid]

/-- **A row of `2 ^ 29` edges cannot be passed over.** -/
theorem At.readFrom_pass_eq_none {ts : List ℕ}
    (h : At c s v (encodeItem (.row ts) ++ ahead)) (hle : 2 ^ 29 ≤ ts.length)
    (hlt : ts.length < 2 ^ 31) (hi : i < 0) :
    c.readFrom nvecs start (fuel + 1) i s = none := by
  rw [encodeItem, List.append_assoc] at h
  obtain ⟨ns, s₁, s₂, hns, hne, hn, -⟩ := At.readLength (by omega) h
  have hint : toInt32 ts.length = ts.length := Reshard.toInt32_natCast (by omega)
  have hskip : s₂.skip ts.length = none := by
    unfold State.skip
    rw [if_neg (by omega)]
  rw [Config.readFrom, if_pos ⟨by omega, h.lt encode_row_ne_nil⟩, hns, Option.bind_some,
    if_neg hne, hn, Option.bind_some, if_pos hi, hint, hskip, Option.bind_none]

/-- **A row of `2 ^ 31` edges is not read as a whole**, in a window of its
own. -/
theorem At.length_readFrom_row {ts : List ℕ} {r : List (ℕ × ℕ) × State}
    (h : At c s v (encodeItem (.row ts) ++ ahead)) (hle : 2 ^ 31 ≤ ts.length)
    (hr : c.readFrom 1 v (fuel + 1) 0 s = some r) : r.1.length < ts.length := by
  rw [encodeItem, List.append_assoc] at h
  obtain ⟨ns, s₁, s₂, hns, hne, hn, hat⟩ := At.readLength (by omega) h
  have hcurvid : (v : ℤ) + 0 = s.curvid := by rw [h.curvid, Int.add_zero]
  rw [Config.readFrom, if_pos ⟨by norm_num, h.lt encode_row_ne_nil⟩, hns,
    Option.bind_some, if_neg hne, hn, Option.bind_some, if_neg (lt_irrefl _),
    if_pos hcurvid] at hr
  obtain ⟨row, hrow, hr⟩ := Option.bind_eq_some_iff.mp hr
  obtain ⟨r', hr', rfl⟩ := Option.map_eq_some_iff.mp hr
  have hnil : r'.1 = [] := by
    cases fuel with
    | zero =>
      obtain rfl := Option.some.inj hr'
      rfl
    | succ fuel =>
      rw [Config.readFrom, if_neg (by omega)] at hr'
      obtain rfl := Option.some.inj hr'
      rfl
  have hlength : row.1.length = (toInt32 ts.length).toNat := by
    unfold Config.readRow at hrow
    dsimp only at hrow
    by_cases hleast : toInt32 ts.length = -2 ^ 31
    · rw [if_pos hleast] at hrow
      exact absurd hrow (by simp)
    · rw [if_neg hleast] at hrow
      exact length_readTargets hrow
  have hint : toInt32 ts.length < 2 ^ 31 := by
    have := Int.bmod_lt (x := (ts.length : ℤ)) (show 0 < 2 ^ 32 by norm_num)
    unfold toInt32
    omega
  rw [List.length_append, List.length_map, hnil, hlength, List.length_nil]
  omega

/-- At the end of the file, or of the window, the loop is left. -/
theorem At.readFrom_stop (h : At c s v ahead) (hstop : ahead = [] ∨ nvecs ≤ i) :
    c.readFrom nvecs start fuel i s = some ([], s) := by
  cases fuel with
  | zero => rfl
  | succ fuel =>
    rw [Config.readFrom, if_neg]
    rintro ⟨hi, hlt⟩
    rcases hstop with rfl | hstop
    · exact h.lt_iff.mp hlt rfl
    · omega

/-- **Items that a window can read**: their rows are valid, those before
the window are short enough to be passed over, those of it to be read, and
their destinations are in the range. -/
structure Readable (c : Config) (start v : ℕ) (its : List Item) : Prop where
  /-- The items are valid. -/
  valid : ∀ it ∈ its, it.Valid
  /-- The vertices are `vid_t`s. -/
  vid : v + span its < 2 ^ 32
  /-- The rows before the window. -/
  passed : ∀ a it b, its = a ++ it :: b → v + span a < start → it.targets.length < 2 ^ 29
  /-- The rows of the window. -/
  read : ∀ it ∈ its, it.targets.length < 2 ^ 31
  /-- The destinations. -/
  range : ∀ it ∈ its, ∀ t ∈ it.targets, c.rangeSt ≤ t ∧ t ≤ c.rangeEnd

/-- The items behind the first. -/
theorem Readable.tail {it : Item} {its : List Item} (h : Readable c start v (it :: its)) :
    Readable c start (v + it.span) its := by
  refine ⟨fun i hi => h.valid i (List.mem_cons_of_mem _ hi), ?_, fun a i b hits hlt => ?_,
    fun i hi => h.read i (List.mem_cons_of_mem _ hi),
    fun i hi => h.range i (List.mem_cons_of_mem _ hi)⟩
  · have := h.vid
    rw [span_cons] at this
    omega
  · refine h.passed (it :: a) i b (by rw [hits]; rfl) ?_
    rw [span_cons]
    omega

/-- **The loop reads the rows of its window**, when it is left within the items
or they are all that is ahead. The induction is on the items, as the loop takes
them. -/
theorem At.readFrom_encode {nvecs start fuel : ℕ} {its : List Item}
    (hread : Readable c start v its)
    (hend : ahead = [] ∨ start + nvecs ≤ v + span its)
    (h : At c s v (encode its ++ ahead)) (hi : start + i = v)
    (hfuel : nvecs - i ≤ fuel) :
    ∃ s', c.readFrom nvecs start fuel i s
        = some ((readRows start (start + nvecs) v its).1, s')
      ∧ At c s' (readRows start (start + nvecs) v its).2.curvid
          (encode (readRows start (start + nvecs) v its).2.rest ++ ahead) := by
  induction its generalizing fuel v i s with
  | nil =>
    refine ⟨s, h.readFrom_stop _ _ _ (hend.imp id fun hle => ?_), h⟩
    rw [span_nil] at hle
    omega
  | cons it its ih =>
    -- the window ends before this item
    by_cases hlt : start + nvecs ≤ v
    · refine ⟨s, ?_, ?_⟩
      · rw [h.readFrom_stop _ _ _ (.inr (by omega)), readRows, if_pos hlt]
      · rw [readRows, if_pos hlt]
        exact h
    · obtain ⟨f, rfl⟩ : ∃ f, fuel = f + 1 := ⟨fuel - 1, by omega⟩
      have hvid := hread.vid
      have hpos := it.span_pos
      rw [span_cons] at hvid hend
      rw [encode_cons, List.append_assoc] at h
      have hend' : ahead = [] ∨ start + nvecs ≤ v + it.span + span its :=
        hend.imp id fun hle => by omega
      unfold readRows
      rw [if_neg hlt]
      cases it with
      -- vertices without edges, which may reach beyond the window
      | skip more =>
        obtain ⟨s₁, hat, hstep⟩ := At.readFrom_skip nvecs start f (i := i) h
          (hread.valid _ List.mem_cons_self) (by omega) (by simp only [Item.span] at hvid; omega)
        have hspan : (Item.skip more).span = 1 + more := rfl
        have hfuel' : (nvecs : ℤ) - (i + more + 1) ≤ f := by omega
        obtain ⟨s', hrest, hat'⟩ := ih hread.tail hend' (hspan ▸ hat)
          (by rw [hspan]; omega) hfuel'
        refine ⟨s', ?_, hat'⟩
        rw [hstep, hrest]
        show _ = some ((if v < start then [] else []) ++ _, _)
        rw [ite_self]
        rfl
      | row ts =>
        have hvalid := hread.valid _ List.mem_cons_self
        -- a row before the window is passed over
        by_cases hbefore : v < start
        · obtain ⟨s₁, hat, hstep⟩ := At.readFrom_pass nvecs start f (i := i) h hvalid.1
            (hread.passed [] _ _ rfl hbefore) (by omega)
            (by simp only [Item.span] at hvid; omega)
          have hspan : (Item.row ts).span = 1 := rfl
          have hfuel' : (nvecs : ℤ) - (i + 1) ≤ f := by omega
          obtain ⟨s', hrest, hat'⟩ := ih hread.tail hend' hat
            (by rw [hspan]; omega) hfuel'
          refine ⟨s', ?_, hat'⟩
          rw [hstep, hrest, if_pos hbefore]
          rfl
        · -- a row of the window is read
          obtain ⟨s₁, hat, hstep⟩ := At.readFrom_row nvecs start f (i := i) h hvalid
            (hread.read _ List.mem_cons_self) (hread.range _ List.mem_cons_self)
            (by omega) (by omega) hi (by simp only [Item.span] at hvid; omega)
          have hspan : (Item.row ts).span = 1 := rfl
          have hfuel' : (nvecs : ℤ) - (i + 1) ≤ f := by omega
          obtain ⟨s', hrest, hat'⟩ := ih hread.tail hend' hat
            (by rw [hspan]; omega) hfuel'
          refine ⟨s', ?_, hat'⟩
          rw [hstep, hrest, if_neg hbefore]
          rfl

/-- **Items before the window are passed over**: the loop counts their vertices,
and gives none of their edges. -/
theorem At.readFrom_over {nvecs start fuel : ℕ} {its : List Item}
    (hread : Readable c start v its) (hover : v + span its ≤ start)
    (h : At c s v (encode its ++ ahead)) (hi : start + i = v)
    (hfuel : nvecs - i ≤ fuel) :
    ∃ s' f, At c s' (v + span its) ahead
      ∧ c.readFrom nvecs start fuel i s
        = c.readFrom nvecs start f ((v + span its : ℕ) - (start : ℤ)) s'
      ∧ nvecs - ((v + span its : ℕ) - (start : ℤ)) ≤ f := by
  induction its generalizing fuel v i s with
  | nil =>
    have hieq : i = ((v + span [] : ℕ) : ℤ) - start := by
      rw [span_nil]
      omega
    refine ⟨s, fuel, h, by rw [← hieq], by rw [← hieq]; exact hfuel⟩
  | cons it its ih =>
    have hvid := hread.vid
    have hpos := it.span_pos
    rw [span_cons] at hover hvid
    rw [span_cons, ← Nat.add_assoc]
    rw [encode_cons, List.append_assoc] at h
    obtain ⟨f, rfl⟩ : ∃ f, fuel = f + 1 := ⟨fuel - 1, by omega⟩
    cases it with
    | skip more =>
      have hspan : (Item.skip more).span = 1 + more := rfl
      obtain ⟨s₁, hat, hstep⟩ := At.readFrom_skip nvecs start f (i := i) h
        (hread.valid _ List.mem_cons_self) (by omega) (by omega)
      have hfuel' : (nvecs : ℤ) - (i + more + 1) ≤ f := by omega
      rw [hstep]
      exact ih hread.tail (by omega) (hspan ▸ hat) (by rw [hspan]; omega) hfuel'
    | row ts =>
      have hspan : (Item.row ts).span = 1 := rfl
      obtain ⟨s₁, hat, hstep⟩ := At.readFrom_pass nvecs start f (i := i) h
        (hread.valid _ List.mem_cons_self).1
        (hread.passed [] _ _ rfl (by rw [span_nil]; omega)) (by omega) (by omega)
      have hfuel' : (nvecs : ℤ) - (i + 1) ≤ f := by omega
      rw [hstep]
      exact ih hread.tail (by omega) hat (by rw [hspan]; omega) hfuel'

end Items

/-! ## Windows -/

section Windows

variable {c : Config} {s : State} {its : List Item} {last : ℕ}

/-- **A file that can be streamed** up to the vertex `last`: what its rows must
keep to for the `int`s of the reader. -/
structure Streamable (c : Config) (its : List Item) (last : ℕ) : Prop where
  /-- The file stands for the items. -/
  file : c.file = encode its
  /-- The vertices are below `2 ^ 31`. -/
  last_lt : last < 2 ^ 31
  /-- The rows end there. -/
  span_le : span its ≤ last + 1
  /-- The items are valid. -/
  valid : ∀ it ∈ its, it.Valid
  /-- A row that may be passed over. -/
  passed : ∀ a it b, its = a ++ it :: b → span a < last → it.targets.length < 2 ^ 29
  /-- Any row. -/
  read : ∀ it ∈ its, it.targets.length < 2 ^ 31
  /-- The destinations. -/
  range : ∀ it ∈ its, ∀ t ∈ it.targets, c.rangeSt ≤ t ∧ t ≤ c.rangeEnd

/-- `move_close_to` leaves the reader where it is. -/
theorem moveCloseTo_eq {st : ℕ} (hst : st < 2 ^ 31) : moveCloseTo st s = some s := by
  unfold moveCloseTo lowerBound
  split
  · rfl
  · next hlt =>
    have hint : ∀ n : ℕ, n < 2 ^ 31 → toInt32 n = n := fun n hn =>
      Reshard.toInt32_natCast hn
    rw [hint st hst, hint s.curvid (by omega), if_pos (by omega), Option.bind_some,
      if_pos (by omega)]

/-- **Behind the vertices that an `int` holds** it finds nothing. -/
theorem moveCloseTo_eq_none {st : ℕ} (hst : 2 ^ 31 ≤ st) (hlt : st < 2 ^ 32)
    (hcur : s.curvid < st) : moveCloseTo st s = none := by
  have hint : toInt32 st = st - 2 ^ 32 := by
    unfold toInt32
    rw [← Int.sub_bmod_right, Int.bmod_eq_of_le (by omega) (by omega)]
    norm_num
  unfold moveCloseTo lowerBound
  rw [if_neg (by omega), hint, if_neg (by omega)]
  rfl

/-- **A window is read by a cursor** that has passed none of its rows: the loop
starts where the cursor is, skips to the window and reads to its end. -/
theorem At.readNextVertices (hs : Streamable c its last) {cur : Cursor} {st en : ℕ}
    (h : At c s cur.curvid (encode cur.rest)) (hahead : cur.Ahead its st) (hle : st ≤ en)
    (hen : en ≤ last) :
    ∃ s', c.readNextVertices (en + 1 - st) st s = some ((cur.read st (en + 1)).1, s')
      ∧ At c s' (cur.read st (en + 1)).2.curvid (encode (cur.read st (en + 1)).2.rest) := by
  have hlast := hs.last_lt
  unfold Config.readNextVertices
  rw [moveCloseTo_eq (by omega), Option.bind_some]
  -- the file has come to its end before
  by_cases hrest : cur.rest = []
  · refine ⟨s, ?_, ?_⟩
    · rw [Cursor.read_of_rest_nil hrest]
      exact h.readFrom_stop _ _ _ (.inl (by rw [hrest]; rfl))
    · rw [Cursor.read_of_rest_nil hrest]
      exact h
  · obtain ⟨done, hits, hvid, -⟩ := hahead
    have hspan : span its = cur.curvid + span cur.rest := by
      rw [hvid, hits, span_append]
    have hpos : 0 < span cur.rest := by
      obtain ⟨it, rest, heq⟩ := List.exists_cons_of_ne_nil hrest
      rw [heq, span_cons]
      have := it.span_pos
      omega
    have hspanle := hs.span_le
    -- the vertex numbers are below `2 ^ 31`, so that the `int`s hold them
    have hint : ∀ n : ℕ, n < 2 ^ 31 → toInt32 n = n := fun n hn =>
      Reshard.toInt32_natCast hn
    have hmem : ∀ it ∈ cur.rest, it ∈ its := fun it hit =>
      hits ▸ List.mem_append_right _ hit
    have hread : Readable c st cur.curvid cur.rest :=
      ⟨fun it hit => hs.valid it (hmem it hit), by omega,
        fun a it b heq hlt => hs.passed (done ++ a) it b
          (by rw [List.append_assoc, ← heq, ← hits])
          (by rw [span_append, ← hvid]; omega),
        fun it hit => hs.read it (hmem it hit), fun it hit => hs.range it (hmem it hit)⟩
    rw [h.curvid, hint _ (by omega), hint st (by omega)]
    have hnvecs : st + (en + 1 - st) = en + 1 := by omega
    have hfuel := Int.self_le_toNat
      (((en + 1 - st : ℕ) : ℤ) - ((cur.curvid : ℤ) - st))
    obtain ⟨s', hfrom, hat⟩ := At.readFrom_encode hread (.inl rfl)
      (by rw [List.append_nil]; exact h) (by omega) hfuel
    rw [hnvecs, List.append_nil] at hat
    rw [hnvecs] at hfrom
    exact ⟨s', hfrom, hat⟩

/-- **Consecutive windows give their rows.** -/
theorem At.readWindows (hs : Streamable c its last) {ws : List (ℕ × ℕ)} {cur : Cursor}
    {a b : ℕ} (h : At c s cur.curvid (encode cur.rest)) (htiles : Tiles a ws b)
    (hahead : cur.Ahead its a) (hws : ∀ w ∈ ws, w.1 ≤ w.2) (hb : b ≤ last + 1) :
    c.readWindows ws s = some (ws.map fun w =>
      (expand 0 its).filter fun q => decide (w.1 ≤ q.1 ∧ q.1 < w.2 + 1)) := by
  induction ws generalizing s cur a with
  | nil => rfl
  | cons w ws ih =>
    obtain ⟨hfirst, -, hrest⟩ := htiles
    have hle := hws w List.mem_cons_self
    have hend := hrest.le
    have hahead' : cur.Ahead its w.1 := hfirst.symm ▸ hahead
    obtain ⟨s', hread, hat⟩ := At.readNextVertices hs h hahead' hle (by omega)
    rw [Config.readWindows, hread, Option.bind_some,
      ih hat hrest (hahead'.read_snd (by omega)) fun w' hw' =>
        hws w' (List.mem_cons_of_mem _ hw'), Option.map_some, hahead'.read_fst]
    rfl

end Windows

end SlidingShard
