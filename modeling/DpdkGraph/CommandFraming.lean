import Mathlib
import DpdkGraph.Transfer

/-!
# A command arrives as it was sent

`roundTrip_iff` says when the handler is called with exactly the header and
the data that were given to `BufferSenderExec`, in however many pieces the
stream arrives: whenever their sizes fit the numbers that are sent for them.
The size of the head is an `int`; a header with which it does not fit is not
sent at all.

A `Shovel` command carries two numbers in its header. `sharder_handle` cuts
them out again between the delimiters (`sharderHandle_shovelHeader`).
-/

namespace Transfer

open Reshard (toInt32 toInt32_natCast)
open ByteStream (reada Pieces)
open Text (ascii decimal findFirst findLast substr scan findFirst_append
  findLast_append substr_append substr_toEnd scan_decimal notMem_decimal)

/-! ## The data -/

theorem toInt64_lt (x : ℤ) : toInt64 x < 2 ^ 63 := by
  have h := Int.bmod_lt (x := x) (m := 2 ^ 64) (by decide)
  unfold toInt64
  omega

/-- `long`s that fit. -/
theorem toInt64_natCast {n : ℕ} (h : n < 2 ^ 63) :
    toInt64 ((n % 2 ^ 64 : ℕ) : ℤ) = n := by
  unfold toInt64
  rw [Nat.mod_eq_of_lt (by omega)]
  exact Int.bmod_eq_of_le (by omega) (by omega)

/-- The data of a command are as long as announced. -/
theorem length_of_recvCommand {r : Reception} {data : List UInt8}
    (h : recvCommand r = .ok data) : (data.length : ℤ) = max 0 r.sz := by
  unfold recvCommand at h
  split at h
  · next hpos =>
    split at h
    · exact absurd h (by simp)
    · dsimp only at h
      split at h
      · next hlen =>
        rw [Except.ok.injEq] at h
        rw [← h, hlen]
        omega
      · exact absurd h (by simp)
  · split at h
    · next hzero =>
      rw [Except.ok.injEq] at h
      rw [← h, List.length_nil]
      omega
    · exact absurd h (by simp)

/-- What has come with the head and what comes after it are the data. -/
theorem recvCommand_pieces {kind : UInt8} {head data : List UInt8} {n : ℕ}
    (d : Pieces (data.drop n)) :
    recvCommand ⟨kind, head, data.length, data.take n, d.list⟩ = .ok data := by
  have hextra : (data.take n).length ≤ data.length := List.length_take_le' n data
  unfold recvCommand
  dsimp only
  split
  · next hpos =>
    have hrest : ((data.length : ℤ) - (data.take n).length).toNat =
        (data.drop n).length := by
      rw [List.length_take, List.length_drop]
      omega
    have hall : data.take n ++ (reada ((data.length : ℤ) -
        (data.take n).length).toNat d.list).1 = data := by
      rw [hrest, d.reada_eq, List.take_length, List.take_append_drop]
    rw [if_neg (by omega), hall, if_pos rfl]
  · next hpos =>
    have hnil : data = [] := List.eq_nil_of_length_eq_zero (by omega)
    subst hnil
    rw [List.take_nil, List.length_nil, if_pos rfl]

/-! ## The round trip -/

/-- **What the handler is called with is what was sent**, in however many
pieces it arrives. -/
def RoundTrip (b : BufferSenderExec) : Prop :=
  ∃ bytes, b.send = .ok bytes ∧ ∀ (dir : Directory) (c : Pieces bytes),
    recv dir c.list = .ok (.command b.headtip b.buffer)

/-- What is sent for a header that fits. -/
theorem send_of_length_lt {b : BufferSenderExec}
    (h : b.headtip.length + 14 < 2 ^ 31) :
    b.send =
      .ok (headBytes (kindC :: b.headtip) b.buffer.length ++ b.buffer) := by
  unfold BufferSenderExec.send
  rw [toInt32_natCast (by omega), if_neg (by omega), if_neg (by omega)]

/-- A header that does not fit is not sent. -/
theorem send_of_le_length {b : BufferSenderExec}
    (h : 2 ^ 31 ≤ b.headtip.length + 14) (bytes : List UInt8) :
    b.send ≠ .ok bytes := by
  have hint := Int.bmod_lt (m := 2 ^ 32) (by decide)
    (x := ((max 128 (b.headtip.length + 2 + 4 + 8) : ℕ) : ℤ))
  intro hsend
  unfold BufferSenderExec.send toInt32 at hsend
  dsimp only at hsend
  split at hsend
  · exact absurd hsend (by simp)
  · rw [if_pos (by omega)] at hsend
    exact absurd hsend (by simp)

/-- What a command that arrives begins with. -/
theorem recv_command {b : BufferSenderExec}
    (h : b.headtip.length + 14 < 2 ^ 31) (dir : Directory)
    (c : Pieces (headBytes (kindC :: b.headtip) b.buffer.length ++ b.buffer)) :
    ∃ (n : ℕ) (d : Pieces (b.buffer.drop n)), recv dir c.list =
      (recvCommand ⟨kindC, b.headtip,
        toInt64 ((b.buffer.length % 2 ^ 64 : ℕ) : ℤ), b.buffer.take n,
        d.list⟩).map fun data => .command b.headtip data := by
  obtain ⟨n, d, hhead⟩ := recvHead_pieces b.noNul h c
  refine ⟨n, d, ?_⟩
  unfold recv
  rw [hhead]
  dsimp only
  rw [if_pos rfl]

/-- **A command makes the round trip if and only if its sizes fit**: the size of
the head with its fields is an `int`, and the size of the payload takes eight
bytes. -/
theorem roundTrip_iff (b : BufferSenderExec) :
    RoundTrip b ↔
      b.headtip.length + 14 < 2 ^ 31 ∧ b.buffer.length < 2 ^ 63 := by
  constructor
  · rintro ⟨bytes, hsend, hrecv⟩
    have hlen : b.headtip.length + 14 < 2 ^ 31 := by
      by_contra hlong
      exact send_of_le_length (not_lt.mp hlong) bytes hsend
    refine ⟨hlen, ?_⟩
    rw [send_of_length_lt hlen, Except.ok.injEq] at hsend
    subst hsend
    have hdir := hrecv (fun _ => none) (Pieces.single _)
    obtain ⟨n, d, heq⟩ := recv_command hlen (fun _ => none) (Pieces.single _)
    rw [heq] at hdir
    cases hcommand : recvCommand ⟨kindC, b.headtip,
        toInt64 ((b.buffer.length % 2 ^ 64 : ℕ) : ℤ), b.buffer.take n,
        d.list⟩ with
    | error fault =>
      rw [hcommand] at hdir
      exact absurd hdir (by simp [Except.map])
    | ok data =>
      rw [hcommand] at hdir
      have hdata : data = b.buffer := by simpa [Except.map] using hdir
      have hsize := length_of_recvCommand hcommand
      have hlt := toInt64_lt ((b.buffer.length % 2 ^ 64 : ℕ) : ℤ)
      rw [hdata] at hsize
      dsimp only at hsize
      omega
  · rintro ⟨hlen, hsize⟩
    refine ⟨_, send_of_length_lt hlen, fun dir c => ?_⟩
    obtain ⟨n, d, heq⟩ := recv_command hlen dir c
    rw [heq, toInt64_natCast hsize, recvCommand_pieces]
    rfl

/-! ## The handler -/

/-- `"Shovel:"`. -/
def shovelText : List UInt8 := ascii ['S', 'h', 'o', 'v', 'e', 'l', ':']

/-- `" Offset:"`. -/
def offsetText : List UInt8 := ascii [' ', 'O', 'f', 'f', 's', 'e', 't', ':']

/-- The header of a `Shovel` command, as it is formatted in
`finish_reshovel_block` and `finish_reshovel`. -/
def shovelHeader (shardindex offset : ℤ) : List UInt8 :=
  shovelText ++ decimal shardindex ++ offsetText ++ decimal offset

/-- What `sharder_handle` does with a command. -/
inductive Handled
  | preInfo
  | duty
  | shovel (shardindex offset : ℤ)
  | reshard
  | ignored
deriving DecidableEq, Repr

/-- The two numbers of a `Shovel` command; a number that is not there is
left as it happens to be. -/
def scanShovel (command : List UInt8) : Option (ℤ × ℤ) :=
  let left := findFirst 58 command
  let mid := findFirst 32 command
  let right := findLast 58 command
  (scan (substr command (left + 1) (mid - left))).bind fun shardindex =>
    (scan (substr command (right + 1) (-1))).map fun offset =>
      (toInt32 (clampLong shardindex), clampLong offset)

/-- **`sharder_handle`**: which of the commands it takes it for. -/
def sharderHandle (command : List UInt8) : Option Handled :=
  if command = ascii ['P', 'r', 'e', 'I', 'n', 'f', 'o'] then some .preInfo
  else if command = ascii ['D', 'u', 't', 'y'] then some .duty
  else if shovelText <:+: command then
    (scanShovel command).map fun numbers => .shovel numbers.1 numbers.2
  else if command = ascii ['R', 'e', 's', 'h', 'a', 'r', 'd'] then some .reshard
  else some .ignored

/-- The first colon, the first blank and the last colon of the header. -/
theorem delimiters_shovelHeader (shardindex offset : ℤ) :
    findFirst 58 (shovelHeader shardindex offset) = 6 ∧
      findFirst 32 (shovelHeader shardindex offset) =
        7 + (decimal shardindex).length ∧
      findLast 58 (shovelHeader shardindex offset) =
        14 + (decimal shardindex).length := by
  have hcolon : (58 : UInt8) ∉ decimal offset :=
    notMem_decimal offset (by decide) (by decide)
  have hblank : (32 : UInt8) ∉ shovelText ++ decimal shardindex := by
    rw [List.mem_append, not_or]
    exact ⟨by decide, notMem_decimal shardindex (by decide) (by decide)⟩
  refine ⟨?_, ?_, ?_⟩
  · exact findFirst_append (a := ascii ['S', 'h', 'o', 'v', 'e', 'l'])
      (by decide) (decimal shardindex ++ offsetText ++ decimal offset)
  · have h := findFirst_append hblank
      (ascii ['O', 'f', 'f', 's', 'e', 't', ':'] ++ decimal offset)
    rw [List.length_append] at h
    have hsplit : shovelHeader shardindex offset =
        shovelText ++ decimal shardindex ++ 32 ::
          (ascii ['O', 'f', 'f', 's', 'e', 't', ':'] ++ decimal offset) := by
      unfold shovelHeader
      rw [List.append_assoc (shovelText ++ decimal shardindex)]
      rfl
    rw [hsplit, h]
    rfl
  · have h := findLast_append hcolon (shovelText ++ decimal shardindex ++
      ascii [' ', 'O', 'f', 'f', 's', 'e', 't'])
    rw [List.length_append, List.length_append] at h
    have hsplit : shovelHeader shardindex offset =
        shovelText ++ decimal shardindex ++
          ascii [' ', 'O', 'f', 'f', 's', 'e', 't'] ++
            58 :: decimal offset := by
      unfold shovelHeader
      simp [offsetText, ascii]
    rw [hsplit, h]
    show ((7 + (decimal shardindex).length + 7 : ℕ) : ℤ) = _
    omega

/-- The numbers are cut out and scanned as they were formatted. -/
theorem scanShovel_shovelHeader (shardindex offset : ℤ) :
    scanShovel (shovelHeader shardindex offset) =
      some (toInt32 (clampLong shardindex), clampLong offset) := by
  obtain ⟨hleft, hmid, hright⟩ := delimiters_shovelHeader shardindex offset
  -- the number of the shard is what stands between the two colons, with the blank
  have hshard : substr (shovelHeader shardindex offset) (6 + 1)
      (7 + (decimal shardindex).length - 6) = decimal shardindex ++ [32] := by
    have h := substr_append shovelText (decimal shardindex ++ [32])
      (ascii ['O', 'f', 'f', 's', 'e', 't', ':'] ++ decimal offset)
    have hsplit : shovelHeader shardindex offset =
        shovelText ++ (decimal shardindex ++ [32]) ++
          (ascii ['O', 'f', 'f', 's', 'e', 't', ':'] ++ decimal offset) := by
      unfold shovelHeader
      simp [offsetText, ascii]
    have hcount : ((decimal shardindex ++ [(32 : UInt8)]).length : ℤ) =
        7 + (decimal shardindex).length - 6 := by
      rw [List.length_append, List.length_singleton]
      omega
    rw [← hsplit, hcount] at h
    exact h
  -- and the offset is what stands behind the second colon, to the end
  have hoffset : substr (shovelHeader shardindex offset)
      (14 + (decimal shardindex).length + 1) (-1) = decimal offset := by
    have h := substr_toEnd (shovelText ++ decimal shardindex ++ offsetText)
      (decimal offset)
    have hlen : ((shovelText ++ decimal shardindex ++ offsetText).length : ℤ) =
        14 + (decimal shardindex).length + 1 := by
      rw [List.length_append, List.length_append]
      show ((7 + (decimal shardindex).length + 8 : ℕ) : ℤ) = _
      omega
    rw [hlen] at h
    exact h
  have hscan : scan (decimal shardindex ++ [32]) = some shardindex :=
    scan_decimal shardindex fun b hb => by
      rw [Option.mem_def, List.head?_cons, Option.some.injEq] at hb
      rw [← hb]
      rfl
  have hscan' : scan (decimal offset) = some offset := by
    have h : scan (decimal offset ++ []) = some offset :=
      scan_decimal offset fun b hb => absurd hb (by simp)
    rwa [List.append_nil] at h
  unfold scanShovel
  dsimp only
  rw [hleft, hmid, hright, hshard, hoffset, hscan, hscan']
  rfl

/-- **The handler recovers the shard and the offset**, which are printed into
the header and scanned again: the one stands between the first colon and the
first blank, the other behind the last colon. -/
theorem sharderHandle_shovelHeader (shardindex : Int32) (offset : Int64) :
    sharderHandle (shovelHeader shardindex.toInt offset.toInt) =
      some (.shovel shardindex.toInt offset.toInt) := by
  have hhead : ∀ (c : Char) (cs : List Char), UInt8.ofNat c.toNat ≠ 83 →
      shovelHeader shardindex.toInt offset.toInt ≠ ascii (c :: cs) := by
    intro c cs hc h
    exact hc (List.cons.inj h).1.symm
  have hinfix : shovelText <:+: shovelHeader shardindex.toInt offset.toInt := by
    unfold shovelHeader
    rw [List.append_assoc, List.append_assoc]
    exact (List.prefix_append _ _).isInfix
  have hshard : toInt32 (clampLong shardindex.toInt) = shardindex.toInt := by
    have hlow := shardindex.le_toInt
    have hhigh := shardindex.toInt_lt
    unfold toInt32 clampLong
    rw [min_eq_right (by omega), max_eq_right (by omega)]
    exact Int.bmod_eq_of_le (by omega) (by omega)
  have hoffset : clampLong offset.toInt = offset.toInt := by
    have hlow := offset.le_toInt
    have hhigh := offset.toInt_lt
    unfold clampLong
    rw [min_eq_right (by omega), max_eq_right (by omega)]
  unfold sharderHandle
  rw [if_neg (hhead _ _ (by decide)), if_neg (hhead _ _ (by decide)),
    if_pos hinfix, scanShovel_shovelHeader, hshard, hoffset]
  rfl

/-! ## The law -/

/-- **The framing of commands**: the round trip of every command whose sizes
fit, and of the numbers of every `Shovel` command. -/
theorem framing (b : BufferSenderExec) (shardindex : Int32) (offset : Int64) :
    (RoundTrip b ↔
      b.headtip.length + 14 < 2 ^ 31 ∧ b.buffer.length < 2 ^ 63) ∧
    sharderHandle (shovelHeader shardindex.toInt offset.toInt) =
      some (.shovel shardindex.toInt offset.toInt) :=
  ⟨roundTrip_iff b, sharderHandle_shovelHeader shardindex offset⟩

/-- The size of the head of a header of two gigabytes does not fit its
`int`. -/
theorem not_roundTrip_longHeader : ¬∀ b : BufferSenderExec, RoundTrip b := by
  intro h
  have hnul : (0 : UInt8) ∉ List.replicate (2 ^ 31) (65 : UInt8) :=
    fun hmem => absurd (List.eq_of_mem_replicate hmem) (by decide)
  have hfits := ((roundTrip_iff ⟨_, hnul, []⟩).mp (h ⟨_, hnul, []⟩)).1
  dsimp only at hfits
  rw [List.length_replicate] at hfits
  omega

end Transfer
