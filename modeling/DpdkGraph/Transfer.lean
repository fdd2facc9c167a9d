import Mathlib
import DpdkGraph.BlockBuffer
import DpdkGraph.ByteStream
import DpdkGraph.Reshard
import DpdkGraph.Text

/-!
# Commands and files from machine to machine

Each command, and each file, goes over a connection of its own.
`BufferSenderExec` and `FileSenderExec` write a *head* – the length of a
text, the text, and the number of bytes that follow it – and then the bytes;
`ReceiveExec` begins with a read of 256 bytes, in which the head, a part of
it, or also some of the bytes behind it may be.

`recvHead_pieces` says what `recv` knows of a well-formed stream when it is
through with the head, in however many pieces the stream arrives.

A program stops at an assertion that fails, and it goes wrong where it uses
memory that is not its own or that nothing has been stored in (`Fault`).
`malloc` has nothing to give for a negative size.
-/

namespace Transfer

open Reshard (toInt32 toInt32_natCast)
open SparseRows (u32le readU32)
open ByteStream (reada u64le readU64 Pieces readU32_u32le_mod
  readU64_u64le_mod)
open Text (ascii cstr cstr_append findFirst findLast substr)
open BlockBuffer (overwrite)

/-- `(long) x`, for a 64-bit `long`. -/
def toInt64 (x : ℤ) : ℤ := x.bmod (2 ^ 64)

/-- How a program goes wrong. -/
inductive Fault
  /-- An assertion fails. -/
  | assertion
  /-- It reads or writes outside its buffers, or reads what has not been
  stored. -/
  | memory
  /-- It goes on reading at the end of a stream. -/
  | endless
deriving DecidableEq, Repr

/-- `'C'`, the kind of a command. -/
def kindC : UInt8 := 67

/-- `'F'`, the kind of a file. -/
def kindF : UInt8 := 70

/-- What is sent before the data: the length of the text with its NUL, the
text, and the number of bytes of data. -/
def headBytes (text : List UInt8) (sz : ℕ) : List UInt8 :=
  u32le (text.length + 1) ++ text ++ 0 :: u64le sz

/-! ## The senders -/

/-- `BufferSenderExec`. The header, which the source keeps in `headtip`, has
no NUL in it. -/
structure BufferSenderExec where
  headtip : List UInt8
  /-- The head is a text. -/
  noNul : 0 ∉ headtip
  buffer : List UInt8

/-- **`BufferSenderExec::send`**: what it writes to the connection. The
buffer of the head has `head_size` bytes, an `int`. -/
def BufferSenderExec.send (b : BufferSenderExec) : Except Fault (List UInt8) :=
  let headSize := toInt32 ((max 128 (b.headtip.length + 2 + 4 + 8) : ℕ) : ℤ)
  if headSize < 0 then .error .assertion
  else if headSize < b.headtip.length + 2 + 4 + 8 then .error .memory
  else .ok (headBytes (kindC :: b.headtip) b.buffer.length ++ b.buffer)

/-- `BUFFER_SIZE`. -/
def bufferSize : ℕ := 1024 * 1024 * 4

/-- `FileSenderExec`, with the file that it has opened. What `open` accepts
is a name of 1 to 4095 bytes; `lseek` gives its size as an `off_t`. -/
structure FileSenderExec where
  filename : List UInt8
  /-- The name is a text. -/
  noNul : 0 ∉ filename
  nonempty : filename ≠ []
  length_lt : filename.length < 4096
  content : List UInt8
  size_lt : content.length < 2 ^ 63

/-- `"filename:"`. -/
def filenameText : List UInt8 :=
  ascii ['f', 'i', 'l', 'e', 'n', 'a', 'm', 'e', ':']

/-- `" filesize:"`. -/
def filesizeText : List UInt8 :=
  ascii [' ', 'f', 'i', 'l', 'e', 's', 'i', 'z', 'e', ':']

/-- The text of the head of a file, without its kind. -/
def FileSenderExec.headtip (f : FileSenderExec) : List UInt8 :=
  filenameText ++ f.filename ++ filesizeText ++
    Text.decimal (f.content.length : ℤ)

/-- The file, block by block. -/
def sendBlocks (content : List UInt8) : List UInt8 :=
  if content = [] then []
  else content.take bufferSize ++ sendBlocks (content.drop bufferSize)
termination_by content.length
decreasing_by
  have hpos := List.length_pos_iff.mpr ‹content ≠ []›
  rw [List.length_drop, bufferSize]
  omega

/-- **`FileSenderExec::send`**: what it writes to the connection. -/
def FileSenderExec.send (f : FileSenderExec) : List UInt8 :=
  headBytes (kindF :: f.headtip) f.content.length ++ sendBlocks f.content

/-! ## The receiver -/

/-- What `recv` knows when it has read the head. -/
structure Reception where
  /-- `headtip[sizeof(int)]`. -/
  kind : UInt8
  /-- The text of the head. -/
  head : List UInt8
  /-- The size that is announced. -/
  sz : ℤ
  /-- What has come with the head of the data; `nread` is its length. -/
  extra : List UInt8
  /-- What is still to come on `connfd`. -/
  conn : List (List UInt8)
deriving DecidableEq

/-- Takes the head apart; `headtip` has what has been read. -/
def parseHead (realheadsize : ℤ) (headtip : List UInt8)
    (conn : List (List UInt8)) : Except Fault Reception :=
  if realheadsize < 8 then .error .memory
  else
    match readU64 (headtip.drop (realheadsize.toNat - 8)),
      cstr (headtip.drop 5) with
    | some (sz, extra), some head =>
      if (head.length : ℤ) = realheadsize - 4 - 8 - 2 then
        .ok ⟨headtip.getD 4 0, head, toInt64 sz, extra, conn⟩
      else .error .assertion
    | _, _ => .error .memory

/-- **`ReceiveExec::recv`, up to the head**: a read of 256 bytes, and another
one for the rest of a head that is longer. -/
def recvHead (conn : List (List UInt8)) : Except Fault Reception :=
  let first := reada 256 conn
  match readU32 first.1 with
  | none => .error .memory
  | some (len, _) =>
    let realheadsize := toInt32 (toInt32 len + 4 + 8)
    if 256 < realheadsize then
      let more := reada (realheadsize - 256).toNat first.2
      parseHead realheadsize (first.1 ++ more.1) more.2
    else parseHead realheadsize first.1 first.2

/-- The data of a command. -/
def recvCommand (r : Reception) : Except Fault (List UInt8) :=
  if 0 < r.sz then
    -- `nread` bytes are copied into a buffer of `sz`
    if r.sz < r.extra.length then .error .memory
    else
      let buff := r.extra ++ (reada (r.sz - r.extra.length).toNat r.conn).1
      if (buff.length : ℤ) = r.sz then .ok buff else .error .assertion
  else if (r.extra.length : ℤ) = r.sz then .ok [] else .error .assertion

/-- The files of a machine, by their names. -/
abbrev Directory := List UInt8 → Option (List UInt8)

/-- The loop that stores a file, `nread` bytes of which have been stored. It
does not end where the connection does before the file. -/
def recvBlocks (sz : ℤ) : ℕ → List UInt8 → ℕ → List (List UInt8) →
    Except Fault (List UInt8 × ℕ)
  | 0, _, _, _ => .error .endless
  | fuel + 1, file, nread, conn =>
    if (nread : ℤ) < sz then
      let temp := reada bufferSize conn
      recvBlocks sz fuel (overwrite file nread temp.1) (nread + temp.1.length)
        temp.2
    else .ok (file, nread)

/-- `filename`, cut out of the head. -/
def cutFilename (head : List UInt8) : List UInt8 :=
  substr head (findFirst 58 head + 1)
    (findFirst 32 head - findFirst 58 head - 1)

/-- `filesize`, cut out of the head. -/
def cutFilesize (head : List UInt8) : List UInt8 :=
  substr head (findLast 58 head + 1) (-1)

/-- A scanned number as a `long`: one that does not fit becomes the least or
the greatest of them. -/
def clampLong (z : ℤ) : ℤ := max (-2 ^ 63) (min (2 ^ 63 - 1) z)

/-- `atol`. -/
def atol (s : List UInt8) : ℤ := clampLong ((Text.scan s).getD 0)

/-- A file is received: the directory afterwards. `open` does not take an
empty name, and does not shorten a file that is there; with an error it is
given up. -/
def recvFile (dir : Directory) (r : Reception) : Except Fault Directory :=
  let filename := cutFilename r.head
  if r.sz ≠ atol (cutFilesize r.head) then .error .assertion
  else if filename = [] then .ok dir
  else
    match recvBlocks r.sz (r.conn.flatten.length + 2)
        (overwrite ((dir filename).getD []) 0 r.extra) r.extra.length r.conn with
    | .error fault => .error fault
    | .ok (file, nread) =>
      if (nread : ℤ) = r.sz then
        .ok (Function.update dir filename (some file))
      else .error .assertion

/-- What has been received. -/
inductive Received
  /-- The handler has been called with a command and its data. -/
  | command (head data : List UInt8)
  /-- The directory has been written to. -/
  | file (dir : Directory)
  /-- A head of another kind, which is answered like the others. -/
  | other

/-- **`ReceiveExec::recv`.** -/
def recv (dir : Directory) (conn : List (List UInt8)) :
    Except Fault Received :=
  match recvHead conn with
  | .error fault => .error fault
  | .ok r =>
    if r.kind = kindC then (recvCommand r).map fun data => .command r.head data
    else if r.kind = kindF then (recvFile dir r).map fun dir => .file dir
    else if (r.extra.length : ℤ) = r.sz then .ok .other
    else .error .assertion

/-! ## The head arrives -/

theorem sendBlocks_eq (content : List UInt8) : sendBlocks content = content := by
  induction content using sendBlocks.induct with
  | case1 => rw [sendBlocks, if_pos rfl]
  | case2 content hne ih =>
    rw [sendBlocks, if_neg hne, ih, List.take_append_drop]

theorem length_headBytes (text : List UInt8) (sz : ℕ) :
    (headBytes text sz).length = text.length + 13 := by
  unfold headBytes
  rw [List.length_append, List.length_append, List.length_cons,
    ByteStream.length_u32le, ByteStream.length_u64le]
  omega

/-- The head is taken apart as it was put together. -/
theorem parseHead_headBytes (kind : UInt8) {text : List UInt8}
    (hnul : 0 ∉ text) (sz : ℕ) (extra : List UInt8)
    (conn : List (List UInt8)) :
    parseHead ((text.length + 14 : ℕ) : ℤ)
        (headBytes (kind :: text) sz ++ extra) conn =
      .ok ⟨kind, text, toInt64 ((sz % 2 ^ 64 : ℕ) : ℤ), extra, conn⟩ := by
  have hbytes : headBytes (kind :: text) sz ++ extra =
      (u32le (text.length + 2) ++ kind :: text ++ [0]) ++
        (u64le sz ++ extra) := by
    simp [headBytes]
  have hsize : (headBytes (kind :: text) sz ++ extra).drop
      (((text.length + 14 : ℕ) : ℤ).toNat - 8) = u64le sz ++ extra := by
    rw [hbytes, Int.toNat_natCast, List.drop_left']
    rw [List.length_append, List.length_append, ByteStream.length_u32le,
      List.length_cons, List.length_singleton]
    omega
  have htext : (headBytes (kind :: text) sz ++ extra).drop 5 =
      text ++ 0 :: (u64le sz ++ extra) := by
    rw [hbytes, List.append_assoc, List.append_assoc]
    rfl
  unfold parseHead
  rw [if_neg (by omega), hsize, htext, readU64_u64le_mod, cstr_append hnul]
  show (if (text.length : ℤ) = _ then _ else _) = _
  rw [if_pos (by omega)]
  rfl

/-- The length of the head, as `recv` reads it. -/
theorem readU32_headBytes (kind : UInt8) (text : List UInt8) (sz : ℕ)
    (rest : List UInt8) :
    readU32 (headBytes (kind :: text) sz ++ rest) =
      some ((text.length + 2) % 2 ^ 32,
        kind :: text ++ 0 :: u64le sz ++ rest) := by
  unfold headBytes
  rw [List.append_assoc, List.append_assoc, readU32_u32le_mod,
    List.append_assoc]
  rfl

/-- **What `recv` knows after the head**: what was sent, and how much of the
data has come with it is a matter of the lengths only. -/
theorem recvHead_pieces {kind : UInt8} {text : List UInt8} (hnul : 0 ∉ text)
    (hlen : text.length + 14 < 2 ^ 31) {sz : ℕ} {data : List UInt8}
    (c : Pieces (headBytes (kind :: text) sz ++ data)) :
    ∃ (n : ℕ) (d : Pieces (data.drop n)), recvHead c.list =
      .ok ⟨kind, text, toInt64 ((sz % 2 ^ 64 : ℕ) : ℤ), data.take n,
        d.list⟩ := by
  have hhead : (headBytes (kind :: text) sz).length = text.length + 14 := by
    rw [length_headBytes, List.length_cons]
  have hreal : toInt32 (toInt32 (((text.length + 2) % 2 ^ 32 : ℕ) : ℤ) + 4 + 8)
      = ((text.length + 14 : ℕ) : ℤ) := by
    rw [Nat.mod_eq_of_lt (by omega), toInt32_natCast (by omega),
      ← toInt32_natCast hlen]
    congr 1
  by_cases hlong : 256 < text.length + 14
  · -- the head is longer than the first read
    have hfour : readU32 ((headBytes (kind :: text) sz ++ data).take 256) =
        some ((text.length + 2) % 2 ^ 32,
          (kind :: text ++ 0 :: u64le sz).take 252) := by
      have h := readU32_headBytes kind text sz []
      rw [List.append_nil, List.append_nil] at h
      have hsplit : headBytes (kind :: text) sz =
          u32le (text.length + 2) ++ (kind :: text ++ 0 :: u64le sz) := by
        unfold headBytes
        rw [List.append_assoc]
        rfl
      rw [List.take_append_of_le_length (by omega), hsplit, List.take_append,
        List.take_of_length_le (by rw [ByteStream.length_u32le]; omega),
        readU32_u32le_mod, ByteStream.length_u32le]
    have hmore : (((text.length + 14 : ℕ) : ℤ) - 256).toNat =
        text.length + 14 - 256 := by omega
    have hall : (headBytes (kind :: text) sz ++ data).take 256 ++
        ((headBytes (kind :: text) sz ++ data).drop 256).take
          (text.length + 14 - 256) = headBytes (kind :: text) sz := by
      rw [← List.take_add, Nat.add_sub_cancel' (by omega), ← hhead,
        List.take_left]
    have hrest : ((headBytes (kind :: text) sz ++ data).drop 256).drop
        (text.length + 14 - 256) = data.drop 0 := by
      rw [List.drop_drop, Nat.add_sub_cancel' (by omega), ← hhead,
        List.drop_left, List.drop_zero]
    refine ⟨0, ⟨((c.rest 256).rest (text.length + 14 - 256)).list,
      by rw [Pieces.flatten, hrest], Pieces.ne_nil _⟩, ?_⟩
    unfold recvHead
    dsimp only
    rw [c.reada_eq, hfour]
    dsimp only
    rw [hreal, if_pos (by omega), hmore, Pieces.reada_eq, hall]
    have hparse := parseHead_headBytes kind hnul sz []
      ((c.rest 256).rest (text.length + 14 - 256)).list
    rw [List.append_nil] at hparse
    rw [hparse, List.take_zero]
  · -- the head comes with the first read
    have htake : (headBytes (kind :: text) sz ++ data).take 256 =
        headBytes (kind :: text) sz ++ data.take (256 - (text.length + 14)) := by
      rw [List.take_append, List.take_of_length_le (by omega), hhead]
    have hdrop : (headBytes (kind :: text) sz ++ data).drop 256 =
        data.drop (256 - (text.length + 14)) := by
      rw [List.drop_append, List.drop_eq_nil_of_le (by omega), hhead,
        List.nil_append]
    refine ⟨256 - (text.length + 14), ⟨(c.rest 256).list,
      by rw [Pieces.flatten, hdrop], Pieces.ne_nil _⟩, ?_⟩
    unfold recvHead
    dsimp only
    rw [c.reada_eq, htake, readU32_headBytes]
    dsimp only
    rw [hreal, if_neg (by omega), parseHead_headBytes kind hnul]

end Transfer
