import Mathlib
import DpdkGraph.Intervals
import DpdkGraph.SparseRows

/-!
# Binary edge lists

`convert_binedgelist` and `convert_binedgelistval` read the files of a
directory whose names start with that of the graph: two vertex ids a record,
and its value with the latter. Each file is read `while(!feof(inf))`.

The indicator that this asks for is only set by a read that misses bytes.
After the last record it is not set yet, so that there is one more round,
whose reads fail; and then the assertion on them does (`asserted_encode`).
That is so for every file, also for an empty one.
-/

namespace BinaryEdgeList

open SparseRows

variable {V : Type}

/-! ## The file -/

/-- A `FILE` that is read: the bytes to come and the end-of-file indicator. -/
structure Stream where
  rest : List UInt8
  eof : Bool

/-- `fopen` -/
def fopen (bytes : List UInt8) : Stream := ⟨bytes, false⟩

/-- `fread` of one item of `size` bytes. Where bytes are missing, the
indicator is set. -/
def fread (size : ℕ) (s : Stream) : Option (List UInt8) × Stream :=
  if size ≤ s.rest.length then
    (some (s.rest.take size), { s with rest := s.rest.drop size })
  else (none, ⟨[], true⟩)

/-- A `vid_t` from its bytes. -/
def vid (bytes : List UInt8) : ℕ := ((readU32 bytes).map Prod.fst).getD 0

/-! ## The conversion -/

/-- How a conversion ends, with the edges that it has passed on. -/
inductive Outcome (V : Type)
  | finished (edges : List (EdgeWithValue V))
  /-- The assertion on the reads has failed. -/
  | asserted (edges : List (EdgeWithValue V))

/-- Reads an edge without a value; none where the assertion fails. -/
def readEdge (edgeDataType : V) (s : Stream) : Option (EdgeWithValue V × Stream) :=
  match fread 4 s with
  | (res1, s₁) =>
    match fread 4 s₁ with
    | (res2, s₂) =>
      match res1, res2 with
      | some src, some dst => some (⟨vid src, vid dst, edgeDataType⟩, s₂)
      | _, _ => none

/-- Reads an edge with its value, of `size` bytes. -/
def readEdgeval (size : ℕ) (decode : List UInt8 → V) (s : Stream) :
    Option (EdgeWithValue V × Stream) :=
  match fread 4 s with
  | (res1, s₁) =>
    match fread 4 s₁ with
    | (res2, s₂) =>
      match fread size s₂ with
      | (res3, s₃) =>
        match res1, res2, res3 with
        | some src, some dst, some edgeval =>
          some (⟨vid src, vid dst, decode edgeval⟩, s₃)
        | _, _, _ => none

/-- The edges that are passed on: no self loops. -/
def passed (edges : List (EdgeWithValue V)) : List (EdgeWithValue V) :=
  edges.filter fun e => e.src ≠ e.dst

/-- **The loop over a file**, with a bound on its rounds. -/
def convertFile (read : Stream → Option (EdgeWithValue V × Stream)) :
    ℕ → List (EdgeWithValue V) → Stream → Option (Outcome V)
  | 0, _, _ => none
  | fuel + 1, done, s =>
    if s.eof then some (.finished done)
    else
      match read s with
      | some (e, s') => convertFile read fuel (done ++ passed [e]) s'
      | none => some (.asserted done)

/-- The files that are read, one after the other. -/
def convertParts (read : Stream → Option (EdgeWithValue V × Stream)) :
    List (List UInt8) → List (EdgeWithValue V) → Option (Outcome V)
  | [], done => some (.finished done)
  | bytes :: parts, done =>
    (convertFile read (bytes.length + 2) done (fopen bytes)).bind fun outcome =>
      match outcome with
      | .finished done => convertParts read parts done
      | .asserted done => some (.asserted done)

/-- A directory: the names of its files and their bytes. -/
abbrev Directory := List (List Char × List UInt8)

/-- The files that belong to the graph. -/
def parts (name : List Char) (dir : Directory) : List (List UInt8) :=
  (dir.filter fun file =>
    decide (name <+: file.1 ∧ ¬['.', 't', 'm', 'p'] <:+: file.1)).map Prod.snd

/-- **`convert_binedgelist`**. -/
def convertBinedgelist (edgeDataType : V) (name : List Char) (dir : Directory) :
    Option (Outcome V) :=
  convertParts (readEdge edgeDataType) (parts name dir) []

/-- **`convert_binedgelistval`**. -/
def convertBinedgelistval (size : ℕ) (decode : List UInt8 → V) (name : List Char)
    (dir : Directory) : Option (Outcome V) :=
  convertParts (readEdgeval size decode) (parts name dir) []

/-! ## Files of records -/

/-- A record: two ids and the bytes of a value. -/
structure Record (size : ℕ) where
  src : ℕ
  dst : ℕ
  value : List UInt8
  src_lt : src < 2 ^ 32
  dst_lt : dst < 2 ^ 32
  length_value : value.length = size

namespace Record

variable {size : ℕ}

/-- The record of an edge without a value. -/
def plain (r : Record size) : List UInt8 := u32le r.src ++ u32le r.dst

/-- The record of an edge with its value. -/
def valued (r : Record size) : List UInt8 := r.plain ++ r.value

/-- The edge of a record. -/
def edge (decode : List UInt8 → V) (r : Record size) : EdgeWithValue V :=
  ⟨r.src, r.dst, decode r.value⟩

end Record

/-- **A file of whole records** in its directory, and how edge values are
read. -/
structure Source (V : Type) where
  size : ℕ
  decode : List UInt8 → V
  /-- `EdgeDataType()`, what an edge without a value gets. -/
  edgeDataType : V
  records : List (Record size)
  name : List Char
  /-- What is in the directory with the file. -/
  before : Directory
  file : List Char
  after : Directory
  /-- The file belongs to the graph, the others do not. -/
  file_part : ∀ bytes, parts name (before ++ (file, bytes) :: after) = [bytes]

namespace Source

variable (x : Source V)

/-- The directory, with the records as `bytes` writes them. -/
def dir (bytes : Record x.size → List UInt8) : Directory :=
  x.before ++ (x.file, x.records.flatMap bytes) :: x.after

/-- The edges of the file, without values. -/
def plainEdges : List (EdgeWithValue V) := x.records.map (Record.edge fun _ => x.edgeDataType)

/-- The edges of the file. -/
def valuedEdges : List (EdgeWithValue V) := x.records.map (Record.edge x.decode)

/-- The conversion of the records without values. -/
def plainOutcome : Option (Outcome V) :=
  convertBinedgelist x.edgeDataType x.name (x.dir Record.plain)

/-- The conversion of the records with values. -/
def valuedOutcome : Option (Outcome V) :=
  convertBinedgelistval x.size x.decode x.name (x.dir Record.valued)

end Source

/-! ## The last round -/

section Reads

variable {size : ℕ}

theorem fread_append {item rest : List UInt8} {eof : Bool} (h : item.length = size) :
    fread size ⟨item ++ rest, eof⟩ = (some item, ⟨rest, eof⟩) := by
  unfold fread
  rw [if_pos (by simp [h]), ← h, List.take_left, List.drop_left]

theorem fread_nil {eof : Bool} (h : 0 < size) :
    fread size ⟨[], eof⟩ = (none, ⟨[], true⟩) := by
  unfold fread
  exact if_neg (by rw [List.length_nil]; omega)

@[simp] theorem length_u32le (n : ℕ) : (u32le n).length = 4 := rfl

theorem vid_u32le {n : ℕ} (h : n < 2 ^ 32) : vid (u32le n) = n := by
  have hread := readU32_u32le h []
  rw [List.append_nil] at hread
  unfold vid
  rw [hread]
  rfl

/-- A record is read. -/
theorem readEdge_plain (edgeDataType : V) (r : Record size) (rest : List UInt8) :
    readEdge edgeDataType ⟨r.plain ++ rest, false⟩
      = some (r.edge fun _ => edgeDataType, ⟨rest, false⟩) := by
  unfold readEdge Record.plain
  rw [List.append_assoc, fread_append (length_u32le r.src)]
  dsimp only
  rw [fread_append (length_u32le r.dst)]
  dsimp only
  rw [vid_u32le r.src_lt, vid_u32le r.dst_lt]
  rfl

theorem readEdgeval_valued (decode : List UInt8 → V) (r : Record size)
    (rest : List UInt8) :
    readEdgeval size decode ⟨r.valued ++ rest, false⟩
      = some (r.edge decode, ⟨rest, false⟩) := by
  unfold readEdgeval Record.valued Record.plain
  rw [List.append_assoc, List.append_assoc, fread_append (length_u32le r.src)]
  dsimp only
  rw [fread_append (length_u32le r.dst)]
  dsimp only
  rw [fread_append r.length_value]
  dsimp only
  rw [vid_u32le r.src_lt, vid_u32le r.dst_lt]
  rfl

/-- At the end there is none to read. -/
theorem readEdge_nil (edgeDataType : V) : readEdge edgeDataType (fopen []) = none := by
  unfold readEdge fopen
  rw [fread_nil (by decide)]

theorem readEdgeval_nil (decode : List UInt8 → V) :
    readEdgeval size decode (fopen []) = none := by
  unfold readEdgeval fopen
  rw [fread_nil (by decide)]

end Reads

section Loop

variable {size : ℕ} {read : Stream → Option (EdgeWithValue V × Stream)}
  {bytes : Record size → List UInt8} {edge : Record size → EdgeWithValue V}

/-- **All records are passed on, and then the assertion fails.** The end of the
file is noticed only by reading behind it, so that after the last record the
loop is entered once more, and the read in it gets nothing. -/
theorem convertFile_records
    (hread : ∀ r rest, read ⟨bytes r ++ rest, false⟩ = some (edge r, ⟨rest, false⟩))
    (hend : read (fopen []) = none) (records : List (Record size))
    (done : List (EdgeWithValue V)) {fuel : ℕ} (hfuel : records.length < fuel) :
    convertFile read fuel done (fopen (records.flatMap bytes))
      = some (.asserted (done ++ passed (records.map edge))) := by
  induction records generalizing done fuel with
  | nil =>
    obtain ⟨n, rfl⟩ : ∃ n, fuel = n + 1 := ⟨fuel - 1, by omega⟩
    rw [convertFile, List.flatMap_nil, hend]
    simp [fopen, passed]
  | cons r records ih =>
    obtain ⟨n, rfl⟩ : ∃ n, fuel = n + 1 := ⟨fuel - 1, by omega⟩
    have hpassed : passed (edge r :: records.map edge)
        = passed [edge r] ++ passed (records.map edge) := by
      unfold passed
      rw [← List.filter_append]
      rfl
    rw [convertFile, List.flatMap_cons]
    show (if (false : Bool) = true then _ else
      match read ⟨bytes r ++ records.flatMap bytes, false⟩ with
      | some (e, s') => convertFile read n (done ++ passed [e]) s'
      | none => some (.asserted done)) = _
    rw [if_neg Bool.false_ne_true, hread]
    dsimp only
    rw [List.map_cons, hpassed, ← List.append_assoc]
    exact ih (done ++ passed [edge r]) (by simpa using hfuel)

/-- A file of a graph ends its conversion. -/
theorem convertParts_records
    (hread : ∀ r rest, read ⟨bytes r ++ rest, false⟩ = some (edge r, ⟨rest, false⟩))
    (hend : read (fopen []) = none) (hpos : ∀ r, 0 < (bytes r).length)
    (records : List (Record size)) (more : List (List UInt8)) :
    convertParts read (records.flatMap bytes :: more) []
      = some (.asserted (passed (records.map edge))) := by
  have hle : records.length ≤ (records.flatMap bytes).length := by
    induction records with
    | nil => exact Nat.zero_le _
    | cons r records ih =>
      have := hpos r
      rw [List.flatMap_cons, List.length_append, List.length_cons]
      omega
  rw [convertParts, convertFile_records hread hend records [] (by omega), Option.bind_some,
    List.nil_append]

theorem length_plain (r : Record size) : r.plain.length = 8 := by
  unfold Record.plain
  rw [List.length_append, length_u32le, length_u32le]

end Loop

/-- **Every conversion of whole records** fails the assertion after it has
passed on their edges. -/
theorem Source.asserted (x : Source V) :
    x.plainOutcome = some (.asserted (passed x.plainEdges))
      ∧ x.valuedOutcome = some (.asserted (passed x.valuedEdges)) := by
  unfold plainOutcome convertBinedgelist valuedOutcome convertBinedgelistval dir
  rw [x.file_part, x.file_part]
  constructor
  · exact convertParts_records (readEdge_plain x.edgeDataType)
      (readEdge_nil x.edgeDataType) (fun r => by rw [length_plain]; decide) x.records []
  · refine convertParts_records (readEdgeval_valued x.decode)
      (readEdgeval_nil x.decode) (fun r => ?_) x.records []
    unfold Record.valued
    rw [List.length_append, length_plain]
    omega

/-- **No file of records is converted**: neither conversion finishes with
the edges of the records. -/
theorem Source.not_finished (x : Source V) :
    x.plainOutcome ≠ some (.finished (passed x.plainEdges))
      ∧ x.valuedOutcome ≠ some (.finished (passed x.valuedEdges)) := by
  obtain ⟨hplain, hvalued⟩ := x.asserted
  rw [hplain, hvalued]
  exact ⟨by simp, by simp⟩

/-- A file with the one record `3 → 7`, and its value. -/
def oneRecord : Source ℕ where
  size := 1
  decode bytes := (bytes.headD 0).toNat
  edgeDataType := 0
  records := [⟨3, 7, [5], by decide, by decide, rfl⟩]
  name := ['g']
  before := [(['o'], [1, 2])]
  file := ['g', '1']
  after := []
  file_part _ := rfl

/-- Its edge is passed on, but the conversion does not finish. -/
theorem not_finished_oneRecord :
    oneRecord.plainOutcome ≠ some (.finished [⟨3, 7, 0⟩])
      ∧ oneRecord.valuedOutcome ≠ some (.finished [⟨3, 7, 5⟩]) := by
  obtain ⟨hplain, hvalued⟩ := oneRecord.asserted
  rw [hplain, hvalued]
  exact ⟨by simp, by simp⟩

end BinaryEdgeList
