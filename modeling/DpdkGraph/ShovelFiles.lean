import Mathlib
import DpdkGraph.Intervals
import DpdkGraph.KWayMerge
import DpdkGraph.RadixSort

/-!
# Shovels: the external sort of the added edges

The sharder collects the edges it is given in a buffer of `shovelsize`
edges. A full buffer is a *shovel*: it is sorted by destination and written
to a file of its own, and so is whatever the buffer holds at the end. The
files are then merged, each read in chunks, and the sharder's `add` gets
the edges one by one.

Three things of the environment are parameters: what an earlier run has
left on disk under the names of the shovel files (`disk`), what fresh
memory holds (`mem`), and the memory the merge may use (`Config`). A flush
runs in a thread of its own, but on a buffer, a number and a maximum of its
own, and all are joined before the merge begins; so it is modelled where it
is started.
-/

namespace Shovel

variable {V : Type}

/-- What the run of the sharder is configured with. -/
structure Config where
  /-- `shovelsize`: the edges of a shovel. -/
  shovelsize : ℕ
  /-- A shovel has an edge at least. -/
  shovelsize_pos : 0 < shovelsize
  /-- The memory budget of the merge, in bytes. -/
  membudget : ℕ
  /-- `sizeof(edge_with_value)`. -/
  edgeSize : ℕ
  /-- An edge takes memory. -/
  edgeSize_pos : 0 < edgeSize

/-- The value of a number converted to `intT`, 32 bits with a sign. -/
def intT (n : ℕ) : ℤ := Int.bmod n (2 ^ 32)

/-- **`shard_flushinfo::flush`, the sort**: `iSort` on the number of edges
and the largest id as it gets them, converted to `intT`. Edges past that
number stay where they are. -/
def sortShovel (mem : ℕ → EdgeWithValue V) (maxVertex : ℕ)
    (buffer : List (EdgeWithValue V)) : List (EdgeWithValue V) :=
  let n := (intT buffer.length).toNat
  RadixSort.iSort mem (buffer.take n) (intT maxVertex) EdgeWithValue.dst
    ++ buffer.drop n

/-- A file that is opened for writing without being truncated: what is
written replaces as much of its old content. -/
def overwrite {α : Type} (old new : List α) : List α := new ++ old.drop new.length

/-- **The state of a preprocessing session** between two calls of
`preprocessing_add_edge`. -/
structure Session (V : Type) where
  /-- `curshovel_buffer`, as far as it is filled. -/
  curshovel : List (EdgeWithValue V)
  /-- `numshovels`. -/
  numshovels : ℕ
  /-- `max_vertex_id`. -/
  maxVertexId : ℕ
  /-- `shoveled_edges`. -/
  shoveledEdges : ℕ
  /-- The shovel files, by number. -/
  files : ℕ → List (EdgeWithValue V)

namespace Session

/-- `start_preprocessing`, with what is on disk. -/
def start (disk : ℕ → List (EdgeWithValue V)) : Session V := ⟨[], 0, 0, 0, disk⟩

/-- `flush_shovel`: the buffer goes to the file of its number. -/
def flushShovel (mem : ℕ → EdgeWithValue V) (s : Session V) : Session V :=
  { s with
    files := Function.update s.files s.numshovels
      (overwrite (s.files s.numshovels) (sortShovel mem s.maxVertexId s.curshovel))
    numshovels := s.numshovels + 1
    curshovel := [] }

/-- The edge goes to the buffer. -/
def push (s : Session V) (e : EdgeWithValue V) : Session V :=
  { s with curshovel := s.curshovel ++ [e] }

/-- The edge counts for the largest id and for the number of edges. -/
def count (s : Session V) (e : EdgeWithValue V) : Session V :=
  { s with
    maxVertexId := max (max e.src e.dst) s.maxVertexId
    shoveledEdges := s.shoveledEdges + 1 }

/-- **`preprocessing_add_edge`.** A full shovel is flushed before the edge
that fills it counts for the largest id. -/
def preprocessingAddEdge (c : Config) (mem : ℕ → EdgeWithValue V) (s : Session V)
    (e : EdgeWithValue V) : Session V :=
  if e.src = e.dst then s
  else if (s.push e).curshovel.length = c.shovelsize then
    ((s.push e).flushShovel mem).count e
  else (s.push e).count e

/-- `end_preprocessing`: what the buffer holds goes to a last file, also
when it holds nothing. -/
def endPreprocessing (mem : ℕ → EdgeWithValue V) (s : Session V) : Session V :=
  s.flushShovel mem

/-- A whole session of calls of `preprocessing_add_edge`. -/
def session (c : Config) (mem : ℕ → EdgeWithValue V)
    (disk : ℕ → List (EdgeWithValue V)) (calls : List (EdgeWithValue V)) :
    Session V :=
  (calls.foldl (preprocessingAddEdge c mem) (start disk)).endPreprocessing mem

end Session

/-! ## Reading the files back -/

/-- **`shovel_merge_source`**: a shovel file read through a buffer, whose cells
hold what the memory held until they are filled. -/
structure ShovelMergeSource (V : Type) where
  /-- The file. -/
  file : List (EdgeWithValue V)
  /-- `bufsize_edges`. -/
  bufsizeEdges : ℕ
  /-- How many edges have been given. -/
  idx : ℕ
  /-- The next cell of the buffer. -/
  bufidx : ℕ
  /-- The buffer. -/
  buffer : ℕ → EdgeWithValue V

namespace ShovelMergeSource

/-- `load_next`: the next edges of the file, as many as the buffer holds and
the file has, go to the front of the buffer. -/
def loadNext (s : ShovelMergeSource V) : ShovelMergeSource V :=
  { s with
    buffer := fun j =>
      if j < min s.bufsizeEdges (s.file.length - s.idx) then
        s.file.getD (s.idx + j) (s.buffer j)
      else s.buffer j
    bufidx := 0 }

/-- The constructor; `mem` is the content of the memory that the buffer
gets. -/
def openFile (bufsizeEdges : ℕ) (mem : ℕ → EdgeWithValue V)
    (file : List (EdgeWithValue V)) : ShovelMergeSource V :=
  loadNext ⟨file, bufsizeEdges, 0, 0, mem⟩

/-- `has_more`. -/
def hasMore (s : ShovelMergeSource V) : Bool := decide (s.idx < s.file.length)

/-- `next`. -/
def next (s : ShovelMergeSource V) : EdgeWithValue V × ShovelMergeSource V :=
  let s' := if s.bufidx = s.bufsizeEdges then s.loadNext else s
  (s'.buffer s'.bufidx, { s' with idx := s'.idx + 1, bufidx := s'.bufidx + 1 })

/-- The source as the merge sees it. -/
def source (V : Type) :
    KWayMerge.MergeSource (ShovelMergeSource V) (EdgeWithValue V) :=
  ⟨hasMore, next⟩

/-- The source has given the first `i` edges of its file, and its buffer has
those that follow, as far as it is filled. -/
structure At (s : ShovelMergeSource V) (i : ℕ) : Prop where
  /-- It has given `i` edges. -/
  idx : s.idx = i
  /-- The next cell lies in the buffer, or at its end. -/
  bufidx : s.bufidx ≤ s.bufsizeEdges
  /-- The rest of the buffer holds the next edges. -/
  holds : ∀ j e, s.bufidx + j < s.bufsizeEdges → s.file[i + j]? = some e →
    s.buffer (s.bufidx + j) = e

theorem At.loadNext {s : ShovelMergeSource V} {i : ℕ} (hidx : s.idx = i) :
    s.loadNext.At i := by
  refine ⟨hidx, Nat.zero_le _, fun j e hj he => ?_⟩
  replace he : s.file[i + j]? = some e := he
  have hlt : i + j < s.file.length := (List.getElem?_eq_some_iff.mp he).1
  show (if 0 + j < min s.bufsizeEdges (s.file.length - s.idx) then
    s.file.getD (s.idx + (0 + j)) (s.buffer (0 + j)) else s.buffer (0 + j)) = e
  have hj' : j < s.bufsizeEdges := by
    have : 0 + j < s.bufsizeEdges := hj
    omega
  rw [Nat.zero_add, hidx, if_pos (lt_min hj' (by omega)), List.getD_eq_getElem?_getD, he]
  rfl

/-- **`next` gives the next edge of the file**, over a buffer of one edge at
least. -/
theorem At.next {s : ShovelMergeSource V} {i : ℕ} (h : s.At i)
    (hbuf : 0 < s.bufsizeEdges) {e : EdgeWithValue V} (he : s.file[i]? = some e) :
    s.next.1 = e ∧ s.next.2.At (i + 1) := by
  -- the source after the buffer is filled again, if it has to be
  obtain ⟨s', hs', hat, hlt, hfile, hsize⟩ : ∃ s', s' = (if s.bufidx = s.bufsizeEdges
      then s.loadNext else s) ∧ s'.At i ∧ s'.bufidx < s'.bufsizeEdges
      ∧ s'.file = s.file ∧ s'.bufsizeEdges = s.bufsizeEdges := by
    by_cases hend : s.bufidx = s.bufsizeEdges
    · rw [if_pos hend]
      exact ⟨_, rfl, At.loadNext h.idx, hbuf, rfl, rfl⟩
    · rw [if_neg hend]
      exact ⟨_, rfl, h, lt_of_le_of_ne h.bufidx hend, rfl, rfl⟩
  unfold ShovelMergeSource.next
  rw [← hs']
  constructor
  · exact hat.holds 0 e hlt (by rw [hfile]; exact he)
  · refine ⟨congrArg (· + 1) hat.idx, hlt, fun j e' hj he' => ?_⟩
    have := hat.holds (j + 1) e' (by
      have : s'.bufidx + 1 + j < s'.bufsizeEdges := hj
      omega) (by rw [← Nat.add_assoc, Nat.add_right_comm]; exact he')
    show s'.buffer (s'.bufidx + 1 + j) = e'
    rw [Nat.add_assoc, Nat.add_comm 1 j]
    exact this

theorem next_file (s : ShovelMergeSource V) :
    s.next.2.file = s.file ∧ s.next.2.bufsizeEdges = s.bufsizeEdges := by
  unfold next
  split <;> exact ⟨rfl, rfl⟩

/-- The rest of the file follows. -/
theorem At.rest {s : ShovelMergeSource V} (hbuf : 0 < s.bufsizeEdges) :
    ∀ (xs : List (EdgeWithValue V)) {s' : ShovelMergeSource V} {i : ℕ}, s'.At i →
      s'.file = s.file → s'.bufsizeEdges = s.bufsizeEdges → s.file.drop i = xs →
      KWayMerge.Rest (source V) s' xs := by
  intro xs
  induction xs with
  | nil =>
    intro s' i hat hfile _ hdrop
    refine KWayMerge.Rest.nil (decide_eq_false ?_)
    rw [hat.idx, hfile]
    exact not_lt.mpr (List.drop_eq_nil_iff.mp hdrop)
  | cons x xs ih =>
    intro s' i hat hfile hsize hdrop
    have hx : s.file[i]? = some x := by
      rw [← List.head?_drop, hdrop]
      rfl
    obtain ⟨hval, hat'⟩ := hat.next (by rw [hsize]; exact hbuf) (by rw [hfile]; exact hx)
    have hrest := ih hat' (by rw [s'.next_file.1, hfile])
      (by rw [s'.next_file.2, hsize]) (by rw [← List.tail_drop, hdrop, List.tail_cons])
    rw [← hval]
    refine KWayMerge.Rest.cons (S := source V) (decide_eq_true ?_) hrest
    rw [hat.idx, hfile]
    exact (List.getElem?_eq_some_iff.mp hx).1

/-- **A file that is not empty is delivered**, over a buffer of one edge at
least. -/
theorem delivers_file {bufsizeEdges : ℕ} (hbuf : 0 < bufsizeEdges)
    (mem : ℕ → EdgeWithValue V) {file : List (EdgeWithValue V)} (hne : file ≠ []) :
    KWayMerge.Delivers (source V) (openFile bufsizeEdges mem file) file := by
  obtain ⟨x, xs, rfl⟩ := List.exists_cons_of_ne_nil hne
  have hat : (openFile bufsizeEdges mem (x :: xs)).At 0 := At.loadNext rfl
  obtain ⟨hval, hat'⟩ := hat.next hbuf (e := x) rfl
  refine ⟨xs, At.rest hbuf xs hat' ((next_file _).1) ((next_file _).2) rfl, ?_⟩
  show x :: xs = (openFile bufsizeEdges mem (x :: xs)).next.1 :: xs
  rw [hval]

/-- What a source gives: its file, or what the memory of its buffer holds –
one edge even if the file has none. -/
def delivered (bufsizeEdges : ℕ) (mem : ℕ → EdgeWithValue V)
    (file : List (EdgeWithValue V)) : List (EdgeWithValue V) :=
  if 0 < bufsizeEdges ∧ file ≠ [] then file
  else (List.range (max 1 file.length)).map mem

theorem length_delivered (bufsizeEdges : ℕ) (mem : ℕ → EdgeWithValue V)
    (file : List (EdgeWithValue V)) :
    (delivered bufsizeEdges mem file).length = max 1 file.length := by
  unfold delivered
  split
  · next h => exact (max_eq_right (List.length_pos_iff.mpr h.2)).symm
  · rw [List.length_map, List.length_range]

/-- A source without a file or without a buffer, which gives what memory
holds. -/
structure Blind (s : ShovelMergeSource V) (mem : ℕ → EdgeWithValue V) (i : ℕ) :
    Prop where
  /-- There is nothing to read, or nowhere to read it to. -/
  nothing : s.bufsizeEdges = 0 ∨ s.file = []
  /-- It has given `i` edges. -/
  idx : s.idx = i
  /-- They were the first cells of its buffer. -/
  bufidx : s.bufidx = i
  /-- Its buffer is as it was. -/
  buffer : s.buffer = mem

theorem Blind.loadNext {s : ShovelMergeSource V} {mem : ℕ → EdgeWithValue V}
    (hnothing : s.bufsizeEdges = 0 ∨ s.file = []) (hidx : s.idx = 0)
    (hbuffer : s.buffer = mem) : s.loadNext.Blind mem 0 := by
  have hzero : min s.bufsizeEdges (s.file.length - s.idx) = 0 := by
    rcases hnothing with h | h
    · rw [h, Nat.zero_min]
    · rw [h, List.length_nil, Nat.zero_sub, Nat.min_zero]
  refine ⟨hnothing, hidx, rfl, funext fun j => ?_⟩
  show (if j < min s.bufsizeEdges (s.file.length - s.idx) then _ else s.buffer j) = _
  rw [hzero, if_neg (Nat.not_lt_zero j), hbuffer]

theorem Blind.next {s : ShovelMergeSource V} {mem : ℕ → EdgeWithValue V} {i : ℕ}
    (h : s.Blind mem i) (hi : i < max 1 s.file.length) :
    s.next.1 = mem i ∧ s.next.2.Blind mem (i + 1) := by
  obtain ⟨s', hs', hblind⟩ : ∃ s', s' = (if s.bufidx = s.bufsizeEdges
      then s.loadNext else s) ∧ s'.Blind mem i := by
    by_cases hend : s.bufidx = s.bufsizeEdges
    · have hi0 : i = 0 := by
        rcases h.nothing with hz | hz
        · rw [← h.bufidx, hend, hz]
        · rw [hz, List.length_nil] at hi
          omega
      subst hi0
      rw [if_pos hend]
      exact ⟨_, rfl, Blind.loadNext h.nothing h.idx h.buffer⟩
    · rw [if_neg hend]
      exact ⟨_, rfl, h⟩
  unfold ShovelMergeSource.next
  rw [← hs']
  refine ⟨?_, hblind.nothing, congrArg (· + 1) hblind.idx,
    congrArg (· + 1) hblind.bufidx, hblind.buffer⟩
  show s'.buffer s'.bufidx = mem i
  rw [hblind.buffer, hblind.bufidx]

theorem Blind.rest {s : ShovelMergeSource V} {mem : ℕ → EdgeWithValue V} (n : ℕ) :
    ∀ {i : ℕ} {s' : ShovelMergeSource V}, s'.Blind mem i → s'.file = s.file →
      0 < i → s.file.length = i + n →
      KWayMerge.Rest (source V) s' ((List.range' i n).map mem) := by
  induction n with
  | zero =>
    intro i s' h hfile _ hlen
    refine KWayMerge.Rest.nil (decide_eq_false ?_)
    rw [h.idx, hfile, hlen]
    exact lt_irrefl i
  | succ n ih =>
    intro i s' h hfile hi hlen
    obtain ⟨hval, h'⟩ := h.next (by rw [hfile, hlen]; omega)
    have hrest := ih h' (by rw [s'.next_file.1, hfile]) (by omega) (by omega)
    rw [List.range'_succ, List.map_cons, ← hval]
    refine KWayMerge.Rest.cons (S := source V) (decide_eq_true ?_) hrest
    rw [h.idx, hfile, hlen]
    omega

/-- **What a source gives to the merge**: the edges of its file; without room in
the buffer, or without an edge in the file, what the memory holds, and one edge
at least. -/
theorem delivers (bufsizeEdges : ℕ) (mem : ℕ → EdgeWithValue V)
    (file : List (EdgeWithValue V)) :
    KWayMerge.Delivers (source V) (openFile bufsizeEdges mem file)
      (delivered bufsizeEdges mem file) := by
  unfold delivered
  split
  · next h => exact delivers_file h.1 mem h.2
  · next h =>
    have hnothing : bufsizeEdges = 0 ∨ file = [] := by
      by_cases hb : bufsizeEdges = 0
      · exact Or.inl hb
      · exact Or.inr (not_ne_iff.mp fun hne => h ⟨Nat.pos_of_ne_zero hb, hne⟩)
    have hopen : (openFile bufsizeEdges mem file).Blind mem 0 :=
      Blind.loadNext hnothing rfl rfl
    obtain ⟨hval, hnext⟩ := hopen.next (lt_max_of_lt_left Nat.one_pos)
    refine ⟨(List.range' 1 (max 1 file.length - 1)).map mem, ?_, ?_⟩
    · rcases Nat.eq_zero_or_pos file.length with h0 | hpos
      · rw [h0]
        refine KWayMerge.Rest.nil (decide_eq_false ?_)
        show ¬(openFile bufsizeEdges mem file).next.2.idx
          < (openFile bufsizeEdges mem file).next.2.file.length
        rw [hnext.idx, (next_file _).1]
        show ¬1 < file.length
        omega
      · rw [max_eq_right hpos]
        exact Blind.rest (s := openFile bufsizeEdges mem file) _ hnext
          ((next_file _).1) Nat.one_pos (Nat.add_sub_of_le hpos).symm
    · obtain ⟨n, hn⟩ : ∃ n, max 1 file.length = n + 1 :=
        ⟨max 1 file.length - 1, by omega⟩
      rw [hn, List.range_eq_range', List.range'_succ, List.map_cons, Nat.add_sub_cancel]
      show mem 0 :: _ = (openFile bufsizeEdges mem file).next.1 :: _
      rw [hval]

end ShovelMergeSource

/-! ## What a session leaves on disk -/

/-- The edges that are kept of the calls: those that are not self loops. -/
def kept (calls : List (EdgeWithValue V)) : List (EdgeWithValue V) :=
  calls.filter fun e => decide (e.src ≠ e.dst)

/-- The largest id of the edges. -/
def maxId (E : List (EdgeWithValue V)) : ℕ :=
  E.foldl (fun m e => max (max e.src e.dst) m) 0

/-- Shovel `i` of the edges `E`. -/
def shovelOf (S : ℕ) (E : List (EdgeWithValue V)) (i : ℕ) : List (EdgeWithValue V) :=
  (E.drop (i * S)).take S

/-- The largest id that is known when shovel `i` is flushed: for a full
shovel, that of all edges up to its last one, which does not count yet. -/
def hintOf (S : ℕ) (E : List (EdgeWithValue V)) (i : ℕ) : ℕ :=
  maxId (if (i + 1) * S ≤ E.length then E.take ((i + 1) * S - 1) else E)

/-- The file of shovel `i` after the session. -/
def fileOf (c : Config) (mem : ℕ → EdgeWithValue V)
    (disk : ℕ → List (EdgeWithValue V)) (E : List (EdgeWithValue V)) (i : ℕ) :
    List (EdgeWithValue V) :=
  overwrite (disk i)
    (sortShovel mem (hintOf c.shovelsize E i) (shovelOf c.shovelsize E i))

/-- A later edge does not change a full shovel. -/
theorem fileOf_append (c : Config) (mem : ℕ → EdgeWithValue V)
    (disk : ℕ → List (EdgeWithValue V)) (E E' : List (EdgeWithValue V)) {i : ℕ}
    (hi : (i + 1) * c.shovelsize ≤ E.length) :
    fileOf c mem disk (E ++ E') i = fileOf c mem disk E i := by
  have hsucc : (i + 1) * c.shovelsize = i * c.shovelsize + c.shovelsize :=
    Nat.succ_mul _ _
  have hshovel : shovelOf c.shovelsize (E ++ E') i = shovelOf c.shovelsize E i := by
    unfold shovelOf
    rw [List.drop_append_of_le_length (by omega), List.take_append_of_le_length]
    rw [List.length_drop]
    omega
  have hhint : hintOf c.shovelsize (E ++ E') i = hintOf c.shovelsize E i := by
    unfold hintOf
    rw [if_pos hi, if_pos (by rw [List.length_append]; omega),
      List.take_append_of_le_length (by omega)]
  unfold fileOf
  rw [hshovel, hhint]

/-- **A session after the edges `E`.** The full shovels are on disk, the
rest is in the buffer. -/
structure Session.After (c : Config) (mem : ℕ → EdgeWithValue V)
    (disk : ℕ → List (EdgeWithValue V)) (E : List (EdgeWithValue V))
    (s : Session V) : Prop where
  /-- The full shovels have been flushed. -/
  numshovels : s.numshovels = E.length / c.shovelsize
  /-- The buffer holds the edges after them. -/
  curshovel : s.curshovel = E.drop (E.length / c.shovelsize * c.shovelsize)
  /-- All edges count for the largest id. -/
  maxVertexId : s.maxVertexId = maxId E
  /-- All edges count. -/
  shoveledEdges : s.shoveledEdges = E.length
  /-- The files of the full shovels have been written, the others not. -/
  files : ∀ i, s.files i
    = if i < E.length / c.shovelsize then fileOf c mem disk E i else disk i

theorem Session.After.start (c : Config) (mem : ℕ → EdgeWithValue V)
    (disk : ℕ → List (EdgeWithValue V)) :
    Session.After c mem disk [] (Session.start disk) where
  numshovels := (Nat.zero_div _).symm
  curshovel := List.drop_nil.symm
  maxVertexId := rfl
  shoveledEdges := rfl
  files := fun i => by
    rw [List.length_nil, Nat.zero_div, if_neg (Nat.not_lt_zero i)]
    rfl

theorem maxId_append (E : List (EdgeWithValue V)) (e : EdgeWithValue V) :
    maxId (E ++ [e]) = max (max e.src e.dst) (maxId E) := by
  unfold maxId
  rw [List.foldl_append]
  rfl

/-- The largest id does not depend on the order of the edges. -/
theorem maxId_perm {E E' : List (EdgeWithValue V)} (h : E.Perm E') : maxId E = maxId E' := by
  refine h.foldl_eq' (fun a _ b _ m => ?_) 0
  exact max_left_comm _ _ _

/-- One more edge. -/
theorem Session.After.add {c : Config} {mem : ℕ → EdgeWithValue V}
    {disk : ℕ → List (EdgeWithValue V)} {E : List (EdgeWithValue V)}
    {s : Session V} (h : Session.After c mem disk E s) {e : EdgeWithValue V}
    (he : e.src ≠ e.dst) :
    Session.After c mem disk (E ++ [e]) (s.preprocessingAddEdge c mem e) := by
  have hS := c.shovelsize_pos
  have hdiv := Nat.div_add_mod' E.length c.shovelsize
  have hmod := Nat.mod_lt E.length hS
  obtain ⟨q, hq⟩ : ∃ q, E.length / c.shovelsize = q := ⟨_, rfl⟩
  rw [hq] at hdiv
  have hdrop : (E ++ [e]).drop (q * c.shovelsize) = s.curshovel ++ [e] := by
    rw [h.curshovel, hq]
    exact List.drop_append_of_le_length (by omega)
  have hlength : (s.curshovel ++ [e]).length = E.length % c.shovelsize + 1 := by
    rw [← hdrop, List.length_drop, List.length_append, List.length_singleton]
    omega
  have hold : ∀ i, i < q → fileOf c mem disk (E ++ [e]) i = fileOf c mem disk E i := by
    intro i hi
    refine fileOf_append c mem disk E [e] ?_
    calc (i + 1) * c.shovelsize ≤ q * c.shovelsize := Nat.mul_le_mul_right _ hi
      _ ≤ E.length := by omega
  unfold Session.preprocessingAddEdge
  rw [if_neg he]
  by_cases hfull : (s.curshovel ++ [e]).length = c.shovelsize
  · -- the edge fills the shovel
    have hsize : (E ++ [e]).length = (q + 1) * c.shovelsize := by
      rw [List.length_append, List.length_singleton, Nat.succ_mul]
      omega
    have hq' : (E ++ [e]).length / c.shovelsize = q + 1 := by
      rw [hsize, Nat.mul_div_cancel _ hS]
    have hshovel : shovelOf c.shovelsize (E ++ [e]) q = s.curshovel ++ [e] := by
      unfold shovelOf
      rw [hdrop, List.take_of_length_le hfull.le]
    have hhint : hintOf c.shovelsize (E ++ [e]) q = maxId E := by
      unfold hintOf
      rw [if_pos hsize.ge, ← hsize, List.length_append, List.length_singleton,
        Nat.add_sub_cancel, List.take_left' rfl]
    rw [if_pos (show (s.push e).curshovel.length = c.shovelsize from hfull)]
    constructor
    · show s.numshovels + 1 = _
      rw [hq', h.numshovels, hq]
    · show [] = _
      rw [hq', ← hsize, List.drop_length]
    · show max (max e.src e.dst) s.maxVertexId = _
      rw [maxId_append, h.maxVertexId]
    · show s.shoveledEdges + 1 = _
      rw [h.shoveledEdges, List.length_append, List.length_singleton]
    · intro i
      rw [hq']
      show Function.update s.files s.numshovels (overwrite (s.files s.numshovels)
        (sortShovel mem s.maxVertexId (s.curshovel ++ [e]))) i = _
      rw [h.numshovels, hq, h.maxVertexId]
      by_cases hi : i = q
      · rw [hi, Function.update_self, if_pos (Nat.lt_succ_self q), h.files, hq,
          if_neg (lt_irrefl q)]
        unfold fileOf
        rw [hshovel, hhint]
      · rw [Function.update_of_ne hi, h.files, hq]
        by_cases hlt : i < q
        · rw [if_pos hlt, if_pos (Nat.lt_succ_of_lt hlt), hold i hlt]
        · rw [if_neg hlt, if_neg (by omega)]
  · have hq' : (E ++ [e]).length / c.shovelsize = q := by
      rw [List.length_append, List.length_singleton]
      refine Nat.div_eq_of_lt_le (by omega) ?_
      rw [Nat.succ_mul]
      omega
    rw [if_neg (show ¬(s.push e).curshovel.length = c.shovelsize from hfull)]
    constructor
    · show s.numshovels = _
      rw [hq', h.numshovels, hq]
    · show s.curshovel ++ [e] = _
      rw [hq', hdrop]
    · show max (max e.src e.dst) s.maxVertexId = _
      rw [maxId_append, h.maxVertexId]
    · show s.shoveledEdges + 1 = _
      rw [h.shoveledEdges, List.length_append, List.length_singleton]
    · intro i
      rw [hq']
      show s.files i = _
      rw [h.files, hq]
      by_cases hlt : i < q
      · rw [if_pos hlt, if_pos hlt, hold i hlt]
      · rw [if_neg hlt, if_neg hlt]

/-- The calls leave out self loops. -/
theorem Session.After.calls {c : Config} {mem : ℕ → EdgeWithValue V}
    {disk : ℕ → List (EdgeWithValue V)} (calls : List (EdgeWithValue V)) :
    ∀ {E : List (EdgeWithValue V)} {s : Session V}, Session.After c mem disk E s →
      Session.After c mem disk (E ++ kept calls)
        (calls.foldl (Session.preprocessingAddEdge c mem) s) := by
  induction calls with
  | nil =>
    intro E s h
    rw [kept, List.filter_nil, List.append_nil]
    exact h
  | cons e calls ih =>
    intro E s h
    rw [List.foldl_cons]
    by_cases he : e.src = e.dst
    · have hkept : kept (e :: calls) = kept calls :=
        List.filter_cons_of_neg (by simpa using he)
      rw [Session.preprocessingAddEdge, if_pos he, hkept]
      exact ih h
    · have hkept : kept (e :: calls) = [e] ++ kept calls :=
        List.filter_cons_of_pos (by simpa using he)
      rw [hkept, ← List.append_assoc]
      exact ih (h.add he)

/-- The session knows the largest id of the edges that it has kept. -/
theorem session_maxVertexId (c : Config) (mem : ℕ → EdgeWithValue V)
    (disk : ℕ → List (EdgeWithValue V)) (calls : List (EdgeWithValue V)) :
    (Session.session c mem disk calls).maxVertexId = maxId (kept calls) := by
  have h := (Session.After.calls calls (Session.After.start c mem disk)).maxVertexId
  rw [List.nil_append] at h
  exact h

/-- **What a session leaves on disk**: a file for each shovel, the last one
for what was left. -/
theorem session_files (c : Config) (mem : ℕ → EdgeWithValue V)
    (disk : ℕ → List (EdgeWithValue V)) (calls : List (EdgeWithValue V)) :
    (Session.session c mem disk calls).numshovels
        = (kept calls).length / c.shovelsize + 1
      ∧ (Session.session c mem disk calls).shoveledEdges = (kept calls).length
      ∧ ∀ i, i < (kept calls).length / c.shovelsize + 1 →
        (Session.session c mem disk calls).files i
          = fileOf c mem disk (kept calls) i := by
  have h := Session.After.calls calls (Session.After.start c mem disk)
  rw [List.nil_append] at h
  obtain ⟨s, hs⟩ : ∃ s, s = calls.foldl (Session.preprocessingAddEdge c mem)
    (Session.start disk) := ⟨_, rfl⟩
  rw [← hs] at h
  unfold Session.session
  rw [← hs]
  obtain ⟨q, hq⟩ : ∃ q, (kept calls).length / c.shovelsize = q := ⟨_, rfl⟩
  -- the last shovel takes what full shovels have left
  have hdiv := Nat.div_add_mod' (kept calls).length c.shovelsize
  have hmod := Nat.mod_lt (kept calls).length c.shovelsize_pos
  have hnum := h.numshovels
  have hfiles := h.files
  have hcur := h.curshovel
  rw [hq] at hdiv hnum hfiles hcur ⊢
  refine ⟨congrArg (· + 1) hnum, h.shoveledEdges, fun i hi => ?_⟩
  show Function.update s.files s.numshovels (overwrite (s.files s.numshovels)
    (sortShovel mem s.maxVertexId s.curshovel)) i = _
  rw [hnum]
  -- the last one is written at the end of the session
  by_cases hiq : i = q
  · have hshovel : shovelOf c.shovelsize (kept calls) q = s.curshovel := by
      unfold shovelOf
      rw [hcur]
      refine List.take_of_length_le ?_
      rw [List.length_drop]
      omega
    have hhint : hintOf c.shovelsize (kept calls) q = s.maxVertexId := by
      unfold hintOf
      rw [if_neg (by rw [Nat.succ_mul]; omega), h.maxVertexId]
    rw [hiq, Function.update_self, hfiles, if_neg (lt_irrefl q)]
    unfold fileOf
    rw [hshovel, hhint]
  · rw [Function.update_of_ne hiq, hfiles, if_pos (by omega)]

end Shovel
