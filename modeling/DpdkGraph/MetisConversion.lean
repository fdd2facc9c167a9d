import DpdkGraph.TextLines

/-!
# METIS files

`convert_metis` reads a header and then a line for each vertex, with the
numbers of its neighbours. The vertices are numbered from 1; the line number
`u`, which stands for the vertex, begins with 0. An edge is added where
`u <= v`, so that of the two mentions of an edge the one in the line of its
smaller end is kept: the edge between `a` and `b`, with `a < b`, is added
between `a - 1` and `b` (`convertMetis_eq`). Of its ends only one is
renumbered.

That is a renumbering of the graph as long as no vertex is both the smaller
end of an edge and the larger end of another one, or follows such a larger
end (`Separated`). A comment line that is not ended by a newline is read
forever.
-/

namespace MetisConversion

open Text

/-! ## The conversion -/

/-- A comment begins with a percent sign. -/
def isComment (line : List UInt8) : Bool := decide (line.head? = some 37)

/-- The blank. -/
def isBlank (b : UInt8) : Bool := b == 32

/-- `parseLine`. -/
def parseLine (line : List UInt8) : List ℕ := (tokens isBlank line).map vid

/-- Whether the header is accepted; it has to have two numbers. -/
def accepted : List ℕ → Bool
  | [_, _] => true
  | [_, _, weighted] => weighted == 0
  | _ :: _ :: _ :: _ => true
  | _ => false

/-- The header, after its comments, and the lines that follow it. After the
end of the file `getline` leaves the line as it is. -/
def header : List (List UInt8) → Option (List (List UInt8))
  | [] => none
  | line :: more =>
    if isComment line then header more
    else if accepted (parseLine line) then some more
    else none

/-- The calls for a line. -/
def calls (u : ℕ) (line : List UInt8) : List (ℕ × ℕ) :=
  ((parseLine line).filter fun v => decide (u ≤ v)).map fun v => (u, v)

/-- The content lines. The stream is good until the last line is read. -/
def content (u : ℕ) : List (List UInt8) → Option (List (ℕ × ℕ))
  | [] => some []
  | line :: more =>
    if isComment line then
      -- without another line this one is looked at again
      if more = [] then none else content u more
    else (content ((u + 1) % 2 ^ 32) more).map fun later => calls u line ++ later

/-- `preprocessing_add_edge` does not add self loops. -/
def preprocessingAddEdge (edges : List (ℕ × ℕ)) : List (ℕ × ℕ) :=
  edges.filter fun e => decide (e.1 ≠ e.2)

/-- **`convert_metis`** for the bytes of a file: the edges that are added. -/
def convertMetis (bytes : List UInt8) : Option (List (ℕ × ℕ)) :=
  if bytes = [] then none
  else (header (bytes.splitOn 10)).bind fun more =>
    (content 0 more).map preprocessingAddEdge

/-! ## Files -/

/-- A line of numbers, cut at its blanks: where two blanks follow each other,
or at an end, nothing stands between them. -/
abbrev Pieces := List (Option ℕ)

/-- What stands between two blanks. -/
def pieceText : Option ℕ → List UInt8
  | none => []
  | some v => digits v

/-- The text of a line. -/
def lineText (pieces : Pieces) : List UInt8 := [32].intercalate (pieces.map pieceText)

/-- A comment line. -/
def Comment (line : List UInt8) : Prop := isComment line = true ∧ 10 ∉ line

instance : DecidablePred Comment := fun _ => inferInstanceAs (Decidable (_ ∧ _))

/-- The lines of a vertex: comments and its neighbours. -/
structure VertexLines where
  /-- The comments before the line. -/
  comments : List (List UInt8)
  /-- What the line has between its blanks. -/
  pieces : Pieces

/-- The neighbours of a vertex. -/
def VertexLines.neighbours (x : VertexLines) : List ℕ := x.pieces.reduceOption

/-- **A well-formed METIS file** of an undirected graph without weights and
without self loops. -/
structure MetisFile where
  /-- The number of vertices. -/
  n : ℕ
  /-- The number of edges. -/
  m : ℕ
  n_lt : n < 2 ^ 32
  m_lt : m < 2 ^ 32
  /-- The comments before the first line. -/
  front : List (List UInt8)
  /-- The first line. -/
  head : Pieces
  /-- The lines of the vertices. -/
  vertices : List VertexLines
  /-- The comments at the end. -/
  back : List (List UInt8)
  /-- Whether the last line ends in a newline. -/
  terminated : Bool
  front_comment : ∀ line ∈ front, Comment line
  /-- It has the two numbers, and perhaps the format. -/
  head_eq : head.reduceOption = [n, m] ∨ head.reduceOption = [n, m, 0]
  comments_comment : ∀ x ∈ vertices, ∀ line ∈ x.comments, Comment line
  back_comment : ∀ line ∈ back, Comment line
  length_eq : vertices.length = n
  /-- No neighbour is named twice … -/
  nodup : ∀ x ∈ vertices, x.neighbours.Nodup
  range : ∀ x ∈ vertices, ∀ v ∈ x.neighbours, 1 ≤ v ∧ v ≤ n
  /-- … no vertex is its own neighbour … -/
  noLoop : ∀ q ∈ vertices.zipIdx 1, q.2 ∉ q.1.neighbours
  /-- … and an edge is named at both its ends. -/
  symmetric : ∀ q ∈ vertices.zipIdx 1, ∀ r ∈ vertices.zipIdx 1,
    r.2 ∈ q.1.neighbours → q.2 ∈ r.1.neighbours

namespace MetisFile

variable (f : MetisFile)

/-- The lines after the header. -/
def body : List (List UInt8) :=
  (f.vertices.flatMap fun x => x.comments ++ [lineText x.pieces]) ++ f.back
    ++ if f.terminated then [[]] else []

/-- **The bytes of the file.** -/
def bytes : List UInt8 := [10].intercalate (f.front ++ lineText f.head :: f.body)

/-- The edges of a vertex to larger ones. -/
def edgesOf (u : ℕ) (neighbours : List ℕ) : List (ℕ × ℕ) :=
  (neighbours.filter fun v => decide (u < v)).map fun v => (u, v)

/-- **The edges of the graph**, the smaller end first, in the order of the
file. -/
def edges : List (ℕ × ℕ) :=
  (f.vertices.zipIdx 1).flatMap fun q => edgesOf q.2 q.1.neighbours

/-- The comments at the end are followed by a newline. -/
def Ended : Prop := f.back = [] ∨ f.terminated = true

/-- No edge begins where another one ends, or behind it. -/
def Separated : Prop := ∀ e ∈ f.edges, ∀ e' ∈ f.edges, e'.1 ≠ e.2 ∧ e'.1 ≠ e.2 + 1

/-- **What is asked of the conversion**: for each edge of the graph one is
added, between the vertices that stand for its ends under one renumbering of
the vertices. -/
def Converted : Prop :=
  ∃ added, convertMetis f.bytes = some added ∧
    ∃ σ : ℕ → ℕ, Set.InjOn σ (Set.Icc 1 f.n) ∧ (∀ v ∈ Set.Icc 1 f.n, σ v ≤ f.n)
      ∧ List.Forall₂ (fun e a => s(a.1, a.2) = s(σ e.1, σ e.2)) f.edges added

/-- The same, with the added edges in any order. -/
def SameGraph : Prop :=
  ∃ added, convertMetis f.bytes = some added ∧
    ∃ σ : ℕ → ℕ, Set.InjOn σ (Set.Icc 1 f.n)
      ∧ (added.map fun a => s(a.1, a.2)).Perm (f.edges.map fun e => s(σ e.1, σ e.2))

end MetisFile

/-! ## Lines -/

/-- The pieces of a line are found again. -/
theorem splitOn_lineText {pieces : Pieces} (h : pieces ≠ []) :
    (lineText pieces).splitOn 32 = pieces.map pieceText := by
  refine List.splitOn_intercalate 32 (fun t ht => ?_) (List.map_eq_nil_iff.not.mpr h)
  obtain ⟨piece, -, rfl⟩ := List.mem_map.mp ht
  cases piece with
  | none => exact List.not_mem_nil
  | some v => exact notMem_digits (by decide)

theorem tokens_lineText (pieces : Pieces) :
    tokens isBlank (lineText pieces) = pieces.reduceOption.map digits := by
  by_cases h : pieces = []
  · subst h
    exact tokens_nil isBlank
  · have hsplit : (lineText pieces).splitOnP isBlank = pieces.map pieceText :=
      splitOn_lineText h
    unfold tokens
    rw [hsplit]
    clear hsplit h
    induction pieces with
    | nil => rfl
    | cons piece pieces ih =>
      rw [List.map_cons]
      cases piece with
      | none => rw [List.filter_cons_of_neg (by simp [pieceText]), ih,
          List.reduceOption_cons_of_none]
      | some v =>
        have hkept : (pieceText (some v) :: pieces.map pieceText).filter
              (fun t => decide (t ≠ []))
            = digits v :: (pieces.map pieceText).filter fun t => decide (t ≠ []) :=
          List.filter_cons_of_pos (decide_eq_true (digits_ne_nil v))
        rw [hkept, ih, List.reduceOption_cons_of_some, List.map_cons]

/-- **The numbers of a line are read.** -/
theorem parseLine_lineText {pieces : Pieces} (h : ∀ v ∈ pieces.reduceOption, v < 2 ^ 32) :
    parseLine (lineText pieces) = pieces.reduceOption := by
  unfold parseLine
  rw [tokens_lineText, List.map_map]
  refine (List.map_congr_left fun v hv => ?_).trans (List.map_id _)
  have hvid : vid (digits v ++ []) = v :=
    vid_digits (h v hv) fun b hb => absurd hb (Option.not_mem_none b)
  rwa [List.append_nil] at hvid

/-- The bytes of a line. -/
theorem mem_lineText {pieces : Pieces} {b : UInt8} (hb : b ∈ lineText pieces) :
    b = 32 ∨ isDigit b = true := by
  rcases mem_intercalate hb with hb | ⟨t, ht, hb⟩
  · exact Or.inl (List.mem_singleton.mp hb)
  · obtain ⟨piece, -, rfl⟩ := List.mem_map.mp ht
    cases piece with
    | none => exact absurd hb List.not_mem_nil
    | some v => exact Or.inr (isDigit_of_mem_digits hb)

theorem isComment_lineText (pieces : Pieces) : isComment (lineText pieces) = false := by
  refine decide_eq_false fun h => ?_
  rcases mem_lineText (List.mem_of_mem_head? h) with h | h
  · exact absurd h (by decide)
  · exact absurd h (by decide)

theorem newline_notMem_lineText (pieces : Pieces) : 10 ∉ lineText pieces := by
  intro h
  rcases mem_lineText h with h | h
  · exact absurd h (by decide)
  · exact absurd h (by decide)

/-! ## What is added -/

theorem header_comments {comments : List (List UInt8)}
    (h : ∀ line ∈ comments, Comment line) (more : List (List UInt8)) :
    header (comments ++ more) = header more := by
  induction comments with
  | nil => rfl
  | cons line comments ih =>
    rw [List.forall_mem_cons] at h
    rw [List.cons_append, header, if_pos h.1.1, ih h.2]

theorem content_comments {comments : List (List UInt8)} (u : ℕ)
    (h : ∀ line ∈ comments, Comment line) {more : List (List UInt8)} (hmore : more ≠ []) :
    content u (comments ++ more) = content u more := by
  induction comments with
  | nil => rfl
  | cons line comments ih =>
    rw [List.forall_mem_cons] at h
    have hne : comments ++ more ≠ [] := List.append_ne_nil_of_right_ne_nil comments hmore
    rw [List.cons_append, content, if_pos h.1.1, if_neg hne, ih h.2]

/-- Comments that nothing follows are read forever. -/
theorem content_back {back : List (List UInt8)} (u : ℕ) (h : ∀ line ∈ back, Comment line)
    (hback : back ≠ []) : content u back = none := by
  induction back with
  | nil => exact absurd rfl hback
  | cons line back ih =>
    rw [List.forall_mem_cons] at h
    rw [content, if_pos h.1.1]
    split
    · rfl
    · next hne => exact ih h.2 hne

/-- What stands behind the last vertex. -/
theorem content_tail {back : List (List UInt8)} (u : ℕ) (terminated : Bool)
    (h : ∀ line ∈ back, Comment line) :
    content u (back ++ if terminated then [[]] else [])
      = if back = [] ∨ terminated = true then some [] else none := by
  cases terminated with
  | true =>
    rw [if_pos rfl, if_pos (Or.inr rfl), content_comments u h (by simp)]
    rfl
  | false =>
    rw [if_neg Bool.false_ne_true, List.append_nil]
    by_cases hback : back = []
    · rw [hback, if_pos (Or.inl rfl)]
      rfl
    · rw [content_back u h hback, if_neg (not_or.mpr ⟨hback, Bool.false_ne_true⟩)]

theorem content_line {u : ℕ} {pieces : Pieces} (more : List (List UInt8)) :
    content u (lineText pieces :: more) = (content ((u + 1) % 2 ^ 32) more).map fun later =>
      calls u (lineText pieces) ++ later := by
  rw [content, isComment_lineText, if_neg Bool.false_ne_true]

/-- **What a line adds**: of the edges to larger vertices one end is
renumbered. -/
theorem preprocessingAddEdge_calls {u : ℕ} {pieces : Pieces}
    (h : ∀ v ∈ pieces.reduceOption, v < 2 ^ 32) (hloop : u + 1 ∉ pieces.reduceOption) :
    preprocessingAddEdge (calls u (lineText pieces))
      = (MetisFile.edgesOf (u + 1) pieces.reduceOption).map fun e => (e.1 - 1, e.2) := by
  unfold preprocessingAddEdge calls MetisFile.edgesOf
  rw [parseLine_lineText h, List.filter_map, List.filter_filter, List.map_map]
  have hkeep : pieces.reduceOption.filter
        (fun v => ((fun e : ℕ × ℕ => decide (e.1 ≠ e.2)) ∘ fun v => (u, v)) v && decide (u ≤ v))
      = pieces.reduceOption.filter fun v => decide (u + 1 < v) := by
    refine List.filter_congr fun v hv => ?_
    have hne : v ≠ u + 1 := fun heq => hloop (heq ▸ hv)
    rw [Function.comp_apply, ← Bool.decide_and, decide_eq_decide]
    show u ≠ v ∧ u ≤ v ↔ u + 1 < v
    omega
  rw [hkeep]
  exact List.map_congr_left fun v _ => rfl

/-- The lines of the vertices. -/
theorem content_vertices {vertices : List VertexLines} {u n : ℕ}
    (hcomments : ∀ x ∈ vertices, ∀ line ∈ x.comments, Comment line)
    (hrange : ∀ x ∈ vertices, ∀ v ∈ x.neighbours, v ≤ n) (hn : n < 2 ^ 32)
    (hu : u + vertices.length ≤ n)
    (hloop : ∀ q ∈ vertices.zipIdx (u + 1), q.2 ∉ q.1.neighbours)
    (more : List (List UInt8)) :
    (content u ((vertices.flatMap fun x => x.comments ++ [lineText x.pieces]) ++ more)).map
        preprocessingAddEdge
      = (content (u + vertices.length) more).map fun later =>
        (((vertices.zipIdx (u + 1)).flatMap fun q =>
          MetisFile.edgesOf q.2 q.1.neighbours).map fun e => (e.1 - 1, e.2))
          ++ preprocessingAddEdge later := by
  induction vertices generalizing u with
  | nil => rfl
  | cons x vertices ih =>
    rw [List.forall_mem_cons] at hcomments hrange
    have hbelow : ∀ v ∈ x.pieces.reduceOption, v < 2 ^ 32 :=
      fun v hv => (hrange.1 v hv).trans_lt hn
    rw [List.zipIdx_cons, List.forall_mem_cons] at hloop
    rw [List.length_cons] at hu
    have ih' := ih hcomments.2 hrange.2 (by omega) hloop.2
    rw [List.flatMap_cons, List.append_assoc, List.append_assoc,
      content_comments u hcomments.1 (by simp), List.singleton_append, content_line,
      Nat.mod_eq_of_lt (by omega), Option.map_map]
    have hcons : (preprocessingAddEdge ∘ fun later => calls u (lineText x.pieces) ++ later)
        = (fun l => (MetisFile.edgesOf (u + 1) x.neighbours).map (fun e => (e.1 - 1, e.2)) ++ l)
          ∘ preprocessingAddEdge := by
      funext later
      show preprocessingAddEdge (calls u (lineText x.pieces) ++ later) = _
      unfold preprocessingAddEdge
      rw [List.filter_append]
      exact congrArg (· ++ _) (preprocessingAddEdge_calls hbelow hloop.1)
    rw [hcons, ← Option.map_map, ih', Option.map_map, List.length_cons,
      List.zipIdx_cons, List.flatMap_cons, List.map_append,
      show u + 1 + vertices.length = u + (vertices.length + 1) by omega]
    refine Option.map_congr fun later _ => ?_
    exact (List.append_assoc _ _ _).symm

namespace MetisFile

variable (f : MetisFile)

theorem newline_notMem (line : List UInt8)
    (h : line ∈ f.front ++ lineText f.head :: f.body) : 10 ∉ line := by
  rw [List.mem_append, List.mem_cons] at h
  rcases h with h | rfl | h
  · exact (f.front_comment line h).2
  · exact newline_notMem_lineText _
  · unfold body at h
    rw [List.mem_append, List.mem_append, List.mem_flatMap] at h
    rcases h with (⟨x, hx, h⟩ | h) | h
    · rcases List.mem_append.mp h with h | h
      · exact (f.comments_comment x hx line h).2
      · rw [List.mem_singleton.mp h]
        exact newline_notMem_lineText _
    · exact (f.back_comment line h).2
    · split at h
      · rw [List.mem_singleton.mp h]
        exact List.not_mem_nil
      · exact absurd h List.not_mem_nil

/-- The lines of the file are found again. -/
theorem splitOn_bytes : f.bytes.splitOn 10 = f.front ++ lineText f.head :: f.body :=
  List.splitOn_intercalate 10 f.newline_notMem (by simp)

theorem accepted_head : accepted (parseLine (lineText f.head)) = true := by
  have hlt : ∀ v ∈ f.head.reduceOption, v < 2 ^ 32 := by
    intro v hv
    have hn := f.n_lt
    have hm := f.m_lt
    rcases f.head_eq with h | h
    · rw [h] at hv
      simp only [List.mem_cons, List.not_mem_nil, or_false] at hv
      omega
    · rw [h] at hv
      simp only [List.mem_cons, List.not_mem_nil, or_false] at hv
      omega
  rw [parseLine_lineText hlt]
  rcases f.head_eq with h | h
  · rw [h]
    rfl
  · rw [h]
    rfl

theorem bytes_ne_nil : f.bytes ≠ [] := by
  intro h
  have hsplit := f.splitOn_bytes
  rw [h] at hsplit
  have hone : [[]] = f.front ++ lineText f.head :: f.body := hsplit
  cases hfront : f.front with
  | nil =>
    rw [hfront, List.nil_append, List.cons.injEq] at hone
    have hhead := f.accepted_head
    rw [← hone.1] at hhead
    exact absurd hhead (by decide)
  | cons line front =>
    have hlength := congrArg List.length hone
    rw [hfront] at hlength
    simp only [List.length_cons, List.length_append, List.length_nil] at hlength
    omega

/-- **What is added**: of each edge the smaller end is renumbered, and only
that one. -/
theorem convertMetis_eq :
    convertMetis f.bytes
      = if f.back = [] ∨ f.terminated = true then
          some (f.edges.map fun e => (e.1 - 1, e.2))
        else none := by
  have hheader : header (f.front ++ lineText f.head :: f.body) = some f.body := by
    rw [header_comments f.front_comment, header, isComment_lineText,
      if_neg Bool.false_ne_true, if_pos f.accepted_head]
  have hvertices := content_vertices (u := 0) f.comments_comment
    (fun x hx v hv => (f.range x hx v hv).2) f.n_lt (by rw [Nat.zero_add, f.length_eq])
    f.noLoop (f.back ++ if f.terminated then [[]] else [])
  unfold convertMetis
  rw [if_neg f.bytes_ne_nil, f.splitOn_bytes, hheader, Option.bind_some]
  unfold body
  rw [List.append_assoc, hvertices]
  rw [content_tail _ _ f.back_comment]
  split
  · rw [Option.map_some]
    exact congrArg some (List.append_nil _)
  · rfl

/-! ## The renumbering -/

/-- An edge goes from a vertex to a larger one. -/
theorem lt_of_mem_edges {e : ℕ × ℕ} (he : e ∈ f.edges) :
    1 ≤ e.1 ∧ e.1 < e.2 ∧ e.2 ≤ f.n := by
  obtain ⟨q, hq, he⟩ := List.mem_flatMap.mp he
  obtain ⟨v, hv, rfl⟩ := List.mem_map.mp he
  obtain ⟨hv, hlt⟩ := List.mem_filter.mp hv
  have hx : q.1 ∈ f.vertices := List.fst_mem_of_mem_zipIdx hq
  exact ⟨List.le_snd_of_mem_zipIdx hq, of_decide_eq_true hlt, (f.range q.1 hx v hv).2⟩

/-- The vertex `v` stands in the line of the vertex `u`. -/
def Adjacent (u v : ℕ) : Prop := ∃ x, (x, u) ∈ f.vertices.zipIdx 1 ∧ v ∈ x.neighbours

/-- **The edges are those of the graph.** -/
theorem mem_edges_iff (u v : ℕ) : (u, v) ∈ f.edges ↔ u < v ∧ f.Adjacent u v := by
  constructor
  · intro h
    obtain ⟨q, hq, he⟩ := List.mem_flatMap.mp h
    obtain ⟨w, hw, heq⟩ := List.mem_map.mp he
    obtain ⟨rfl, rfl⟩ := Prod.mk.inj heq
    obtain ⟨hw, hlt⟩ := List.mem_filter.mp hw
    exact ⟨of_decide_eq_true hlt, q.1, hq, hw⟩
  · rintro ⟨hlt, x, hx, hv⟩
    refine List.mem_flatMap.mpr ⟨(x, u), hx, List.mem_map.mpr ⟨v, ?_, rfl⟩⟩
    exact List.mem_filter.mpr ⟨hv, decide_eq_true hlt⟩

/-- **No edge stands twice.** -/
theorem nodup_edges : f.edges.Nodup := by
  unfold edges
  rw [List.nodup_flatMap]
  refine ⟨fun q hq => ?_, ?_⟩
  · have hx : q.1 ∈ f.vertices := List.fst_mem_of_mem_zipIdx hq
    exact ((f.nodup q.1 hx).filter _).map fun v w h => (Prod.mk.inj h).2
  · have hsnd : ((f.vertices.zipIdx 1).map Prod.snd).Nodup := by
      rw [List.zipIdx_map_snd]
      exact List.nodup_range'
    refine (List.pairwise_map.mp hsnd).imp fun {q r} hne e he he' => ?_
    obtain ⟨v, -, rfl⟩ := List.mem_map.mp he
    obtain ⟨w, -, heq⟩ := List.mem_map.mp he'
    exact hne (Prod.mk.inj heq).1.symm

/-- One renumbering for all edges. -/
def Renumbers (σ : ℕ → ℕ) : Prop := ∀ e ∈ f.edges, s(e.1 - 1, e.2) = s(σ e.1, σ e.2)

/-- **A renumbering keeps apart what `Separated` does**, since different
vertices keep different numbers. -/
theorem Renumbers.separated {σ : ℕ → ℕ} (h : f.Renumbers σ)
    (hσ : Set.InjOn σ (Set.Icc 1 f.n)) : f.Separated := by
  intro e he e' he'
  obtain ⟨hpos, hlt, hle⟩ := f.lt_of_mem_edges he
  obtain ⟨hpos', hlt', hle'⟩ := f.lt_of_mem_edges he'
  have hends : ∀ x, x ∈ s(e.1 - 1, e.2) ↔ x = σ e.1 ∨ x = σ e.2 := by
    intro x
    rw [h e he, Sym2.mem_iff]
  have hends' : ∀ x, x ∈ s(e'.1 - 1, e'.2) ↔ x = σ e'.1 ∨ x = σ e'.2 := by
    intro x
    rw [h e' he', Sym2.mem_iff]
  constructor
  · intro heq
    have hone := Sym2.mem_iff.mp ((hends (σ e.2)).mpr (Or.inr rfl))
    have htwo := Sym2.mem_iff.mp ((hends' (σ e'.1)).mpr (Or.inl rfl))
    rw [heq] at htwo
    omega
  · intro heq
    -- the number of the larger end is the renumbered one of the smaller
    have hone := (hends e.2).mp (Sym2.mem_iff.mpr (Or.inr rfl))
    have htwo := (hends' e.2).mp (Sym2.mem_iff.mpr (Or.inl (by omega)))
    have hapart : ∀ x y, 1 ≤ x → x ≤ f.n → 1 ≤ y → y ≤ f.n → x ≠ y → σ x ≠ σ y :=
      fun x y hx hx' hy hy' hne hxy => hne (hσ ⟨hx, hx'⟩ ⟨hy, hy'⟩ hxy)
    rcases hone with hone | hone <;> rcases htwo with htwo | htwo
    · exact hapart e.1 e'.1 hpos (by omega) hpos' (by omega) (by omega) (hone.symm.trans htwo)
    · exact hapart e.1 e'.2 hpos (by omega) (by omega) hle' (by omega) (hone.symm.trans htwo)
    · exact hapart e.2 e'.1 (by omega) hle hpos' (by omega) (by omega) (hone.symm.trans htwo)
    · exact hapart e.2 e'.2 (by omega) hle (by omega) hle' (by omega) (hone.symm.trans htwo)

/-- The number that the conversion gives to an end of an edge. -/
def number (v : ℕ) : ℕ := if v ∈ f.edges.map Prod.fst then v - 1 else v

theorem number_le {v : ℕ} (hv : v ≤ f.n) : f.number v ≤ f.n := by
  unfold number
  split <;> omega

/-- **Where they are separated, the ends of the edges have different
numbers.** -/
theorem Separated.number_injOn (h : f.Separated) :
    Set.InjOn f.number {v | ∃ e ∈ f.edges, v = e.1 ∨ v = e.2} := by
  have hapart : ∀ v w, v ∈ f.edges.map Prod.fst → w ∉ f.edges.map Prod.fst →
      (∃ e ∈ f.edges, w = e.1 ∨ w = e.2) → v - 1 ≠ w := by
    rintro v w hv hw ⟨e, he, rfl | rfl⟩ heq
    · exact hw (List.mem_map_of_mem he)
    · obtain ⟨e', he', rfl⟩ := List.mem_map.mp hv
      have hpos := (f.lt_of_mem_edges he').1
      exact (h e he e' he').2 (by omega)
  rintro v hv w hw heq
  unfold number at heq
  by_cases hv' : v ∈ f.edges.map Prod.fst <;> by_cases hw' : w ∈ f.edges.map Prod.fst
  · rw [if_pos hv', if_pos hw'] at heq
    obtain ⟨e, he, rfl⟩ := List.mem_map.mp hv'
    obtain ⟨e', he', rfl⟩ := List.mem_map.mp hw'
    have := (f.lt_of_mem_edges he).1
    have := (f.lt_of_mem_edges he').1
    omega
  · rw [if_pos hv', if_neg hw'] at heq
    exact absurd heq (hapart v w hv' hw' hw)
  · rw [if_neg hv', if_pos hw'] at heq
    exact absurd heq.symm (hapart w v hw' hv' hv)
  · rw [if_neg hv', if_neg hw'] at heq
    exact heq

/-- The vertices without an edge get the numbers that are left. -/
theorem Separated.exists_renumbers (h : f.Separated) :
    ∃ σ : ℕ → ℕ, Set.InjOn σ (Set.Icc 1 f.n) ∧ (∀ v ∈ Set.Icc 1 f.n, σ v ≤ f.n)
      ∧ f.Renumbers σ := by
  obtain ⟨g, hg⟩ := Set.MapsTo.exists_equiv_extend_of_card_eq
    (α := Fin (f.n + 1)) (t := Finset.range (f.n + 1))
    (s := {i | ∃ e ∈ f.edges, i.val = e.1 ∨ i.val = e.2}) (f := fun i => f.number i.val)
    (by rw [Fintype.card_fin, Finset.card_range])
    (fun i _ => Finset.mem_coe.mpr (Finset.mem_range.mpr
      (Nat.lt_succ_of_le (f.number_le (Nat.lt_succ_iff.mp i.isLt)))))
    (fun i hi j hj hij => Fin.ext (h.number_injOn f hi hj hij))
  have hval : ∀ v (hv : v < f.n + 1), (if h : v < f.n + 1 then (g ⟨v, h⟩ : ℕ) else 0)
      = g ⟨v, hv⟩ := fun v hv => dif_pos hv
  refine ⟨fun v => if h : v < f.n + 1 then (g ⟨v, h⟩ : ℕ) else 0, ?_, ?_, ?_⟩
  · rintro v ⟨-, hv⟩ w ⟨-, hw⟩ heq
    have heq : (if h : v < f.n + 1 then (g ⟨v, h⟩ : ℕ) else 0)
        = if h : w < f.n + 1 then (g ⟨w, h⟩ : ℕ) else 0 := heq
    rw [hval v (by omega), hval w (by omega)] at heq
    exact congrArg Fin.val (g.injective (Subtype.ext heq))
  · rintro v ⟨-, hv⟩
    show (if h : v < f.n + 1 then (g ⟨v, h⟩ : ℕ) else 0) ≤ f.n
    rw [hval v (by omega)]
    exact Nat.lt_succ_iff.mp (Finset.mem_range.mp (g ⟨v, by omega⟩).2)
  · intro e he
    obtain ⟨-, hlt, hle⟩ := f.lt_of_mem_edges he
    have hfirst : f.number e.1 = e.1 - 1 := if_pos (List.mem_map_of_mem he)
    have hsecond : f.number e.2 = e.2 := by
      refine if_neg fun hmem => ?_
      obtain ⟨e', he', heq⟩ := List.mem_map.mp hmem
      exact (h e he e' he').1 heq
    show s(e.1 - 1, e.2) = s((if h : e.1 < f.n + 1 then (g ⟨e.1, h⟩ : ℕ) else 0),
      if h : e.2 < f.n + 1 then (g ⟨e.2, h⟩ : ℕ) else 0)
    rw [hval e.1 (by omega), hval e.2 (by omega), hg ⟨e.1, by omega⟩ ⟨e, he, Or.inl rfl⟩,
      hg ⟨e.2, by omega⟩ ⟨e, he, Or.inr rfl⟩, hfirst, hsecond]

theorem forall₂_iff_renumbers (σ : ℕ → ℕ) :
    List.Forall₂ (fun e a => s(a.1, a.2) = s(σ e.1, σ e.2)) f.edges
      (f.edges.map fun e => (e.1 - 1, e.2)) ↔ f.Renumbers σ := by
  rw [List.forall₂_map_right_iff, List.forall₂_same]
  rfl

/-- Edge for edge is in some order. -/
theorem Converted.sameGraph (h : f.Converted) : f.SameGraph := by
  obtain ⟨added, hadded, σ, hσ, -, hall⟩ := h
  refine ⟨added, hadded, σ, hσ, ?_⟩
  have hsame : added.map (fun a => s(a.1, a.2)) = f.edges.map fun e => s(σ e.1, σ e.2) := by
    clear hadded
    generalize f.edges = edges at hall
    induction hall with
    | nil => rfl
    | cons h _ ih => rw [List.map_cons, List.map_cons, h, ih]
  rw [hsame]

/-- **The graph is converted edge for edge** if and only if the comments at
the end are ended by a newline and no edge begins where another one ends, or
behind it; and then it is the same graph. -/
theorem converted_iff :
    (f.Converted ↔ f.Ended ∧ f.Separated) ∧ (f.Ended ∧ f.Separated → f.SameGraph) := by
  have hiff : f.Converted ↔ f.Ended ∧ f.Separated := by
    constructor
    · rintro ⟨added, hadded, σ, hσ, -, hall⟩
      rw [f.convertMetis_eq] at hadded
      split at hadded
      · next hended =>
        rw [Option.some.injEq] at hadded
        subst hadded
        exact ⟨hended, ((f.forall₂_iff_renumbers σ).mp hall).separated f hσ⟩
      · exact absurd hadded.symm (Option.some_ne_none added)
    · rintro ⟨hended, hseparated⟩
      obtain ⟨σ, hσ, hle, hall⟩ := hseparated.exists_renumbers f
      refine ⟨_, ?_, σ, hσ, hle, (f.forall₂_iff_renumbers σ).mpr hall⟩
      rw [f.convertMetis_eq]
      exact if_pos hended
  exact ⟨hiff, fun h => (hiff.mpr h).sameGraph f⟩

end MetisFile

theorem three_lt : 3 < 2 ^ 32 := by decide

/-- Three vertices on a path. -/
def path : MetisFile where
  n := 3
  m := 2
  n_lt := three_lt
  m_lt := by decide
  front := []
  head := [some 3, some 2]
  vertices := [⟨[], [some 2]⟩, ⟨[], [some 1, some 3]⟩, ⟨[], [some 2]⟩]
  back := []
  terminated := true
  front_comment := by decide
  head_eq := by decide
  comments_comment := by decide
  back_comment := by decide
  length_eq := rfl
  nodup := by decide
  range := by decide
  noLoop := by decide
  symmetric := by decide

/-- The two edges of a path are added between four vertices. -/
theorem not_sameGraph_path : ¬path.SameGraph := by
  rintro ⟨added, hadded, σ, -, hperm⟩
  have hended : path.back = [] ∨ path.terminated = true := Or.inl rfl
  rw [path.convertMetis_eq, if_pos hended, Option.some.injEq] at hadded
  subst hadded
  have hedges : path.edges = [(1, 2), (2, 3)] := by decide
  rw [hedges] at hperm
  -- the vertex in the middle is an end of both
  have hboth : ∀ p ∈ [s(σ 1, σ 2), s(σ 2, σ 3)], σ 2 ∈ p := by
    intro p hp
    simp only [List.mem_cons, List.not_mem_nil, or_false] at hp
    rcases hp with rfl | rfl <;> simp
  have hone := hboth s(0, 2) (hperm.mem_iff.mp (by simp))
  have htwo := hboth s(1, 3) (hperm.mem_iff.mp (by simp))
  rw [Sym2.mem_iff] at hone htwo
  omega

end MetisConversion
