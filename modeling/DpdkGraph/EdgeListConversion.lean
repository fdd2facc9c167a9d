import DpdkGraph.Intervals
import DpdkGraph.TextLines

/-!
# Edge lists

`convert_edgelist` reads a text line by line: comments, and edges of two ids
with or without a value. The lines go through a buffer of 1024 bytes, which
holds 1023 bytes of a line. What is longer comes in pieces, and each further
piece is taken for a line of its own: the rest of a comment is no comment
any more, unless it happens to begin like one.

A text without such lines is converted as it is written. For the others
`Read` says what each line has to meet, and `converted_iff` that no text is
converted where one of its lines does not: a further piece adds calls but
never takes one away.

The ids go through a signed type into an unsigned one and arrive unchanged,
see `TextLines`. A text has no NUL byte, so that the string in the buffer is
what was read.
-/

namespace EdgeListConversion

open Text

variable {V : Type}

/-! ## The conversion -/

/-- The type of the edge values. -/
structure ValueType (V : Type) where
  /-- `EdgeDataType()`. -/
  default : V
  /-- `parse`. -/
  parse : List UInt8 → V
  /-- The return of a line that ends in two bytes is not part of a value. -/
  parse_cr : ∀ val, val ≠ [] → parse (val ++ [13]) = parse val

/-- `delims`: tab, comma and blank. -/
def delims (b : UInt8) : Bool := b == 9 || b == 44 || b == 32

/-- `fgets(s, n + 1, inf)`: the string and the bytes that are left. -/
def fgets : ℕ → List UInt8 → List UInt8 × List UInt8
  | 0, bytes => ([], bytes)
  | _ + 1, [] => ([], [])
  | n + 1, b :: bytes =>
    if b = 10 then ([10], bytes) else (b :: (fgets n bytes).1, (fgets n bytes).2)

/-- The bytes of a line that the buffer holds: the last one is for the NUL. -/
def room : ℕ := 1024 - 1

/-- `FIXLINE`. -/
def fixline (s : List UInt8) : List UInt8 := if s.getLast? = some 10 then s.dropLast else s

/-- A comment begins with `#` or `%`. -/
def isComment (s : List UInt8) : Bool := decide (s.head? = some 35 ∨ s.head? = some 37)

/-- The call for an edge; self loops are left out. -/
def addEdge (src dst : ℕ) (val : V) : List (EdgeWithValue V) :=
  if src ≠ dst then [⟨src, dst, val⟩] else []

section Conversion

variable (c : ValueType V)

/-- A round: the calls for what is in the buffer. A line with fewer than two
tokens fails an assertion. -/
def round (s : List UInt8) : Option (List (EdgeWithValue V)) :=
  if isComment s then some []
  else
    match tokens delims s with
    | src :: dst :: more =>
      some (addEdge (vid src) (vid dst) ((more.head?.map c.parse).getD c.default))
    | _ => none

theorem length_fgets_lt {n : ℕ} {bytes : List UInt8} (h : bytes ≠ []) :
    (fgets (n + 1) bytes).2.length < bytes.length := by
  have hle : ∀ n bytes, (fgets n bytes).2.length ≤ bytes.length := by
    intro n
    induction n with
    | zero => exact fun bytes => le_rfl
    | succ n ih =>
      intro bytes
      cases bytes with
      | nil => exact le_rfl
      | cons b bytes =>
        unfold fgets
        split
        · exact Nat.le_succ _
        · exact (ih bytes).trans (Nat.le_succ _)
  cases bytes with
  | nil => exact absurd rfl h
  | cons b bytes =>
    unfold fgets
    split
    · exact Nat.lt_succ_self _
    · exact Nat.lt_succ_of_le (hle n bytes)

/-- **`convert_edgelist`**: the calls of `preprocessing_add_edge`. -/
def convertEdgelist (bytes : List UInt8) : Option (List (EdgeWithValue V)) :=
  if _ : bytes = [] then some []
  else (round c (fixline (fgets room bytes).1)).bind fun now =>
    (convertEdgelist (fgets room bytes).2).map fun later => now ++ later
termination_by bytes.length
decreasing_by exact length_fgets_lt ‹_›

end Conversion

/-! ## Texts -/

/-- A line without its newline. -/
inductive Line
  | comment (text : List UInt8)
  /-- Two ids, a value behind a separator or none, and perhaps a return. -/
  | edge (src : ℕ) (sep : UInt8) (dst : ℕ) (value : Option (UInt8 × List UInt8))
    (cr : Bool)

namespace Line

/-- What stands behind the ids. -/
def valueText : Option (UInt8 × List UInt8) → List UInt8
  | none => []
  | some (sep, val) => sep :: val

/-- The return. -/
def crText (cr : Bool) : List UInt8 := if cr then [13] else []

/-- The bytes of a line. -/
def text : Line → List UInt8
  | comment text => text
  | edge src sep dst value cr =>
    digits src ++ sep :: (digits dst ++ valueText value ++ crText cr)

/-- A line as it may stand in a text. -/
def Valid : Line → Prop
  | comment text => isComment text = true ∧ 10 ∉ text
  | edge src sep dst value _ =>
    src < 2 ^ 32 ∧ dst < 2 ^ 32 ∧ delims sep = true
      ∧ ∀ sepVal ∈ value, delims sepVal.1 = true ∧ sepVal.2 ≠ []
        ∧ ∀ b ∈ sepVal.2, delims b = false ∧ b ≠ 10

/-- The call that a line asks for: none for a comment and for a self loop. -/
def calls (c : ValueType V) : Line → List (EdgeWithValue V)
  | comment _ => []
  | edge src _ dst value _ =>
    addEdge src dst ((value.map fun sepVal => c.parse sepVal.2).getD c.default)

end Line

/-- **A text file** of comments and edges. -/
structure EdgeListFile where
  /-- The lines that end in a newline. -/
  lines : List Line
  /-- A last line without one. -/
  last : Option Line
  valid : ∀ line ∈ lines ++ last.toList, line.Valid

namespace EdgeListFile

variable (f : EdgeListFile)

/-- The lines and their bytes with the newlines. -/
def entries : List (Line × List UInt8) :=
  f.lines.map (fun line => (line, line.text ++ [10]))
    ++ f.last.toList.map fun line => (line, line.text)

/-- **The bytes of the file.** -/
def bytes : List UInt8 := f.entries.flatMap Prod.snd

/-- **What is asked of the conversion**: one call for each line that is no
comment and no self loop, in order, with the ids and the value of the line. -/
def Converted (c : ValueType V) : Prop :=
  convertEdgelist c f.bytes = some (f.entries.flatMap fun e => e.1.calls c)

end EdgeListFile

/-! ## Reading a line in pieces -/

theorem fgets_line {n : ℕ} {text : List UInt8} (h : 10 ∉ text) (hlt : text.length < n)
    (rest : List UInt8) : fgets n (text ++ 10 :: rest) = (text ++ [10], rest) := by
  induction text generalizing n with
  | nil =>
    obtain ⟨n, rfl⟩ : ∃ m, n = m + 1 := ⟨n - 1, by rw [List.length_nil] at hlt; omega⟩
    exact if_pos rfl
  | cons b text ih =>
    rw [List.length_cons] at hlt
    obtain ⟨n, rfl⟩ : ∃ m, n = m + 1 := ⟨n - 1, by omega⟩
    rw [List.mem_cons, not_or] at h
    rw [List.cons_append, fgets, if_neg (Ne.symm h.1), ih h.2 (by omega)]
    rfl

theorem fgets_piece {n : ℕ} {text : List UInt8} (h : 10 ∉ text) (hle : n ≤ text.length)
    (rest : List UInt8) : fgets n (text ++ rest) = (text.take n, text.drop n ++ rest) := by
  induction text generalizing n with
  | nil =>
    obtain rfl : n = 0 := Nat.le_zero.mp hle
    rfl
  | cons b text ih =>
    cases n with
    | zero => rfl
    | succ n =>
      rw [List.mem_cons, not_or] at h
      rw [List.length_cons] at hle
      rw [List.cons_append, fgets, if_neg (Ne.symm h.1), ih h.2 (by omega)]
      rfl

theorem fgets_end {n : ℕ} {text : List UInt8} (h : 10 ∉ text) (hle : text.length ≤ n) :
    fgets n text = (text, []) := by
  induction text generalizing n with
  | nil =>
    cases n with
    | zero => rfl
    | succ n => rfl
  | cons b text ih =>
    rw [List.length_cons] at hle
    obtain ⟨n, rfl⟩ : ∃ m, n = m + 1 := ⟨n - 1, by omega⟩
    rw [List.mem_cons, not_or] at h
    rw [fgets, if_neg (Ne.symm h.1), ih h.2 (by omega)]

/-- What is left of a line, and what follows it: a newline at the end, or the
end of the file. -/
def LineIn (text rest : List UInt8) : Prop :=
  (∃ start, text = start ++ [10] ∧ 10 ∉ start) ∨ (10 ∉ text ∧ rest = [])

/-- **One piece of a line.** -/
theorem fgets_lineIn {text rest : List UInt8} (h : LineIn text rest) (n : ℕ) :
    fgets n (text ++ rest) = (text.take n, text.drop n ++ rest)
      ∧ (text.drop n = [] ∨ LineIn (text.drop n) rest) := by
  rcases h with ⟨start, rfl, hstart⟩ | ⟨htext, rfl⟩
  · rw [List.append_assoc, List.singleton_append]
    by_cases hlt : start.length < n
    · rw [fgets_line hstart hlt, List.take_of_length_le (by simpa using hlt),
        List.drop_eq_nil_of_le (by simpa using hlt)]
      exact ⟨rfl, Or.inl rfl⟩
    · rw [Nat.not_lt] at hlt
      rw [fgets_piece hstart hlt, List.take_append_of_le_length hlt,
        List.drop_append_of_le_length hlt, List.append_assoc, List.singleton_append]
      exact ⟨rfl, Or.inr (Or.inl ⟨_, rfl, fun hmem => hstart (List.mem_of_mem_drop hmem)⟩)⟩
  · by_cases hle : text.length ≤ n
    · rw [List.append_nil, fgets_end htext hle, List.take_of_length_le hle,
        List.drop_eq_nil_of_le hle]
      exact ⟨rfl, Or.inl rfl⟩
    · rw [fgets_piece htext (Nat.not_le.mp hle).le]
      exact ⟨rfl, Or.inr (Or.inr ⟨fun hmem => htext (List.mem_of_mem_drop hmem), rfl⟩)⟩

section Pieces

variable (c : ValueType V)

/-- The calls for the pieces of a line. -/
def pieces (text : List UInt8) : Option (List (EdgeWithValue V)) :=
  if _ : text = [] then some []
  else (round c (fixline (text.take room))).bind fun now =>
    (pieces (text.drop room)).map fun later => now ++ later
termination_by text.length
decreasing_by
  have := List.length_pos_iff.mpr ‹_›
  rw [List.length_drop]
  unfold room
  omega

@[simp] theorem pieces_nil : pieces c [] = some [] := by
  rw [pieces, dif_pos rfl]

theorem pieces_of_ne_nil {text : List UInt8} (h : text ≠ []) :
    pieces c text = (round c (fixline (text.take room))).bind fun now =>
      (pieces c (text.drop room)).map fun later => now ++ later := by
  rw [pieces, dif_neg h]

@[simp] theorem convertEdgelist_nil : convertEdgelist c [] = some [] := by
  rw [convertEdgelist, dif_pos rfl]

/-- **A line is read in its pieces**: `fgets` stops when its buffer is full, and
what is left of the line is taken for another one. -/
theorem convertEdgelist_append {text rest : List UInt8} (h : text = [] ∨ LineIn text rest) :
    convertEdgelist c (text ++ rest) = (pieces c text).bind fun now =>
      (convertEdgelist c rest).map fun later => now ++ later := by
  induction hlength : text.length using Nat.strong_induction_on generalizing text with
  | _ length ih =>
    subst hlength
    by_cases htext : text = []
    · subst htext
      rw [pieces_nil, Option.bind_some, List.nil_append]
      exact Option.map_id'.symm
    · have hpos := List.length_pos_iff.mpr htext
      obtain ⟨hget, hmore⟩ := fgets_lineIn (h.resolve_left htext) room
      have hdrop : (text.drop room).length < text.length := by
        rw [List.length_drop]
        unfold room
        omega
      rw [convertEdgelist, dif_neg (List.append_ne_nil_of_left_ne_nil htext rest), hget,
        ih _ hdrop hmore rfl, pieces_of_ne_nil c htext]
      cases round c (fixline (text.take room)) with
      | none => rfl
      | some now =>
        cases pieces c (text.drop room) with
        | none => rfl
        | some later =>
          simp only [Option.bind_some, Option.map_some, Option.map_map]
          refine Option.map_congr fun l _ => ?_
          exact (List.append_assoc _ _ _).symm

/-- A piece that asks for no call: a comment, or two ids that are the same. -/
def Silent (s : List UInt8) : Prop :=
  isComment s = true ∨ ∃ src dst more, tokens delims s = src :: dst :: more ∧ vid src = vid dst

theorem round_eq_nil_iff (s : List UInt8) : round c s = some [] ↔ Silent s := by
  unfold round Silent
  split
  · next hcomment => exact iff_of_true rfl (Or.inl hcomment)
  · next hcomment =>
    rw [or_iff_right hcomment]
    split
    · next src dst more htokens =>
      rw [htokens, Option.some.injEq]
      unfold addEdge
      constructor
      · intro h
        refine ⟨src, dst, more, rfl, ?_⟩
        by_contra hne
        rw [if_pos hne] at h
        exact absurd h (List.cons_ne_nil _ _)
      · rintro ⟨src', dst', more', heq, hvid⟩
        obtain ⟨rfl, rfl, -⟩ := List.cons_eq_cons.mp heq |>.imp_right List.cons_eq_cons.mp
        exact if_neg (not_not.mpr hvid)
    · next hfew =>
      refine iff_of_false (Option.some_ne_none _).symm ?_
      rintro ⟨src, dst, more, htokens, -⟩
      exact hfew src dst more htokens

/-- All pieces of a text are silent. -/
def AllSilent (text : List UInt8) : Prop :=
  ∀ k, room * k < text.length → Silent (fixline ((text.drop (room * k)).take room))

theorem allSilent_iff {text : List UInt8} (h : text ≠ []) :
    AllSilent text ↔ Silent (fixline (text.take room)) ∧ AllSilent (text.drop room) := by
  have hpos := List.length_pos_iff.mpr h
  constructor
  · intro hall
    refine ⟨hall 0 (by omega), fun k hk => ?_⟩
    rw [List.length_drop] at hk
    have hnext := hall (k + 1) (by rw [Nat.mul_succ]; omega)
    rw [Nat.mul_succ, Nat.add_comm] at hnext
    rw [List.drop_drop]
    exact hnext
  · rintro ⟨hfirst, hrest⟩ k hk
    cases k with
    | zero => exact hfirst
    | succ k =>
      have := hrest k (by rw [List.length_drop]; rw [Nat.mul_succ] at hk; omega)
      rw [List.drop_drop] at this
      rw [Nat.mul_succ, Nat.add_comm]
      exact this

/-- **No calls are made for a text** whose pieces are silent, and for no
other. -/
theorem pieces_eq_nil_iff (text : List UInt8) :
    pieces c text = some [] ↔ AllSilent text := by
  induction hlength : text.length using Nat.strong_induction_on generalizing text with
  | _ length ih =>
    subst hlength
    by_cases htext : text = []
    · subst htext
      rw [pieces_nil]
      exact iff_of_true rfl fun k hk => absurd hk (Nat.not_lt_zero _)
    · have hpos := List.length_pos_iff.mpr htext
      have hdrop : (text.drop room).length < text.length := by
        rw [List.length_drop]
        unfold room
        omega
      rw [allSilent_iff htext, ← ih _ hdrop _ rfl, ← round_eq_nil_iff c, pieces_of_ne_nil c htext]
      constructor
      · intro h
        obtain ⟨now, hnow, h⟩ := Option.bind_eq_some_iff.mp h
        obtain ⟨later, hlater, h⟩ := Option.map_eq_some_iff.mp h
        obtain ⟨rfl, rfl⟩ := List.append_eq_nil_iff.mp h
        exact ⟨hnow, hlater⟩
      · rintro ⟨hnow, hlater⟩
        rw [hnow, Option.bind_some, hlater]
        rfl

/-- The calls for several lines. -/
def allPieces : List (List UInt8) → Option (List (EdgeWithValue V))
  | [] => some []
  | text :: texts => (pieces c text).bind fun now =>
      (allPieces texts).map fun later => now ++ later

theorem length_le_of_allPieces {entries : List (Line × List UInt8)}
    (h : ∀ e ∈ entries, ∀ r, pieces c e.2 = some r → (e.1.calls c).length ≤ r.length)
    {r : List (EdgeWithValue V)} (hr : allPieces c (entries.map Prod.snd) = some r) :
    (entries.flatMap fun e => e.1.calls c).length ≤ r.length := by
  induction entries generalizing r with
  | nil => exact Nat.zero_le _
  | cons e entries ih =>
    rw [List.forall_mem_cons] at h
    obtain ⟨now, hnow, hr⟩ := Option.bind_eq_some_iff.mp hr
    obtain ⟨later, hlater, rfl⟩ := Option.map_eq_some_iff.mp hr
    rw [List.flatMap_cons, List.length_append, List.length_append]
    exact Nat.add_le_add (h.1 now hnow) (ih h.2 hlater)

/-- **Where each line makes at least the calls that it asks for**, the calls
are those that are asked for only if they are so line for line. -/
theorem allPieces_eq_some_iff {entries : List (Line × List UInt8)}
    (h : ∀ e ∈ entries, ∀ r, pieces c e.2 = some r → (e.1.calls c).length ≤ r.length) :
    allPieces c (entries.map Prod.snd) = some (entries.flatMap fun e => e.1.calls c)
      ↔ ∀ e ∈ entries, pieces c e.2 = some (e.1.calls c) := by
  induction entries with
  | nil => exact iff_of_true rfl fun e he => absurd he List.not_mem_nil
  | cons e entries ih =>
    rw [List.forall_mem_cons] at h
    rw [List.forall_mem_cons, ← ih h.2]
    constructor
    · intro hall
      obtain ⟨now, hnow, hall⟩ := Option.bind_eq_some_iff.mp hall
      obtain ⟨later, hlater, hall⟩ := Option.map_eq_some_iff.mp hall
      have hone := h.1 now hnow
      have hmore := length_le_of_allPieces c h.2 hlater
      rw [List.flatMap_cons] at hall
      have hlength := congrArg List.length hall
      rw [List.length_append, List.length_append] at hlength
      obtain ⟨rfl, rfl⟩ := List.append_inj hall (by omega)
      exact ⟨hnow, hlater⟩
    · rintro ⟨hnow, hlater⟩
      show ((pieces c e.2).bind fun now =>
        (allPieces c (entries.map Prod.snd)).map fun later => now ++ later) = _
      rw [hnow, Option.bind_some, hlater]
      rfl

end Pieces

/-! ## Lines -/

theorem fixline_of_notMem {s : List UInt8} (h : 10 ∉ s) : fixline s = s :=
  if_neg fun hlast => h (List.mem_of_getLast? hlast)

/-- The newline is taken off where it was read. -/
theorem fixline_take {start newline : List UInt8} (h : 10 ∉ start)
    (hnewline : newline = [10] ∨ newline = []) :
    fixline ((start ++ newline).take room) = start.take room := by
  have htake : 10 ∉ start.take room := fun hmem => h (List.mem_of_mem_take hmem)
  rcases hnewline with rfl | rfl
  · by_cases hlt : start.length < room
    · rw [List.take_of_length_le (by simpa using hlt), List.take_of_length_le hlt.le]
      unfold fixline
      rw [if_pos (by simp), List.dropLast_concat]
    · rw [List.take_append_of_le_length (Nat.not_lt.mp hlt), fixline_of_notMem htake]
  · rw [List.append_nil, fixline_of_notMem htake]

namespace Line

theorem newline_notMem {line : Line} (h : line.Valid) : 10 ∉ line.text := by
  cases line with
  | comment text => exact h.2
  | edge src sep dst value cr =>
    obtain ⟨-, -, hsep, hvalue⟩ := h
    have hdelim : delims 10 = false := by decide
    have hne : ∀ b, delims b = true → 10 ≠ b := by
      rintro b hb rfl
      rw [hdelim] at hb
      exact absurd hb Bool.false_ne_true
    have hvalueText : 10 ∉ valueText value := by
      cases value with
      | none => exact List.not_mem_nil
      | some sepVal =>
        obtain ⟨hsepVal, -, hall⟩ := hvalue sepVal rfl
        intro hmem
        rcases List.mem_cons.mp hmem with heq | hmem
        · exact hne _ hsepVal heq
        · exact (hall 10 hmem).2 rfl
    have hcr : 10 ∉ crText cr := by
      cases cr <;> decide
    unfold text
    simp only [List.mem_append, List.mem_cons, not_or]
    exact ⟨notMem_digits (by decide), hne sep hsep,
      ⟨notMem_digits (by decide), hvalueText⟩, hcr⟩

/-- What the buffer holds of the value and of the return behind it. -/
def cut (src dst : ℕ) (val : List UInt8) (cr : Bool) : List UInt8 :=
  (val ++ crText cr).take (room - ((digits src).length + (digits dst).length + 2))

/-- The value is read as it is written, or the edge is left out. -/
def Kept (c : ValueType V) : Line → Prop
  | comment _ => True
  | edge src _ dst value cr =>
    src = dst ∨ ∀ sepVal ∈ value, c.parse (cut src dst sepVal.2 cr) = c.parse sepVal.2

instance (c : ValueType V) [DecidableEq V] : DecidablePred (Kept c)
  | comment _ => isTrue trivial
  | edge _ _ _ _ _ => inferInstanceAs (Decidable (_ ∨ _))

/-- The calls for what the buffer holds of a line. -/
def firstCalls (c : ValueType V) : Line → List (EdgeWithValue V)
  | comment _ => []
  | edge src _ dst value cr =>
    addEdge src dst ((value.map fun sepVal => c.parse (cut src dst sepVal.2 cr)).getD c.default)

theorem delims_of_isDigit {b : UInt8} (hb : isDigit b = true) : delims b = false := by
  have hrange := of_decide_eq_true hb
  have hne : ∀ n : UInt8, n.toNat < 48 → (b == n) = false := by
    intro n hn
    refine beq_eq_false_iff_ne.mpr ?_
    rintro rfl
    omega
  unfold delims
  rw [hne 9 (by decide), hne 44 (by decide), hne 32 (by decide)]
  rfl

theorem vid_digits_cr {n : ℕ} (hn : n < 2 ^ 32) (cr : Bool) :
    vid (digits n ++ crText cr) = n := by
  refine vid_digits hn fun b hb => ?_
  cases cr with
  | true =>
    obtain rfl := Option.some.inj hb
    decide
  | false => exact absurd hb (Option.not_mem_none b)

/-- Ids begin no comment. -/
theorem isComment_digits (n : ℕ) (rest : List UInt8) : isComment (digits n ++ rest) = false := by
  obtain ⟨d, ds, hd⟩ := List.exists_cons_of_ne_nil (digits_ne_nil n)
  have hdigit : isDigit d = true := isDigit_of_mem_digits (hd ▸ List.mem_cons_self)
  rw [hd, List.cons_append]
  refine decide_eq_false ?_
  rw [List.head?_cons]
  rintro (h | h)
  · rw [Option.some.inj h] at hdigit
    exact absurd hdigit (by decide)
  · rw [Option.some.inj h] at hdigit
    exact absurd hdigit (by decide)

theorem cut_ne_nil {src dst : ℕ} (hsrc : src < 2 ^ 32) (hdst : dst < 2 ^ 32) {val : List UInt8}
    (hval : val ≠ []) (cr : Bool) : cut src dst val cr ≠ [] := by
  have hs := length_digits_le hsrc
  have hd := length_digits_le hdst
  unfold cut room
  rw [Ne, List.take_eq_nil_iff, not_or]
  exact ⟨by omega, List.append_ne_nil_of_left_ne_nil hval _⟩

/-- **What the buffer holds of a line** makes one call for an edge. Two ids of
at most ten digits each leave room in the buffer, so that only a value can be
cut off; `strtok` then finds two tokens, or three. -/
theorem round_take (c : ValueType V) {line : Line} (h : line.Valid) :
    round c (line.text.take room) = some (line.firstCalls c) := by
  cases line with
  | comment text =>
    -- a comment is one by its first byte, which is in the buffer
    have hroom : room ≠ 0 := by
      unfold room
      omega
    have hcomment : isComment (text.take room) = true := by
      rw [← h.1]
      unfold isComment
      rw [List.head?_take, if_neg hroom]
    show round c (text.take room) = some []
    rw [round, if_pos hcomment]
  | edge src sep dst value cr =>
    obtain ⟨hsrc, hdst, hsep, hvalue⟩ := h
    have hs := length_digits_le hsrc
    have hd := length_digits_le hdst
    have hdigits : ∀ n, ∀ b ∈ digits n, delims b = false :=
      fun n b hb => delims_of_isDigit (isDigit_of_mem_digits hb)
    have hcr : ∀ b ∈ crText cr, delims b = false := by
      intro b hb
      cases cr with
      | true =>
        obtain rfl := List.mem_singleton.mp hb
        rfl
      | false => exact absurd hb List.not_mem_nil
    cases value with
    | none =>
      -- a line without a value fits the buffer
      have hall : (text (edge src sep dst none cr)).take room
          = digits src ++ sep :: (digits dst ++ crText cr) := by
        have hlength : (crText cr).length ≤ 1 := by
          cases cr <;> decide
        have htext : text (edge src sep dst none cr)
            = digits src ++ sep :: (digits dst ++ crText cr) := by
          rw [text, valueText, List.append_nil]
        rw [htext]
        refine List.take_of_length_le ?_
        rw [List.length_append, List.length_cons, List.length_append]
        unfold room
        omega
      have htokens : tokens delims (digits src ++ sep :: (digits dst ++ crText cr))
          = [digits src, digits dst ++ crText cr] := by
        rw [tokens_append_cons (digits_ne_nil src) (hdigits src) hsep,
          tokens_singleton (List.append_ne_nil_of_left_ne_nil (digits_ne_nil dst) _)]
        intro b hb
        exact (List.mem_append.mp hb).elim (hdigits dst b) (hcr b)
      have hvid := vid_digits_cr hsrc false
      rw [crText, if_neg Bool.false_ne_true, List.append_nil] at hvid
      rw [hall, round, isComment_digits, if_neg Bool.false_ne_true, htokens]
      simp only [hvid, vid_digits_cr hdst]
      rfl
    | some sepVal =>
      obtain ⟨hsepVal, hval, hplain⟩ := hvalue sepVal rfl
      -- of a value the buffer holds the beginning; what is read is two numbers and
      -- that beginning
      have hall : (text (edge src sep dst (some sepVal) cr)).take room
          = digits src ++ sep :: (digits dst ++ sepVal.1 :: cut src dst sepVal.2 cr) := by
        have hsplit : text (edge src sep dst (some sepVal) cr)
            = (digits src ++ sep :: (digits dst ++ [sepVal.1])) ++ (sepVal.2 ++ crText cr) := by
          simp only [text, valueText, List.append_assoc, List.cons_append, List.nil_append]
        have hlength : (digits src ++ sep :: (digits dst ++ [sepVal.1])).length
            = (digits src).length + (digits dst).length + 2 := by
          simp only [List.length_append, List.length_cons, List.length_nil]
          omega
        rw [hsplit, List.take_append, List.take_of_length_le (by rw [hlength]; unfold room; omega),
          hlength]
        simp only [cut, List.append_assoc, List.cons_append, List.nil_append]
      have htokens : tokens delims
          (digits src ++ sep :: (digits dst ++ sepVal.1 :: cut src dst sepVal.2 cr))
          = [digits src, digits dst, cut src dst sepVal.2 cr] := by
        rw [tokens_append_cons (digits_ne_nil src) (hdigits src) hsep,
          tokens_append_cons (digits_ne_nil dst) (hdigits dst) hsepVal,
          tokens_singleton (cut_ne_nil hsrc hdst hval cr)]
        intro b hb
        rcases List.mem_append.mp (List.mem_of_mem_take hb) with hb | hb
        · exact (hplain b hb).1
        · exact hcr b hb
      have hvid : ∀ n, n < 2 ^ 32 → vid (digits n) = n := by
        intro n hn
        have hvid := vid_digits_cr hn false
        rwa [crText, if_neg Bool.false_ne_true, List.append_nil] at hvid
      rw [hall, round, isComment_digits, if_neg Bool.false_ne_true, htokens]
      simp only [hvid src hsrc, hvid dst hdst]
      rfl

theorem length_firstCalls (c : ValueType V) (line : Line) :
    (line.firstCalls c).length = (line.calls c).length := by
  cases line with
  | comment text => rfl
  | edge src sep dst value cr =>
    simp only [firstCalls, calls, addEdge]
    split <;> rfl

/-- What the buffer holds of a line makes the call that the line asks for. -/
theorem firstCalls_eq_iff (c : ValueType V) (line : Line) :
    line.firstCalls c = line.calls c ↔ line.Kept c := by
  cases line with
  | comment text => exact iff_of_true rfl trivial
  | edge src sep dst value cr =>
    simp only [firstCalls, calls, addEdge, Kept]
    by_cases hloop : src = dst
    · rw [if_neg (not_not.mpr hloop), if_neg (not_not.mpr hloop)]
      exact iff_of_true rfl (Or.inl hloop)
    · rw [if_pos hloop, if_pos hloop, or_iff_right hloop]
      cases value with
      | none => exact iff_of_true rfl fun sepVal h => absurd h (Option.not_mem_none _)
      | some sepVal =>
        simp only [Option.map_some, Option.getD_some, List.cons.injEq, EdgeWithValue.mk.injEq,
          true_and, and_true, Option.mem_some_iff, forall_eq']

theorem text_ne_nil {line : Line} (h : line.Valid) : line.text ≠ [] := by
  cases line with
  | comment text =>
    rintro rfl
    exact absurd h.1 (by decide)
  | edge src sep dst value cr =>
    exact List.append_ne_nil_of_right_ne_nil _ (List.cons_ne_nil _ _)

end Line

/-! ## Files -/

section Files

variable (c : ValueType V)

/-- The lines of a file are read one after the other. -/
theorem convertEdgelist_entries {lines : List Line} {last : Option Line}
    (h : ∀ line ∈ lines ++ last.toList, line.Valid) :
    convertEdgelist c ((lines.map (fun line => (line, line.text ++ [10]))
        ++ last.toList.map fun line => (line, line.text)).flatMap Prod.snd)
      = allPieces c ((lines.map (fun line => (line, line.text ++ [10]))
        ++ last.toList.map fun line => (line, line.text)).map Prod.snd) := by
  induction lines with
  | nil =>
    cases last with
    | none => exact convertEdgelist_nil c
    | some line =>
      have hvalid := h line (List.mem_singleton.mpr rfl)
      have hline : LineIn line.text [] := Or.inr ⟨Line.newline_notMem hvalid, rfl⟩
      have happend := convertEdgelist_append c (Or.inr hline)
      rw [convertEdgelist_nil] at happend
      exact happend
  | cons line lines ih =>
    rw [List.cons_append, List.forall_mem_cons] at h
    have hline : ∀ rest, LineIn (line.text ++ [10]) rest :=
      fun rest => Or.inl ⟨_, rfl, Line.newline_notMem h.1⟩
    rw [List.map_cons, List.cons_append, List.flatMap_cons,
      convertEdgelist_append c (Or.inr (hline _)), ih h.2]
    rfl

/-- The first piece of a line, and the others. -/
theorem pieces_line {line : Line} (h : line.Valid) {newline : List UInt8}
    (hnewline : newline = [10] ∨ newline = []) :
    pieces c (line.text ++ newline)
      = (pieces c ((line.text ++ newline).drop room)).map fun later =>
          line.firstCalls c ++ later := by
  have hne : line.text ++ newline ≠ [] :=
    List.append_ne_nil_of_left_ne_nil (Line.text_ne_nil h) _
  rw [pieces_of_ne_nil c hne, fixline_take (Line.newline_notMem h) hnewline,
    Line.round_take c h, Option.bind_some]

/-- **A line makes the calls that it asks for** if its value is kept and its
further pieces are silent, and not otherwise. -/
theorem pieces_line_iff {line : Line} (h : line.Valid) {newline : List UInt8}
    (hnewline : newline = [10] ∨ newline = []) :
    pieces c (line.text ++ newline) = some (line.calls c)
      ↔ line.Kept c ∧ AllSilent ((line.text ++ newline).drop room) := by
  rw [pieces_line c h hnewline, ← pieces_eq_nil_iff c, ← Line.firstCalls_eq_iff]
  constructor
  · intro hcalls
    obtain ⟨later, hlater, heq⟩ := Option.map_eq_some_iff.mp hcalls
    have hlength := congrArg List.length heq
    rw [List.length_append, Line.length_firstCalls] at hlength
    obtain rfl : later = [] := List.length_eq_zero_iff.mp (by omega)
    rw [List.append_nil] at heq
    exact ⟨heq, hlater⟩
  · rintro ⟨hfirst, hlater⟩
    rw [hlater, Option.map_some, List.append_nil, hfirst]

namespace EdgeListFile

variable (f : EdgeListFile)

theorem entry_eq {e : Line × List UInt8} (he : e ∈ f.entries) :
    e.1.Valid ∧ ∃ newline, (newline = [10] ∨ newline = []) ∧ e.2 = e.1.text ++ newline := by
  rcases List.mem_append.mp he with he | he
  · obtain ⟨line, hline, rfl⟩ := List.mem_map.mp he
    exact ⟨f.valid line (List.mem_append_left _ hline), [10], Or.inl rfl, rfl⟩
  · obtain ⟨line, hline, rfl⟩ := List.mem_map.mp he
    exact ⟨f.valid line (List.mem_append_right _ hline), [], Or.inr rfl,
      (List.append_nil _).symm⟩

/-- **The texts that are converted**: the value in the buffer is read as the
one in the line, and what does not fit in the buffer asks for no call, piece
by piece. -/
structure Read : Prop where
  kept : ∀ e ∈ f.entries, e.1.Kept c
  silent : ∀ e ∈ f.entries, AllSilent (e.2.drop room)

theorem converted_iff_pieces :
    f.Converted c ↔ ∀ e ∈ f.entries, pieces c e.2 = some (e.1.calls c) := by
  unfold Converted bytes
  rw [← allPieces_eq_some_iff c]
  · exact iff_of_eq (congrArg (· = _) (convertEdgelist_entries c f.valid))
  · intro e he r hr
    obtain ⟨hvalid, newline, hnewline, heq⟩ := f.entry_eq he
    rw [heq, pieces_line c hvalid hnewline] at hr
    obtain ⟨later, -, rfl⟩ := Option.map_eq_some_iff.mp hr
    rw [List.length_append, Line.length_firstCalls]
    exact Nat.le_add_right _ _

/-- A text that is converted is read line for line. -/
theorem Converted.read (h : f.Converted c) : f.Read c := by
  rw [converted_iff_pieces] at h
  have hline : ∀ e ∈ f.entries, e.1.Kept c ∧ AllSilent (e.2.drop room) := by
    intro e he
    obtain ⟨hvalid, newline, hnewline, heq⟩ := f.entry_eq he
    have hpieces := h e he
    rw [heq] at hpieces ⊢
    exact (pieces_line_iff c hvalid hnewline).mp hpieces
  exact ⟨fun e he => (hline e he).1, fun e he => (hline e he).2⟩

/-- **A text is converted** if and only if its lines are read. -/
theorem converted_iff_read : f.Converted c ↔ f.Read c := by
  refine ⟨fun h => h.read c f, fun h => ?_⟩
  rw [converted_iff_pieces]
  intro e he
  obtain ⟨hvalid, newline, hnewline, heq⟩ := f.entry_eq he
  have hsilent := h.silent e he
  rw [heq] at hsilent ⊢
  exact (pieces_line_iff c hvalid hnewline).mpr ⟨h.kept e he, hsilent⟩

/-- **Lines that fit in the buffer are read**: each is one piece, with its
newline or at the end of the file. -/
theorem read_of_short (h : ∀ e ∈ f.entries, e.2.length ≤ room) : f.Read c where
  kept e he := by
    obtain ⟨hvalid, newline, -, heq⟩ := f.entry_eq he
    have hlength := h e he
    rw [heq, List.length_append] at hlength
    obtain ⟨line, bytes⟩ := e
    cases line with
    | comment text => exact trivial
    | edge src sep dst value cr =>
      refine Or.inr fun sepVal hsepVal => ?_
      obtain rfl := Option.mem_def.mp hsepVal
      obtain ⟨-, -, -, hvalue⟩ := hvalid
      have hcut : Line.cut src dst sepVal.2 cr = sepVal.2 ++ Line.crText cr := by
        refine List.take_of_length_le ?_
        simp only [Line.text, Line.valueText, List.length_append, List.length_cons] at hlength ⊢
        omega
      rw [hcut]
      cases cr with
      | true => exact c.parse_cr _ (hvalue sepVal rfl).2.1
      | false => exact congrArg c.parse (List.append_nil _)
  silent e he := by
    rw [List.drop_eq_nil_of_le (h e he)]
    exact fun k hk => absurd hk (Nat.not_lt_zero _)

end EdgeListFile

end Files

/-- Values that are not read. -/
def noValue : ValueType Unit := ⟨(), fun _ => (), fun _ _ => rfl⟩

/-- One comment, of 1026 bytes. -/
def longComment : List UInt8 := 35 :: List.replicate 1022 97 ++ [49, 32, 50]

theorem longComment_valid : isComment longComment = true ∧ 10 ∉ longComment := by
  refine ⟨rfl, fun h => ?_⟩
  rcases List.mem_append.mp h with h | h
  · rcases List.mem_cons.mp h with h | h
    · exact absurd h (by decide)
    · exact absurd (List.eq_of_mem_replicate h) (by decide)
  · exact absurd h (by decide)

/-- The file of this comment. -/
def commentFile : EdgeListFile where
  lines := [.comment longComment]
  last := none
  valid line h := by
    obtain rfl := List.mem_singleton.mp h
    exact longComment_valid

/-- The last three bytes of the comment are taken for an edge. -/
theorem not_converted_longComment : ¬commentFile.Converted noValue := by
  intro h
  have hsilent := (h.read noValue commentFile).silent
    (.comment longComment, longComment ++ [10]) (List.mem_singleton.mpr rfl)
  have hdrop : (longComment ++ [10]).drop room = [49, 32, 50, 10] := by
    unfold longComment
    rw [List.append_assoc]
    exact List.drop_left' (by rw [List.length_cons, List.length_replicate]; rfl)
  rw [hdrop] at hsilent
  have hpiece := hsilent 0 (by decide)
  rcases hpiece with hcomment | ⟨src, dst, more, htokens, hvid⟩
  · exact absurd hcomment (by decide)
  · have hedge : tokens delims (fixline (List.take room (List.drop (room * 0) [49, 32, 50, 10])))
        = [[49], [50]] := by decide
    rw [hedge] at htokens
    obtain ⟨rfl, hmore⟩ := List.cons_eq_cons.mp htokens
    obtain ⟨rfl, -⟩ := List.cons_eq_cons.mp hmore
    exact absurd hvid (by decide)

end EdgeListConversion
