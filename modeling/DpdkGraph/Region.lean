import Mathlib

/-!
# Regions

A region is a stretch of memory or a file: it has a size, and something at
each place below it. Pieces are written at offsets, in any order. A piece
that a region holds stays there as long as nothing is written over it
(`Holds.write`), also when the region grows (`Holds.extend`). Pieces that
are `placed` one behind the other do not overlap, so a region that holds
all of them starts with all of them together (`Holds.toList`).
-/

variable {α : Type*}

/-- **A stretch of memory, or a file.** What is at the places from `size` on
means nothing. -/
structure Region (α : Type*) where
  /-- How long it is. -/
  size : ℕ
  /-- What is at a place. -/
  get : ℕ → α

namespace Region

/-- What it holds, from the start to the end. -/
def toList (r : Region α) : List α := (List.range r.size).map r.get

/-- A region that holds a list. -/
def ofList (fill : α) (l : List α) : Region α := ⟨l.length, fun i => l.getD i fill⟩

/-- A piece is copied over what is there. -/
def write (off : ℕ) (data : List α) (r : Region α) : Region α where
  size := r.size
  get i := if off ≤ i then data.getD (i - off) (r.get i) else r.get i

/-- The region gets another size; what comes in addition is `fill`. -/
def extend (n : ℕ) (fill : ℕ → α) (r : Region α) : Region α where
  size := n
  get i := if i < r.size then r.get i else fill i

/-- A piece is written into a file, which grows if it must. -/
def pwrite (fill : α) (off : ℕ) (data : List α) (r : Region α) : Region α :=
  if data = [] then r
  else (r.extend (max r.size (off + data.length)) fun _ => fill).write off data

/-- **The region has `data` at `off`.** -/
def Holds (r : Region α) (off : ℕ) (data : List α) : Prop :=
  ∀ i (h : i < data.length), off + i < r.size ∧ r.get (off + i) = data[i]

/-- Two pieces at different places. -/
def Apart (p q : ℕ × List α) : Prop :=
  p.1 + p.2.length ≤ q.1 ∨ q.1 + q.2.length ≤ p.1

theorem Apart.symm {p q : ℕ × List α} (h : Apart p q) : Apart q p := Or.symm h

@[simp] theorem size_write (off : ℕ) (data : List α) (r : Region α) :
    (r.write off data).size = r.size := rfl

@[simp] theorem size_extend (n : ℕ) (fill : ℕ → α) (r : Region α) :
    (r.extend n fill).size = n := rfl

@[simp] theorem length_toList (r : Region α) : r.toList.length = r.size := by
  rw [toList, List.length_map, List.length_range]

theorem getElem_toList (r : Region α) {i : ℕ} (h : i < r.toList.length) :
    r.toList[i] = r.get i := by
  simp [toList]

@[simp] theorem toList_ofList (fill : α) (l : List α) : (ofList fill l).toList = l := by
  refine List.ext_getElem (length_toList _) fun i hi hi' => ?_
  rw [getElem_toList]
  exact List.getD_eq_getElem l fill hi'

theorem size_pwrite (fill : α) (off : ℕ) {data : List α} (hne : data ≠ [])
    (r : Region α) : (r.pwrite fill off data).size = max r.size (off + data.length) := by
  rw [pwrite, if_neg hne]
  rfl

theorem pwrite_nil (fill : α) (off : ℕ) (r : Region α) : r.pwrite fill off [] = r :=
  if_pos rfl

theorem get_write_of_not_le {off i : ℕ} (h : ¬off ≤ i) (data : List α) (r : Region α) :
    (r.write off data).get i = r.get i := if_neg h

theorem get_write_of_end_le {off i : ℕ} {data : List α} (h : off + data.length ≤ i)
    (r : Region α) : (r.write off data).get i = r.get i := by
  show (if off ≤ i then data.getD (i - off) (r.get i) else r.get i) = r.get i
  rw [if_pos (le_trans (Nat.le_add_right _ _) h),
    List.getD_eq_default _ _ (Nat.le_sub_of_add_le' h)]

theorem holds_nil (r : Region α) (off : ℕ) : r.Holds off [] :=
  fun _ h => absurd h (Nat.not_lt_zero _)

/-- What has been written is there. -/
theorem holds_write {off : ℕ} {data : List α} {r : Region α}
    (h : off + data.length ≤ r.size) : (r.write off data).Holds off data := by
  intro i hi
  refine ⟨lt_of_lt_of_le (Nat.add_lt_add_left hi off) h, ?_⟩
  show (if off ≤ off + i then data.getD (off + i - off) (r.get (off + i))
    else r.get (off + i)) = data[i]
  rw [if_pos (Nat.le_add_right off i), Nat.add_sub_cancel_left]
  exact List.getD_eq_getElem data _ hi

/-- **What is not written over stays.** -/
theorem Holds.write {p q : ℕ × List α} (hapart : Apart p q) {r : Region α}
    (h : r.Holds p.1 p.2) : (r.write q.1 q.2).Holds p.1 p.2 := by
  intro i hi
  refine ⟨(h i hi).1, ?_⟩
  rw [← (h i hi).2]
  cases hapart with
  | inl hle => exact get_write_of_not_le (by omega) q.2 r
  | inr hle => exact get_write_of_end_le (le_trans hle (Nat.le_add_right _ _)) r

theorem Holds.extend {off n : ℕ} {data : List α} {r : Region α} (hn : r.size ≤ n)
    (fill : ℕ → α) (h : r.Holds off data) : (r.extend n fill).Holds off data := by
  intro i hi
  exact ⟨lt_of_lt_of_le (h i hi).1 hn, (if_pos (h i hi).1).trans (h i hi).2⟩

theorem holds_pwrite (fill : α) (off : ℕ) (data : List α) (r : Region α) :
    (r.pwrite fill off data).Holds off data := by
  by_cases hne : data = []
  · subst hne
    exact holds_nil _ _
  · rw [pwrite, if_neg hne]
    exact holds_write (le_max_right _ _)

theorem Holds.pwrite {p q : ℕ × List α} (hapart : Apart p q) (fill : α) {r : Region α}
    (h : r.Holds p.1 p.2) : (r.pwrite fill q.1 q.2).Holds p.1 p.2 := by
  unfold Region.pwrite
  split
  · exact h
  · exact (h.extend (le_max_left _ _) _).write hapart

theorem Holds.append {off : ℕ} {a b : List α} {r : Region α} (ha : r.Holds off a)
    (hb : r.Holds (off + a.length) b) : r.Holds off (a ++ b) := by
  intro i hi
  by_cases hlt : i < a.length
  · rw [List.getElem_append_left hlt]
    exact ha i hlt
  · have hle : a.length ≤ i := Nat.le_of_not_lt hlt
    have hb := hb (i - a.length) (by rw [List.length_append] at hi; omega)
    rw [Nat.add_assoc, Nat.add_sub_cancel' hle] at hb
    rw [List.getElem_append_right hle]
    exact hb

/-- What is held at the start is what the region starts with. -/
theorem Holds.toList {data : List α} {r : Region α} (h : r.Holds 0 data) :
    ∃ rest, r.toList = data ++ rest := by
  have hle : data.length ≤ r.size := by
    by_contra hlt
    have hlt := Nat.lt_of_not_le hlt
    exact absurd (h r.size hlt).1 (by omega)
  refine ⟨r.toList.drop data.length, ?_⟩
  have htake : r.toList.take data.length = data := by
    refine List.ext_getElem (by rw [List.length_take, length_toList, min_eq_left hle])
      fun i _ hi => ?_
    have hget := (h i hi).2
    rw [Nat.zero_add] at hget
    rw [List.getElem_take, getElem_toList]
    exact hget
  conv_lhs => rw [← List.take_append_drop data.length r.toList, htake]

/-! ## Several pieces -/

/-- Pieces are written one after the other. -/
def writeAll (pieces : List (ℕ × List α)) (r : Region α) : Region α :=
  pieces.foldl (fun r p => r.write p.1 p.2) r

/-- What is at the places from `off` on. -/
def slice (off n : ℕ) (r : Region α) : List α :=
  (List.range n).map fun i => r.get (off + i)

@[simp] theorem size_writeAll (pieces : List (ℕ × List α)) (r : Region α) :
    (r.writeAll pieces).size = r.size := by
  induction pieces generalizing r with
  | nil => rfl
  | cons p pieces ih => exact ih (r.write p.1 p.2)

/-- A piece that is already there stays if the others are at other places. -/
theorem Holds.writeAll {p : ℕ × List α} {pieces : List (ℕ × List α)}
    (hapart : ∀ q ∈ pieces, Apart p q) {r : Region α} (h : r.Holds p.1 p.2) :
    (r.writeAll pieces).Holds p.1 p.2 := by
  induction pieces generalizing r with
  | nil => exact h
  | cons q pieces ih =>
    exact ih (fun u hu => hapart u (List.mem_cons_of_mem q hu))
      (h.write (hapart q List.mem_cons_self))

/-- **All pieces are there** if they do not overlap and fit. -/
theorem holds_writeAll {pieces : List (ℕ × List α)} (hapart : pieces.Pairwise Apart)
    {r : Region α} (hfit : ∀ p ∈ pieces, p.1 + p.2.length ≤ r.size) :
    ∀ p ∈ pieces, (r.writeAll pieces).Holds p.1 p.2 := by
  induction pieces generalizing r with
  | nil => exact fun p hp => absurd hp List.not_mem_nil
  | cons q pieces ih =>
    have hq := List.pairwise_cons.mp hapart
    have hfit' := List.forall_mem_cons.mp hfit
    intro p hp
    rcases List.mem_cons.mp hp with rfl | hp
    · exact (holds_write hfit'.1).writeAll hq.1
    · exact ih (r := r.write q.1 q.2) hq.2 hfit'.2 p hp

theorem slice_of_holds {off : ℕ} {data : List α} {r : Region α}
    (h : r.Holds off data) : r.slice off data.length = data := by
  refine List.ext_getElem (by simp [slice]) fun i _ hi => ?_
  simp only [slice, List.getElem_map, List.getElem_range]
  exact (h i hi).2

/-! ## Pieces one behind the other -/

/-- The pieces with their offsets. -/
def placed (off : ℕ) : List (List α) → List (ℕ × List α)
  | [] => []
  | data :: more => (off, data) :: placed (off + data.length) more

theorem le_of_mem_placed {off : ℕ} {pieces : List (List α)} {p : ℕ × List α}
    (h : p ∈ placed off pieces) : off ≤ p.1 := by
  induction pieces generalizing off with
  | nil => cases h
  | cons data more ih =>
    cases List.mem_cons.mp h with
    | inl heq => rw [heq]
    | inr hmem => exact le_trans (Nat.le_add_right _ _) (ih hmem)

/-- No piece ends behind the end. -/
theorem end_le_of_mem_placed {off : ℕ} {pieces : List (List α)} {p : ℕ × List α}
    (h : p ∈ placed off pieces) : p.1 + p.2.length ≤ off + pieces.flatten.length := by
  induction pieces generalizing off with
  | nil => cases h
  | cons data more ih =>
    rw [List.flatten_cons, List.length_append, ← Nat.add_assoc]
    cases List.mem_cons.mp h with
    | inl heq => rw [heq]; exact Nat.le_add_right _ _
    | inr hmem => exact ih hmem

/-- The piece that ends at the end, if there is anything at all. -/
theorem exists_mem_placed {off : ℕ} {pieces : List (List α)} (h : pieces.flatten ≠ []) :
    ∃ p ∈ placed off pieces, p.2 ≠ []
      ∧ p.1 + p.2.length = off + pieces.flatten.length := by
  induction pieces generalizing off with
  | nil => exact absurd rfl h
  | cons data more ih =>
    rw [List.flatten_cons, List.length_append, ← Nat.add_assoc]
    by_cases hmore : more.flatten = []
    · rw [List.flatten_cons, hmore, List.append_nil] at h
      exact ⟨(off, data), List.mem_cons_self, h, by rw [hmore]; rfl⟩
    · obtain ⟨p, hp, hne, hend⟩ := @ih (off + data.length) hmore
      exact ⟨p, List.mem_cons_of_mem _ hp, hne, hend⟩

/-- **They do not overlap.** -/
theorem pairwise_placed (off : ℕ) (pieces : List (List α)) :
    (placed off pieces).Pairwise Apart := by
  induction pieces generalizing off with
  | nil => exact List.Pairwise.nil
  | cons data more ih =>
    exact List.Pairwise.cons (fun p hp => Or.inl (le_of_mem_placed hp)) (ih _)

theorem placed_append (off : ℕ) (pieces more : List (List α)) :
    placed off (pieces ++ more)
      = placed off pieces ++ placed (off + pieces.flatten.length) more := by
  induction pieces generalizing off with
  | nil => rfl
  | cons data pieces ih =>
    rw [List.cons_append, placed, placed, ih, List.flatten_cons,
      List.length_append, Nat.add_assoc, List.cons_append]

/-- Rows of one width. -/
theorem placed_rows {β : Type*} {width : ℕ} {f : β × ℕ → List α}
    (hf : ∀ x, (f x).length = width) (off : ℕ) (l : List β) (n : ℕ) :
    placed (off + width * n) ((l.zipIdx n).map f)
      = (l.zipIdx n).map fun x => (off + width * x.2, f x) := by
  induction l generalizing n with
  | nil => rfl
  | cons b l ih =>
    rw [List.zipIdx_cons, List.map_cons, List.map_cons, placed, hf,
      Nat.add_assoc, ← Nat.mul_succ, ih]

/-- **A region that has all of them has all of them together.** -/
theorem holds_flatten {off : ℕ} {pieces : List (List α)} {r : Region α}
    (h : ∀ p ∈ placed off pieces, r.Holds p.1 p.2) : r.Holds off pieces.flatten := by
  induction pieces generalizing off with
  | nil => exact holds_nil _ _
  | cons data more ih =>
    have h := List.forall_mem_cons.mp h
    rw [List.flatten_cons]
    exact h.1.append (ih h.2)

end Region
