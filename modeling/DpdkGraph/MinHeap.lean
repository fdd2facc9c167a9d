import Mathlib

/-!
# A binary heap in an array

A binary heap keeps its elements in the first cells of an array, where the
children of cell `i` are the cells `2 * i + 1` and `2 * i + 2`, and no
element is smaller than its parent. Inserting an element lets it rise from
a new last cell; taking the smallest one away moves the last element to the
root and lets it sink.

`BinaryMinheap` carries the order of the cells as a field, so the smallest
element is always at the root (`BinaryMinheap.min_le`). What the two
operations do to the elements is said of the multiset
`BinaryMinheap.contents`: `contents_insert` and `contents_extractMin`.
-/

namespace MinHeap

variable {α κ : Type*} [LinearOrder κ] {key : α → κ}

/-- The parent of a cell. -/
def parent (i : ℕ) : ℕ := (i + 1) / 2 - 1

/-- The left child of a cell. -/
def left (i : ℕ) : ℕ := i * 2 + 1

/-- The right child of a cell. -/
def right (i : ℕ) : ℕ := i * 2 + 2

theorem parent_lt {i : ℕ} (h : 0 < i) : parent i < i := by
  show (i + 1) / 2 - 1 < i
  omega

/-- A cell is one of its parent's two children. -/
theorem eq_left_or_right {i : ℕ} (_ : 0 < i) :
    i = left (parent i) ∨ i = right (parent i) := by
  show i = ((i + 1) / 2 - 1) * 2 + 1 ∨ i = ((i + 1) / 2 - 1) * 2 + 2
  omega

@[simp] theorem parent_left (i : ℕ) : parent (left i) = i := by
  show (i * 2 + 1 + 1) / 2 - 1 = i
  omega

@[simp] theorem parent_right (i : ℕ) : parent (right i) = i := by
  show (i * 2 + 2 + 1) / 2 - 1 = i
  omega

/-- The first `sz` cells are a heap. -/
def Ordered (key : α → κ) (sz : ℕ) (values : ℕ → α) : Prop :=
  ∀ i, 0 < i → i < sz → key (values (parent i)) ≤ key (values i)

/-- The root of a heap is the smallest. -/
theorem Ordered.root_le {sz : ℕ} {values : ℕ → α} (h : Ordered key sz values)
    (i : ℕ) (hi : i < sz) : key (values 0) ≤ key (values i) := by
  induction i using Nat.strongRecOn with
  | ind i ih =>
    rcases Nat.eq_zero_or_pos i with h0 | hpos
    · rw [h0]
    · have hlt := parent_lt hpos
      exact (ih (parent i) hlt (hlt.trans hi)).trans (h i hpos hi)

/-! ## Rising -/

/-- The element `e` rises from the cell `pos`: as long as it is smaller than
the element of the parent's cell, that one moves down. -/
def percolateUp (key : α → κ) (e : α) (values : ℕ → α) (pos : ℕ) : ℕ → α :=
  if _h : 0 < pos ∧ key e < key (values (parent pos)) then
    percolateUp key e (Function.update values pos (values (parent pos)))
      (parent pos)
  else Function.update values pos e
termination_by pos
decreasing_by exact parent_lt _h.1

/-- The cells with those of `i` and `j` exchanged. -/
def exchange (values : ℕ → α) (i j : ℕ) : ℕ → α := fun k =>
  values (Equiv.swap i j k)

/-- Moving the hole is an exchange of the cells it would be filled in. -/
theorem update_update_eq_exchange {values : ℕ → α} {i j : ℕ} (h : j ≠ i) (e : α) :
    Function.update (Function.update values i (values j)) j e
      = exchange (Function.update values i e) i j := by
  funext k
  unfold exchange
  by_cases hj : k = j
  · rw [hj, Equiv.swap_apply_right, Function.update_self, Function.update_self]
  · rw [Function.update_of_ne hj]
    by_cases hi : k = i
    · rw [hi, Equiv.swap_apply_left, Function.update_self, Function.update_of_ne h]
    · rw [Equiv.swap_apply_of_ne_of_ne hi hj, Function.update_of_ne hi,
        Function.update_of_ne hi]

/-- The cells with `w` at the cell `pos` are a heap but for that cell: every
other cell is in order with its parent, and the children of `pos` with the
parent of `pos`. -/
structure UpOrder (key : α → κ) (sz : ℕ) (w : ℕ → α) (pos : ℕ) : Prop where
  /-- The other cells are in order. -/
  except : ∀ i, 0 < i → i < sz → i ≠ pos → key (w (parent i)) ≤ key (w i)
  /-- The children of the cell are in order with its parent. -/
  grand : 0 < pos → ∀ i, 0 < i → i < sz → parent i = pos →
    key (w (parent pos)) ≤ key (w i)

/-- A smaller element that changes places with its parent's leaves the
cells a heap but for the parent's cell. -/
theorem UpOrder.exchange {sz pos : ℕ} {w : ℕ → α} (h : UpOrder key sz w pos)
    (hpos : 0 < pos) (hlt : key (w pos) < key (w (parent pos))) :
    UpOrder key sz (exchange w pos (parent pos)) (parent pos) := by
  have hpar := parent_lt hpos
  constructor
  · intro i hi0 hi hne
    unfold MinHeap.exchange
    -- the cell the element leaves has its parent's element now
    by_cases hip : i = pos
    · subst hip
      rw [Equiv.swap_apply_right, Equiv.swap_apply_left]
      exact hlt.le
    · rw [Equiv.swap_apply_of_ne_of_ne hip hne]
      -- the children of that cell: the old parent is above them
      by_cases hparent : parent i = pos
      · rw [hparent, Equiv.swap_apply_left]
        exact h.grand hpos i hi0 hi hparent
      · have hi' := h.except i hi0 hi hip
        -- the other child of the parent: the new element is smaller still
        by_cases hsib : parent i = parent pos
        · rw [hsib, Equiv.swap_apply_right]
          exact hlt.le.trans (hsib ▸ hi')
        · rw [Equiv.swap_apply_of_ne_of_ne hparent hsib]
          exact hi'
  · intro hpar0 i hi0 hi hparent
    have hgrand := parent_lt hpar0
    unfold MinHeap.exchange
    rw [Equiv.swap_apply_of_ne_of_ne (by omega : parent (parent pos) ≠ pos) hgrand.ne]
    -- the grandparent is no larger than the old parent, and so than both children
    by_cases hip : i = pos
    · subst hip
      rw [Equiv.swap_apply_left]
      by_cases hsz : parent i < sz
      · exact h.except (parent i) hpar0 hsz hpar.ne
      · exact absurd (hpar.trans hi) hsz
    · have hne : i ≠ parent pos := fun hip' => by
        rw [hip'] at hparent
        exact hgrand.ne hparent
      rw [Equiv.swap_apply_of_ne_of_ne hip hne]
      have hup := h.except (parent pos) hpar0 ?_ hpar.ne
      · exact hup.trans (hparent ▸ h.except i hi0 hi hip)
      · rw [← hparent]
        exact (parent_lt hi0).trans hi

/-- **Rising restores the heap.** -/
theorem percolateUp_ordered {sz : ℕ} {e : α} {values : ℕ → α} {pos : ℕ}
    (h : UpOrder key sz (Function.update values pos e) pos) :
    Ordered key sz (percolateUp key e values pos) := by
  induction values, pos using percolateUp.induct key e with
  | case1 values pos hc ih =>
    rw [percolateUp, dif_pos hc]
    have hne : parent pos ≠ pos := (parent_lt hc.1).ne
    refine ih ?_
    rw [update_update_eq_exchange hne]
    refine h.exchange hc.1 ?_
    rw [Function.update_self, Function.update_of_ne hne]
    exact hc.2
  | case2 values pos hc =>
    rw [percolateUp, dif_neg hc]
    intro i hi0 hi
    by_cases hip : i = pos
    · subst hip
      rw [Function.update_self, Function.update_of_ne (parent_lt hi0).ne]
      exact not_lt.mp fun hlt => hc ⟨hi0, hlt⟩
    · exact h.except i hi0 hi hip

/-! ## The elements of the cells -/

/-- The elements of the first `sz` cells. -/
def elements (sz : ℕ) (values : ℕ → α) : Multiset α :=
  (Multiset.range sz).map values

theorem elements_succ (sz : ℕ) (values : ℕ → α) :
    elements (sz + 1) values = values sz ::ₘ elements sz values := by
  unfold elements
  rw [Multiset.range_succ, Multiset.map_cons]

theorem elements_congr {sz : ℕ} {values values' : ℕ → α}
    (h : ∀ i, i < sz → values i = values' i) :
    elements sz values = elements sz values' :=
  Multiset.map_congr rfl fun i hi => h i (Multiset.mem_range.mp hi)

/-- An exchange stays among the cells. -/
theorem swap_lt {sz i j k : ℕ} (hi : i < sz) (hj : j < sz) (hk : k < sz) :
    Equiv.swap i j k < sz := by
  rw [Equiv.swap_apply_def]
  split
  · exact hj
  · split
    · exact hi
    · exact hk

/-- An exchange keeps the elements. -/
theorem elements_exchange {sz i j : ℕ} (hi : i < sz) (hj : j < sz)
    (values : ℕ → α) : elements sz (exchange values i j) = elements sz values := by
  have hrange : (Multiset.range sz).map (Equiv.swap i j) = Multiset.range sz := by
    refine (Multiset.Nodup.ext ((Multiset.nodup_range sz).map (Equiv.injective _))
      (Multiset.nodup_range sz)).mpr fun k => ?_
    rw [Multiset.mem_map]
    constructor
    · rintro ⟨l, hl, rfl⟩
      exact Multiset.mem_range.mpr (swap_lt hi hj (Multiset.mem_range.mp hl))
    · intro hk
      exact ⟨Equiv.swap i j k,
        Multiset.mem_range.mpr (swap_lt hi hj (Multiset.mem_range.mp hk)),
        Equiv.swap_apply_self i j k⟩
  calc (Multiset.range sz).map (values ∘ Equiv.swap i j)
      = ((Multiset.range sz).map (Equiv.swap i j)).map values :=
        (Multiset.map_map _ _ _).symm
    _ = elements sz values := by rw [hrange, elements]

/-- Rising puts `e` among the other elements. -/
theorem elements_percolateUp {sz : ℕ} {e : α} {values : ℕ → α} {pos : ℕ}
    (hpos : pos < sz) :
    elements sz (percolateUp key e values pos)
      = elements sz (Function.update values pos e) := by
  induction values, pos using percolateUp.induct key e with
  | case1 values pos hc ih =>
    have hlt := parent_lt hc.1
    rw [percolateUp, dif_pos hc, ih (hlt.trans hpos),
      update_update_eq_exchange hlt.ne,
      elements_exchange hpos (hlt.trans hpos)]
  | case2 values pos hc =>
    rw [percolateUp, dif_neg hc]

/-! ## Sinking -/

/-- The cell of the smaller of the elements at `i` and at its left child. -/
def leftOrSelf (key : α → κ) (sz : ℕ) (values : ℕ → α) (i : ℕ) : ℕ :=
  if left i < sz ∧ key (values (left i)) < key (values i) then left i else i

/-- The cell of the smallest of the elements at `i` and at its children. -/
def smallest (key : α → κ) (sz : ℕ) (values : ℕ → α) (i : ℕ) : ℕ :=
  if right i < sz ∧ key (values (right i)) < key (values (leftOrSelf key sz values i))
  then right i else leftOrSelf key sz values i

theorem leftOrSelf_cases (key : α → κ) (sz : ℕ) (values : ℕ → α) (i : ℕ) :
    leftOrSelf key sz values i = i
      ∨ (leftOrSelf key sz values i = left i ∧ left i < sz
        ∧ key (values (left i)) < key (values i)) := by
  unfold leftOrSelf
  split
  · next h => exact Or.inr ⟨rfl, h⟩
  · exact Or.inl rfl

/-- The smallest is the element at `i` itself, or a child smaller than
it. -/
theorem smallest_cases (key : α → κ) (sz : ℕ) (values : ℕ → α) (i : ℕ) :
    smallest key sz values i = i
      ∨ (smallest key sz values i < sz ∧ 0 < smallest key sz values i
        ∧ parent (smallest key sz values i) = i
        ∧ key (values (smallest key sz values i)) < key (values i)) := by
  have hl := leftOrSelf_cases key sz values i
  unfold smallest
  split
  · next hr =>
    refine Or.inr ⟨hr.1, Nat.succ_pos _, parent_right i, ?_⟩
    have hr := hr.2
    rcases hl with hl | ⟨hl, _, hlt⟩
    · rw [hl] at hr
      exact hr
    · rw [hl] at hr
      exact hr.trans hlt
  · rcases hl with hl | ⟨hl, hsz, hlt⟩
    · exact Or.inl hl
    · rw [hl]
      exact Or.inr ⟨hsz, Nat.succ_pos _, parent_left i, hlt⟩

/-- The smallest is no larger than a child. -/
theorem smallest_le (key : α → κ) (sz : ℕ) (values : ℕ → α) (i : ℕ) {j : ℕ}
    (hj0 : 0 < j) (hj : j < sz) (hparent : parent j = i) :
    key (values (smallest key sz values i)) ≤ key (values j) := by
  rcases eq_left_or_right hj0 with hjl | hjr
  · rw [hparent] at hjl
    have hle : key (values (leftOrSelf key sz values i)) ≤ key (values j) := by
      unfold leftOrSelf
      rw [← hjl]
      split
      · exact le_rfl
      · next h => exact not_lt.mp fun hlt => h ⟨hj, hlt⟩
    unfold smallest
    split
    · next h => exact h.2.le.trans hle
    · exact hle
  · rw [hparent] at hjr
    unfold smallest
    rw [← hjr]
    split
    · exact le_rfl
    · next h => exact not_lt.mp fun hlt => h ⟨hj, hlt⟩

/-- The element at `i` sinks: as long as a child is smaller, it changes
places with the smallest child. -/
def minHeapify (key : α → κ) (sz : ℕ) (values : ℕ → α) (i : ℕ) : ℕ → α :=
  if _h : smallest key sz values i ≠ i then
    minHeapify key sz (exchange values i (smallest key sz values i))
      (smallest key sz values i)
  else values
termination_by sz - i
decreasing_by
  rcases smallest_cases key sz values i with h' | h'
  · exact absurd h' _h
  · have := parent_lt h'.2.1
    omega

/-- The first `sz` cells are a heap but for the cell `pos`: its children may
be smaller, but not than its parent. -/
structure DownOrder (key : α → κ) (sz : ℕ) (w : ℕ → α) (pos : ℕ) : Prop where
  /-- The cells that are not its children are in order. -/
  except : ∀ i, 0 < i → i < sz → parent i ≠ pos → key (w (parent i)) ≤ key (w i)
  /-- Its children are in order with its parent. -/
  grand : 0 < pos → ∀ i, 0 < i → i < sz → parent i = pos →
    key (w (parent pos)) ≤ key (w i)

/-- An element that changes places with its smallest child leaves the cells
a heap but for the child's cell. -/
theorem DownOrder.exchange {sz pos s : ℕ} {w : ℕ → α} (h : DownOrder key sz w pos)
    (hs : s < sz) (hs0 : 0 < s) (hparent : parent s = pos)
    (hlt : key (w s) < key (w pos))
    (hle : ∀ j, 0 < j → j < sz → parent j = pos → key (w s) ≤ key (w j)) :
    DownOrder key sz (exchange w pos s) s := by
  have hps : pos < s := hparent ▸ parent_lt hs0
  constructor
  · intro i hi0 hi hne
    unfold MinHeap.exchange
    by_cases hip : parent i = pos
    · rw [hip, Equiv.swap_apply_left]
      by_cases his : i = s
      · rw [his, Equiv.swap_apply_right]
        exact hlt.le
      · have hipos : i ≠ pos := fun hi' => by
          have := parent_lt hi0
          omega
        rw [Equiv.swap_apply_of_ne_of_ne hipos his]
        exact hle i hi0 hi hip
    · have his : i ≠ s := fun his => hip (his ▸ hparent)
      rw [Equiv.swap_apply_of_ne_of_ne hip hne]
      by_cases hipos : i = pos
      · subst hipos
        rw [Equiv.swap_apply_left]
        exact h.grand hi0 s hs0 hs hparent
      · rw [Equiv.swap_apply_of_ne_of_ne hipos his]
        exact h.except i hi0 hi hip
  · intro _ i hi0 hi hip
    have hlt' := parent_lt hi0
    unfold MinHeap.exchange
    rw [hparent, Equiv.swap_apply_left,
      Equiv.swap_apply_of_ne_of_ne (by omega : i ≠ pos) (by omega : i ≠ s), ← hip]
    refine h.except i hi0 hi ?_
    rw [hip]
    exact hps.ne'

/-- **Sinking restores the heap.** -/
theorem minHeapify_ordered {sz : ℕ} {values : ℕ → α} {i : ℕ}
    (h : DownOrder key sz values i) :
    Ordered key sz (minHeapify key sz values i) := by
  induction values, i using minHeapify.induct key sz with
  | case1 values i hne ih =>
    rw [minHeapify, dif_pos hne]
    rcases smallest_cases key sz values i with heq | ⟨hs, hs0, hparent, hlt⟩
    · exact absurd heq hne
    · exact ih (h.exchange hs hs0 hparent hlt fun j hj0 hj hp =>
        smallest_le key sz values i hj0 hj hp)
  | case2 values i heq =>
    rw [minHeapify, dif_neg heq]
    intro j hj0 hj
    by_cases hparent : parent j = i
    · have hle := smallest_le key sz values i hj0 hj hparent
      rw [not_ne_iff.mp heq] at hle
      rw [hparent]
      exact hle
    · exact h.except j hj0 hj hparent

/-- Sinking keeps the elements. -/
theorem elements_minHeapify {sz : ℕ} {values : ℕ → α} {i : ℕ} (hi : i < sz) :
    elements sz (minHeapify key sz values i) = elements sz values := by
  induction values, i using minHeapify.induct key sz with
  | case1 values i hne ih =>
    rw [minHeapify, dif_pos hne]
    rcases smallest_cases key sz values i with heq | ⟨hs, _, _, _⟩
    · exact absurd heq hne
    · rw [ih hs, elements_exchange hi hs]
  | case2 values i heq =>
    rw [minHeapify, dif_neg heq]

end MinHeap

open MinHeap

/-- **A heap of at most `capacity` elements**, the smallest at the root. -/
structure BinaryMinheap {α κ : Type*} [LinearOrder κ] (key : α → κ)
    (capacity : ℕ) where
  /-- The cells. -/
  values : ℕ → α
  /-- How many of them are in use. -/
  sz : ℕ
  /-- They are a heap. -/
  ordered : Ordered key sz values

namespace BinaryMinheap

variable {α κ : Type*} [LinearOrder κ] {key : α → κ} {capacity : ℕ}

/-- A heap without elements, over cells of any content. -/
def empty (values : ℕ → α) : BinaryMinheap key capacity :=
  ⟨values, 0, fun _ _ h => absurd h (Nat.not_lt_zero _)⟩

/-- The elements of a heap. -/
def contents (h : BinaryMinheap key capacity) : Multiset α :=
  elements h.sz h.values

@[simp] theorem card_contents (h : BinaryMinheap key capacity) :
    h.contents.card = h.sz := by
  unfold contents elements
  rw [Multiset.card_map, Multiset.card_range]

@[simp] theorem contents_empty (values : ℕ → α) :
    (empty values : BinaryMinheap key capacity).contents = 0 := rfl

/-- `insert`; a heap that is full fails an assertion. -/
def insert (h : BinaryMinheap key capacity) (e : α) :
    Option (BinaryMinheap key capacity) :=
  if h.sz + 1 ≤ capacity then
    some ⟨percolateUp key e h.values h.sz, h.sz + 1, percolateUp_ordered
      { except := fun i hi0 hi hne => by
          have hlt : i < h.sz := by omega
          rw [Function.update_of_ne hne,
            Function.update_of_ne ((parent_lt hi0).trans hlt).ne]
          exact h.ordered i hi0 hlt
        grand := fun _ i hi0 hi hp => by
          have := parent_lt hi0
          omega }⟩
  else none

/-- **An insertion adds its element**, as long as the heap is not full. -/
theorem contents_insert {h : BinaryMinheap key capacity} (hcap : h.sz < capacity)
    (e : α) :
    ∃ h', h.insert e = some h' ∧ h'.contents = e ::ₘ h.contents := by
  refine ⟨_, if_pos hcap, ?_⟩
  show elements (h.sz + 1) (percolateUp key e h.values h.sz) = _
  rw [elements_percolateUp (Nat.lt_succ_self _), elements_succ, Function.update_self]
  congr 1
  exact elements_congr fun i hi => Function.update_of_ne hi.ne _ _

/-- `min`: the element at the root. -/
def min (h : BinaryMinheap key capacity) : α := h.values 0

/-- **The root is the smallest element.** -/
theorem min_le (h : BinaryMinheap key capacity) {e : α} (he : e ∈ h.contents) :
    key h.min ≤ key e := by
  unfold contents elements at he
  obtain ⟨i, hi, rfl⟩ := Multiset.mem_map.mp he
  exact h.ordered.root_le i (Multiset.mem_range.mp hi)

/-- `extractMin`; a heap without elements fails an assertion. -/
def extractMin (h : BinaryMinheap key capacity) :
    Option (BinaryMinheap key capacity) :=
  if h.sz = 0 then none
  else
    some ⟨minHeapify key (h.sz - 1)
        (Function.update h.values 0 (h.values (h.sz - 1))) 0,
      h.sz - 1, minHeapify_ordered
      { except := fun i hi0 hi hne => by
          rw [Function.update_of_ne hne, Function.update_of_ne hi0.ne']
          exact h.ordered i hi0 (by omega)
        grand := fun h0 => absurd h0 (lt_irrefl 0) }⟩

/-- **An extraction takes the root's element away**, and puts the last one down
from the root to its place. -/
theorem contents_extractMin {h : BinaryMinheap key capacity} (hsz : h.sz ≠ 0) :
    ∃ h', h.extractMin = some h' ∧ h.contents = h.min ::ₘ h'.contents := by
  obtain ⟨n, hn⟩ : ∃ n, h.sz = n + 1 := Nat.exists_eq_succ_of_ne_zero hsz
  refine ⟨_, if_neg hsz, ?_⟩
  show elements h.sz h.values = h.values 0 ::ₘ elements (h.sz - 1)
    (minHeapify key (h.sz - 1) (Function.update h.values 0 (h.values (h.sz - 1))) 0)
  rw [hn, Nat.add_sub_cancel]
  rcases Nat.eq_zero_or_pos n with rfl | hpos
  · rfl
  · rw [elements_minHeapify hpos]
    -- the root's cell and the last one change places
    have hswap : elements (n + 1) h.values
        = elements (n + 1) (exchange h.values 0 n) :=
      (elements_exchange n.succ_pos n.lt_succ_self _).symm
    rw [hswap, elements_succ]
    congr 1
    · unfold exchange
      rw [Equiv.swap_apply_right]
    · refine elements_congr fun i hi => ?_
      unfold exchange
      rcases Nat.eq_zero_or_pos i with rfl | hi0
      · rw [Equiv.swap_apply_left, Function.update_self]
      · rw [Equiv.swap_apply_of_ne_of_ne hi0.ne' hi.ne,
          Function.update_of_ne hi0.ne']

end BinaryMinheap
