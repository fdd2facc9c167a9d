import DpdkGraph.CallRuns
import DpdkGraph.Reshard

/-!
# Dynamic edge vectors

A `chivector` is a slice of a block, of a fixed capacity, and an extension
for what does not fit. `add` appends to the slice until it is full and to
the extension from then on; `get` and `set` look at the index.

Where the extension holds just what does not fit, the vector is a plain
list. `clear` only sets the size to zero: the extension stays, and what is
added beyond the capacity later goes behind its old elements, where `get`
does not look. `Ready` rules this out: an element that is added to a vector
that is just full finds no extension. Then all calls are answered as by a
plain list, and the block that is written holds the same lists
(`answersAsLists`).
-/

namespace DynamicVectors

open CallRuns
open Reshard (toInt32)

variable {T : Type}

/-- `chivector<T>`. -/
structure Chivector (T : Type) where
  /-- The slice of the block. -/
  data : List T
  /-- Allocated with the first element that does not fit. -/
  extensions : Option (List T)
  nsize : ℕ
  ncapacity : ℕ
deriving Repr, DecidableEq

namespace Chivector

variable (v : Chivector T)

/-- `add`. A size that wraps around to zero has no last element. -/
def add (val : T) : Option (Chivector T) :=
  if (v.nsize + 1) % 2 ^ 16 = 0 then none
  else if v.ncapacity < (v.nsize + 1) % 2 ^ 16 then
    some { v with
      nsize := (v.nsize + 1) % 2 ^ 16
      extensions := some (v.extensions.getD [] ++ [val]) }
  else
    some { v with
      nsize := (v.nsize + 1) % 2 ^ 16
      data := v.data.set ((v.nsize + 1) % 2 ^ 16 - 1) val }

/-- `set`. -/
def set (idx : ℕ) (val : T) : Option (Chivector T) :=
  if v.ncapacity ≤ idx then
    v.extensions.bind fun e =>
      if idx - v.ncapacity < e.length then
        some { v with extensions := some (e.set (idx - v.ncapacity) val) }
      else none
  else if idx < v.data.length then some { v with data := v.data.set idx val }
  else none

/-- `get`. -/
def get (idx : ℕ) : Option T :=
  if v.ncapacity ≤ idx then v.extensions.bind fun e => e[idx - v.ncapacity]?
  else v.data[idx]?

/-- `clear`. -/
def clear : Chivector T := { v with nsize := 0 }

/-- `MINCAPACITY`. -/
def minCapacity : ℕ := 0

/-- `capacity`. -/
def capacity : ℕ := if minCapacity < v.nsize then v.nsize else minCapacity

@[simp] theorem capacity_eq : v.capacity = v.nsize := by
  unfold capacity minCapacity
  split <;> omega

/-- The loop of `write`: the elements one by one. -/
def elementsFrom (i : ℕ) : ℕ → Option (List T)
  | 0 => some []
  | n + 1 => (v.get i).bind fun val => (elementsFrom (i + 1) n).map fun more => val :: more

/-- `write`. -/
def elements : Option (List T) := v.elementsFrom 0 v.nsize

end Chivector

/-- A call of a vector. -/
inductive Call (T : Type)
  | add (val : T)
  | set (idx : ℕ) (val : T)
  | get (idx : ℕ)
  | size
  | clear
deriving Repr, DecidableEq

/-- What a call returns. -/
inductive Answer (T : Type)
  | done
  | value (val : T)
  | number (n : ℕ)
deriving Repr, DecidableEq

/-- A call of a `chivector`. -/
def Chivector.call (v : Chivector T) : Call T → Option (Chivector T × Answer T)
  | .add val => (v.add val).map fun v => (v, .done)
  | .set idx val => (v.set idx val).map fun v => (v, .done)
  | .get idx => (v.get idx).map fun val => (v, .value val)
  | .size => some (v, .number v.nsize)
  | .clear => some (v.clear, .done)

/-- The same call of a plain list of at most 65535 elements. -/
def listCall (l : List T) : Call T → Option (List T × Answer T)
  | .add val => if l.length < 65535 then some (l ++ [val], .done) else none
  | .set idx val => if idx < l.length then some (l.set idx val, .done) else none
  | .get idx => l[idx]?.map fun val => (l, .value val)
  | .size => some (l, .number l.length)
  | .clear => some ([], .done)

/-! ## One vector -/

/-- **A vector that holds a list**: in the slice what fits, in the extension
what does not. The extension of a vector that fits may be anything. -/
structure Holds (v : Chivector T) (l : List T) : Prop where
  size : v.nsize = l.length
  short : l.length ≤ 65535
  slice : v.data.length = v.ncapacity
  inside : v.data.take l.length = l.take v.ncapacity
  beyond : v.ncapacity < l.length → v.extensions = some (l.drop v.ncapacity)

/-- What a call has to find: a vector that is just full has no extension when
an element is added. -/
def Ready (v : Chivector T) : Call T → Prop
  | .add _ => v.nsize = v.ncapacity → v.extensions.getD [] = []
  | _ => True

namespace Holds

variable {v : Chivector T} {l : List T}

theorem get_eq (h : Holds v l) {idx : ℕ} (hidx : idx < l.length) :
    v.get idx = l[idx]? := by
  unfold Chivector.get
  split
  · next hle =>
    rw [h.beyond (hle.trans_lt hidx), Option.bind_some, List.getElem?_drop,
      Nat.add_sub_cancel' hle]
  · next hlt =>
    rw [Nat.not_le] at hlt
    rw [← List.getElem?_take_of_lt hidx, h.inside, List.getElem?_take_of_lt hlt]

/-- An element more. -/
theorem add (h : Holds v l) {val : T} (hlt : l.length < 65535) (hready : Ready v (.add val)) :
    ∃ v', v.add val = some v' ∧ Holds v' (l ++ [val]) := by
  have hsize : (v.nsize + 1) % 2 ^ 16 = l.length + 1 := by
    rw [h.size]
    omega
  have hlength : (l ++ [val]).length = l.length + 1 := List.length_append
  unfold Chivector.add
  rw [hsize, if_neg (Nat.succ_ne_zero _)]
  split
  · -- behind the fixed part, an extension is begun or made longer
    next hbeyond =>
    have hext : v.extensions.getD [] = l.drop v.ncapacity := by
      rcases (Nat.lt_succ_iff.mp hbeyond).eq_or_lt with hfull | hover
      · rw [hready (h.size.trans hfull.symm), hfull, List.drop_length]
      · rw [h.beyond hover]
        rfl
    refine ⟨_, rfl, ?_, by omega, h.slice, ?_, fun _ => ?_⟩
    · exact hlength.symm
    · show v.data.take (l ++ [val]).length = (l ++ [val]).take v.ncapacity
      have hall := h.inside
      rw [List.take_of_length_le (by rw [h.slice]; omega)] at hall ⊢
      rw [hall, List.take_append_of_le_length (by omega)]
    · show some (v.extensions.getD [] ++ [val]) = some ((l ++ [val]).drop v.ncapacity)
      rw [hext, List.drop_append_of_le_length (by omega)]
  · -- in the fixed part, one slot is set
    next hinside =>
    rw [Nat.not_lt] at hinside
    refine ⟨_, rfl, hlength.symm, by omega, ?_, ?_, fun hover => ?_⟩
    · show (v.data.set _ val).length = v.ncapacity
      rw [List.length_set, h.slice]
    · show (v.data.set (l.length + 1 - 1) val).take (l ++ [val]).length
        = (l ++ [val]).take v.ncapacity
      have hall := h.inside
      rw [List.take_of_length_le (l := l) (by omega)] at hall
      rw [Nat.add_sub_cancel, List.take_of_length_le (l := l ++ [val]) (by omega), hlength,
        List.take_add_one, List.take_set_of_le le_rfl, hall,
        List.getElem?_set_self (by rw [h.slice]; omega)]
      rfl
    · rw [hlength] at hover
      exact absurd hinside (Nat.not_le.mpr hover)

/-- Another element at an index. -/
theorem set (h : Holds v l) {idx : ℕ} (hidx : idx < l.length) (val : T) :
    ∃ v', v.set idx val = some v' ∧ Holds v' (l.set idx val) := by
  unfold Chivector.set
  split
  · next hle =>
    have hover := hle.trans_lt hidx
    rw [h.beyond hover, Option.bind_some, if_pos (by rw [List.length_drop]; omega)]
    refine ⟨_, rfl, ?_, ?_, h.slice, ?_, fun _ => ?_⟩
    · rw [List.length_set]
      exact h.size
    · rw [List.length_set]
      exact h.short
    · show v.data.take (l.set idx val).length = (l.set idx val).take v.ncapacity
      rw [List.length_set, h.inside, List.take_set_of_le hle]
    · show some ((l.drop v.ncapacity).set (idx - v.ncapacity) val)
        = some ((l.set idx val).drop v.ncapacity)
      rw [List.drop_set, if_neg (Nat.not_lt.mpr hle)]
  · next hlt =>
    rw [Nat.not_le] at hlt
    rw [if_pos (by rw [h.slice]; exact hlt)]
    refine ⟨_, rfl, ?_, ?_, ?_, ?_, fun hover => ?_⟩
    · rw [List.length_set]
      exact h.size
    · rw [List.length_set]
      exact h.short
    · show (v.data.set idx val).length = v.ncapacity
      rw [List.length_set, h.slice]
    · show (v.data.set idx val).take (l.set idx val).length
        = (l.set idx val).take v.ncapacity
      rw [List.length_set, List.take_set, h.inside, List.take_set]
    · rw [List.length_set] at hover
      show v.extensions = some ((l.set idx val).drop v.ncapacity)
      rw [h.beyond hover, List.drop_set, if_pos hlt]

/-- None any more. -/
theorem clear (h : Holds v l) : Holds v.clear [] where
  size := rfl
  short := Nat.zero_le _
  slice := h.slice
  inside := by
    rw [List.length_nil, List.take_zero, List.take_nil]
  beyond hlt := absurd hlt (Nat.not_lt_zero _)

theorem elementsFrom_eq (h : Holds v l) {i n : ℕ} (hn : i + n = l.length) :
    v.elementsFrom i n = some (l.drop i) := by
  induction n generalizing i with
  | zero =>
    rw [List.drop_eq_nil_of_le (Nat.add_zero i ▸ hn).ge]
    rfl
  | succ n ih =>
    have hi : i < l.length := by omega
    unfold Chivector.elementsFrom
    rw [h.get_eq hi, List.getElem?_eq_getElem hi, Option.bind_some, ih (by omega),
      List.drop_eq_getElem_cons hi]
    rfl

/-- **Its elements are those of the list.** -/
theorem elements_eq (h : Holds v l) : v.elements = some l := by
  unfold Chivector.elements
  rw [h.elementsFrom_eq (by rw [h.size, Nat.zero_add]), List.drop_zero]

end Holds

instance : ∀ (v : Chivector T) (call : Call T), Decidable (Ready v call)
  | v, .add _ =>
    if hfull : v.nsize = v.ncapacity then
      match hext : v.extensions with
      | none => isTrue fun _ => by rw [hext]; rfl
      | some [] => isTrue fun _ => by rw [hext]; rfl
      | some (_ :: _) => isFalse fun h => by
          have hnil := h hfull
          rw [hext] at hnil
          exact List.cons_ne_nil _ _ hnil
    else isTrue fun h => absurd h hfull
  | _, .set _ _ | _, .get _ | _, .size | _, .clear => isTrue trivial

/-- **A vector answers as the list that it holds**, each call alone. The
exception is in `Ready`: nothing is added to a vector that is just full and has
an extension. -/
theorem holds_refines : Refines Chivector.call listCall Ready (Holds (T := T)) := by
  rintro v l call hholds hready l' answer hlist
  cases call with
  | add val =>
    simp only [listCall, Option.ite_none_right_eq_some, Option.some.injEq,
      Prod.mk.injEq] at hlist
    obtain ⟨hlt, rfl, rfl⟩ := hlist
    obtain ⟨v', hv', hholds'⟩ := hholds.add hlt hready
    exact ⟨v', by rw [Chivector.call, hv', Option.map_some], hholds'⟩
  | set idx val =>
    simp only [listCall, Option.ite_none_right_eq_some, Option.some.injEq,
      Prod.mk.injEq] at hlist
    obtain ⟨hlt, rfl, rfl⟩ := hlist
    obtain ⟨v', hv', hholds'⟩ := hholds.set hlt val
    exact ⟨v', by rw [Chivector.call, hv', Option.map_some], hholds'⟩
  | get idx =>
    obtain ⟨val, hval, heq⟩ := Option.map_eq_some_iff.mp hlist
    obtain ⟨rfl, rfl⟩ := Prod.mk.inj heq
    have hidx := (List.getElem?_eq_some_iff.mp hval).1
    exact ⟨v, by rw [Chivector.call, hholds.get_eq hidx, hval, Option.map_some], hholds⟩
  | size =>
    obtain ⟨rfl, rfl⟩ := Prod.mk.inj (Option.some.inj hlist)
    exact ⟨v, by rw [Chivector.call, hholds.size], hholds⟩
  | clear =>
    obtain ⟨rfl, rfl⟩ := Prod.mk.inj (Option.some.inj hlist)
    exact ⟨v.clear, rfl, hholds.clear⟩

/-- Where a call does not find what it has to, the old element answers for
the one that is added. -/
theorem get_add_of_extensions {v : Chivector T} {old : T} {more : List T}
    (hext : v.extensions = some (old :: more)) (hfull : v.nsize = v.ncapacity)
    (hlt : v.nsize < 65535) (val : T) :
    ∃ v', v.add val = some v' ∧ v'.get v.ncapacity = some old := by
  have hsize : (v.nsize + 1) % 2 ^ 16 = v.ncapacity + 1 := by omega
  unfold Chivector.add
  rw [hsize, if_neg (Nat.succ_ne_zero _), if_pos (Nat.lt_succ_self _), hext]
  refine ⟨_, rfl, ?_⟩
  unfold Chivector.get
  rw [if_pos le_rfl, Nat.sub_self]
  rfl

/-! ## The block -/

/-- The elements of a vector, which are copied byte by byte. -/
structure Element (T : Type) where
  /-- `sizeof(T)`. -/
  size : ℕ
  encode : T → List UInt8
  decode : List UInt8 → T
  length_encode : ∀ val, (encode val).length = size
  decode_encode : ∀ val, decode (encode val) = val

/-- A `uint16_t`. -/
def u16le (n : ℕ) : List UInt8 := [UInt8.ofNat n, UInt8.ofNat (n / 2 ^ 8)]

/-- Its value. -/
def u16 (b₀ b₁ : UInt8) : ℕ := b₀.toNat + 2 ^ 8 * b₁.toNat

/-- `chivector(sz, cap, dataptr)`. -/
def Chivector.ofSlice (sz cap : ℕ) (data : List T) : Chivector T :=
  ⟨data, none, if cap < sz then cap else sz, cap⟩

section Block

variable (c : Element T)

/-- What a pointer to `n` elements points to. -/
def slice : ℕ → List UInt8 → List T
  | 0, _ => []
  | n + 1, bytes => c.decode (bytes.take c.size) :: slice n (bytes.drop c.size)

/-- The vector at `ptr`, and what comes behind it. A slice that reaches
beyond the block has no meaning. -/
def readItem : List UInt8 → Option (Chivector T × List UInt8)
  | s₀ :: s₁ :: c₀ :: c₁ :: rest =>
    if u16 c₀ c₁ * c.size ≤ rest.length then
      some (Chivector.ofSlice (u16 s₀ s₁) (u16 c₀ c₁) (slice c (u16 c₀ c₁) rest),
        rest.drop (u16 c₀ c₁ * c.size))
    else none
  | _ => none

/-- The loop of the constructor: `bytes` is what there is from `ptr` on. -/
def readItems (datasize : ℤ) (length : ℕ) :
    ℕ → List UInt8 → Option (List (Chivector T))
  | 0, _ => some []
  | nitems + 1, bytes =>
    if ((length - bytes.length : ℕ) : ℤ) ≤ datasize then
      (readItem c bytes).bind fun r =>
        (readItems datasize length nitems r.2).map fun more => r.1 :: more
    else none

/-- `dynamicdata_block(nitems, data, datasize)`. -/
def readBlock (nitems : ℕ) (data : List UInt8) : Option (List (Chivector T)) :=
  readItems c (toInt32 data.length) data.length nitems data

/-- A vector as it is written. -/
def writeItem (v : Chivector T) : Option (List UInt8) :=
  v.elements.map fun l => u16le v.nsize ++ u16le v.capacity ++ l.flatMap c.encode

/-- The vectors, one after the other. -/
def writeItems : List (Chivector T) → Option (List UInt8)
  | [] => some []
  | v :: vs => (writeItem c v).bind fun bytes =>
      (writeItems vs).map fun more => bytes ++ more

/-- `dynamicdata_block::write`. The size is computed in an `int`: a block of
2 GiB is not allocated, or too small. -/
def write (vs : List (Chivector T)) : Option (List UInt8) :=
  if (vs.map fun v => v.capacity * c.size + 4).sum < 2 ^ 31 then writeItems c vs
  else none

/-- A stored vector: a size and a slice. -/
structure Stored (T : Type) where
  size : ℕ
  data : List T
  size_lt : size < 2 ^ 16
  length_lt : data.length < 2 ^ 16

namespace Stored

variable (x : Stored T)

/-- Its bytes. -/
def bytes : List UInt8 := u16le x.size ++ u16le x.data.length ++ x.data.flatMap c.encode

/-- The list that it stands for. -/
def list : List T := x.data.take x.size

/-- The vector that is made of it. -/
def vector : Chivector T := Chivector.ofSlice x.size x.data.length x.data

/-- A list that is stored. -/
def ofList (l : List T) (h : l.length ≤ 65535) : Stored T :=
  ⟨l.length, l, Nat.lt_succ_iff.mpr h, Nat.lt_succ_iff.mpr h⟩

end Stored

/-- **A stored block**, the size of which is an `int`. -/
structure StoredBlock (c : Element T) where
  vectors : List (Stored T)
  length_lt : (vectors.flatMap fun x => x.bytes c).length < 2 ^ 31

/-- Its bytes. -/
def StoredBlock.bytes (b : StoredBlock c) : List UInt8 := b.vectors.flatMap fun x => x.bytes c

/-- Its lists. -/
def StoredBlock.lists (b : StoredBlock c) : List (List T) := b.vectors.map Stored.list

/-! ### Reading what was stored -/

theorem u16_u16le {n : ℕ} (h : n < 2 ^ 16) :
    u16 (UInt8.ofNat n) (UInt8.ofNat (n / 2 ^ 8)) = n := by
  unfold u16
  rw [UInt8.toNat_ofNat', UInt8.toNat_ofNat']
  omega

theorem length_flatMap_encode (l : List T) :
    (l.flatMap c.encode).length = l.length * c.size := by
  induction l with
  | nil => rw [List.flatMap_nil, List.length_nil, List.length_nil, Nat.zero_mul]
  | cons val l ih =>
    rw [List.flatMap_cons, List.length_append, ih, c.length_encode, List.length_cons]
    ring

theorem slice_append (l : List T) (rest : List UInt8) :
    slice c l.length (l.flatMap c.encode ++ rest) = l := by
  induction l with
  | nil => rfl
  | cons val l ih =>
    rw [List.length_cons, List.flatMap_cons, List.append_assoc]
    unfold slice
    rw [List.take_left' (c.length_encode val), List.drop_left' (c.length_encode val),
      c.decode_encode, ih]

/-- A stored vector is read. -/
theorem readItem_append (x : Stored T) (rest : List UInt8) :
    readItem c (x.bytes c ++ rest) = some (x.vector, rest) := by
  have hbytes : x.bytes c ++ rest
      = UInt8.ofNat x.size :: UInt8.ofNat (x.size / 2 ^ 8)
        :: UInt8.ofNat x.data.length :: UInt8.ofNat (x.data.length / 2 ^ 8)
        :: (x.data.flatMap c.encode ++ rest) := rfl
  have hlength := length_flatMap_encode c x.data
  rw [hbytes]
  simp only [readItem, u16_u16le x.size_lt, u16_u16le x.length_lt, slice_append]
  rw [if_pos (by rw [List.length_append, hlength]; exact Nat.le_add_right _ _),
    List.drop_left' hlength]
  rfl

theorem readItems_append (xs : List (Stored T)) (rest : List UInt8) {length : ℕ} {datasize : ℤ}
    (hsize : (length : ℤ) ≤ datasize) :
    readItems c datasize length xs.length (xs.flatMap (fun x => x.bytes c) ++ rest)
      = some (xs.map Stored.vector) := by
  induction xs with
  | nil => rfl
  | cons x xs ih =>
    rw [List.length_cons, List.flatMap_cons, List.append_assoc]
    unfold readItems
    rw [if_pos (by omega), readItem_append, Option.bind_some, ih]
    rfl

/-- **The constructor reads a stored block.** -/
theorem readBlock_stored (xs : List (Stored T))
    (hlt : (xs.flatMap fun x => x.bytes c).length < 2 ^ 31) :
    readBlock c xs.length (xs.flatMap fun x => x.bytes c) = some (xs.map Stored.vector) := by
  have hsize : toInt32 (xs.flatMap fun x => x.bytes c).length
      = (xs.flatMap fun x => x.bytes c).length :=
    Reshard.toInt32_natCast hlt
  have hall := readItems_append c xs [] hsize.ge
  rw [List.append_nil] at hall
  exact hall

/-- A stored vector holds its list. -/
theorem holds_vector (x : Stored T) : Holds x.vector x.list where
  size := by
    show (if x.data.length < x.size then x.data.length else x.size)
      = (x.data.take x.size).length
    rw [List.length_take]
    split <;> omega
  short := by
    have := x.size_lt
    unfold Stored.list
    rw [List.length_take]
    omega
  slice := rfl
  inside := by
    show x.data.take (x.data.take x.size).length = (x.data.take x.size).take x.data.length
    rw [List.length_take, List.take_take, min_comm]
  beyond hover := by
    have hle : x.list.length ≤ x.data.length := List.length_take_le' _ _
    exact absurd hover (Nat.not_lt.mpr hle)

/-! ### Writing and reading again -/

/-- A vector that holds a list is stored as this list. -/
theorem writeItem_eq {v : Chivector T} {l : List T} (h : Holds v l) :
    writeItem c v = some ((Stored.ofList l h.short).bytes c) := by
  unfold writeItem
  rw [h.elements_eq, Option.map_some, Chivector.capacity_eq, h.size]
  rfl

theorem writeItems_eq {vs : List (Chivector T)} {ls : List (List T)}
    (h : List.Forall₂ Holds vs ls) :
    ∃ xs : List (Stored T), xs.length = vs.length ∧ xs.map Stored.list = ls
      ∧ (vs.map fun v => v.capacity * c.size + 4).sum = (xs.flatMap fun x => x.bytes c).length
      ∧ writeItems c vs = some (xs.flatMap fun x => x.bytes c) := by
  induction h with
  | nil => exact ⟨[], rfl, rfl, rfl, rfl⟩
  | @cons v l vs ls hv hvs ih =>
    obtain ⟨xs, hlength, hlists, hsum, hwrite⟩ := ih
    refine ⟨Stored.ofList l hv.short :: xs, ?_, ?_, ?_, ?_⟩
    · rw [List.length_cons, List.length_cons, hlength]
    · rw [List.map_cons, hlists]
      exact congrArg (· :: ls) List.take_length
    · have hitem : ((Stored.ofList l hv.short).bytes c).length
          = 4 + (l.flatMap c.encode).length := by
        unfold Stored.bytes
        rw [List.length_append, List.length_append]
        rfl
      rw [List.map_cons, List.sum_cons, List.flatMap_cons, List.length_append, hsum, hitem,
        length_flatMap_encode, Chivector.capacity_eq, hv.size, Nat.add_comm 4]
    · rw [List.flatMap_cons]
      unfold writeItems
      rw [writeItem_eq c hv, Option.bind_some, hwrite]
      rfl

/-- **The round trip of a block**: the vectors are written one after the other,
each with its size, and read back as the same lists, as long as an `int` counts
the bytes. -/
theorem write_readBlock {vs : List (Chivector T)} {ls : List (List T)}
    (h : List.Forall₂ Holds vs ls) (hlt : (ls.map fun l => l.length * c.size + 4).sum < 2 ^ 31) :
    ∃ bytes vs', write c vs = some bytes ∧ readBlock c vs.length bytes = some vs'
      ∧ List.Forall₂ (fun v l => v.elements = some l) vs' ls := by
  obtain ⟨xs, hlength, hlists, hsum, hwrite⟩ := writeItems_eq c h
  have hsame : (vs.map fun v => v.capacity * c.size + 4).sum
      = (ls.map fun l => l.length * c.size + 4).sum := by
    clear hsum hwrite hlength hlists hlt
    induction h with
    | nil => rfl
    | cons hv _ ih =>
      rw [List.map_cons, List.map_cons, List.sum_cons, List.sum_cons, ih,
        Chivector.capacity_eq, hv.size]
  rw [← hsame, hsum] at hlt
  refine ⟨xs.flatMap fun x => x.bytes c, xs.map Stored.vector, ?_, ?_, ?_⟩
  · unfold write
    rw [hsum, if_pos hlt, hwrite]
  · rw [← hlength]
    exact readBlock_stored c xs hlt
  · rw [← hlists, List.forall₂_map_left_iff, List.forall₂_map_right_iff]
    exact List.forall₂_same.mpr fun x _ => (holds_vector x).elements_eq

end Block

/-! ## Calls on a block -/

section Calls

variable {c : Element T}

/-- **What is asked of the vectors of a block**: calls that a plain list of at
most 65535 elements answers are answered in the same way, and the block that
is written then is read as the same lists. -/
def AnswersAsLists (b : StoredBlock c) (calls : List (ℕ × Call T)) : Prop :=
  ∀ ls rs, answers (at_ listCall) b.lists calls = some (ls, rs) →
    ∃ vs vs', readBlock c b.vectors.length b.bytes = some vs
      ∧ answers (at_ Chivector.call) vs calls = some (vs', rs)
      ∧ ∃ bytes vs'', write c vs' = some bytes ∧ readBlock c vs'.length bytes = some vs''
        ∧ List.Forall₂ (fun v l => v.elements = some l) vs'' ls

/-- What each call has to find in the vectors of the block. -/
def ReadyAt (vs : List (Chivector T)) (a : ℕ × Call T) : Prop := ∀ v ∈ vs[a.1]?, Ready v a.2

instance (vs : List (Chivector T)) (a : ℕ × Call T) : Decidable (ReadyAt vs a) :=
  inferInstanceAs (Decidable (∀ v ∈ vs[a.1]?, Ready v a.2))

/-- **The vectors of a block are plain lists** as long as nothing is added to
a vector that is just full and has an extension, and the block that is
written is smaller than 2 GiB. -/
theorem answersAsLists (b : StoredBlock c) (calls : List (ℕ × Call T))
    (hready : Along (at_ Chivector.call) ReadyAt (b.vectors.map Stored.vector) calls)
    (hsmall : ∀ ls rs, answers (at_ listCall) b.lists calls = some (ls, rs) →
      (ls.map fun l => l.length * c.size + 4).sum < 2 ^ 31) :
    AnswersAsLists b calls := by
  intro ls rs hls
  have hholds : List.Forall₂ Holds (b.vectors.map Stored.vector) b.lists := by
    unfold StoredBlock.lists
    rw [List.forall₂_map_left_iff, List.forall₂_map_right_iff]
    exact List.forall₂_same.mpr fun x _ => holds_vector x
  obtain ⟨vs', hvs', hholds'⟩ := holds_refines.at_.answers hholds hready hls
  exact ⟨_, vs', readBlock_stored c b.vectors b.length_lt, hvs',
    write_readBlock c hholds' (hsmall ls rs hls)⟩

/-- Elements of one byte. -/
def byteElement : Element UInt8 where
  size := 1
  encode val := [val]
  decode bytes := bytes.headD 0
  length_encode _ := rfl
  decode_encode _ := rfl

/-- A block of one vector, which has room for one element and has none. -/
def emptySlice : StoredBlock byteElement where
  vectors := [⟨0, [0], by decide, by decide⟩]
  length_lt := by decide

theorem answersAsLists_twoAdds :
    AnswersAsLists emptySlice [(0, .add 1), (0, .add 2), (0, .set 1 3), (0, .get 1)] := by
  refine answersAsLists _ _ (by decide) ?_
  · intro ls rs h
    have hls : some (ls, rs) = some ([[1, 3]], [.done, .done, .done, .value 3]) := h.symm
    obtain ⟨rfl, -⟩ := Prod.mk.inj (Option.some.inj hls)
    decide

/-- Two elements, none, and two others: the second of these goes behind the
one that was beyond the capacity before. -/
theorem not_answersAsLists_cleared :
    ¬AnswersAsLists emptySlice
      [(0, .add 1), (0, .add 2), (0, .clear), (0, .add 3), (0, .add 4), (0, .get 1)] := by
  intro h
  obtain ⟨vs, vs', hvs, hanswers, -⟩ :=
    h [[3, 4]] [.done, .done, .done, .done, .done, .value 4] rfl
  have hread : readBlock byteElement emptySlice.vectors.length emptySlice.bytes
      = some [⟨[0], none, 0, 1⟩] := by decide
  rw [hread, Option.some.injEq] at hvs
  subst hvs
  have hrun : (answers (at_ Chivector.call) [(⟨[0], none, 0, 1⟩ : Chivector UInt8)]
      [(0, .add 1), (0, .add 2), (0, .clear), (0, .add 3), (0, .add 4), (0, .get 1)]).map
        Prod.snd = some [.done, .done, .done, .done, .done, .value 2] := by decide
  rw [hanswers, Option.map_some, Option.some.injEq] at hrun
  have hrun : [Answer.done, .done, .done, .done, .done, .value (4 : UInt8)]
      = [.done, .done, .done, .done, .done, .value 2] := hrun
  exact absurd hrun (by decide)

end Calls

end DynamicVectors
