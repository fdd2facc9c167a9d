import Mathlib
import DpdkGraph.SortedBlocks

/-!
# Radix sort, low digits first

One step of a radix sort counts the items of each key, turns the counts
into the ends of the keys' blocks, and then goes through the items from
the last to the first and puts each in the last free cell of its block. The
result lists the items key by key, those of one key in the order they came
(`radixStep_eq`).

`iSort` makes such a step for each digit of a number, the low digits first,
and looks at `log2Up m` bits in all, where `m` is what the caller says is
the largest number. It lists the items by those bits (`iSort_eq`), so it
sorts them by the whole number exactly when the bits above them do not
matter (`pairwise_iSort_iff`).
-/

namespace RadixSort

variable {E : Type}

/-! ## Buckets -/

/-- The items of `l` bucket by bucket, those of a bucket in order. -/
def buckets (g : E → ℕ) (m : ℕ) (l : List E) : List E :=
  (List.range m).flatMap fun q => l.filter fun a => decide (g a = q)

/-- The buckets hold the items. -/
theorem buckets_perm {g : E → ℕ} {m : ℕ} {l : List E} (h : ∀ a ∈ l, g a < m) :
    (buckets g m l).Perm l :=
  SortedBlocks.perm_flatMap List.nodup_range fun a ha => List.mem_range.mpr (h a ha)

/-- A bucket of the buckets. -/
theorem filter_buckets (g h : E → ℕ) (m q : ℕ) (l : List E) :
    (buckets g m l).filter (fun a => decide (h a = q))
      = (List.range m).flatMap fun r =>
        l.filter fun a => decide (h a = q) && decide (g a = r) := by
  unfold buckets
  rw [List.filter_flatMap]
  refine List.flatMap_congr fun r _ => ?_
  rw [List.filter_filter]

/-- A range of numbers of two digits. -/
theorem flatMap_range_mul {β : Type} (F : ℕ → List β) (n m : ℕ) :
    (List.range (m * n)).flatMap F
      = (List.range m).flatMap fun d => (List.range n).flatMap fun q =>
        F (d * n + q) := by
  induction m with
  | zero => rw [Nat.zero_mul]; rfl
  | succ m ih =>
    rw [Nat.succ_mul, List.range_add, List.flatMap_append, ih, List.range_succ,
      List.flatMap_append, List.flatMap_map, List.flatMap_singleton]

/-- **Buckets by a high digit of buckets by a low digit** are buckets by
both. -/
theorem buckets_buckets {g h : E → ℕ} {n : ℕ} {l : List E} (m : ℕ)
    (hg : ∀ a ∈ l, g a < n) :
    buckets h m (buckets g n l) = buckets (fun a => h a * n + g a) (m * n) l := by
  show (List.range m).flatMap (fun q => (buckets g n l).filter _)
    = (List.range (m * n)).flatMap _
  rw [flatMap_range_mul]
  refine List.flatMap_congr fun d _ => ?_
  rw [filter_buckets]
  refine List.flatMap_congr fun q hq => List.filter_congr fun a ha => ?_
  have hga := hg a ha
  have hqn := List.mem_range.mp hq
  rw [← Bool.decide_and, decide_eq_decide]
  constructor
  · rintro ⟨rfl, rfl⟩
    rfl
  · intro heq
    replace heq : h a * n + g a = d * n + q := heq
    have hdiv : h a = d := by
      have h₁ : (h a * n + g a) / n = h a := by
        rw [Nat.add_comm, Nat.add_mul_div_right _ _ (by omega), Nat.div_eq_of_lt hga,
          Nat.zero_add]
      have h₂ : (d * n + q) / n = d := by
        rw [Nat.add_comm, Nat.add_mul_div_right _ _ (by omega), Nat.div_eq_of_lt hqn,
          Nat.zero_add]
      rw [← h₁, heq, h₂]
    rw [hdiv] at heq
    exact ⟨hdiv, Nat.add_left_cancel heq⟩

/-- One bucket that holds everything. -/
theorem buckets_one {g : E → ℕ} {l : List E} (h : ∀ a ∈ l, g a = 0) :
    buckets g 1 l = l := by
  show (List.range 1).flatMap _ = l
  rw [List.range_one, List.flatMap_singleton]
  exact List.filter_eq_self.mpr fun a ha => decide_eq_true (h a ha)

/-! ## One step -/

/-- Counts the items of each key. -/
def countKeys (extract : E → ℕ) (A : List E) : ℕ → ℕ :=
  A.foldl (fun counts a =>
    Function.update counts (extract a) (counts (extract a) + 1)) fun _ => 0

/-- Replaces each of the first `m` counts by the sum of the counts up to
it; `s` is the sum so far. -/
def prefixSums (counts : ℕ → ℕ) : ℕ → ℕ
  | 0 => 0
  | i + 1 => prefixSums counts i + counts i

/-- Puts the items in their cells, the last item first: `counts` has, for
each key, the end of the free cells of its block. -/
def placeAll (extract : E → ℕ) (counts : ℕ → ℕ) (B : ℕ → E) (A : List E) :
    (ℕ → ℕ) × (ℕ → E) :=
  A.foldr (fun a cb =>
    let x := cb.1 (extract a) - 1
    (Function.update cb.1 (extract a) x, Function.update cb.2 x a)) (counts, B)

/-- **`radixStep`**: the cells of `B` after the step, `B` being fresh memory
of any content. -/
def radixStep (extract : E → ℕ) (B : ℕ → E) (A : List E) : List E :=
  let counts := countKeys extract A
  (List.range A.length).map
    (placeAll extract (fun k => prefixSums counts (k + 1)) B A).2

theorem countKeys_eq (extract : E → ℕ) (A : List E) :
    countKeys extract A = SortedBlocks.size extract A := by
  have hfrom : ∀ (A : List E) (c : ℕ → ℕ),
      A.foldl (fun counts a => Function.update counts (extract a)
        (counts (extract a) + 1)) c
        = fun q => c q + SortedBlocks.size extract A q := by
    intro A
    induction A with
    | nil => intro c; rfl
    | cons a A ih =>
      intro c
      rw [List.foldl_cons, ih]
      funext q
      unfold SortedBlocks.size
      rw [List.countP_cons]
      by_cases hq : q = extract a
      · subst hq
        rw [Function.update_self, decide_eq_true rfl, if_pos rfl]
        omega
      · rw [Function.update_of_ne hq, decide_eq_false (Ne.symm hq),
          if_neg Bool.false_ne_true]
        rfl
  unfold countKeys
  rw [hfrom]
  funext q
  exact Nat.zero_add _

theorem prefixSums_eq (extract : E → ℕ) (A : List E) (i : ℕ) :
    prefixSums (SortedBlocks.size extract A) i = SortedBlocks.start extract A i := by
  induction i with
  | zero => rfl
  | succ i ih => rw [prefixSums, ih, SortedBlocks.start_succ]

/-- The cells of the block of key `q` that starts at `b q`. -/
def block (extract : E → ℕ) (b : ℕ → ℕ) (cells : ℕ → E) (A : List E) (q : ℕ) :
    List E :=
  (List.range (SortedBlocks.size extract A q)).map fun r => cells (b q + r)

/-- **The items are put in the blocks of their keys**, each block in order,
if the blocks – that of key `q` from `b q` on – are apart. -/
theorem placeAll_spec (extract : E → ℕ) (B : ℕ → E) (A : List E) :
    ∀ (b counts : ℕ → ℕ),
      (∀ q, counts q = b q + SortedBlocks.size extract A q) →
      (∀ q r, q < r → counts q ≤ b r) →
      (placeAll extract counts B A).1 = b
        ∧ ∀ q, block extract b (placeAll extract counts B A).2 A q
          = A.filter fun a => decide (extract a = q) := by
  induction A with
  | nil =>
    intro b counts hcounts _
    refine ⟨funext fun q => hcounts q, fun q => rfl⟩
  | cons a A ih =>
    intro b counts hcounts hapart
    -- the first item goes last, to the first cell of its block
    have hsize : ∀ q, SortedBlocks.size extract (a :: A) q
        = SortedBlocks.size extract A q + if extract a = q then 1 else 0 := by
      intro q
      unfold SortedBlocks.size
      rw [List.countP_cons]
      simp only [decide_eq_true_eq]
    obtain ⟨hc, hblocks⟩ := ih
      (fun q => b q + if extract a = q then 1 else 0) counts
      (fun q => by rw [hcounts, hsize]; omega)
      (fun q r hqr => (hapart q r hqr).trans (Nat.le_add_right _ _))
    have hcell : (placeAll extract counts B A).1 (extract a) - 1 = b (extract a) := by
      rw [hc]
      show b (extract a) + (if extract a = extract a then 1 else 0) - 1 = _
      rw [if_pos rfl, Nat.add_sub_cancel]
    have hcounts' : (placeAll extract counts B (a :: A)).1
        = Function.update (placeAll extract counts B A).1 (extract a) (b (extract a)) := by
      rw [← hcell]
      rfl
    have hcells : (placeAll extract counts B (a :: A)).2
        = Function.update (placeAll extract counts B A).2 (b (extract a)) a := by
      rw [← hcell]
      rfl
    rw [hcounts', hcells]
    refine ⟨funext fun q => ?_, fun q => ?_⟩
    · by_cases hq : q = extract a
      · rw [hq, Function.update_self]
      · rw [Function.update_of_ne hq, hc]
        show b q + (if extract a = q then 1 else 0) = b q
        rw [if_neg (Ne.symm hq), Nat.add_zero]
    · have hq : (List.range (SortedBlocks.size extract A q)).map (fun r =>
          (placeAll extract counts B A).2 (b q + (if extract a = q then 1 else 0) + r))
          = A.filter fun a => decide (extract a = q) := hblocks q
      unfold block
      rw [hsize]
      by_cases heq : extract a = q
      · subst heq
        rw [if_pos rfl] at hq
        rw [if_pos rfl, Nat.add_comm, List.range_add, List.range_one, List.map_append,
          List.filter_cons_of_pos (by exact decide_eq_true rfl), ← hq, List.map_map]
        show Function.update (placeAll extract counts B A).2 (b (extract a)) a
          (b (extract a) + 0) :: _ = _
        rw [Nat.add_zero, Function.update_self]
        congr 1
        refine List.map_congr_left fun r _ => ?_
        have hne : b (extract a) + (1 + r) ≠ b (extract a) := by omega
        rw [Nat.add_assoc]
        exact Function.update_of_ne hne _ _
      · rw [if_neg heq] at hq ⊢
        rw [Nat.add_zero, List.filter_cons_of_neg (by simpa using heq), ← hq]
        refine List.map_congr_left fun r hr => ?_
        have hr := List.mem_range.mp hr
        -- the cell of the first item lies in another block
        refine Function.update_of_ne (fun hcell' => ?_) _ _
        rcases Nat.lt_or_gt_of_ne heq with hlt | hgt
        · have := hapart _ _ hlt
          rw [hcounts, hsize, if_pos rfl] at this
          omega
        · have := hapart _ _ hgt
          rw [hcounts, hsize, if_neg heq] at this
          omega

/-- The cells of the first `m` blocks, one after the other. -/
theorem map_range_start (extract : E → ℕ) (A : List E) (cells : ℕ → E) (m : ℕ) :
    (List.range (SortedBlocks.start extract A m)).map cells
      = (List.range m).flatMap
        (block extract (SortedBlocks.start extract A) cells A) := by
  induction m with
  | zero => rfl
  | succ m ih =>
    rw [SortedBlocks.start_succ, List.range_add, List.map_append, ih, List.range_succ,
      List.flatMap_append, List.flatMap_singleton, List.map_map]
    rfl

/-- **A step lists the items bucket by bucket.** -/
theorem radixStep_eq {extract : E → ℕ} {m : ℕ} {A : List E}
    (h : ∀ a ∈ A, extract a < m) (B : ℕ → E) :
    radixStep extract B A = buckets extract m A := by
  have hlength : A.length = SortedBlocks.start extract A m := by
    rw [SortedBlocks.start_eq]
    exact (List.countP_eq_length.mpr fun a ha => decide_eq_true (h a ha)).symm
  obtain ⟨-, hblocks⟩ := placeAll_spec extract B A (SortedBlocks.start extract A)
    (fun k => prefixSums (countKeys extract A) (k + 1))
    (fun q => by rw [countKeys_eq, prefixSums_eq, SortedBlocks.start_succ])
    (fun q r hqr => by
      show prefixSums _ (q + 1) ≤ _
      rw [countKeys_eq, prefixSums_eq]
      exact SortedBlocks.start_mono A hqr)
  unfold radixStep
  rw [hlength, map_range_start]
  exact List.flatMap_congr fun q _ => hblocks q

/-! ## The digits of a number -/

/-- `log2Up`, from the candidate `a` on. -/
def log2UpFrom (i : ℕ) (a : ℕ) : ℕ :=
  if 2 ^ a ≤ i then log2UpFrom i (a + 1) else a
termination_by i - a
decreasing_by
  have := a.lt_two_pow_self
  omega

/-- **`log2Up`**: how many bits `i` has; none if it is negative. -/
def log2Up (i : ℤ) : ℕ := log2UpFrom i.toNat 0

/-- A number has the bits it needs. -/
theorem log2UpFrom_spec (i a : ℕ) : i < 2 ^ log2UpFrom i a := by
  induction a using log2UpFrom.induct i with
  | case1 a h ih => rw [log2UpFrom, if_pos h]; exact ih
  | case2 a h => rw [log2UpFrom, if_neg h]; exact not_le.mp h

/-- `eBits`: the `bits` bits of a number from bit `offset` on. -/
def eBits (bits offset : ℕ) (f : E → ℕ) (p : E) : ℕ :=
  (2 ^ bits - 1) &&& (f p >>> offset)

theorem eBits_eq (bits offset : ℕ) (f : E → ℕ) (p : E) :
    eBits bits offset f p = f p / 2 ^ offset % 2 ^ bits := by
  unfold eBits
  rw [Nat.and_comm, Nat.and_two_pow_sub_one_eq_mod, Nat.shiftRight_eq_div_pow]

/-- The loop of `iSort`: one step for each digit of `rbits + 1` bits from
bit `bitOffset` on, the last one shorter if need be. -/
def iSortFrom (f : E → ℕ) (mem : ℕ → E) (bits rbits bitOffset : ℕ) (A : List E) :
    List E :=
  if bitOffset < bits then
    let r := if bitOffset + (rbits + 1) > bits then bits - bitOffset else rbits + 1
    iSortFrom f mem bits rbits (bitOffset + r)
      (radixStep (eBits r bitOffset f) mem A)
  else A
termination_by bits - bitOffset
decreasing_by split <;> omega

/-- **`iSort`** by the number `f a` of an item `a`, where `m` is said to be
the largest number: digits of at most eight bits. -/
def iSort (mem : ℕ → E) (A : List E) (m : ℤ) (f : E → ℕ) : List E :=
  let bits := log2Up m
  let rounds := 1 + (bits - 1) / 8
  iSortFrom f mem bits ((bits - 1) / rounds) 0 A

/-- The low bits of a number, and the digit above them. -/
theorem mod_two_pow_add (n o r : ℕ) :
    n / 2 ^ o % 2 ^ r * 2 ^ o + n % 2 ^ o = n % 2 ^ (o + r) := by
  rw [Nat.pow_add, Nat.mod_mul, Nat.add_comm, Nat.mul_comm]

/-- The loop goes on from items that are listed by their low bits. -/
theorem iSortFrom_eq (f : E → ℕ) (mem : ℕ → E) (bits rbits : ℕ) (l : List E)
    (bitOffset : ℕ) (hle : bitOffset ≤ bits) :
    iSortFrom f mem bits rbits bitOffset
        (buckets (fun a => f a % 2 ^ bitOffset) (2 ^ bitOffset) l)
      = buckets (fun a => f a % 2 ^ bits) (2 ^ bits) l := by
  obtain ⟨n, hn⟩ : ∃ n, n = bits - bitOffset := ⟨_, rfl⟩
  induction n using Nat.strongRecOn generalizing bitOffset with
  | ind n ih =>
    rw [iSortFrom]
    by_cases hlt : bitOffset < bits
    · rw [if_pos hlt]
      obtain ⟨r, hr⟩ : ∃ r, r = (if bitOffset + (rbits + 1) > bits then
        bits - bitOffset else rbits + 1) := ⟨_, rfl⟩
      have hr0 : 0 < r ∧ bitOffset + r ≤ bits := by
        rw [hr]
        split <;> omega
      show iSortFrom f mem bits rbits (bitOffset + if _ then _ else _)
        (radixStep (eBits (if _ then _ else _) bitOffset f) mem _) = _
      rw [← hr, radixStep_eq (m := 2 ^ r), buckets_buckets]
      · have hkey : (fun a => eBits r bitOffset f a * 2 ^ bitOffset + f a % 2 ^ bitOffset)
            = fun a => f a % 2 ^ (bitOffset + r) := by
          funext a
          rw [eBits_eq, mod_two_pow_add]
        rw [hkey, ← Nat.pow_add, Nat.add_comm r]
        exact ih (bits - (bitOffset + r)) (by omega) (bitOffset + r) hr0.2 rfl
      · exact fun a _ => Nat.mod_lt _ (Nat.two_pow_pos _)
      · intro a _
        rw [eBits_eq]
        exact Nat.mod_lt _ (Nat.two_pow_pos _)
    · rw [if_neg hlt, le_antisymm hle (not_lt.mp hlt)]

/-- **`iSort` lists the items by the bits it looks at**, items that agree in
them in the order they came. -/
theorem iSort_eq (mem : ℕ → E) (A : List E) (m : ℤ) (f : E → ℕ) :
    iSort mem A m f
      = buckets (fun a => f a % 2 ^ log2Up m) (2 ^ log2Up m) A := by
  have h := iSortFrom_eq f mem (log2Up m)
    ((log2Up m - 1) / (1 + (log2Up m - 1) / 8)) A 0 (Nat.zero_le _)
  rw [pow_zero, buckets_one fun a _ => Nat.mod_one (f a)] at h
  exact h

/-- `iSort` rearranges the items. -/
theorem iSort_perm (mem : ℕ → E) (A : List E) (m : ℤ) (f : E → ℕ) :
    (iSort mem A m f).Perm A := by
  rw [iSort_eq]
  exact buckets_perm fun a _ => Nat.mod_lt _ (Nat.two_pow_pos _)

/-! ## When the items are sorted -/

/-- Two items, the first of which comes first, are brought in an order that
`R` allows by a stable sort by `g`. -/
def InOrder (g : E → ℕ) (R : E → E → Prop) (a b : E) : Prop :=
  (g a ≤ g b → R a b) ∧ (g b < g a → R b a)

/-- **A stable sort brings items in an order that `R` allows** exactly if it
does so with any two of them: with those of one bucket in the order they had,
and with those of two buckets in the order of the buckets. -/
theorem pairwise_buckets_iff {g : E → ℕ} {m : ℕ} {l : List E}
    (h : ∀ a ∈ l, g a < m) (R : E → E → Prop) :
    (buckets g m l).Pairwise R ↔ l.Pairwise (InOrder g R) := by
  unfold buckets
  rw [List.pairwise_flatMap]
  simp only [List.mem_range, List.pairwise_filter, List.mem_filter, decide_eq_true_eq]
  constructor
  · rintro ⟨hsame, hother⟩
    -- items of two buckets come out in the order of these
    have hlt : ∀ a ∈ l, ∀ b ∈ l, g a < g b → R a b := by
      intro a ha b hb hab
      rw [List.pairwise_iff_getElem] at hother
      have := hother (g a) (g b) (by rw [List.length_range]; exact h a ha)
        (by rw [List.length_range]; exact h b hb) hab
      rw [List.getElem_range, List.getElem_range] at this
      exact this a ⟨ha, rfl⟩ b ⟨hb, rfl⟩
    rw [List.pairwise_iff_getElem]
    intro i j hi hj hij
    refine ⟨fun hle => ?_, fun hgt => hlt _ (List.getElem_mem _) _ (List.getElem_mem _) hgt⟩
    rcases hle.lt_or_eq with hab | hab
    · exact hlt _ (List.getElem_mem _) _ (List.getElem_mem _) hab
    · -- of one bucket in the order of the list
      exact List.pairwise_iff_getElem.mp (hsame (g l[i]) (h _ (List.getElem_mem _)))
        i j hi hj hij rfl hab.symm
  · intro hl
    refine ⟨fun q _ => hl.imp fun hab ha hb => hab.1 (ha.trans hb.symm).le, ?_⟩
    refine List.pairwise_lt_range.imp fun {q r} hqr a ha b hb => ?_
    obtain ⟨i, hi, hai⟩ := List.mem_iff_getElem.mp ha.1
    obtain ⟨j, hj, hbj⟩ := List.mem_iff_getElem.mp hb.1
    have hab : g a < g b := by rw [ha.2, hb.2]; exact hqr
    -- two items of a list are in one order or the other in it
    rcases Nat.lt_trichotomy i j with hij | hij | hij
    · have := List.pairwise_iff_getElem.mp hl i j hi hj hij
      rw [hai, hbj] at this
      exact this.1 hab.le
    · subst hij
      rw [hai] at hbj
      rw [hbj] at hab
      exact absurd hab (lt_irrefl _)
    · have := List.pairwise_iff_getElem.mp hl j i hj hi hij
      rw [hai, hbj] at this
      exact this.2 hab

/-- **When `iSort` sorts**: for any two items, the order of the bits it looks
at must be the order of the numbers. -/
theorem pairwise_iSort_iff (mem : ℕ → E) (A : List E) (m : ℤ) (f : E → ℕ) :
    (iSort mem A m f).Pairwise (fun a b => f a ≤ f b)
      ↔ A.Pairwise (InOrder (fun a => f a % 2 ^ log2Up m) fun a b => f a ≤ f b) := by
  rw [iSort_eq]
  exact pairwise_buckets_iff (fun a _ => Nat.mod_lt _ (Nat.two_pow_pos _)) _

/-- It does if `m` is as large as the numbers. -/
theorem inOrder_of_le {m : ℤ} {f : E → ℕ} {A : List E} (h : ∀ a ∈ A, (f a : ℤ) ≤ m) :
    A.Pairwise (InOrder (fun a => f a % 2 ^ log2Up m) fun a b => f a ≤ f b) := by
  have hmod : ∀ a ∈ A, f a % 2 ^ log2Up m = f a := by
    intro a ha
    refine Nat.mod_eq_of_lt (lt_of_le_of_lt ?_ (log2UpFrom_spec m.toNat 0))
    have := h a ha
    omega
  refine List.Pairwise.imp_of_mem (R := fun _ _ => True) (fun {a b} ha hb _ => ?_)
    (List.pairwise_of_forall fun _ _ => trivial)
  show (f a % _ ≤ f b % _ → f a ≤ f b) ∧ (f b % _ < f a % _ → f b ≤ f a)
  rw [hmod a ha, hmod b hb]
  exact ⟨id, le_of_lt⟩

end RadixSort
