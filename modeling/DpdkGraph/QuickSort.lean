import Mathlib

/-!
# The in-place sort

`util/qsort.hpp` sorts an array with a comparison function: short arrays
by insertion, longer ones by a three-way partition around a random pivot.
The pivot is `A[rand() % n]`; here `rand` is the sequence of numbers that
`rand()` returns, and a counter of the numbers drawn so far is threaded
through the calls, the left part being sorted before the right one.

The partition keeps four parts: below `L` the elements less than the
pivot, from `L` to `M` the equal ones, from `M` to `R` the ones not looked
at, above `R` the greater ones. `CutAt` is that invariant, and
`quickSort_perm` and `quickSort_sorted` are what a caller needs, for any
sequence of random numbers. The recursions carry a bound on their depth,
which the length of the array always satisfies.
-/

namespace Qsort

variable {E : Type}

/-- The element at `i`, or `d` past the end. -/
def at_ (d : E) (A : List E) (i : ℕ) : E := A.getD i d

/-- `std::swap(A[i], A[j])`. -/
def swap (d : E) (A : List E) (i j : ℕ) : List E :=
  (A.set i (at_ d A j)).set j (at_ d A i)

/-- One insertion into the sorted elements to the left, nearest first: the
greater ones move up and `v` goes below them. -/
def insertBack (f : E → E → Bool) (v : E) : List E → List E
  | [] => [v]
  | b :: bs => if f v b then b :: insertBack f v bs else v :: b :: bs

/-- `insertionSort`: each element in turn is inserted into the sorted part
to its left, which is kept reversed here. -/
def insertionSort (f : E → E → Bool) (A : List E) : List E :=
  (A.foldl (fun B v => insertBack f v B) []).reverse

/-- The inner loop over `M`: while the element under `M` is not greater
than the pivot `p`, move it to the left part if it is less, and stop when
`M` has reached `R`. -/
def scanM (f : E → E → Bool) (p : E) (R : ℕ) :
    ℕ → List E → ℕ → ℕ → List E × ℕ × ℕ
  | 0, A, L, M => (A, L, M)
  | fuel + 1, A, L, M =>
    if f p (at_ p A M) then (A, L, M)
    else
      let AL := if f (at_ p A M) p then (swap p A M L, L + 1) else (A, L)
      if R ≤ M then (AL.1, AL.2, M) else scanM f p R fuel AL.1 AL.2 (M + 1)

/-- The inner loop over `R`: skip the elements greater than the pivot. -/
def scanR (f : E → E → Bool) (p : E) (A : List E) : ℕ → ℕ
  | 0 => 0
  | R + 1 => if f p (at_ p A (R + 1)) then scanR f p A R else R + 1

/-- The outer loop of the partition, which returns the array and the final
`L` and `M`. -/
def cut (f : E → E → Bool) (p : E) :
    ℕ → List E → ℕ → ℕ → ℕ → List E × ℕ × ℕ
  | 0, A, L, M, _ => (A, L, M)
  | fuel + 1, A, L, M, R =>
    let s := scanM f p R (R + 1 - M) A L M
    let R := scanR f p s.1 R
    if R ≤ s.2.2 then s
    else
      let A := swap p s.1 s.2.2 R
      let AL := if f (at_ p A s.2.2) p then (swap p A s.2.2 s.2.1, s.2.1 + 1)
        else (A, s.2.1)
      cut f p fuel AL.1 AL.2 (s.2.2 + 1) (R - 1)

/-- `quickSort`, with the random numbers `rand` of which `r` have been
drawn; returns the sorted array and the numbers drawn in the end. -/
def quickSort (f : E → E → Bool) (rand : ℕ → ℕ) : ℕ → ℕ → List E → List E × ℕ
  | 0, r, A => (A, r)
  | fuel + 1, r, A =>
    if A.length < 25 then (insertionSort f A, r)
    else
      match A[rand r % A.length]? with
      | none => (A, r)
      | some p =>
        let s := cut f p A.length A 0 0 (A.length - 1)
        let left := quickSort f rand fuel (r + 1) (s.1.take s.2.1)
        let right := quickSort f rand fuel left.2 (s.1.drop s.2.2)
        (left.1 ++ (s.1.take s.2.2).drop s.2.1 ++ right.1, right.2)

/-! ## Insertion -/

theorem insertBack_perm (f : E → E → Bool) (v : E) (B : List E) :
    (insertBack f v B).Perm (v :: B) := by
  induction B with
  | nil => exact List.Perm.refl _
  | cons b bs ih =>
    unfold insertBack
    split
    · exact (List.Perm.cons b ih).trans (List.Perm.swap v b bs)
    · exact List.Perm.refl _

theorem foldl_insertBack_perm (f : E → E → Bool) (A B : List E) :
    (A.foldl (fun B v => insertBack f v B) B).Perm (A ++ B) := by
  induction A generalizing B with
  | nil => exact List.Perm.refl _
  | cons v A ih =>
    refine (ih (insertBack f v B)).trans ?_
    exact ((insertBack_perm f v B).append_left A).trans List.perm_middle

theorem insertionSort_perm (f : E → E → Bool) (A : List E) :
    (insertionSort f A).Perm A := by
  have h := foldl_insertBack_perm f A []
  rw [List.append_nil] at h
  exact (List.reverse_perm _).trans h

section Sorted

variable {κ : Type} [LinearOrder κ] {key : E → κ} {f : E → E → Bool}

/-- Inserting into a list that is sorted downwards keeps it so. -/
theorem insertBack_sorted (hf : ∀ a b, f a b = true ↔ key a < key b) (v : E)
    {B : List E} (hB : B.Pairwise (fun a b => key b ≤ key a)) :
    (insertBack f v B).Pairwise (fun a b => key b ≤ key a) := by
  induction B with
  | nil => exact List.pairwise_singleton _ _
  | cons b bs ih =>
    obtain ⟨hb, hbs⟩ := List.pairwise_cons.mp hB
    unfold insertBack
    split
    · next h =>
      refine List.pairwise_cons.mpr ⟨fun x hx => ?_, ih hbs⟩
      rcases List.mem_cons.mp ((insertBack_perm f v bs).mem_iff.mp hx) with rfl | hx
      · exact ((hf _ _).mp h).le
      · exact hb x hx
    · next h =>
      have hvb : key b ≤ key v := not_lt.mp (fun hlt => h ((hf _ _).mpr hlt))
      refine List.pairwise_cons.mpr ⟨fun x hx => ?_, hB⟩
      rcases List.mem_cons.mp hx with rfl | hx
      · exact hvb
      · exact (hb x hx).trans hvb

theorem insertionSort_sorted (hf : ∀ a b, f a b = true ↔ key a < key b)
    (A : List E) :
    (insertionSort f A).Pairwise (fun a b => key a ≤ key b) := by
  have h : ∀ (A B : List E), B.Pairwise (fun a b => key b ≤ key a) →
      (A.foldl (fun B v => insertBack f v B) B).Pairwise
        (fun a b => key b ≤ key a) := by
    intro A
    induction A with
    | nil => exact fun B hB => hB
    | cons v A ih => exact fun B hB => ih _ (insertBack_sorted hf v hB)
  exact List.pairwise_reverse.mpr (h A [] List.Pairwise.nil)

end Sorted

/-! ## The partition -/

@[simp] theorem length_swap (d : E) (A : List E) (i j : ℕ) :
    (swap d A i j).length = A.length := by
  simp [swap]

/-- A swap inside the array rearranges it. -/
theorem swap_perm (d : E) {A : List E} {i j : ℕ} (hi : i < A.length)
    (hj : j < A.length) : (swap d A i j).Perm A := by
  unfold swap at_
  rw [List.getD_eq_getElem A d hi, List.getD_eq_getElem A d hj]
  exact List.set_set_perm hi hj

/-- What a swap puts at each place. -/
theorem at_swap (d : E) {A : List E} {i j : ℕ} (hi : i < A.length)
    (hj : j < A.length) (x : ℕ) :
    at_ d (swap d A i j) x
      = if x = j then at_ d A i else if x = i then at_ d A j else at_ d A x := by
  by_cases hx : x < A.length
  · unfold swap at_
    rw [List.getD_eq_getElem _ d (by simpa using hx), List.getElem_set,
      List.getElem_set]
    by_cases hxj : x = j
    · subst hxj; simp
    · by_cases hxi : x = i
      · subst hxi
        rw [if_neg (Ne.symm hxj), if_pos rfl, if_neg hxj, if_pos rfl]
      · rw [if_neg (Ne.symm hxj), if_neg (Ne.symm hxi), if_neg hxj, if_neg hxi,
          List.getD_eq_getElem A d hx]
  · rw [if_neg (by omega), if_neg (by omega)]
    unfold at_
    rw [List.getD_eq_default _ _ (by simpa using hx),
      List.getD_eq_default _ _ (by omega)]

section Cut

variable {κ : Type} [LinearOrder κ] (key : E → κ) (p : E) (A₀ : List E)

/-- **The partition invariant**: the array rearranges `A₀`; below `L` the
elements are less than the pivot, from `L` to `M` equal to it, above `R`
greater. `edge` holds because `R` starts at the end of an array of at
least two elements and `M` moves with it. -/
structure CutAt (A : List E) (L M R : ℕ) : Prop where
  perm : A.Perm A₀
  le : L ≤ M
  leR : M ≤ R + 1
  ltM : M < A₀.length
  ltR : R < A₀.length
  below : ∀ x, x < L → key (at_ p A x) < key p
  middle : ∀ x, L ≤ x → x < M → key (at_ p A x) = key p
  above : ∀ x, R < x → x < A₀.length → key p < key (at_ p A x)
  edge : 0 < R ∨ 0 < M

/-- What the partition returns: the parts below `L`, from `L` to `M` and
from `M` on, the two outer ones shorter than the array. -/
structure Parted (A : List E) (L M : ℕ) : Prop where
  perm : A.Perm A₀
  le : L ≤ M
  leN : M ≤ A₀.length
  ltN : L < A₀.length
  pos : 0 < M
  below : ∀ x, x < L → key (at_ p A x) < key p
  middle : ∀ x, L ≤ x → x < M → key (at_ p A x) = key p
  above : ∀ x, M ≤ x → x < A₀.length → key p ≤ key (at_ p A x)

variable {key p A₀} {f : E → E → Bool}

/-- The pivot is somewhere in any rearrangement of the array. -/
theorem exists_at_pivot {A : List E} (hA : A.Perm A₀) (hp : p ∈ A₀) :
    ∃ x, x < A₀.length ∧ at_ p A x = p := by
  obtain ⟨x, hx, hxp⟩ := List.getElem_of_mem (hA.mem_iff.mpr hp)
  refine ⟨x, by rw [← hA.length_eq]; exact hx, ?_⟩
  unfold at_
  rw [List.getD_eq_getElem A p hx, hxp]

/-- The pivot is not in the part of the greater elements. -/
theorem CutAt.pivot {A : List E} {L M R : ℕ} (h : CutAt key p A₀ A L M R)
    (hp : p ∈ A₀) : ∃ x, x ≤ R ∧ at_ p A x = p := by
  obtain ⟨x, hx, hat⟩ := exists_at_pivot h.perm hp
  refine ⟨x, ?_, hat⟩
  by_contra hlt
  have habove := h.above x (by omega) hx
  rw [hat] at habove
  exact lt_irrefl _ habove

/-- Moving the element under `M`, which is not greater than the pivot, to its
part: a smaller one changes places with the first of the middle part, which
keeps its length. -/
theorem place_spec (hf : ∀ a b, f a b = true ↔ key a < key b)
    {A : List E} {L M : ℕ} (hperm : A.Perm A₀) (hL : L ≤ M)
    (hM : M < A₀.length)
    (hbelow : ∀ x, x < L → key (at_ p A x) < key p)
    (hmiddle : ∀ x, L ≤ x → x < M → key (at_ p A x) = key p)
    (hle : key (at_ p A M) ≤ key p) {A' : List E} {L' : ℕ}
    (heq : (if f (at_ p A M) p then (swap p A M L, L + 1) else (A, L)) = (A', L')) :
    A'.Perm A₀ ∧ L' ≤ M + 1
      ∧ (∀ x, x < L' → key (at_ p A' x) < key p)
      ∧ (∀ x, L' ≤ x → x < M + 1 → key (at_ p A' x) = key p)
      ∧ (∀ x, M < x → at_ p A' x = at_ p A x) := by
  have hlen : A.length = A₀.length := hperm.length_eq
  by_cases hlt : f (at_ p A M) p = true
  · rw [if_pos hlt] at heq
    obtain ⟨rfl, rfl⟩ := Prod.mk.inj heq
    have hsw := at_swap p (A := A) (i := M) (j := L) (by omega) (by omega)
    refine ⟨(swap_perm p (by omega) (by omega)).trans hperm, by omega, ?_, ?_, ?_⟩
    · intro x hx
      rw [hsw x]
      split
      · exact (hf _ _).mp hlt
      · rw [if_neg (by omega)]
        exact hbelow x (by omega)
    · intro x hLx hxM
      rw [hsw x, if_neg (by omega)]
      split
      · -- the first of the middle part has come to its end
        exact hmiddle L le_rfl (by omega)
      · exact hmiddle x (by omega) (by omega)
    · intro x hx
      rw [hsw x, if_neg (by omega), if_neg (by omega)]
  · rw [if_neg hlt] at heq
    obtain ⟨rfl, rfl⟩ := Prod.mk.inj heq
    refine ⟨hperm, by omega, hbelow, ?_, fun x _ => rfl⟩
    intro x hLx hxM
    -- the element is equal to the pivot and stays
    by_cases hxm : x = M
    · subst hxm
      exact le_antisymm hle (not_lt.mp (fun hl => hlt ((hf _ _).mpr hl)))
    · exact hmiddle x hLx (by omega)

/-- The loop over `M` only moves up. -/
theorem le_scanM {R : ℕ} {fuel : ℕ} {A : List E} {L M : ℕ} {A' : List E}
    {L' M' : ℕ} (heq : scanM f p R fuel A L M = (A', L', M')) : M ≤ M' := by
  induction fuel generalizing A L M with
  | zero =>
    obtain ⟨-, -, rfl⟩ : A = A' ∧ L = L' ∧ M = M' := by simpa [scanM] using heq
    exact le_rfl
  | succ fuel ih =>
    unfold scanM at heq
    split at heq
    · obtain ⟨-, -, rfl⟩ : A = A' ∧ L = L' ∧ M = M' := by simpa using heq
      exact le_rfl
    · dsimp only at heq
      split at heq
      · exact (Prod.mk.inj (Prod.mk.inj heq).2).2.le
      · exact (Nat.le_succ M).trans (ih heq)

/-- **The loop over `M`** stops with the invariant at an element greater
than the pivot, or at `R` with the array parted there. -/
theorem scanM_spec (hf : ∀ a b, f a b = true ↔ key a < key b) (hp : p ∈ A₀)
    {R : ℕ} (fuel : ℕ) {A : List E} {L M : ℕ} (hfuel : R + 1 - M ≤ fuel)
    (h : CutAt key p A₀ A L M R) {A' : List E} {L' M' : ℕ}
    (heq : scanM f p R fuel A L M = (A', L', M')) :
    (CutAt key p A₀ A' L' M' R ∧ key p < key (at_ p A' M'))
      ∨ (M' = R ∧ key (at_ p A' R) ≤ key p ∧ Parted key p A₀ A' L' M') := by
  induction fuel generalizing A L M with
  | zero =>
    obtain ⟨rfl, rfl, rfl⟩ : A = A' ∧ L = L' ∧ M = M' := by
      simpa [scanM] using heq
    exact Or.inl ⟨h, h.above M (by omega) h.ltM⟩
  | succ fuel ih =>
    unfold scanM at heq
    by_cases hgt : f p (at_ p A M) = true
    · rw [if_pos hgt] at heq
      obtain ⟨rfl, rfl, rfl⟩ : A = A' ∧ L = L' ∧ M = M' := by simpa using heq
      exact Or.inl ⟨h, (hf _ _).mp hgt⟩
    · rw [if_neg hgt] at heq
      have hle : key (at_ p A M) ≤ key p :=
        not_lt.mp (fun hl => hgt ((hf _ _).mpr hl))
      have hMR : M ≤ R := by
        by_contra hMR
        exact absurd (h.above M (by omega) h.ltM) (not_lt.mpr hle)
      rcases hAL : (if f (at_ p A M) p then (swap p A M L, L + 1) else (A, L))
        with ⟨A₁, L₁⟩
      obtain ⟨hperm, hL₁, hbelow, hmiddle, habove⟩ :=
        place_spec hf h.perm h.le h.ltM h.below h.middle hle hAL
      have habove₁ : ∀ x, R < x → x < A₀.length → key p < key (at_ p A₁ x) := by
        intro x hx hxn
        rw [habove x (by omega)]
        exact h.above x hx hxn
      simp only [hAL] at heq
      by_cases hRM : R ≤ M
      · -- `M` has reached `R`: everything up to `R` is in place
        rw [if_pos hRM] at heq
        obtain ⟨rfl, rfl, rfl⟩ : A₁ = A' ∧ L₁ = L' ∧ M = M' := by simpa using heq
        have hMeq : M = R := le_antisymm hMR hRM
        subst hMeq
        obtain ⟨x, hxn, hxp⟩ := exists_at_pivot hperm hp
        have hLx : L₁ ≤ x := by
          by_contra hlt
          have hb := hbelow x (by omega)
          rw [hxp] at hb
          exact lt_irrefl _ hb
        have hxM : x ≤ M := by
          by_contra hlt
          have ha := habove₁ x (by omega) hxn
          rw [hxp] at ha
          exact lt_irrefl _ ha
        have hpos : 0 < M := by rcases h.edge with h | h <;> exact h
        have heqM : key (at_ p A₁ M) = key p := hmiddle M (by omega) (by omega)
        refine Or.inr ⟨rfl, heqM.le, hperm, by omega, h.ltM.le, by omega, hpos,
          hbelow, fun y hy hyM => hmiddle y hy (by omega), ?_⟩
        intro y hy hyn
        by_cases hyM : y = M
        · rw [hyM, heqM]
        · exact (habove₁ y (by omega) hyn).le
      · rw [if_neg hRM] at heq
        have hR := h.ltR
        exact ih (by omega) ⟨hperm, hL₁, by omega, by omega, h.ltR, hbelow,
          hmiddle, habove₁, Or.inr (by omega)⟩ heq

/-- The loop over `R` stops at the last element that is not greater than
the pivot. -/
theorem scanR_spec (hf : ∀ a b, f a b = true ↔ key a < key b) {A : List E}
    {R y : ℕ} (hy : y ≤ R) (hyp : key (at_ p A y) ≤ key p) :
    scanR f p A R ≤ R ∧ key (at_ p A (scanR f p A R)) ≤ key p
      ∧ (∀ x, scanR f p A R < x → x ≤ R → key p < key (at_ p A x)) := by
  induction R with
  | zero =>
    obtain rfl : y = 0 := by omega
    exact ⟨le_rfl, hyp, fun x hx hx0 => by omega⟩
  | succ R ih =>
    unfold scanR
    split
    · next hgt =>
      have hgt' := (hf _ _).mp hgt
      have hyR : y ≤ R := by
        by_contra hlt
        obtain rfl : y = R + 1 := by omega
        exact absurd hgt' (not_lt.mpr hyp)
      obtain ⟨hle, hkey, habove⟩ := ih hyR
      refine ⟨by omega, hkey, fun x hx hxR => ?_⟩
      by_cases hxe : x = R + 1
      · rw [hxe]
        exact hgt'
      · exact habove x hx (by omega)
    · next hgt =>
      exact ⟨le_rfl, not_lt.mp (fun hl => hgt ((hf _ _).mpr hl)),
        fun x hx hxR => by omega⟩

/-- **The partition** parts the array around the pivot: the invariant holds when
the two scans have stopped and after the exchange, and when they have met
everything has been looked at. -/
theorem cut_spec (hf : ∀ a b, f a b = true ↔ key a < key b) (hp : p ∈ A₀)
    (fuel : ℕ) {A : List E} {L M R : ℕ} (hfuel : A₀.length ≤ fuel + M)
    (h : CutAt key p A₀ A L M R) {A' : List E} {L' M' : ℕ}
    (heq : cut f p fuel A L M R = (A', L', M')) :
    Parted key p A₀ A' L' M' := by
  induction fuel generalizing A L M R with
  | zero =>
    have := h.ltM
    omega
  | succ fuel ih =>
    rcases hs : scanM f p R (R + 1 - M) A L M with ⟨A₁, L₁, M₁⟩
    have hM₁ : M ≤ M₁ := le_scanM hs
    unfold cut at heq
    simp only [hs] at heq
    rcases scanM_spec hf hp _ le_rfl h hs with ⟨h₁, hgt⟩ | ⟨hMR, hle, hparted⟩
    · -- the scan from the left has stopped at a greater element
      obtain ⟨y, hyR, hyp⟩ := h₁.pivot hp
      -- the pivot itself stops the scan from the right
      obtain ⟨hR, hRle, hRabove⟩ := scanR_spec hf hyR (by rw [hyp])
      generalize hR' : scanR f p A₁ R = R' at heq hR hRle hRabove
      have habove : ∀ x, R' < x → x < A₀.length → key p < key (at_ p A₁ x) := by
        intro x hx hxn
        by_cases hxR : x ≤ R
        · exact hRabove x hx hxR
        · exact h₁.above x (by omega) hxn
      have hne : M₁ ≠ R' := by
        rintro rfl
        exact absurd hgt (not_lt.mpr hRle)
      have hRn := h₁.ltR
      have hle₁ := h₁.le
      have hM₁n := h₁.ltM
      by_cases hstop : R' ≤ M₁
      · rw [if_pos hstop] at heq
        obtain ⟨rfl, rfl, rfl⟩ : A₁ = A' ∧ L₁ = L' ∧ M₁ = M' := by simpa using heq
        -- they have met: the pivot is in the middle part, which is not empty
        obtain ⟨z, hzR, hzp⟩ : ∃ z, z < M₁ ∧ at_ p A₁ z = p := by
          refine ⟨y, ?_, hyp⟩
          by_contra hlt
          have ha := habove y (by omega) (by omega)
          rw [hyp] at ha
          exact lt_irrefl _ ha
        have hLz : L₁ ≤ z := by
          by_contra hlt
          have hb := h₁.below z (by omega)
          rw [hzp] at hb
          exact lt_irrefl _ hb
        exact ⟨h₁.perm, hle₁, hM₁n.le, by omega, by omega, h₁.below, h₁.middle,
          fun x hx hxn => (habove x (by omega) hxn).le⟩
      · -- they have not: the two elements change places
        rw [if_neg hstop] at heq
        have hlen : A₁.length = A₀.length := h₁.perm.length_eq
        have hsw := at_swap p (A := A₁) (i := M₁) (j := R') (by omega) (by omega)
        have hperm₂ : (swap p A₁ M₁ R').Perm A₀ :=
          (swap_perm p (by omega) (by omega)).trans h₁.perm
        obtain ⟨A₂, hA₂⟩ : ∃ A₂, A₂ = swap p A₁ M₁ R' := ⟨_, rfl⟩
        rw [← hA₂] at heq hsw hperm₂
        rcases hAL : (if f (at_ p A₂ M₁) p then (swap p A₂ M₁ L₁, L₁ + 1)
          else (A₂, L₁)) with ⟨A₃, L₃⟩
        have hM₂ : key (at_ p A₂ M₁) ≤ key p := by
          rw [hsw M₁, if_neg hne, if_pos rfl]
          exact hRle
        obtain ⟨hperm, hL₃, hbelow, hmiddle, hrest⟩ := place_spec hf hperm₂ hle₁ hM₁n
          (fun x hx => by
            rw [hsw x, if_neg (by omega), if_neg (by omega)]
            exact h₁.below x hx)
          (fun x hx hxM => by
            rw [hsw x, if_neg (by omega), if_neg (by omega)]
            exact h₁.middle x hx hxM)
          hM₂ hAL
        simp only [hAL] at heq
        refine ih (by omega) ⟨hperm, hL₃, by omega, by omega, by omega, hbelow,
          hmiddle, ?_, Or.inr (by omega)⟩ heq
        intro x hx hxn
        rw [hrest x (by omega), hsw x]
        split
        · exact hgt
        · rw [if_neg (by omega)]
          exact habove x (by omega) hxn
    · -- the scan from the left got to the end: there is nothing greater
      have hstop : scanR f p A₁ R ≤ M₁ := by
        rw [hMR]
        exact (scanR_spec hf le_rfl hle).1
      rw [if_pos hstop] at heq
      obtain ⟨rfl, rfl, rfl⟩ : A₁ = A' ∧ L₁ = L' ∧ M₁ = M' := by simpa using heq
      exact hparted

/-- A prefix of the array, read by position. -/
theorem mem_take_at {A : List E} {n : ℕ} {a : E} (ha : a ∈ A.take n) :
    ∃ x, x < n ∧ x < A.length ∧ at_ p A x = a := by
  obtain ⟨x, hx, hxa⟩ := List.getElem_of_mem ha
  rw [List.length_take] at hx
  refine ⟨x, by omega, by omega, ?_⟩
  unfold at_
  rw [List.getD_eq_getElem A p (by omega), ← hxa, List.getElem_take]

/-- A suffix of the array, read by position. -/
theorem mem_drop_at {A : List E} {n : ℕ} {a : E} (ha : a ∈ A.drop n) :
    ∃ x, n ≤ x ∧ x < A.length ∧ at_ p A x = a := by
  obtain ⟨x, hx, hxa⟩ := List.getElem_of_mem ha
  rw [List.length_drop] at hx
  refine ⟨n + x, by omega, by omega, ?_⟩
  unfold at_
  rw [List.getD_eq_getElem A p (by omega), ← hxa, List.getElem_drop]

/-- The parts of a partition, by membership. -/
theorem Parted.mem {A : List E} {L M : ℕ} (h : Parted key p A₀ A L M) :
    (∀ a ∈ A.take L, key a < key p) ∧ (∀ a ∈ (A.take M).drop L, key a = key p)
      ∧ (∀ a ∈ A.drop M, key p ≤ key a) := by
  refine ⟨?_, ?_, ?_⟩
  · intro a ha
    obtain ⟨x, hx, -, rfl⟩ := mem_take_at (p := p) ha
    exact h.below x hx
  · intro a ha
    obtain ⟨x, hLx, hx, rfl⟩ := mem_drop_at (p := p) ha
    rw [List.length_take] at hx
    have hat : at_ p (A.take M) x = at_ p A x := by
      unfold at_
      rw [List.getD_eq_getElem _ p (by rw [List.length_take]; exact hx),
        List.getD_eq_getElem A p (by omega), List.getElem_take]
    rw [hat]
    exact h.middle x hLx (by omega)
  · intro a ha
    obtain ⟨x, hMx, hx, rfl⟩ := mem_drop_at (p := p) ha
    exact h.above x hMx (by rw [← h.perm.length_eq]; exact hx)

/-- The three parts make up the array. -/
theorem Parted.append_eq {A : List E} {L M : ℕ} (h : Parted key p A₀ A L M) :
    A.take L ++ (A.take M).drop L ++ A.drop M = A := by
  have hL : A.take L = (A.take M).take L := by
    rw [List.take_take, min_eq_left h.le]
  rw [hL, List.take_append_drop, List.take_append_drop]

end Cut

/-! ## The sort -/

section Whole

variable {κ : Type} [LinearOrder κ] {key : E → κ} {f : E → E → Bool}

/-- **One level of the sort**, with the recursive calls' results abstract:
sorted rearrangements of the outer parts around the equal elements. -/
theorem quickSort_step (hf : ∀ a b, f a b = true ↔ key a < key b) (p : E)
    {A : List E} (hp : p ∈ A) (hlen : 2 ≤ A.length) {A' : List E} {L M : ℕ}
    (hcut : cut f p A.length A 0 0 (A.length - 1) = (A', L, M)) :
    Parted key p A A' L M := by
  refine cut_spec hf hp A.length (by omega) ?_ hcut
  exact ⟨List.Perm.refl _, le_rfl, by omega, by omega, by omega,
    fun x hx => by omega, fun x _ hx => by omega, fun x hx hxn => by omega,
    Or.inl (by omega)⟩

/-- **The sort returns a sorted rearrangement**, whatever the random numbers.
The two parts are shorter than the array, since the middle one has the pivot. -/
theorem quickSort_spec (hf : ∀ a b, f a b = true ↔ key a < key b)
    (rand : ℕ → ℕ) (fuel r : ℕ) (A : List E) (hfuel : A.length ≤ fuel) :
    (quickSort f rand fuel r A).1.Perm A
      ∧ (quickSort f rand fuel r A).1.Pairwise (fun a b => key a ≤ key b) := by
  induction fuel generalizing r A with
  | zero =>
    obtain rfl : A = [] := List.length_eq_zero_iff.mp (by omega)
    exact ⟨List.Perm.refl _, List.Pairwise.nil⟩
  | succ fuel ih =>
    unfold quickSort
    split
    · exact ⟨insertionSort_perm f A, insertionSort_sorted hf A⟩
    · next hlong =>
      have hidx : rand r % A.length < A.length := Nat.mod_lt _ (by omega)
      rw [List.getElem?_eq_getElem hidx]
      generalize hp : A[rand r % A.length] = p
      have hpA : p ∈ A := hp ▸ List.getElem_mem hidx
      rcases hcut : cut f p A.length A 0 0 (A.length - 1) with ⟨A', L, M⟩
      have hparted := quickSort_step hf p hpA (by omega) hcut
      have hlen : A'.length = A.length := hparted.perm.length_eq
      -- both parts have as many elements at most as there is fuel
      have hltN := hparted.ltN
      have hpos := hparted.pos
      obtain ⟨hpermL, hsortL⟩ := ih (r + 1) (A'.take L)
        (by rw [List.length_take]; omega)
      obtain ⟨hpermR, hsortR⟩ := ih (quickSort f rand fuel (r + 1) (A'.take L)).2
        (A'.drop M) (by rw [List.length_drop]; omega)
      obtain ⟨hlow, hmid, hhigh⟩ := hparted.mem
      simp only [hcut]
      refine ⟨?_, ?_⟩
      · have h := ((hpermL.append_right ((A'.take M).drop L)).append hpermR)
        rw [hparted.append_eq] at h
        exact h.trans hparted.perm
      · -- sorting a part keeps it below or above the pivot
        have hlow' := fun a ha => hlow a (hpermL.mem_iff.mp ha)
        have hhigh' := fun a ha => hhigh a (hpermR.mem_iff.mp ha)
        have hmidSorted : ((A'.take M).drop L).Pairwise (fun a b => key a ≤ key b) :=
          List.pairwise_of_forall_mem_list
            (fun a ha b hb => (hmid a ha).le.trans (hmid b hb).ge)
        refine List.pairwise_append.mpr
          ⟨List.pairwise_append.mpr ⟨hsortL, hmidSorted, fun a ha b hb => ?_⟩,
            hsortR, fun a ha b hb => ?_⟩
        · exact (hlow' a ha).le.trans (hmid b hb).ge
        · rcases List.mem_append.mp ha with ha | ha
          · exact (hlow' a ha).le.trans (hhigh' b hb)
          · exact (hmid a ha).le.trans (hhigh' b hb)

end Whole

/-! ## Sorting other elements

The sort looks at its elements through the comparison only, so it moves
them the same way if they are replaced by others that compare the same. -/

section Mapped

variable {F : Type} {f : F → F → Bool} {f' : E → E → Bool} {g : E → F}

theorem at_map (d : E) (A : List E) (i : ℕ) : at_ (g d) (A.map g) i = g (at_ d A i) :=
  List.getD_map A d g

theorem swap_map (d : E) (A : List E) (i j : ℕ) :
    swap (g d) (A.map g) i j = (swap d A i j).map g := by
  unfold swap
  rw [at_map, at_map, List.map_set, List.map_set]

section Compare

variable (hf : ∀ a b, f (g a) (g b) = f' a b)

include hf

theorem insertBack_map (v : E) (B : List E) :
    insertBack f (g v) (B.map g) = (insertBack f' v B).map g := by
  induction B with
  | nil => rfl
  | cons b bs ih =>
    rw [List.map_cons, insertBack, insertBack, hf, ih]
    split <;> rfl

theorem insertionSort_map (A : List E) :
    insertionSort f (A.map g) = (insertionSort f' A).map g := by
  have hfold : ∀ (A B : List E), (A.map g).foldl (fun B v => insertBack f v B) (B.map g)
      = (A.foldl (fun B v => insertBack f' v B) B).map g := by
    intro A
    induction A with
    | nil => exact fun _ => rfl
    | cons v A ih =>
      intro B
      rw [List.map_cons, List.foldl_cons, List.foldl_cons, insertBack_map hf, ih]
  unfold insertionSort
  rw [List.map_reverse, ← hfold A []]
  rfl

theorem scanM_map (p : E) (R fuel : ℕ) (A : List E) (L M : ℕ) :
    scanM f (g p) R fuel (A.map g) L M
      = ((scanM f' p R fuel A L M).1.map g, (scanM f' p R fuel A L M).2) := by
  induction fuel generalizing A L M with
  | zero => rfl
  | succ fuel ih =>
    have hplace : (if f (at_ (g p) (A.map g) M) (g p) then
          (swap (g p) (A.map g) M L, L + 1) else (A.map g, L))
        = ((if f' (at_ p A M) p then (swap p A M L, L + 1) else (A, L)).1.map g,
          (if f' (at_ p A M) p then (swap p A M L, L + 1) else (A, L)).2) := by
      rw [at_map, hf, swap_map]
      split <;> rfl
    unfold scanM
    simp only [hplace, ih]
    rw [at_map, hf]
    split
    · rfl
    · split <;> rfl

theorem scanR_map (p : E) (A : List E) (R : ℕ) :
    scanR f (g p) (A.map g) R = scanR f' p A R := by
  induction R with
  | zero => rfl
  | succ R ih => rw [scanR, scanR, at_map, hf, ih]

theorem cut_map (p : E) (fuel : ℕ) (A : List E) (L M R : ℕ) :
    cut f (g p) fuel (A.map g) L M R
      = ((cut f' p fuel A L M R).1.map g, (cut f' p fuel A L M R).2) := by
  induction fuel generalizing A L M R with
  | zero => rfl
  | succ fuel ih =>
    unfold cut
    simp only [scanM_map hf, scanR_map hf, swap_map, at_map, hf]
    split
    · rfl
    · split
      · rw [ih]
      · rw [ih]

/-- **Elements that compare the same are moved the same way.** -/
theorem quickSort_map (rand : ℕ → ℕ) (fuel r : ℕ) (A : List E) :
    quickSort f rand fuel r (A.map g)
      = ((quickSort f' rand fuel r A).1.map g, (quickSort f' rand fuel r A).2) := by
  induction fuel generalizing r A with
  | zero => rfl
  | succ fuel ih =>
    unfold quickSort
    rw [List.length_map, List.getElem?_map, insertionSort_map hf]
    split
    · rfl
    · cases A[rand r % A.length]? with
      | none => rfl
      | some p =>
        simp only [Option.map_some, cut_map hf, ← List.map_take, ← List.map_drop, ih,
          ← List.map_append]

end Compare

end Mapped

end Qsort
