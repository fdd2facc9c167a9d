import Mathlib

/-!
# Intervals that tile a range

A list of intervals `(first, last)` *tiles* the numbers from `a` up to `b`,
without `b`, if each starts right behind the one before it. An interval may
be empty; its last number is then the one before its first.

Such intervals are contiguous and pairwise disjoint, and each number of the
range lies in one of them.
-/

/-- The number lies in the interval. -/
def Within (iv : ℕ × ℕ) (v : ℕ) : Prop := iv.1 ≤ v ∧ v ≤ iv.2

instance (iv : ℕ × ℕ) (v : ℕ) : Decidable (Within iv v) :=
  inferInstanceAs (Decidable (_ ∧ _))

/-- **The intervals tile the numbers from `a` up to `b`.** -/
def Tiles : ℕ → List (ℕ × ℕ) → ℕ → Prop
  | a, [], b => a = b
  | a, iv :: l, b => iv.1 = a ∧ a ≤ iv.2 + 1 ∧ Tiles (iv.2 + 1) l b

namespace Tiles

variable {a b : ℕ} {l : List (ℕ × ℕ)}

/-- One more interval behind. -/
theorem append (h : Tiles a l b) {last : ℕ} (hle : b ≤ last + 1) :
    Tiles a (l ++ [(b, last)]) (last + 1) := by
  induction l generalizing a with
  | nil => exact ⟨h.symm, h ▸ hle, rfl⟩
  | cons iv l ih => exact ⟨h.1, h.2.1, ih h.2.2⟩

theorem le (h : Tiles a l b) : a ≤ b := by
  induction l generalizing a with
  | nil => exact h.le
  | cons iv l ih => exact h.2.1.trans (ih h.2.2)

/-- An interval of a tiling ends in the range. -/
theorem bounds (h : Tiles a l b) {iv : ℕ × ℕ} (hiv : iv ∈ l) :
    a ≤ iv.1 ∧ iv.1 ≤ iv.2 + 1 ∧ iv.2 + 1 ≤ b := by
  induction l generalizing a with
  | nil => exact absurd hiv List.not_mem_nil
  | cons iv' l ih =>
    obtain ⟨hfirst, hle, hrest⟩ := h
    rcases List.mem_cons.mp hiv with rfl | hiv
    · exact ⟨hfirst.ge, hfirst ▸ hle, hrest.le⟩
    · have := ih hrest hiv
      omega

/-- The intervals of a tiling are contiguous. -/
theorem contiguous (h : Tiles a l b) : l.IsChain fun iv iv' => iv'.1 = iv.2 + 1 := by
  induction l generalizing a with
  | nil => exact List.IsChain.nil
  | cons iv l ih =>
    cases l with
    | nil => exact List.IsChain.singleton iv
    | cons iv' l => exact List.IsChain.cons_cons h.2.2.1 (ih h.2.2)

/-- The intervals of a tiling are pairwise disjoint. -/
theorem disjoint (h : Tiles a l b) :
    l.Pairwise fun iv iv' => ∀ v, ¬(Within iv v ∧ Within iv' v) := by
  induction l generalizing a with
  | nil => exact List.Pairwise.nil
  | cons iv l ih =>
    refine List.pairwise_cons.mpr ⟨fun iv' hiv' v hv => ?_, ih h.2.2⟩
    have := (h.2.2.bounds hiv').1
    have := hv.1.2
    have := hv.2.1
    omega

/-- **Each number of the range lies in an interval.** -/
theorem cover (h : Tiles a l b) {v : ℕ} (hav : a ≤ v) (hvb : v < b) :
    ∃ iv ∈ l, Within iv v := by
  induction l generalizing a with
  | nil =>
    have : a = b := h
    omega
  | cons iv l ih =>
    by_cases hv : v ≤ iv.2
    · exact ⟨iv, List.mem_cons_self, h.1.trans_le hav, hv⟩
    · obtain ⟨iv', hiv', hw⟩ := ih h.2.2 (by omega)
      exact ⟨iv', List.mem_cons_of_mem _ hiv', hw⟩

end Tiles
