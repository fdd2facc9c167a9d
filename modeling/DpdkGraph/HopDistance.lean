import Mathlib.Data.ENat.Basic
import Mathlib.Data.Finset.Card
import Mathlib.Data.Nat.Find

/-!
# Hop distances

How many steps of a relation it takes at least from one point to another, as
a number or `⊤`. A walk is extended at its end, so that the distance of a
point is explained by those that have a step to it.
-/

namespace HopDistance

variable {α : Type*} {r : α → α → Prop} {a u v : α} {m n : ℕ}

/-- A walk of a number of steps. -/
inductive Steps (r : α → α → Prop) (a : α) : ℕ → α → Prop
  | refl : Steps r a 0 a
  | tail {n : ℕ} {u v : α} : Steps r a n u → r u v → Steps r a (n + 1) v

open Classical in
/-- **The number of steps** it takes from `a` to `v`. -/
noncomputable def dist (r : α → α → Prop) (a v : α) : ℕ∞ :=
  if h : ∃ n, Steps r a n v then (Nat.find h : ℕ∞) else ⊤

theorem dist_le_iff : dist r a v ≤ n ↔ ∃ m ≤ n, Steps r a m v := by
  classical
  unfold dist
  split
  · next h => rw [Nat.cast_le, Nat.find_le_iff]
  · next h =>
    constructor
    · intro hle
      exact absurd hle (not_le.mpr (ENat.natCast_lt_top n))
    · rintro ⟨m, -, hm⟩
      exact absurd ⟨m, hm⟩ h

theorem dist_eq_top_iff : dist r a v = ⊤ ↔ ∀ n, ¬Steps r a n v := by
  constructor
  · intro h n hn
    have hle : dist r a v ≤ n := dist_le_iff.mpr ⟨n, le_rfl, hn⟩
    rw [h] at hle
    exact absurd hle (not_le.mpr (ENat.natCast_lt_top n))
  · intro h
    unfold dist
    rw [dif_neg]
    rintro ⟨n, hn⟩
    exact h n hn

theorem dist_self : dist r a a = 0 := by
  have h : dist r a a ≤ (0 : ℕ) := dist_le_iff.mpr ⟨0, le_rfl, Steps.refl⟩
  exact le_antisymm h zero_le

/-- No other point is where the walk begins. -/
theorem dist_le_zero_iff : dist r a v ≤ (0 : ℕ) ↔ v = a := by
  rw [dist_le_iff]
  constructor
  · rintro ⟨m, hm, hsteps⟩
    obtain rfl := Nat.le_zero.mp hm
    cases hsteps
    rfl
  · rintro rfl
    exact ⟨0, le_rfl, Steps.refl⟩

/-- **The last step of a shortest walk.** -/
theorem dist_le_succ_iff (hne : v ≠ a) :
    dist r a v ≤ (n + 1 : ℕ) ↔ ∃ u, r u v ∧ dist r a u ≤ n := by
  constructor
  · intro h
    obtain ⟨m, hm, hsteps⟩ := dist_le_iff.mp h
    cases hsteps with
    | refl => exact absurd rfl hne
    | tail hwalk hlast =>
      exact ⟨_, hlast, dist_le_iff.mpr ⟨_, by omega, hwalk⟩⟩
  · rintro ⟨u, hlast, hu⟩
    obtain ⟨m, hm, hwalk⟩ := dist_le_iff.mp hu
    exact dist_le_iff.mpr ⟨m + 1, by omega, hwalk.tail hlast⟩

/-- A point that is reached, and is not the first one, has a step to it. -/
theorem exists_last (hne : v ≠ a) (h : dist r a v ≠ ⊤) : ∃ u, r u v := by
  rw [Ne, dist_eq_top_iff] at h
  obtain ⟨n, hn⟩ := not_forall_not.mp h
  cases hn with
  | refl => exact absurd rfl hne
  | tail _ hlast => exact ⟨_, hlast⟩

end HopDistance
