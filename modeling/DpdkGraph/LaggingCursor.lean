import Mathlib

/-!
# A cursor that goes on one block at a time

The items of a sequence are divided into blocks; `ends k` is the number of
items before block `k`. A reader counts the items it has passed and, after
each of them, goes on to the next block if the items before that block have
been passed – to one block only, so that behind an empty block it lags.

`time` is the number of items after which such a reader has come to a block.
It is the least that leaves an item for each block passed and does not come
before the block's own start (`time_le_iff`). A reader that is `At` a block
has come to it and not to the next.
-/

namespace LaggingCursor

variable {ends : ℕ → ℕ} {i b : ℕ}

/-- When a reader that is at block `b` after `i` items comes to the `m`-th
block from there. -/
def time (ends : ℕ → ℕ) (i b : ℕ) : ℕ → ℕ
  | 0 => i
  | m + 1 => max (time ends i b m + 1) (ends (b + m + 1))

/-- **The reader is at block `bid` after `p` items.** -/
def At (ends : ℕ → ℕ) (i b p bid : ℕ) : Prop :=
  ∃ m, bid = b + m ∧ time ends i b m ≤ p ∧ p < time ends i b (m + 1)

theorem lt_time_succ (ends : ℕ → ℕ) (i b m : ℕ) :
    time ends i b m < time ends i b (m + 1) :=
  lt_of_lt_of_le (Nat.lt_succ_self _) (le_max_left _ _)

theorem time_strictMono : StrictMono (time ends i b) :=
  strictMono_nat_of_lt_succ (lt_time_succ ends i b)

theorem ends_le_time (ends : ℕ → ℕ) (i b m : ℕ) :
    ends (b + m + 1) ≤ time ends i b (m + 1) :=
  le_max_right _ _

/-- At the start. -/
theorem At.start (ends : ℕ → ℕ) (i b : ℕ) : At ends i b i b :=
  ⟨0, rfl, le_rfl, lt_time_succ ends i b 0⟩

/-- **One item more.** -/
theorem At.next {p bid : ℕ} (h : At ends i b p bid) :
    At ends i b (p + 1) (if ends (bid + 1) ≤ p + 1 then bid + 1 else bid) := by
  obtain ⟨m, rfl, hle, hlt⟩ := h
  split
  · next hend =>
    have hnext : time ends i b (m + 1) ≤ p + 1 := max_le (by omega) hend
    have hlater := lt_time_succ ends i b (m + 1)
    exact ⟨m + 1, rfl, hnext, by omega⟩
  · next hend =>
    have hlater := ends_le_time ends i b m
    exact ⟨m, rfl, by omega, by omega⟩

/-- The reader has come to a block if and only if it was time. -/
theorem At.le_iff {p bid : ℕ} (h : At ends i b p bid) (m : ℕ) :
    b + m ≤ bid ↔ time ends i b m ≤ p := by
  obtain ⟨n, rfl, hle, hlt⟩ := h
  rw [Nat.add_le_add_iff_left]
  constructor
  · exact fun hm => (time_strictMono.monotone hm).trans hle
  · intro hm
    have hmono : StrictMono (time ends i b) := time_strictMono
    exact Nat.lt_succ_iff.mp (hmono.lt_iff_lt.mp (lt_of_le_of_lt hm hlt))

theorem At.base_le {p bid : ℕ} (h : At ends i b p bid) : b ≤ bid := by
  obtain ⟨m, rfl, -, -⟩ := h
  exact Nat.le_add_right b m

/-- **When it is time for a block**: an item for each block since the start,
and for each block since any later one. -/
theorem time_le_iff (m p : ℕ) :
    time ends i b m ≤ p ↔
      i + m ≤ p ∧ ∀ k, 1 ≤ k → k ≤ m → ends (b + k) + (m - k) ≤ p := by
  induction m generalizing p with
  | zero =>
    constructor
    · exact fun h => ⟨h, fun k h1 h0 => absurd h0 (by omega)⟩
    · exact fun h => h.1
  | succ m ih =>
    have hpred : time ends i b (m + 1) ≤ p ↔
        (1 ≤ p ∧ time ends i b m ≤ p - 1) ∧ ends (b + m + 1) ≤ p := by
      rw [time, max_le_iff]
      refine and_congr_left fun _ => ?_
      omega
    rw [hpred, ih]
    constructor
    · rintro ⟨⟨hp, hfirst, hall⟩, hlast⟩
      refine ⟨by omega, fun k h1 hk => ?_⟩
      rcases hk.eq_or_lt with rfl | hlt
      · rw [Nat.sub_self]
        exact hlast
      · have := hall k h1 (by omega)
        omega
    · rintro ⟨hfirst, hall⟩
      have hlast := hall (m + 1) (by omega) le_rfl
      rw [Nat.sub_self] at hlast
      refine ⟨⟨by omega, by omega, fun k h1 hk => ?_⟩, hlast⟩
      have := hall k h1 (by omega)
      omega

/-- **The reader is at the block of the next item** if and only if the time
for that block has come. -/
theorem At.eq_iff {p bid K : ℕ} (h : At ends i b p bid) (hb : b ≤ K)
    (hlt : p < ends (K + 1)) : bid = K ↔ time ends i b (K - b) ≤ p := by
  have hK : b + (K - b) = K := Nat.add_sub_cancel' hb
  have hle := h.le_iff (K - b)
  have hnot : ¬b + (K - b + 1) ≤ bid := by
    rw [h.le_iff]
    have := ends_le_time ends i b (K - b)
    rw [hK] at this
    omega
  rw [hK] at hle
  rw [← hle]
  omega

end LaggingCursor
