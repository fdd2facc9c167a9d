import Mathlib

/-!
# Choosing a bucket

The partitioner gives each bucket a score for a vertex: the number of
neighbours that the bucket has, times a factor that falls as the bucket
fills up. A loop goes over the buckets and keeps the best one so far. In the
later passes a bucket has to be better by more than a millionth; in the
first pass a bucket that is worse by little is taken, too, if it has few
vertices.

The scores are `double`s. Nothing here depends on how these are rounded:
`Doubles` is any arithmetic, and what is used of it is `Doubles.Lawful`.
-/

namespace Partitioner

/-- **What the scores use of `double`.** -/
structure Doubles (F : Type) where
  /-- The conversion from an integer type. -/
  ofInt : ℤ → F
  /-- The literal with these digits, the last `places` of them behind the
  point. -/
  lit (digits places : ℕ) : F
  /-- `+`. -/
  add : F → F → F
  /-- `-`. -/
  sub : F → F → F
  /-- `*`. -/
  mul : F → F → F
  /-- `/`. -/
  div : F → F → F
  /-- `<`. -/
  lt : F → F → Bool
  /-- The conversion to an integer type. -/
  toInt : F → ℤ

namespace Doubles

variable {F : Type}

/-- `a - b > 0.000001`. -/
def exceeds (d : Doubles F) (a b : F) : Bool := d.lt (d.lit 1 6) (d.sub a b)

/-- **What is relied on**, of any two numbers, infinite ones and those that
are none included. -/
structure Lawful (d : Doubles F) : Prop where
  /-- Nothing exceeds itself. -/
  self : ∀ a, d.exceeds a a = false
  /-- What does not exceed a number does not exceed a greater one. -/
  mono : ∀ a b c, d.exceeds c b = true → d.exceeds a b = false → d.exceeds a c = false
  /-- A multiple of zero is not positive. -/
  times_zero : ∀ c, d.lt (d.ofInt 0) (d.mul c (d.ofInt 0)) = false

end Doubles

/-! ## The loop over the buckets -/

section Choose

variable {F : Type} (score : ℕ → F) (better : F → F → ℕ → ℕ → Bool)

/-- `to_buck` is a `shard_t`. -/
def toShard (i : ℕ) : ℕ := i % 2 ^ 8

/-- One bucket is looked at: `close_ratio` and `to_buck`. -/
def chooseStep (c : F × ℕ) (i : ℕ) : F × ℕ :=
  if better (score i) c.1 i c.2 then (score i, toShard i) else c

/-- **The loop over the buckets.** -/
def choose (start : F) (nshards : ℕ) : F × ℕ :=
  (List.range nshards).foldl (chooseStep score better) (start, 0)

variable {score better} {start : F} {nshards : ℕ}

theorem choose_succ : choose score better start (nshards + 1)
    = chooseStep score better (choose score better start nshards) nshards := by
  unfold choose
  rw [List.range_succ, List.foldl_append]
  rfl

theorem toShard_le (i : ℕ) : toShard i ≤ i := Nat.mod_le _ _

theorem toShard_eq {i : ℕ} (h : i < 2 ^ 8) : toShard i = i := Nat.mod_eq_of_lt h

/-- The choice is the first bucket or one that has been looked at. -/
theorem choose_le : (choose score better start nshards).2 ≤ nshards - 1 := by
  induction nshards with
  | zero => exact le_rfl
  | succ n ih =>
    rw [choose_succ]
    unfold chooseStep
    split
    · exact toShard_le n
    · exact ih.trans (Nat.pred_le n)

/-- **The choice is a bucket.** -/
theorem choose_lt (hpos : 0 < nshards) : (choose score better start nshards).2 < nshards := by
  have := @choose_le _ score better start nshards
  omega

end Choose

/-! ## The best bucket -/

section Best

variable {F : Type} {d : Doubles F} {score : ℕ → F} {start t : F} {nshards : ℕ}

/-- A bucket is better if its score is, by more than a millionth. -/
def Doubles.better (d : Doubles F) (temp close : F) (_ _ : ℕ) : Bool := d.exceeds temp close

/-- **A bucket is best up to a millionth**: no score exceeds its own. Where
no score exceeds the one to start with, it is the first bucket. -/
def Best (d : Doubles F) (score : ℕ → F) (start : F) (nshards toBuck : ℕ) : Prop :=
  (toBuck = 0 ∧ ∀ i < nshards, d.exceeds (score i) start = false)
    ∨ (toBuck < nshards ∧ d.exceeds (score toBuck) start = true
      ∧ ∀ i < nshards, d.exceeds (score i) (score toBuck) = false)

/-- What the loop keeps when it has looked at `n` buckets. -/
inductive Kept (d : Doubles F) (score : ℕ → F) (start : F) (n : ℕ) : F × ℕ → Prop where
  /-- None exceeds the score to start with. -/
  | first (h : ∀ i < n, d.exceeds (score i) start = false) : Kept d score start n (start, 0)
  /-- None exceeds the score of the bucket chosen. -/
  | best {toBuck : ℕ} (hto : toBuck < n) (habove : d.exceeds (score toBuck) start = true)
      (h : ∀ i < n, d.exceeds (score i) (score toBuck) = false) :
      Kept d score start n (score toBuck, toBuck)

/-- One more bucket that does not exceed what the others have not. -/
theorem forall_lt_succ_exceeds {b : F} {n : ℕ} (h : ∀ i < n, d.exceeds (score i) b = false)
    (hn : d.exceeds (score n) b = false) :
    ∀ i < n + 1, d.exceeds (score i) b = false := by
  intro i hi
  rcases Nat.lt_succ_iff_lt_or_eq.mp hi with hi | rfl
  · exact h i hi
  · exact hn

/-- **One bucket more**: the best so far is kept, or gives way to a better
one. -/
theorem Kept.step (hd : d.Lawful) {n : ℕ} {c : F × ℕ} (hn : n < 2 ^ 8)
    (h : Kept d score start n c) :
    Kept d score start (n + 1) (chooseStep score d.better c n) := by
  unfold chooseStep Doubles.better
  rw [toShard_eq hn]
  cases h with
  | first hnone =>
    by_cases hnew : d.exceeds (score n) start = true
    · rw [if_pos hnew]
      refine .best (Nat.lt_succ_self n) hnew (forall_lt_succ_exceeds (fun i hi => ?_) (hd.self _))
      exact hd.mono _ _ _ hnew (hnone i hi)
    · rw [if_neg hnew]
      exact .first (forall_lt_succ_exceeds hnone (Bool.eq_false_iff.mpr hnew))
  | best hto habove hall =>
    rename_i toBuck
    by_cases hnew : d.exceeds (score n) (score toBuck) = true
    · rw [if_pos hnew]
      -- were it not above the start, it would not be above what is
      have hstart : d.exceeds (score n) start = true := by
        by_contra hnot
        have := hd.mono _ _ _ habove (Bool.eq_false_iff.mpr hnot)
        exact Bool.noConfusion (hnew.symm.trans this)
      refine .best (Nat.lt_succ_self n) hstart
        (forall_lt_succ_exceeds (fun i hi => ?_) (hd.self _))
      exact hd.mono _ _ _ hnew (hall i hi)
    · rw [if_neg hnew]
      exact .best (Nat.lt_succ_of_lt hto) habove
        (forall_lt_succ_exceeds hall (Bool.eq_false_iff.mpr hnew))

/-- **Of buckets alike the first is chosen**, since none of the later ones is
better than it. -/
theorem choose_eq_zero (hd : d.Lawful) {better : F → F → ℕ → ℕ → Bool}
    (hscore : ∀ i, score i = t) (hbetter : ∀ c i b, better t c i b = d.exceeds t c) :
    (choose score better start nshards).2 = 0 := by
  have hkept : choose score better start nshards = (t, 0)
      ∨ choose score better start nshards = (start, 0)
        ∧ (nshards = 0 ∨ d.exceeds t start = false) := by
    induction nshards with
    | zero => exact Or.inr ⟨rfl, Or.inl rfl⟩
    | succ n ih =>
      rw [choose_succ]
      unfold chooseStep
      rw [hscore, hbetter]
      rcases ih with ih | ⟨ih, hfirst⟩
      · rw [ih, if_neg (by rw [hd.self]; exact Bool.false_ne_true)]
        exact Or.inl rfl
      · rw [ih]
        by_cases hnew : d.exceeds t start = true
        · rw [if_pos hnew]
          have hzero : n = 0 := hfirst.resolve_right (by rw [hnew]; exact Bool.noConfusion)
          rw [hzero]
          exact Or.inl rfl
        · rw [if_neg hnew]
          exact Or.inr ⟨rfl, Or.inr (Bool.eq_false_iff.mpr hnew)⟩
  rcases hkept with h | ⟨h, -⟩
  · rw [h]
  · rw [h]

end Best

end Partitioner
