import Mathlib

/-!
# Values that are passed along edges, and damped

The vertices of a finite graph have numbers. In a step each of them divides
its number among its out-edges, and takes a constant and `q` times the sum
over its in-edges as its new number. For `0 ≤ q < 1` the steps come closer
and closer to the only numbers that a step leaves as they are, by the factor
`q` in each step, in the sum of the distances over all vertices.

What makes it work is that a vertex passes on no more than it has: the sum
over the destinations is one over the edges, and so one over the sources.
-/

namespace DampedSums

open Finset

variable {α ε : Type*} [DecidableEq α]

/-- The edges of a list that a vertex is the end of. -/
def fiber (key : ε → α) (l : List ε) (v : α) : List ε :=
  l.filter fun e => decide (key e = v)

/-- **A sum over a list, end by end.** -/
theorem sum_fibers {M : Type*} [AddCommMonoid M] {key : ε → α} {l : List ε}
    {s : Finset α} (h : ∀ e ∈ l, key e ∈ s) (f : ε → M) :
    ∑ v ∈ s, ((fiber key l v).map f).sum = (l.map f).sum := by
  induction l with
  | nil =>
    exact Finset.sum_eq_zero fun v _ => rfl
  | cons e l ih =>
    have hone : ∀ v ∈ s, ((fiber key (e :: l) v).map f).sum =
        (if key e = v then f e else 0) + ((fiber key l v).map f).sum := by
      intro v _
      unfold fiber
      rw [List.filter_cons]
      by_cases hv : key e = v
      · rw [if_pos (decide_eq_true hv), if_pos hv, List.map_cons, List.sum_cons]
      · rw [if_neg (by rw [decide_eq_true_eq]; exact hv), if_neg hv, zero_add]
    rw [Finset.sum_congr rfl hone, Finset.sum_add_distrib,
      ih fun e' he' => h e' (List.mem_cons_of_mem _ he'), Finset.sum_ite_eq,
      if_pos (h e List.mem_cons_self), List.map_cons, List.sum_cons]

variable (src dst : ε → α) (l : List ε) (q a : ℝ)

/-- What an edge takes from its source. -/
noncomputable def part (y : α → ℝ) (e : ε) : ℝ :=
  y (src e) / (fiber src l (src e)).length

/-- **A step.** -/
noncomputable def step (y : α → ℝ) (v : α) : ℝ :=
  a + q * ((fiber dst l v).map (part src l y)).sum

variable {src dst l q a} {s : Finset α} {y z r : α → ℝ}

/-- A sum of differences. -/
theorem sum_map_sub (l' : List ε) (f g : ε → ℝ) :
    (l'.map f).sum - (l'.map g).sum = (l'.map fun e => f e - g e).sum := by
  have h := Multiset.sum_map_sub (m := (l' : Multiset ε)) (f := f) (g := g)
  simpa using h.symm

theorem abs_sum_map_le (l' : List ε) (f : ε → ℝ) :
    |(l'.map f).sum| ≤ (l'.map fun e => |f e|).sum := by
  have h := Multiset.abs_sum_le_sum_abs (s := ((l'.map f : List ℝ) : Multiset ℝ))
  simpa [Function.comp_def] using h

/-- **A vertex passes on no more than it has.** -/
theorem sum_part_fiber_le (d : α → ℝ) (hd : ∀ u, 0 ≤ d u) (u : α) :
    ((fiber src l u).map (part src l d)).sum ≤ d u := by
  have hconst : (fiber src l u).map (part src l d) =
      (fiber src l u).map fun _ => d u / (fiber src l u).length :=
    List.map_congr_left fun e he => by
      have hsrc : src e = u := of_decide_eq_true (List.mem_filter.mp he).2
      rw [part, hsrc]
  rw [hconst, List.map_const', List.sum_replicate, nsmul_eq_mul]
  by_cases hzero : ((fiber src l u).length : ℝ) = 0
  · rw [hzero, zero_mul]
    exact hd u
  · rw [mul_div_cancel₀ _ hzero]

/-- **A step brings two families of numbers closer together**: what a vertex
passes on is shared among its out-edges, so that no difference counts more than
once, and all are multiplied by `q`. -/
theorem sum_abs_step_sub_le (hsrc : ∀ e ∈ l, src e ∈ s)
    (hdst : ∀ e ∈ l, dst e ∈ s) (hq : 0 ≤ q) :
    ∑ v ∈ s, |step src dst l q a y v - step src dst l q a z v| ≤
      q * ∑ v ∈ s, |y v - z v| := by
  have hone : ∀ v ∈ s, |step src dst l q a y v - step src dst l q a z v| ≤
      q * ((fiber dst l v).map (part src l fun u => |y u - z u|)).sum := by
    intro v _
    have hdiff : step src dst l q a y v - step src dst l q a z v =
        q * ((fiber dst l v).map (part src l fun u => y u - z u)).sum := by
      have hpart : (fun e => part src l y e - part src l z e) =
          part src l fun u => y u - z u := by
        funext e
        exact (sub_div _ _ _).symm
      rw [← hpart, ← sum_map_sub]
      unfold step
      ring
    rw [hdiff, abs_mul, abs_of_nonneg hq]
    refine mul_le_mul_of_nonneg_left ((abs_sum_map_le _ _).trans (le_of_eq ?_)) hq
    refine congrArg List.sum (List.map_congr_left fun e _ => ?_)
    show |(y (src e) - z (src e)) / _| = |y (src e) - z (src e)| / _
    rw [abs_div, Nat.abs_cast]
  calc ∑ v ∈ s, |step src dst l q a y v - step src dst l q a z v|
      ≤ ∑ v ∈ s, q * ((fiber dst l v).map
          (part src l fun u => |y u - z u|)).sum := Finset.sum_le_sum hone
    _ = q * (l.map (part src l fun u => |y u - z u|)).sum := by
      rw [← Finset.mul_sum, sum_fibers hdst]
    _ = q * ∑ u ∈ s, ((fiber src l u).map
          (part src l fun u => |y u - z u|)).sum := by rw [sum_fibers hsrc]
    _ ≤ q * ∑ v ∈ s, |y v - z v| :=
      mul_le_mul_of_nonneg_left (Finset.sum_le_sum fun u _ =>
        sum_part_fiber_le (fun u => |y u - z u|) (fun _ => abs_nonneg _) u) hq

/-- The numbers after `i` steps. -/
noncomputable def iterate (src dst : ε → α) (l : List ε) (q a : ℝ) (y : α → ℝ) :
    ℕ → α → ℝ
  | 0 => y
  | i + 1 => step src dst l q a (iterate src dst l q a y i)

/-- What a step leaves as it is. -/
def Fixed (src dst : ε → α) (l : List ε) (q a : ℝ) (s : Finset α) (r : α → ℝ) :
    Prop :=
  ∀ v ∈ s, r v = step src dst l q a r v

/-- **The distance from the fixed numbers gets less by the factor `q` in each
step.** -/
theorem sum_abs_iterate_sub_le (hsrc : ∀ e ∈ l, src e ∈ s)
    (hdst : ∀ e ∈ l, dst e ∈ s) (hq : 0 ≤ q) (hr : Fixed src dst l q a s r)
    (i : ℕ) :
    ∑ v ∈ s, |iterate src dst l q a y i v - r v| ≤
      q ^ i * ∑ v ∈ s, |y v - r v| := by
  induction i with
  | zero =>
    rw [pow_zero, one_mul]
    rfl
  | succ i ih =>
    have hstep : ∑ v ∈ s, |iterate src dst l q a y (i + 1) v - r v| =
        ∑ v ∈ s, |step src dst l q a (iterate src dst l q a y i) v -
          step src dst l q a r v| :=
      Finset.sum_congr rfl fun v hv => by
        rw [← hr v hv]
        rfl
    rw [hstep, pow_succ', mul_assoc]
    exact (sum_abs_step_sub_le hsrc hdst hq).trans
      (mul_le_mul_of_nonneg_left ih hq)

/-- There are no other fixed numbers. -/
theorem Fixed.unique (hsrc : ∀ e ∈ l, src e ∈ s) (hdst : ∀ e ∈ l, dst e ∈ s)
    (hq : 0 ≤ q) (hq1 : q < 1) (hr : Fixed src dst l q a s r)
    (hz : Fixed src dst l q a s z) : ∀ v ∈ s, r v = z v := by
  have hle : ∑ v ∈ s, |r v - z v| ≤ q * ∑ v ∈ s, |r v - z v| := by
    have hsame : ∑ v ∈ s, |r v - z v| =
        ∑ v ∈ s, |step src dst l q a r v - step src dst l q a z v| :=
      Finset.sum_congr rfl fun v hv => by rw [← hr v hv, ← hz v hv]
    exact hsame.le.trans (sum_abs_step_sub_le hsrc hdst hq)
  have hnonneg : 0 ≤ ∑ v ∈ s, |r v - z v| :=
    Finset.sum_nonneg fun v _ => abs_nonneg _
  have hzero : ∑ v ∈ s, |r v - z v| = 0 := by
    nlinarith
  intro v hv
  have habs := (Finset.sum_eq_zero_iff_of_nonneg fun v _ => abs_nonneg _).mp
    hzero v hv
  exact sub_eq_zero.mp (abs_eq_zero.mp habs)

/-- **The fixed numbers are bounded**, since they are a constant and `q` times
what the others pass on. -/
theorem Fixed.sum_abs_le (hsrc : ∀ e ∈ l, src e ∈ s) (hdst : ∀ e ∈ l, dst e ∈ s)
    (hq : 0 ≤ q) (hr : Fixed src dst l q a s r) :
    (1 - q) * ∑ v ∈ s, |r v| ≤ s.card * |a| := by
  have hzero : ∀ v, step src dst l q a (fun _ => 0) v = a := by
    intro v
    have hpart : part src l (fun _ => (0 : ℝ)) = fun _ => 0 := by
      funext e
      exact zero_div _
    unfold step
    rw [hpart, List.map_const', List.sum_replicate, smul_zero, mul_zero, add_zero]
  have hle : ∑ v ∈ s, |r v| ≤ q * ∑ v ∈ s, |r v| + s.card * |a| :=
    calc ∑ v ∈ s, |r v|
        ≤ ∑ v ∈ s, (|step src dst l q a r v -
            step src dst l q a (fun _ => 0) v| + |a|) := by
          refine Finset.sum_le_sum fun v hv => ?_
          rw [← hr v hv, hzero v]
          calc |r v| = |(r v - a) + a| := by rw [sub_add_cancel]
            _ ≤ |r v - a| + |a| := abs_add_le _ _
      _ = ∑ v ∈ s, |step src dst l q a r v -
            step src dst l q a (fun _ => 0) v| + s.card * |a| := by
          rw [Finset.sum_add_distrib, Finset.sum_const, nsmul_eq_mul]
      _ ≤ q * ∑ v ∈ s, |r v| + s.card * |a| := by
          have hstep := sum_abs_step_sub_le (a := a) (y := r) (z := fun _ => 0)
            hsrc hdst hq
          simp only [sub_zero] at hstep
          gcongr
  linarith

/-- Two steps in a row differ by less and less. -/
theorem sum_abs_iterate_succ_le (hsrc : ∀ e ∈ l, src e ∈ s)
    (hdst : ∀ e ∈ l, dst e ∈ s) (hq : 0 ≤ q) (i : ℕ) :
    ∑ v ∈ s, |iterate src dst l q a y i v - iterate src dst l q a y (i + 1) v| ≤
      (∑ v ∈ s, |y v - step src dst l q a y v|) * q ^ i := by
  induction i with
  | zero =>
    rw [pow_zero, mul_one]
    rfl
  | succ i ih =>
    refine (sum_abs_step_sub_le hsrc hdst hq).trans ?_
    rw [pow_succ']
    calc q * ∑ v ∈ s, |iterate src dst l q a y i v -
          iterate src dst l q a y (i + 1) v|
        ≤ q * ((∑ v ∈ s, |y v - step src dst l q a y v|) * q ^ i) :=
          mul_le_mul_of_nonneg_left ih hq
      _ = (∑ v ∈ s, |y v - step src dst l q a y v|) * (q * q ^ i) := by ring

/-- **There are fixed numbers.** The iterates have a limit, because the
differences of one iterate and the next are at most those of a geometric
series. -/
theorem exists_fixed (hsrc : ∀ e ∈ l, src e ∈ s) (hdst : ∀ e ∈ l, dst e ∈ s)
    (hq : 0 ≤ q) (hq1 : q < 1) : ∃ r, Fixed src dst l q a s r := by
  let y : α → ℝ := fun _ => 0
  have hlim : ∀ v ∈ s, ∃ x : ℝ, Filter.Tendsto
      (fun i => iterate src dst l q a y i v) Filter.atTop (nhds x) := by
    intro v hv
    refine cauchySeq_tendsto_of_complete
      (cauchySeq_of_le_geometric q (∑ u ∈ s, |y u - step src dst l q a y u|)
        hq1 fun i => ?_)
    rw [Real.dist_eq]
    refine le_trans ?_ (sum_abs_iterate_succ_le hsrc hdst hq i)
    exact Finset.single_le_sum (f := fun v => |iterate src dst l q a y i v -
      iterate src dst l q a y (i + 1) v|) (fun u _ => abs_nonneg _) hv
  choose! r hr using hlim
  refine ⟨r, fun v hv => ?_⟩
  -- a step is a limit of the steps
  have hnext : Filter.Tendsto (fun i => iterate src dst l q a y (i + 1) v)
      Filter.atTop (nhds (step src dst l q a r v)) := by
    refine tendsto_const_nhds.add (tendsto_const_nhds.mul ?_)
    refine tendsto_list_sum _ fun e he => ?_
    exact (hr (src e) (hsrc e (List.mem_filter.mp he).1)).div_const _
  exact tendsto_nhds_unique ((Filter.tendsto_add_atTop_iff_nat 1).mpr (hr v hv))
    hnext

end DampedSums
