import Mathlib

/-!
# The blocks of a list sorted by a class

A list that is sorted by a class of its items consists of a block for each
class. An item's place is the sum of the lengths of the blocks before its
own, and its place in its own block. A reader that goes through the list
and keeps the number of the block under its cursor needs to know nothing
else.
-/

namespace SortedBlocks

variable {α : Type*} {f : α → ℕ}

/-- The length of block `q`. -/
def size (f : α → ℕ) (l : List α) (q : ℕ) : ℕ :=
  l.countP fun a => decide (f a = q)

/-- Where block `q` starts. -/
def start (f : α → ℕ) (l : List α) (q : ℕ) : ℕ :=
  (Finset.range q).sum (size f l)

@[simp] theorem start_zero (l : List α) : start f l 0 = 0 := rfl

theorem start_succ (l : List α) (q : ℕ) :
    start f l (q + 1) = start f l q + size f l q :=
  Finset.sum_range_succ _ _

theorem start_mono (l : List α) {q r : ℕ} (h : q ≤ r) :
    start f l q ≤ start f l r :=
  Finset.sum_le_sum_of_subset (Finset.range_mono h)

/-- The items of the classes below `q`. -/
theorem start_eq (l : List α) (q : ℕ) :
    start f l q = l.countP fun a => decide (f a < q) := by
  induction q with
  | zero => simp
  | succ q ih =>
    rw [start_succ, ih]
    unfold size
    clear ih
    induction l with
    | nil => rfl
    | cons a l ih =>
      simp only [List.countP_cons, decide_eq_true_eq]
      rw [← ih]
      split <;> split <;> split <;> omega

/-- **The place of an item** in a sorted list: behind the items of smaller
blocks, and behind those of its own block that come before it. -/
theorem length_eq {done es : List α} {e : α}
    (hsorted : (done ++ e :: es).Pairwise fun a b => f a ≤ f b) :
    done.length = start f (done ++ e :: es) (f e) + size f done (f e) := by
  obtain ⟨-, hes, hle⟩ := List.pairwise_append.mp hsorted
  have hlater : (e :: es).countP (fun a => decide (f a < f e)) = 0 := by
    refine List.countP_eq_zero.mpr fun a ha => ?_
    rcases List.mem_cons.mp ha with rfl | ha
    · simp
    · simpa using (List.pairwise_cons.mp hes).1 a ha
  have hdone : ∀ a ∈ done, f a ≤ f e := fun a ha =>
    hle a ha e List.mem_cons_self
  rw [start_eq, List.countP_append, hlater, Nat.add_zero]
  clear hsorted hle hlater hes
  unfold size
  induction done with
  | nil => rfl
  | cons a done ih =>
    have ha := hdone a List.mem_cons_self
    have ih := ih fun b hb => hdone b (List.mem_cons_of_mem _ hb)
    simp only [List.countP_cons, decide_eq_true_eq, List.length_cons]
    split <;> split <;> omega

/-- An item lies in its block. -/
theorem size_lt (f : α → ℕ) (done es : List α) (e : α) :
    size f done (f e) < size f (done ++ e :: es) (f e) := by
  unfold size
  rw [List.countP_append, List.countP_cons]
  simp only [decide_true, if_true]
  omega

/-- Empty blocks take no place. -/
theorem start_eq_of_size {l : List α} {q r : ℕ} (hqr : q ≤ r)
    (h : ∀ i, q ≤ i → size f l i = 0) : start f l r = start f l q := by
  induction r, hqr using Nat.le_induction with
  | base => rfl
  | succ r hqr ih => rw [start_succ, ih, h r hqr, Nat.add_zero]

/-- The block that a place belongs to. -/
theorem unique {l : List α} {q r i : ℕ}
    (hq : start f l q ≤ i) (hq' : i < start f l (q + 1))
    (hr : start f l r ≤ i) (hr' : i < start f l (r + 1)) : q = r := by
  have h₁ : ¬q < r := fun h => by
    have := start_mono (f := f) l (show _ + 1 ≤ _ from h)
    omega
  have h₂ : ¬r < q := fun h => by
    have := start_mono (f := f) l (show _ + 1 ≤ _ from h)
    omega
  omega

/-- **A list consists of its blocks**, whatever its order and that of the
classes. -/
theorem perm_flatMap {classes : List ℕ} (hnodup : classes.Nodup) :
    ∀ {l : List α}, (∀ a ∈ l, f a ∈ classes) →
      (classes.flatMap fun q => l.filter fun a => decide (f a = q)).Perm l := by
  induction classes with
  | nil =>
    intro l hl
    rw [List.eq_nil_iff_forall_not_mem.mpr fun a ha => List.not_mem_nil (hl a ha)]
    exact List.Perm.nil
  | cons q classes ih =>
    intro l hl
    obtain ⟨hq, hnodup⟩ := List.nodup_cons.mp hnodup
    have hrest : (classes.flatMap fun r => l.filter fun a => decide (f a = r)) =
        classes.flatMap fun r =>
          (l.filter fun a => !decide (f a = q)).filter
            fun a => decide (f a = r) := by
      refine List.flatMap_congr fun r hr => ?_
      rw [List.filter_filter]
      refine List.filter_congr fun a _ => ?_
      by_cases har : f a = r
      · have : f a ≠ q := fun haq => hq (haq ▸ har ▸ hr)
        simp [har, show r ≠ q from har ▸ this]
      · simp [har]
    rw [List.flatMap_cons, hrest]
    refine List.Perm.trans (List.Perm.append_left _ (ih hnodup ?_))
      (List.filter_append_perm _ l)
    intro a ha
    obtain ⟨ha, hne⟩ := List.mem_filter.mp ha
    rcases List.mem_cons.mp (hl a ha) with h | h
    · simp [h] at hne
    · exact h

/-- What lies below two classes lies below one and in the next. -/
theorem filter_lt_succ {l : List α} (hsorted : l.Pairwise fun a b => f a ≤ f b) (m : ℕ) :
    (l.filter fun a => decide (f a < m)) ++ (l.filter fun a => decide (f a = m)) =
      l.filter fun a => decide (f a < m + 1) := by
  induction l with
  | nil => rfl
  | cons a l ih =>
    obtain ⟨ha, hl⟩ := List.pairwise_cons.mp hsorted
    by_cases hlt : f a < m
    · rw [List.filter_cons_of_pos (by simpa using hlt),
        List.filter_cons_of_neg (by simpa using hlt.ne),
        List.filter_cons_of_pos (by simpa using Nat.lt_succ_of_lt hlt),
        List.cons_append, ih hl]
    · have hnil : (l.filter fun b => decide (f b < m)) = [] :=
        List.filter_eq_nil_iff.mpr fun b hb => by
          simpa using (not_lt.mp hlt).trans (ha b hb)
      have hlast := ih hl
      rw [hnil, List.nil_append] at hlast
      rw [List.filter_cons_of_neg (by simpa using hlt), hnil, List.nil_append,
        List.filter_cons, List.filter_cons, hlast,
        decide_eq_decide.mpr (show f a = m ↔ f a < m + 1 by omega)]

/-- **A sorted list is its blocks**, one after the other. -/
theorem flatMap_eq {l : List α} (hsorted : l.Pairwise fun a b => f a ≤ f b) (n : ℕ)
    (hlt : ∀ a ∈ l, f a < n) :
    ((List.range n).flatMap fun q => l.filter fun a => decide (f a = q)) = l := by
  have hbelow : ∀ m, ((List.range m).flatMap fun q =>
      l.filter fun a => decide (f a = q)) = l.filter fun a => decide (f a < m) := by
    intro m
    induction m with
    | zero => simp
    | succ m ih =>
      rw [List.range_succ, List.flatMap_append, ih, List.flatMap_singleton,
        filter_lt_succ hsorted]
  rw [hbelow n, List.filter_eq_self]
  exact fun a ha => decide_eq_true (hlt a ha)

end SortedBlocks
