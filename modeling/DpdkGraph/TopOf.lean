import Mathlib

/-!
# The largest entries of a list

`TopOf key k l all` says that `l` lists `k` entries of `all` with the
largest keys, or all of them if there are fewer, in the order of their
keys, the largest first. Which entries are listed is left open where keys
are equal.

An entry that `k` others are no less than can be left out (`TopOf.append`),
and so the largest entries of two lists are among the largest of each
(`TopOf.of_tops`).
-/

section TopOf

variable {α κ : Type} [LinearOrder κ]

/-- **The `k` largest entries**, in order. Where keys are equal any of them will
do. -/
structure TopOf (key : α → κ) (k : ℕ) (l all : List α) : Prop where
  /-- The entries that are left are no larger. -/
  split : ∃ rest, (l ++ rest).Perm all ∧ ∀ a ∈ l, ∀ b ∈ rest, key b ≤ key a
  /-- There are `k`, or all. -/
  length : l.length = min k all.length
  /-- The largest come first. -/
  sorted : l.Pairwise fun a b => key b ≤ key a

variable {key : α → κ} {k : ℕ} {l all : List α}

/-- The first of a sorted list. -/
theorem topOf_take {s : List α} (hperm : s.Perm all)
    (hsorted : s.Pairwise fun a b => key b ≤ key a) :
    TopOf key k (s.take k) all := by
  refine ⟨⟨s.drop k, ?_, ?_⟩, ?_, hsorted.sublist (List.take_sublist k s)⟩
  · rw [List.take_append_drop]
    exact hperm
  · rw [← List.take_append_drop k s, List.pairwise_append] at hsorted
    exact hsorted.2.2
  · rw [List.length_take, hperm.length_eq]

namespace TopOf

theorem perm {all' : List α} (h : TopOf key k l all) (hperm : all.Perm all') :
    TopOf key k l all' := by
  obtain ⟨rest, hrest, hle⟩ := h.split
  exact ⟨⟨rest, hrest.trans hperm, hle⟩, by rw [h.length, hperm.length_eq], h.sorted⟩

/-- They are entries of the list. -/
theorem subset (h : TopOf key k l all) : l ⊆ all := by
  obtain ⟨rest, hrest, -⟩ := h.split
  exact fun a ha => hrest.subset (List.mem_append_left _ ha)

/-- **None is below a bound that `k` entries reach.** -/
theorem le (h : TopOf key k l all) {m : κ}
    (hm : k ≤ all.countP fun a => decide (m ≤ key a)) : ∀ a ∈ l, m ≤ key a := by
  obtain ⟨rest, hrest, hle⟩ := h.split
  intro a ha
  by_contra hlt
  have hlt : key a < m := lt_of_not_ge hlt
  have hnone : rest.countP (fun b => decide (m ≤ key b)) = 0 := by
    rw [List.countP_eq_zero]
    intro b hb
    rw [decide_eq_true_eq]
    exact not_le.mpr ((hle a ha b hb).trans_lt hlt)
  have hsome : l.countP (fun b => decide (m ≤ key b)) < l.length := by
    refine lt_of_le_of_ne (List.countP_le_length) fun heq => ?_
    exact absurd (of_decide_eq_true (List.countP_eq_length.mp heq a ha)) (not_le.mpr hlt)
  rw [← hrest.countP_eq, List.countP_append, hnone] at hm
  have := h.length
  omega

/-- **Entries that `k` others are no less than** can be left out. -/
theorem append (h : TopOf key k l all) {more : List α}
    (hmore : ∀ c ∈ more, k ≤ all.countP fun a => decide (key c ≤ key a)) :
    TopOf key k l (all ++ more) := by
  obtain ⟨rest, hrest, hle⟩ := h.split
  refine ⟨⟨rest ++ more, ?_, fun a ha b hb => ?_⟩, ?_, h.sorted⟩
  · rw [← List.append_assoc]
    exact hrest.append_right more
  · rcases List.mem_append.mp hb with hb | hb
    · exact hle a ha b hb
    · exact h.le (hmore b hb) a ha
  · cases more with
    | nil =>
      rw [List.append_nil]
      exact h.length
    | cons c more =>
      have hcount := (hmore c List.mem_cons_self).trans List.countP_le_length
      rw [h.length, List.length_append]
      omega

/-- Each entry that is left is no larger than `k` of those listed. -/
theorem le_countP {rest : List α} (h : TopOf key k l all) (hrest : (l ++ rest).Perm all)
    (hle : ∀ a ∈ l, ∀ b ∈ rest, key b ≤ key a) {c : α} (hc : c ∈ rest) :
    k ≤ l.countP fun a => decide (key c ≤ key a) := by
  have hall : l.countP (fun a => decide (key c ≤ key a)) = l.length :=
    List.countP_eq_length.mpr fun a ha => decide_eq_true (hle a ha c hc)
  have hlength := hrest.length_eq
  have hpos := List.length_pos_of_mem hc
  rw [List.length_append] at hlength
  have := h.length
  omega

/-- **The largest of the largest** are the largest. -/
theorem of_tops {l₁ l₂ all₁ all₂ : List α} (h : TopOf key k l (l₁ ++ l₂))
    (h₁ : TopOf key k l₁ all₁) (h₂ : TopOf key k l₂ all₂) :
    TopOf key k l (all₁ ++ all₂) := by
  obtain ⟨rest₁, hrest₁, hle₁⟩ := h₁.split
  obtain ⟨rest₂, hrest₂, hle₂⟩ := h₂.split
  have hleft : ∀ c ∈ rest₁ ++ rest₂,
      k ≤ (l₁ ++ l₂).countP fun a => decide (key c ≤ key a) := by
    intro c hc
    rw [List.countP_append]
    rcases List.mem_append.mp hc with hc | hc
    · exact (h₁.le_countP hrest₁ hle₁ hc).trans (Nat.le_add_right _ _)
    · exact (h₂.le_countP hrest₂ hle₂ hc).trans (Nat.le_add_left _ _)
  refine (h.append hleft).perm (List.Perm.trans ?_ (hrest₁.append hrest₂))
  rw [List.append_assoc, List.append_assoc]
  refine List.Perm.append_left l₁ ?_
  rw [← List.append_assoc, ← List.append_assoc]
  exact List.perm_append_comm.append_right rest₂

/-- More than all is all. -/
theorem of_min (h : TopOf key (min k all.length) l all) : TopOf key k l all :=
  ⟨h.split, by rw [h.length, min_assoc, min_self], h.sorted⟩

end TopOf

end TopOf
