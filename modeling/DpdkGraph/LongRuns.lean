import Mathlib
import DpdkGraph.ReshardTrace

/-!
# Runs of vertices that are too long to count

Between two rows of an adjacency file the vertices without a row are passed
over in runs, and the length of a run is an `int`. Which runs a file gets
depends on more than its rows: when an out-edge goes to another file, the
file that is left is taken up to the source of that edge, so that a gap
between two rows may be passed over in several runs.

`Leaving` are the edges at which a file is left. A stretch of `2 ^ 31`
vertices without a row and without such an edge (`EmptyRun`) is passed over
in one run, and a row behind it is lost (`LongRun`): these are conditions
on the edges alone, in whatever order they are given.

`Place` is what a walk knows about the vertex that a file has been taken up
to. From it follows which moves of a cursor are too long (`Place.cut_iff`).
-/

namespace Reshard

variable {V : Type}

/-- **An out-edge at which the file of `k` is left**: the edge before it, in
the order of the sort, goes to `k`; or it is the first one of all, before
which the file of shard 0 is current. -/
def Leaving (c : Params) (L : List (EdgeWithValue V)) (k : ℕ)
    (e : EdgeWithValue V) : Prop :=
  c.intervals.Mem c.shard e.src ∧ ¬c.intervals.Mem k e.dst
    ∧ ((∃ a ∈ L, c.intervals.Mem k a.dst ∧ a.sortKey < e.sortKey
          ∧ ∀ b ∈ L, a.sortKey ≤ b.sortKey → b.sortKey < e.sortKey →
            c.intervals.Mem k b.dst)
      ∨ k = 0 ∧ ∀ b ∈ L, e.sortKey ≤ b.sortKey)

/-- **`2 ^ 31` vertices from `u` on that the file of `k` passes over in one
run**: none of them has a row in it, and the file is not left at any of
them but the first. -/
structure EmptyRun (c : Params) (L : List (EdgeWithValue V)) (k u : ℕ) : Prop where
  start : startOf c k ≤ u
  /-- No row for the file is in the run. -/
  noRow : ∀ e ∈ L, c.intervals.Mem k e.dst → e.src < u ∨ u + 2 ^ 31 ≤ e.src
  /-- The file is not left in it. -/
  notLeft : ∀ e ∈ L, Leaving c L k e → e.src ≤ u ∨ u + 2 ^ 31 ≤ e.src

/-- Such a run ends at `v` or before. -/
def Passed (c : Params) (L : List (EdgeWithValue V)) (k v : ℕ) : Prop :=
  ∃ u, EmptyRun c L k u ∧ u + 2 ^ 31 ≤ v

/-- **A row of the file of `k` comes after a run of `2 ^ 31` vertices or
more.** -/
def LongRun (c : Params) (L : List (EdgeWithValue V)) (k : ℕ) : Prop :=
  ∃ e ∈ L, c.intervals.Mem k e.dst ∧ Passed c L k e.src

section Conditions

variable {c : Params} {L L' : List (EdgeWithValue V)} {k v : ℕ}

theorem Passed.mono {v' : ℕ} (h : Passed c L k v) (hle : v ≤ v') : Passed c L k v' := by
  obtain ⟨u, hu, hv⟩ := h
  exact ⟨u, hu, hv.trans hle⟩

theorem not_passed_start : ¬Passed c L k (startOf c k) := by
  rintro ⟨u, hu, hv⟩
  have := hu.start
  omega

/-- No source from `2 ^ 31` on, no run that is too long. -/
theorem not_longRun_of_lt (h : ∀ e ∈ L, e.src < 2 ^ 31) : ¬LongRun c L k := by
  rintro ⟨e, he, -, u, -, hu⟩
  have := h e he
  omega

theorem Leaving.perm (hperm : L.Perm L') {e : EdgeWithValue V} :
    Leaving c L k e ↔ Leaving c L' k e := by
  unfold Leaving
  simp only [hperm.mem_iff]

theorem EmptyRun.perm (hperm : L.Perm L') {u : ℕ} (h : EmptyRun c L k u) :
    EmptyRun c L' k u where
  start := h.start
  noRow e he := h.noRow e (hperm.mem_iff.mpr he)
  notLeft e he hleave := h.notLeft e (hperm.mem_iff.mpr he) ((Leaving.perm hperm).mpr hleave)

/-- The order of the edges does not matter. -/
theorem LongRun.perm (hperm : L.Perm L') : LongRun c L k ↔ LongRun c L' k := by
  constructor
  · rintro ⟨e, he, hdst, u, hu, hv⟩
    exact ⟨e, hperm.mem_iff.mp he, hdst, u, hu.perm hperm, hv⟩
  · rintro ⟨e, he, hdst, u, hu, hv⟩
    exact ⟨e, hperm.mem_iff.mpr he, hdst, u, hu.perm hperm.symm, hv⟩

end Conditions

/-! ## Where a file has come to -/

/-- A vertex at which a run may end. -/
def RunEnd (c : Params) (L : List (EdgeWithValue V)) (k v : ℕ) : Prop :=
  v = startOf c k
    ∨ (∃ e ∈ L, c.intervals.Mem k e.dst ∧ (v = e.src ∨ v = e.src + 1))
    ∨ ∃ e ∈ L, Leaving c L k e ∧ v = e.src

/-- **The file of `k` has been taken up to `v`**, after the edges `done` of
`L`. -/
structure Place (c : Params) (L done : List (EdgeWithValue V)) (k v : ℕ) : Prop where
  start : startOf c k ≤ v
  /-- A run may end where it stands. -/
  ends : RunEnd c L k v
  /-- The rows written are before it. -/
  rows : ∀ e ∈ done, c.intervals.Mem k e.dst → e.src < v
  /-- The edges at which the file was left are not behind it. -/
  left : ∀ e ∈ done, Leaving c L k e → e.src ≤ v

section Place

variable {c : Params} {L done rest : List (EdgeWithValue V)} {e : EdgeWithValue V} {k v : ℕ}

/-- A run that reaches from before `v` to behind it would have `v` in it. -/
theorem RunEnd.le_of_emptyRun (h : RunEnd c L k v) {u : ℕ} (hu : EmptyRun c L k u)
    (hlt : v < u + 2 ^ 31) : v ≤ u := by
  rcases h with rfl | ⟨e, he, hdst, hv⟩ | ⟨e, he, hleave, rfl⟩
  · exact hu.start
  · have := hu.noRow e he hdst
    omega
  · exact (hu.notLeft e he hleave).resolve_right (by omega)

/-- **Taking the file on** to the source of the next edge passes over a run
that is too long exactly when that many vertices lie in between. -/
theorem Place.cut_iff (h : Place c L done k v) (hscan : Scan c (done ++ e :: rest))
    (hL : L = done ++ e :: rest) (hle : v ≤ e.src) :
    Passed c L k e.src ↔ Passed c L k v ∨ 2 ^ 31 ≤ e.src - v := by
  constructor
  · rintro ⟨u, hu, hend⟩
    by_cases hbefore : u + 2 ^ 31 ≤ v
    · exact Or.inl ⟨u, hu, hbefore⟩
    · have := h.ends.le_of_emptyRun hu (by omega)
      exact Or.inr (by omega)
  · rintro (hpassed | hlong)
    · exact hpassed.mono hle
    · have hlater : ∀ a ∈ L, a ∈ done ∨ e.src ≤ a.src := by
        intro a ha
        rw [hL] at ha
        rcases List.mem_append.mp ha with ha | ha
        · exact Or.inl ha
        · rcases List.mem_cons.mp ha with rfl | ha
          · exact Or.inr le_rfl
          · exact Or.inr (EdgeWithValue.src_le_of_sortKey_le (hscan.ge ha))
      refine ⟨v, ⟨h.start, fun a ha hdst => ?_, fun a ha hleave => ?_⟩, by omega⟩
      · exact (hlater a ha).imp (fun hdone => h.rows a hdone hdst) (by omega)
      · exact (hlater a ha).imp (fun hdone => h.left a hdone hleave) (by omega)

/-- A row does not end a run. -/
theorem passed_succ_iff (he : e ∈ L) (hdst : c.intervals.Mem k e.dst) :
    Passed c L k (e.src + 1) ↔ Passed c L k e.src := by
  refine ⟨?_, fun h => h.mono (Nat.le_succ _)⟩
  rintro ⟨u, hu, hend⟩
  have := hu.noRow e he hdst
  exact ⟨u, hu, by omega⟩

/-- Taken up to behind the row of the next edge. -/
theorem place_row (hscan : Scan c (done ++ e :: rest))
    (hL : L = done ++ e :: rest) (hdst : c.intervals.Mem k e.dst)
    (hle : startOf c k ≤ e.src) : Place c L (done ++ [e]) k (e.src + 1) where
  start := hle.trans (Nat.le_succ _)
  ends := Or.inr (Or.inl ⟨e, by rw [hL]; simp, hdst, Or.inr rfl⟩)
  rows a ha _ := by
    rcases List.mem_append.mp ha with ha | ha
    · exact Nat.lt_succ_of_le (EdgeWithValue.src_le_of_sortKey_le (hscan.le ha))
    · rw [List.mem_singleton.mp ha]
      exact Nat.lt_succ_self _
  left a ha _ := by
    rcases List.mem_append.mp ha with ha | ha
    · exact (EdgeWithValue.src_le_of_sortKey_le (hscan.le ha)).trans (Nat.le_succ _)
    · rw [List.mem_singleton.mp ha]
      exact Nat.le_succ _

/-- An edge at which the file is left, when it comes: it repeats one taken
before, it is the first edge, or the last edge taken goes to `k`. -/
theorem Leaving.cases (hscan : Scan c (done ++ e :: rest)) (hL : L = done ++ e :: rest)
    (h : Leaving c L k e) :
    (∃ a ∈ done, a.src = e.src ∧ Leaving c L k a) ∨ done = [] ∧ k = 0
      ∨ ∃ a, done.getLast? = some a ∧ c.intervals.Mem k a.dst := by
  obtain ⟨hsrc, hdst, hbefore⟩ := h
  rcases hlast : done.getLast? with _ | a
  · refine Or.inr (Or.inl ⟨List.getLast?_eq_none_iff.mp hlast, ?_⟩)
    obtain rfl := List.getLast?_eq_none_iff.mp hlast
    refine hbefore.elim ?_ And.left
    rintro ⟨a, ha, -, hlt, -⟩
    rw [hL, List.nil_append] at ha
    rcases List.mem_cons.mp ha with rfl | ha
    · exact absurd hlt (lt_irrefl _)
    · exact absurd hlt (not_lt.mpr (hscan.ge ha))
  · have ha := List.mem_of_getLast? hlast
    have haL : a ∈ L := by
      rw [hL]
      exact List.mem_append_left _ ha
    by_cases heq : a.sortKey = e.sortKey
    · -- the last edge taken has the same ends
      have hends : a.src = e.src ∧ a.dst = e.dst :=
        Prod.ext_iff.mp (toLex.injective heq)
      refine Or.inl ⟨a, ha, hends.1, by rwa [hends.1], by rwa [hends.2], ?_⟩
      rwa [heq]
    · have hlt : a.sortKey < e.sortKey := lt_of_le_of_ne (hscan.le ha) heq
      refine Or.inr (Or.inr ⟨a, rfl, ?_⟩)
      rcases hbefore with ⟨b, hb, hbdst, hbe, hbetween⟩ | ⟨-, hleast⟩
      · refine hbetween a haL ?_ hlt
        rw [hL] at hb
        rcases List.mem_append.mp hb with hb | hb
        · exact le_getLast hscan.sorted_done hlast hb
        · rcases List.mem_cons.mp hb with rfl | hb
          · exact absurd hbe (lt_irrefl _)
          · exact absurd hbe (not_lt.mpr (hscan.ge hb))
      · exact absurd hlt (not_lt.mpr (hleast a haL))

/-- An out-edge to another file, directly after an edge to `k`. -/
theorem leaving_of_last (hscan : Scan c (done ++ e :: rest)) (hL : L = done ++ e :: rest)
    (hsrc : c.intervals.Mem c.shard e.src) (hdst : ¬c.intervals.Mem k e.dst)
    {a : EdgeWithValue V} (hlast : done.getLast? = some a)
    (hadst : c.intervals.Mem k a.dst) : Leaving c L k e := by
  have ha := List.mem_of_getLast? hlast
  have hdstEq : ∀ b : EdgeWithValue V, a.sortKey = b.sortKey →
      c.intervals.Mem k b.dst := by
    intro b hb
    have hab : a.dst = b.dst := congrArg Prod.snd (toLex.injective hb)
    rwa [← hab]
  refine ⟨hsrc, hdst, Or.inl ⟨a, by rw [hL]; exact List.mem_append_left _ ha, hadst,
    lt_of_le_of_ne (hscan.le ha) fun h => hdst (hdstEq e h), fun b hb hab hbe => ?_⟩⟩
  rw [hL] at hb
  rcases List.mem_append.mp hb with hb | hb
  · exact hdstEq b (le_antisymm hab (le_getLast hscan.sorted_done hlast hb))
  · rcases List.mem_cons.mp hb with rfl | hb
    · exact absurd hbe (lt_irrefl _)
    · exact absurd hbe (not_lt.mpr (hscan.ge hb))

/-- The first edge of all, if it does not go to shard 0. -/
theorem leaving_of_first (hscan : Scan c (e :: rest)) (hL : L = e :: rest)
    (hsrc : c.intervals.Mem c.shard e.src) (hdst : ¬c.intervals.Mem 0 e.dst) :
    Leaving c L 0 e := by
  have hscan' : Scan c ([] ++ e :: rest) := hscan
  refine ⟨hsrc, hdst, Or.inr ⟨rfl, fun b hb => ?_⟩⟩
  rw [hL] at hb
  rcases List.mem_cons.mp hb with rfl | hb
  · exact le_rfl
  · exact hscan'.ge hb

/-- **A file that is not the one left** stays where it is: the edge that comes
is not for it, and the row that is written is another file's. -/
theorem Place.other (h : Place c L done k v) (hscan : Scan c (done ++ e :: rest))
    (hL : L = done ++ e :: rest) (hdst : ¬c.intervals.Mem k e.dst)
    (hfirst : done = [] → c.intervals.Mem c.shard e.src → k ≠ 0)
    (hlast : ∀ a, done.getLast? = some a → c.intervals.Mem c.shard e.src →
      ¬c.intervals.Mem k a.dst) : Place c L (done ++ [e]) k v where
  start := h.start
  ends := h.ends
  rows a ha hadst := by
    rcases List.mem_append.mp ha with ha | ha
    · exact h.rows a ha hadst
    · rw [List.mem_singleton.mp ha] at hadst
      exact absurd hadst hdst
  left a ha hleave := by
    rcases List.mem_append.mp ha with ha | ha
    · exact h.left a ha hleave
    · obtain rfl := List.mem_singleton.mp ha
      rcases hleave.cases hscan hL with ⟨b, hb, hsrc, hb'⟩ | ⟨hnil, hk⟩ | ⟨b, hb, hbdst⟩
      · rw [← hsrc]
        exact h.left b hb hb'
      · exact absurd hk (hfirst hnil hleave.1)
      · exact absurd hbdst (hlast b hb hleave.1)

/-- **The file that is left** is taken up to the source of the edge; or it
has its row already, and stays behind it. -/
theorem Place.leave (h : Place c L done k v) (hscan : Scan c (done ++ e :: rest))
    (hL : L = done ++ e :: rest) (hleave : Leaving c L k e) (hle : v ≤ e.src) :
    Place c L (done ++ [e]) k e.src where
  start := h.start.trans hle
  ends := Or.inr (Or.inr ⟨e, by rw [hL]; simp, hleave, rfl⟩)
  rows a ha hadst := by
    rcases List.mem_append.mp ha with ha | ha
    · exact lt_of_lt_of_le (h.rows a ha hadst) hle
    · rw [List.mem_singleton.mp ha] at hadst
      exact absurd hadst hleave.2.1
  left a ha _ := by
    rcases List.mem_append.mp ha with ha | ha
    · exact EdgeWithValue.src_le_of_sortKey_le (hscan.le ha)
    · rw [List.mem_singleton.mp ha]

theorem Place.stay (h : Place c L done k v) (hdst : ¬c.intervals.Mem k e.dst)
    (hle : e.src ≤ v) : Place c L (done ++ [e]) k v where
  start := h.start
  ends := h.ends
  rows a ha hadst := by
    rcases List.mem_append.mp ha with ha | ha
    · exact h.rows a ha hadst
    · rw [List.mem_singleton.mp ha] at hadst
      exact absurd hadst hdst
  left a ha hleave := by
    rcases List.mem_append.mp ha with ha | ha
    · exact h.left a ha hleave
    · rw [List.mem_singleton.mp ha]
      exact hle

end Place

end Reshard
