import Mathlib
import DpdkGraph.MinHeap
import DpdkGraph.SortedBlocks

/-!
# A merge of `K` sources through a heap

A merge keeps the next value of every source that has one in a heap. It
takes the smallest, refills the heap from the source that value came from,
and hands the value on, until the heap is empty.

A source is a state machine with the two operations `has_more` and `next`.
It is asked for its first value without being asked whether it has one, so
what it *delivers* (`Delivers`) is a list of at least one value. A merge of
sources that deliver the lists `lists i` ends, and what it hands on has the
lists as its projections to the sources (`merge_spec`). It is then sorted
exactly when all of them are (`sorted_iff`).
-/

namespace KWayMerge

variable {σ α κ : Type} [LinearOrder κ]

/-- `merge_source`: a state machine that gives values. -/
structure MergeSource (σ α : Type) where
  /-- `has_more()`. -/
  hasMore : σ → Bool
  /-- `next()`: a value and the state after it. -/
  next : σ → α × σ

/-- From the state `s` on, the source gives the values `xs` to a reader that
asks whether there is more before each. -/
inductive Rest (S : MergeSource σ α) : σ → List α → Prop
  | nil {s : σ} : S.hasMore s = false → Rest S s []
  | cons {s : σ} {xs : List α} : S.hasMore s = true → Rest S (S.next s).2 xs →
      Rest S s ((S.next s).1 :: xs)

/-- The source gives the values `xs` to a reader that takes the first one
without asking. -/
def Delivers (S : MergeSource σ α) (s : σ) (xs : List α) : Prop :=
  ∃ ys, Rest S (S.next s).2 ys ∧ xs = (S.next s).1 :: ys

/-- `value_source`: a value and the index of its source. -/
structure ValueSource (α : Type) where
  /-- The source. -/
  sourceidx : ℕ
  /-- Its value. -/
  value : α

/-- **The state of a merge** of `K` sources: one value of each source that is
not at its end is in the heap. -/
structure State (σ : Type) {α κ : Type} [LinearOrder κ] (key : α → κ) (K : ℕ) where
  /-- The sources. -/
  sources : ℕ → σ
  /-- `active_sources`. -/
  active : ℕ
  /-- The next value of every active source. -/
  tip : BinaryMinheap (fun v : ValueSource α => key v.value) K
  /-- What the sink got, with its sources. -/
  sunk : List (ValueSource α)

variable {key : α → κ} {K : ℕ}

/-- Asks the sources `is` for their first values. -/
def fill (S : MergeSource σ α) : List ℕ → State σ key K → Option (State σ key K)
  | [], st => some st
  | i :: is, st =>
    (st.tip.insert ⟨i, (S.next (st.sources i)).1⟩).bind fun tip =>
      fill S is { st with
        sources := Function.update st.sources i (S.next (st.sources i)).2
        tip := tip }

/-- One round of `merge`: the smallest value leaves the heap, its source
refills it or ends, and the sink gets the value. -/
def mergeStep (S : MergeSource σ α) (st : State σ key K) :
    Option (State σ key K) :=
  st.tip.extractMin.bind fun tip =>
    let vv := st.tip.min
    let s := st.sources vv.sourceidx
    if S.hasMore s then
      (tip.insert ⟨vv.sourceidx, (S.next s).1⟩).map fun tip =>
        ⟨Function.update st.sources vv.sourceidx (S.next s).2, st.active, tip,
          st.sunk ++ [vv]⟩
    else some ⟨st.sources, st.active - 1, tip, st.sunk ++ [vv]⟩

/-- The loop of `merge`, for at most `fuel` rounds. -/
def mergeFrom (S : MergeSource σ α) : ℕ → State σ key K → Option (State σ key K)
  | 0, _ => none
  | fuel + 1, st =>
    if 0 < st.active ∨ st.tip.sz ≠ 0 then
      (mergeStep S st).bind (mergeFrom S fuel)
    else some st

/-- **`merge`**: what the sink gets, in order. The cells of the heap are
fresh memory, of any content. -/
def merge (S : MergeSource σ α) (key : α → κ) (K : ℕ) (cells : ℕ → ValueSource α)
    (sources : ℕ → σ) (fuel : ℕ) : Option (List (ValueSource α)) :=
  ((fill S (List.range K) (⟨sources, K, .empty cells, []⟩ : State σ key K)).bind
    (mergeFrom S fuel)).map State.sunk

/-- More rounds than are needed change nothing. -/
theorem mergeFrom_mono {S : MergeSource σ α} {fuel fuel' : ℕ} (hle : fuel ≤ fuel')
    {st st' : State σ key K} (h : mergeFrom S fuel st = some st') :
    mergeFrom S fuel' st = some st' := by
  induction fuel generalizing fuel' st with
  | zero => cases h
  | succ fuel ih =>
    obtain ⟨n, rfl⟩ : ∃ n, fuel' = n + 1 := ⟨fuel' - 1, by omega⟩
    rw [mergeFrom] at h ⊢
    split at h
    · next hgo =>
      rw [if_pos hgo]
      obtain ⟨st₁, hstep, hrest⟩ := Option.bind_eq_some_iff.mp h
      rw [hstep, Option.bind_some]
      exact ih (Nat.le_of_succ_le_succ hle) hrest
    · next hend =>
      rw [if_neg hend]
      exact h

theorem merge_mono {S : MergeSource σ α} {key' : α → κ} {cells : ℕ → ValueSource α}
    {sources : ℕ → σ} {fuel fuel' : ℕ} (hle : fuel ≤ fuel') {sunk : List (ValueSource α)}
    (h : merge S key' K cells sources fuel = some sunk) :
    merge S key' K cells sources fuel' = some sunk := by
  obtain ⟨st, hst, rfl⟩ := Option.map_eq_some_iff.mp h
  obtain ⟨st₀, hfill, hrun⟩ := Option.bind_eq_some_iff.mp hst
  unfold merge
  rw [hfill, Option.bind_some, mergeFrom_mono hle hrun]
  rfl

/-! ## The heap holds the heads of what is pending -/

/-- The head of the list that the source `i` still has to hand on. -/
def headOf (i : ℕ) : List α → Multiset (ValueSource α)
  | [] => 0
  | x :: _ => {⟨i, x⟩}

/-- The heads of what the first `K` sources still have to hand on. -/
def heads (K : ℕ) (pend : ℕ → List α) : Multiset (ValueSource α) :=
  (Finset.range K).sum fun i => headOf i (pend i)

/-- Only one of the heads belongs to the source `i`. -/
theorem heads_update {i : ℕ} (hi : i < K) (pend : ℕ → List α) (l : List α) :
    heads K (Function.update pend i l)
      = headOf i l + heads K (Function.update pend i []) := by
  have hsum : ∀ l : List α, heads K (Function.update pend i l)
      = headOf i l + (Finset.range K \ {i}).sum fun j => headOf j (pend j) := by
    intro l
    have hfun : (fun j => headOf j (Function.update pend i l j))
        = Function.update (fun j => headOf j (pend j)) i (headOf i l) := by
      funext j
      exact Function.apply_update (fun j => headOf j) pend i l j
    show (Finset.range K).sum (fun j => headOf j (Function.update pend i l j)) = _
    rw [hfun]
    exact Finset.sum_update_of_mem (Finset.mem_range.mpr hi) _ _
  rw [hsum l, hsum []]
  show _ = _ + (0 + _)
  rw [zero_add]

theorem heads_congr {pend pend' : ℕ → List α} (h : ∀ i, i < K → pend i = pend' i) :
    heads K pend = heads K pend' :=
  Finset.sum_congr rfl fun i hi => by rw [h i (Finset.mem_range.mp hi)]

/-- A source with something to hand on has its head among them. -/
theorem heads_cons {i : ℕ} (hi : i < K) {pend : ℕ → List α} {x : α} {xs : List α}
    (h : pend i = x :: xs) :
    heads K pend = ⟨i, x⟩ ::ₘ heads K (Function.update pend i []) := by
  have hup := heads_update hi pend (x :: xs)
  rw [← h, Function.update_eq_self, h] at hup
  exact hup

theorem mem_heads {pend : ℕ → List α} {v : ValueSource α} (hv : v ∈ heads K pend) :
    v.sourceidx < K ∧ ∃ xs, pend v.sourceidx = v.value :: xs := by
  obtain ⟨i, hi, hmem⟩ := Multiset.mem_sum.mp hv
  cases hp : pend i with
  | nil =>
    rw [hp] at hmem
    exact absurd hmem (Multiset.notMem_zero v)
  | cons x xs =>
    rw [hp] at hmem
    rw [Multiset.mem_singleton.mp hmem]
    exact ⟨Finset.mem_range.mp hi, xs, hp⟩

theorem card_heads_le (pend : ℕ → List α) : (heads K pend).card ≤ K := by
  have hone : ∀ i ∈ Finset.range K, (headOf i (pend i)).card ≤ 1 := by
    intro i _
    cases pend i with
    | nil => exact Nat.zero_le 1
    | cons x xs => exact le_rfl
  rw [heads, Multiset.card_sum]
  calc (Finset.range K).sum (fun i => (headOf i (pend i)).card)
      ≤ (Finset.range K).card • 1 := Finset.sum_le_card_nsmul _ _ 1 hone
    _ = K := by rw [Finset.card_range, smul_eq_mul, mul_one]

/-- No heads, nothing pending. -/
theorem pend_of_heads {pend : ℕ → List α} (h : heads K pend = 0) {i : ℕ}
    (hi : i < K) : pend i = [] := by
  cases hp : pend i with
  | nil => rfl
  | cons x xs =>
    rw [heads_cons hi hp] at h
    exact absurd h (Multiset.cons_ne_zero)

/-! ## The invariant of the loop -/

/-- **What a merge has done and what it still has to do.** `lists i` is what
the source `i` delivers, `pend i` what is left of it. -/
structure Inv (S : MergeSource σ α) (lists pend : ℕ → List α) (st : State σ key K) :
    Prop where
  /-- The heap holds the heads of what is left. -/
  tip : st.tip.contents = heads K pend
  /-- The sources give the rest. -/
  rest : ∀ i, i < K → Rest S (st.sources i) (pend i).tail
  /-- A source is active as long as it has a head. -/
  active : st.active = st.tip.sz
  /-- The sink has the values before what is left. -/
  sent : ∀ i, i < K → (st.sunk.filter (fun v => v.sourceidx = i)).map
    ValueSource.value ++ pend i = lists i
  /-- It has no others. -/
  index : ∀ v ∈ st.sunk, v.sourceidx < K

/-- How many values the sink still has to get. -/
def left (K : ℕ) (pend : ℕ → List α) : ℕ :=
  (Finset.range K).sum fun i => (pend i).length

theorem left_tail {pend : ℕ → List α} {i : ℕ} (hi : i < K) {x : α} {xs : List α}
    (h : pend i = x :: xs) :
    left K pend = left K (Function.update pend i xs) + 1 := by
  have hfun : (fun j => (Function.update pend i xs j).length)
      = Function.update (fun j => (pend j).length) i xs.length := by
    funext j
    exact Function.apply_update (fun _ => List.length) pend i xs j
  have hall := Finset.sum_update_of_mem (Finset.mem_range.mpr hi)
    (fun j => (pend j).length) (pend i).length
  rw [Function.update_eq_self] at hall
  show (Finset.range K).sum _ = (Finset.range K).sum
    (fun j => (Function.update pend i xs j).length) + 1
  rw [hfun, Finset.sum_update_of_mem (Finset.mem_range.mpr hi), hall, h,
    List.length_cons, Nat.add_right_comm]

/-- The values that the sink got, and one more. -/
theorem Inv.sent_step {S : MergeSource σ α} {lists pend : ℕ → List α}
    {st : State σ key K} (h : Inv S lists pend st) {v : ValueSource α}
    {xs : List α} (hp : pend v.sourceidx = v.value :: xs) (i : ℕ) (hi : i < K) :
    ((st.sunk ++ [v]).filter (fun u => u.sourceidx = i)).map ValueSource.value
      ++ Function.update pend v.sourceidx xs i = lists i := by
  rw [← h.sent i hi, List.filter_append, List.map_append, List.append_assoc]
  congr 1
  by_cases hiv : i = v.sourceidx
  · subst hiv
    rw [Function.update_self, hp]
    simp
  · rw [Function.update_of_ne hiv]
    simp [Ne.symm hiv]

/-- **One round of a merge.** It hands the smallest of the heads on and takes
the next value of its source, if there is one. -/
theorem Inv.step {S : MergeSource σ α} {lists pend : ℕ → List α}
    {st : State σ key K} (h : Inv S lists pend st) (hsz : st.tip.sz ≠ 0) :
    ∃ st' v xs, mergeStep S st = some st' ∧ st'.sunk = st.sunk ++ [v]
      ∧ v.sourceidx < K ∧ pend v.sourceidx = v.value :: xs
      ∧ (∀ u ∈ heads K pend, key v.value ≤ key u.value)
      ∧ Inv S lists (Function.update pend v.sourceidx xs) st' := by
  obtain ⟨tip, hextract, hcont⟩ := BinaryMinheap.contents_extractMin hsz
  have hmin : st.tip.min ∈ heads K pend := by
    rw [← h.tip, hcont]
    exact Multiset.mem_cons_self _ _
  obtain ⟨hv, xs, hp⟩ := mem_heads hmin
  have hle : ∀ u ∈ heads K pend, key st.tip.min.value ≤ key u.value := by
    intro u hu
    rw [← h.tip] at hu
    exact st.tip.min_le hu
  -- the heap without the smallest holds the other heads
  have hothers : tip.contents
      = heads K (Function.update pend st.tip.min.sourceidx []) := by
    have hall := hcont
    rw [h.tip, heads_cons hv hp] at hall
    exact (Multiset.cons_inj_right _).mp hall.symm
  have hsz' : st.tip.sz = tip.sz + 1 := by
    rw [← BinaryMinheap.card_contents, hcont, Multiset.card_cons,
      BinaryMinheap.card_contents]
  have hrest := h.rest _ hv
  rw [hp, List.tail_cons] at hrest
  have hsent := h.sent_step (v := st.tip.min) hp
  have hindex : ∀ u ∈ st.sunk ++ [st.tip.min], u.sourceidx < K := by
    intro u hu
    rcases List.mem_append.mp hu with hu | hu
    · exact h.index u hu
    · rw [List.mem_singleton.mp hu]
      exact hv
  unfold mergeStep
  rw [hextract, Option.bind_some]
  cases hrest with
  | nil hmore =>
    refine ⟨_, st.tip.min, [], if_neg (by rw [hmore]; exact Bool.false_ne_true),
      rfl, hv, hp, hle, ?_⟩
    refine ⟨hothers, fun i hi => ?_, ?_, hsent, hindex⟩
    · show Rest S (st.sources i) _
      by_cases hiv : i = st.tip.min.sourceidx
      · rw [hiv, Function.update_self]
        exact Rest.nil hmore
      · rw [Function.update_of_ne hiv]
        exact h.rest i hi
    · show st.active - 1 = tip.sz
      rw [h.active, hsz', Nat.add_sub_cancel]
  | @cons _ ys hmore hys =>
    have hcap : tip.sz < K := by
      have hcard := card_heads_le (K := K) pend
      rw [← h.tip, BinaryMinheap.card_contents, hsz'] at hcard
      exact hcard
    obtain ⟨tip', hinsert, hcont'⟩ := BinaryMinheap.contents_insert hcap
      ⟨st.tip.min.sourceidx, (S.next (st.sources st.tip.min.sourceidx)).1⟩
    refine ⟨⟨Function.update st.sources st.tip.min.sourceidx
        (S.next (st.sources st.tip.min.sourceidx)).2, st.active, tip',
        st.sunk ++ [st.tip.min]⟩, st.tip.min, _, ?_, rfl, hv, hp, hle, ?_⟩
    · show (if S.hasMore (st.sources st.tip.min.sourceidx) = true then _ else _) = _
      rw [if_pos hmore, hinsert]
      rfl
    · refine ⟨?_, fun i hi => ?_, ?_, hsent, hindex⟩
      · show tip'.contents = _
        rw [hcont', hothers, heads_update hv pend (_ :: ys)]
        rfl
      · show Rest S (Function.update st.sources _ _ i) _
        by_cases hiv : i = st.tip.min.sourceidx
        · rw [hiv, Function.update_self, Function.update_self]
          exact hys
        · rw [Function.update_of_ne hiv, Function.update_of_ne hiv]
          exact h.rest i hi
      · show st.active = tip'.sz
        rw [h.active, hsz', ← BinaryMinheap.card_contents (h := tip'), hcont',
          Multiset.card_cons, BinaryMinheap.card_contents]

/-- **A whole merge** hands on what is left, and stays sorted if it was and
the sources are. -/
theorem Inv.run {S : MergeSource σ α} {lists : ℕ → List α} (n : ℕ) :
    ∀ {pend : ℕ → List α} {st : State σ key K}, Inv S lists pend st →
      left K pend ≤ n → ∃ st' pend', mergeFrom S (n + 1) st = some st'
        ∧ Inv S lists pend' st' ∧ st'.tip.sz = 0
        ∧ ((∀ i, i < K → (pend i).Pairwise fun a b => key a ≤ key b) →
          (st.sunk.Pairwise fun u v => key u.value ≤ key v.value) →
          (∀ u ∈ st.sunk, ∀ i, i < K → ∀ y ∈ pend i, key u.value ≤ key y) →
          st'.sunk.Pairwise fun u v => key u.value ≤ key v.value) := by
  induction n with
  | zero =>
    intro pend st h hn
    have hnil : ∀ i, i < K → pend i = [] := fun i hi =>
      List.length_eq_zero_iff.mp (Nat.le_zero.mp
        ((Finset.single_le_sum (f := fun i => (pend i).length)
          (fun _ _ => Nat.zero_le _) (Finset.mem_range.mpr hi)).trans hn))
    have hheads : heads K pend = heads K fun _ => [] := heads_congr hnil
    have hsz : st.tip.sz = 0 := by
      rw [← BinaryMinheap.card_contents, h.tip, hheads]
      show (Finset.sum (Finset.range K) fun _ => (0 : Multiset (ValueSource α))).card = 0
      rw [Finset.sum_const_zero, Multiset.card_zero]
    refine ⟨st, pend, if_neg ?_, h, hsz, fun _ hs _ => hs⟩
    rw [h.active, hsz]
    exact not_or.mpr ⟨lt_irrefl 0, fun hne => hne rfl⟩
  | succ n ih =>
    intro pend st h hn
    by_cases hsz : st.tip.sz = 0
    · refine ⟨st, pend, if_neg ?_, h, hsz, fun _ hs _ => hs⟩
      rw [h.active, hsz]
      exact not_or.mpr ⟨lt_irrefl 0, fun hne => hne rfl⟩
    · obtain ⟨st₁, v, xs, hstep, hsunk, hv, hp, hmin, h₁⟩ := h.step hsz
      have hleft := left_tail hv hp
      obtain ⟨st', pend', hrun, h', hsz', hsorted⟩ := ih h₁ (by omega)
      refine ⟨st', pend', ?_, h', hsz', fun hpend hs hle => hsorted ?_ ?_ ?_⟩
      · rw [mergeFrom, if_pos (Or.inr hsz), hstep]
        exact hrun
      · intro i hi
        by_cases hiv : i = v.sourceidx
        · rw [hiv, Function.update_self]
          have := hpend _ hv
          rw [hp] at this
          exact (List.pairwise_cons.mp this).2
        · rw [Function.update_of_ne hiv]
          exact hpend i hi
      · rw [hsunk, List.pairwise_append]
        refine ⟨hs, List.pairwise_singleton _ _, fun u hu w hw => ?_⟩
        rw [List.mem_singleton.mp hw]
        refine hle u hu _ hv v.value ?_
        rw [hp]
        exact List.mem_cons_self
      · -- the value handed on is no larger than anything that is left
        have hvle : ∀ i, i < K → ∀ y ∈ pend i, key v.value ≤ key y := by
          intro i hi y hy
          cases hpi : pend i with
          | nil => rw [hpi] at hy; exact absurd hy List.not_mem_nil
          | cons z zs =>
            have hz : key v.value ≤ key z := hmin ⟨i, z⟩ (by
              rw [heads_cons hi hpi]
              exact Multiset.mem_cons_self _ _)
            rw [hpi] at hy
            rcases List.mem_cons.mp hy with rfl | hy
            · exact hz
            · have := hpend i hi
              rw [hpi] at this
              exact hz.trans ((List.pairwise_cons.mp this).1 y hy)
        have hsub : ∀ i, ∀ y ∈ Function.update pend v.sourceidx xs i, y ∈ pend i := by
          intro i y hy
          by_cases hiv : i = v.sourceidx
          · rw [hiv, Function.update_self] at hy
            rw [hiv, hp]
            exact List.mem_cons_of_mem _ hy
          · rw [Function.update_of_ne hiv] at hy
            exact hy
        intro u hu i hi y hy
        rw [hsunk] at hu
        rcases List.mem_append.mp hu with hu | hu
        · exact hle u hu i hi y (hsub i y hy)
        · rw [List.mem_singleton.mp hu]
          exact hvle i hi y (hsub i y hy)

/-! ## The whole merge -/

/-- Every source is asked for its first value, without being asked whether it
has one. After source `j` the heap has the heads of the lists up to `j`; the
induction is on the number of sources that are left. -/
theorem fill_spec {S : MergeSource σ α} (lists : ℕ → List α) (n : ℕ) :
    ∀ (j : ℕ) (st : State σ key K), j + n = K → st.tip.contents = heads j lists →
      st.tip.sz = j → (∀ i, i < j → Rest S (st.sources i) (lists i).tail) →
      (∀ i, j ≤ i → i < K → Delivers S (st.sources i) (lists i)) →
      ∃ st', fill S (List.range' j n) st = some st' ∧ st'.active = st.active
        ∧ st'.sunk = st.sunk ∧ st'.tip.contents = heads K lists ∧ st'.tip.sz = K
        ∧ ∀ i, i < K → Rest S (st'.sources i) (lists i).tail := by
  induction n with
  | zero =>
    intro j st hj htip hsz hrest _
    subst hj
    exact ⟨st, rfl, rfl, rfl, htip, hsz, hrest⟩
  | succ n ih =>
    intro j st hj htip hsz hrest hdel
    obtain ⟨ys, hys, hlist⟩ := hdel j le_rfl (by omega)
    -- the first value of source `j` goes to the heap
    obtain ⟨tip, hinsert, hcont⟩ := BinaryMinheap.contents_insert
      (h := st.tip) (by omega) ⟨j, (S.next (st.sources j)).1⟩
    have hheads : tip.contents = heads (j + 1) lists := by
      rw [hcont, htip]
      unfold heads
      rw [Finset.sum_range_succ, hlist, add_comm]
      rfl
    have hsz' : tip.sz = j + 1 := by
      rw [← BinaryMinheap.card_contents, hcont, Multiset.card_cons,
        BinaryMinheap.card_contents, hsz]
    -- the sources before `j` have given their first value, and so has `j` now
    have hrest' : ∀ i, i < j + 1 → Rest S (Function.update st.sources j
        (S.next (st.sources j)).2 i) (lists i).tail := by
      intro i hi
      by_cases hij : i = j
      · rw [hij, Function.update_self, hlist]
        exact hys
      · rw [Function.update_of_ne hij]
        exact hrest i (by omega)
    have hdel' : ∀ i, j + 1 ≤ i → i < K → Delivers S (Function.update st.sources j
        (S.next (st.sources j)).2 i) (lists i) := by
      intro i hi hiK
      rw [Function.update_of_ne (by omega : i ≠ j)]
      exact hdel i (by omega) hiK
    obtain ⟨st', hfill, hactive, hsunk, h'⟩ := ih (j + 1)
      { st with
        sources := Function.update st.sources j (S.next (st.sources j)).2
        tip := tip } (by omega) hheads hsz' hrest' hdel'
    refine ⟨st', ?_, hactive, hsunk, h'⟩
    rw [List.range'_succ, fill, hinsert]
    exact hfill

/-- **A merge of sources that deliver the lists `lists i` ends**, and the
sink gets each list as its projection to that source; it gets them sorted
if the lists are. -/
theorem merge_spec {S : MergeSource σ α} {lists : ℕ → List α} {sources : ℕ → σ}
    (key : α → κ) (cells : ℕ → ValueSource α)
    (hdel : ∀ i, i < K → Delivers S (sources i) (lists i)) {fuel : ℕ}
    (hfuel : left K lists < fuel) :
    ∃ sunk, merge S key K cells sources fuel = some sunk
      ∧ (∀ i, i < K →
        (sunk.filter fun v => v.sourceidx = i).map ValueSource.value = lists i)
      ∧ (∀ v ∈ sunk, v.sourceidx < K)
      ∧ ((∀ i, i < K → (lists i).Pairwise fun a b => key a ≤ key b) →
        sunk.Pairwise fun u v => key u.value ≤ key v.value) := by
  obtain ⟨n, rfl⟩ : ∃ n, fuel = n + 1 := ⟨fuel - 1, by omega⟩
  obtain ⟨st, hfill, hactive, hsunk, htip, hsz, hrest⟩ := fill_spec lists K 0
    (⟨sources, K, .empty cells, []⟩ : State σ key K) (Nat.zero_add K) rfl rfl
    (fun i hi => absurd hi (Nat.not_lt_zero i)) (fun i _ hi => hdel i hi)
  -- at the start nothing has been handed on, and the heads are in the heap
  have hinv : Inv S lists lists st :=
    { tip := htip
      rest := hrest
      active := by rw [hactive, hsz]
      sent := fun i _ => by rw [hsunk]; rfl
      index := fun v hv => by
        rw [hsunk] at hv
        exact absurd hv List.not_mem_nil }
  obtain ⟨st', pend, hrun, h', hsz', hsorted⟩ := hinv.run n (Nat.lt_succ_iff.mp hfuel)
  -- at the end the heap is empty, so that no list has anything left
  have hnil : ∀ i, i < K → pend i = [] := by
    refine fun i hi => pend_of_heads (K := K) ?_ hi
    rw [← h'.tip, ← Multiset.card_eq_zero, BinaryMinheap.card_contents, hsz']
  refine ⟨st'.sunk, ?_, fun i hi => ?_, h'.index, fun hlists => ?_⟩
  · unfold merge
    rw [List.range_eq_range', hfill, Option.bind_some, hrun]
    rfl
  · have h := h'.sent i hi
    rw [hnil i hi, List.append_nil] at h
    exact h
  · refine hsorted hlists ?_ ?_
    · rw [hsunk]
      exact List.Pairwise.nil
    · rw [hsunk]
      exact fun u hu => absurd hu List.not_mem_nil

/-- What the sink gets is sorted only if every list is: a list keeps its
order in it. -/
theorem pairwise_of_sunk {lists : ℕ → List α} {sunk : List (ValueSource α)}
    (hproj : ∀ i, i < K →
      (sunk.filter fun v => v.sourceidx = i).map ValueSource.value = lists i)
    {R : α → α → Prop} (h : sunk.Pairwise fun u v => R u.value v.value) (i : ℕ)
    (hi : i < K) : (lists i).Pairwise R := by
  rw [← hproj i hi, List.pairwise_map]
  exact h.filter _

/-- What the sink gets are the values of the lists. -/
theorem sunk_perm {lists : ℕ → List α} {sunk : List (ValueSource α)}
    (hproj : ∀ i, i < K →
      (sunk.filter fun v => v.sourceidx = i).map ValueSource.value = lists i)
    (hindex : ∀ v ∈ sunk, v.sourceidx < K) :
    (sunk.map ValueSource.value).Perm ((List.range K).flatMap lists) := by
  have hblocks := SortedBlocks.perm_flatMap (f := ValueSource.sourceidx)
    (List.nodup_range (n := K)) fun v hv => List.mem_range.mpr (hindex v hv)
  refine (hblocks.map ValueSource.value).symm.trans (List.Perm.of_eq ?_)
  rw [List.map_flatMap]
  exact List.flatMap_congr fun i hi => hproj i (List.mem_range.mp hi)

end KWayMerge
