import Mathlib
import DpdkGraph.Transition

/-!
# Threads that append to lanes of one array

Several threads append records to lanes that are carved out of one array
without bounds. A lane has a base and a counter; an append takes the cell
that the counter points to and raises the counter, without a look at where
the next lane begins. A lane is either *atomic* – the counter is raised
first, in one step with reading it, and the cell is written afterwards – or
the cell is written first and the counter raised afterwards, which is meant
for a lane that has one thread only.

When the cells of the appends of all threads are apart (`Roomy`), every
order of the threads comes to the same: no record is written over another,
and at the end each lane has the records that were meant for it.
-/

namespace SharedAppends

variable {κ β : Type*} [DecidableEq κ]

/-- The threads with their appends, and the lanes. -/
structure System (κ β : Type*) where
  /-- The number of threads. -/
  threads : ℕ
  /-- The appends of a thread, in its order. -/
  program : ℕ → List (κ × β)
  /-- Whether the counter of a lane is raised first. -/
  atomic : κ → Bool
  /-- The first cell of a lane. -/
  base : κ → ℤ
  /-- What is asserted after an append. -/
  allowed : κ → β → Bool

/-- The half of an append that is left. -/
inductive Pending (κ β : Type*)
  /-- The counter has been raised, the cell is to be written. -/
  | store (k : κ) (slot : ℤ) (x : β)
  /-- The cell has been written, the counter is to be raised. -/
  | count (k : κ) (x : β)

/-- What a thread has before it. -/
structure Thread (κ β : Type*) where
  /-- The second half of an append, if one is under way. -/
  pending : Option (Pending κ β)
  /-- The appends that are still to come. -/
  todo : List (κ × β)

/-- The state: the threads, the counters and the array. -/
structure State (κ β : Type*) where
  thread : ℕ → Thread κ β
  /-- The counter of each lane. -/
  count : κ → ℕ
  /-- The array. -/
  cell : ℤ → Option β

variable (S : System κ β)

/-- Nothing has been appended. -/
def init : State κ β where
  thread t := ⟨none, S.program t⟩
  count _ := 0
  cell _ := none

/-- The first half of an append. -/
def start (s : State κ β) (t : ℕ) (k : κ) (x : β) (rest : List (κ × β)) :
    State κ β :=
  if S.atomic k then
    { s with
      thread := Function.update s.thread t
        ⟨some (.store k (S.base k + s.count k) x), rest⟩
      count := Function.update s.count k (s.count k + 1) }
  else
    { s with
      thread := Function.update s.thread t ⟨some (.count k x), rest⟩
      cell := Function.update s.cell (S.base k + s.count k) (some x) }

/-- The second half of an append. -/
def complete (s : State κ β) (t : ℕ) (todo : List (κ × β)) :
    Pending κ β → State κ β
  | .store _ slot x =>
    { s with
      thread := Function.update s.thread t ⟨none, todo⟩
      cell := Function.update s.cell slot (some x) }
  | .count k _ =>
    { s with
      thread := Function.update s.thread t ⟨none, todo⟩
      count := Function.update s.count k (s.count k + 1) }

/-- The assertion behind an append. -/
def Pending.ok : Pending κ β → Bool
  | .store k _ x => S.allowed k x
  | .count k x => S.allowed k x

/-- **A step** of thread `t`. -/
def step (s : State κ β) (t : ℕ) : Option (State κ β) :=
  if t < S.threads then
    match (s.thread t).pending, (s.thread t).todo with
    | some p, todo => if p.ok S then some (complete s t todo p) else none
    | none, (k, x) :: rest => some (start S s t k x rest)
    | none, [] => none
  else none

/-- `s` is reached by steps of the threads `ts`, in this order. -/
abbrev Reaches (ts : List ℕ) (s : State κ β) : Prop :=
  Transition.Run (step S) (fun _ _ => True) (init S) ts s

/-- All threads have come to their end. -/
def State.Finished (s : State κ β) : Prop :=
  ∀ t < S.threads, s.thread t = ⟨none, []⟩

/-- The cells of a lane up to its counter. -/
def State.lane (s : State κ β) (k : κ) : List (Option β) :=
  (List.range (s.count k)).map fun i : ℕ => s.cell (S.base k + i)

/-- The records of a lane among appends. -/
def sel (k : κ) (l : List (κ × β)) : Multiset β :=
  ((l.filter fun a => decide (a.1 = k)).map Prod.snd : List β)

/-- All the records that are meant for a lane. -/
def System.total (k : κ) : Multiset β :=
  ∑ t ∈ Finset.range S.threads, sel k (S.program t)

/-- **There is room**: the cells of different appends are apart, a lane that
is not atomic has one thread, and no assertion fails. -/
structure Roomy : Prop where
  /-- The cells of different lanes are different. -/
  apart : ∀ k l : κ, ∀ i < (S.total k).card, ∀ j < (S.total l).card,
    S.base k + i = S.base l + j → k = l ∧ i = j
  /-- A lane that is not atomic has one thread. -/
  owner : ∀ k, S.atomic k = false → ∀ t u x y, (k, x) ∈ S.program t →
    (k, y) ∈ S.program u → t = u
  /-- The records pass the assertion. -/
  allowed : ∀ t, ∀ a ∈ S.program t, S.allowed a.1 a.2 = true

variable {S}

/-! ## What a step can be -/

/-- A step is one half of an append. -/
theorem step_cases {s s' : State κ β} {t : ℕ} (h : step S s t = some s') :
    t < S.threads ∧
      ((∃ p todo, s.thread t = ⟨some p, todo⟩ ∧ p.ok S = true ∧
          s' = complete s t todo p) ∨
        ∃ k x rest, s.thread t = ⟨none, (k, x) :: rest⟩ ∧
          s' = start S s t k x rest) := by
  unfold step at h
  split at h
  · next ht =>
    refine ⟨ht, ?_⟩
    cases hthread : s.thread t with
    | mk pending todo =>
      rw [hthread] at h
      cases pending with
      | some p =>
        dsimp only at h
        split at h
        · next hok =>
          exact Or.inl ⟨p, todo, rfl, hok, (Option.some.inj h).symm⟩
        · cases h
      | none =>
        cases todo with
        | nil => cases h
        | cons a rest => exact Or.inr ⟨a.1, a.2, rest, rfl, (Option.some.inj h).symm⟩
  · cases h

theorem sel_cons (k l : κ) (x : β) (rest : List (κ × β)) :
    sel k ((l, x) :: rest) = (if l = k then {x} else 0) + sel k rest := by
  unfold sel
  by_cases h : l = k
  · rw [List.filter_cons_of_pos (by simpa using h), if_pos h]
    rfl
  · rw [List.filter_cons_of_neg (by simpa using h), if_neg h, zero_add]

@[simp] theorem sel_nil (k : κ) : sel k ([] : List (κ × β)) = 0 := rfl

theorem sel_append (k : κ) (l m : List (κ × β)) :
    sel k (l ++ m) = sel k l + sel k m := by
  unfold sel
  rw [List.filter_append, List.map_append, Multiset.coe_add]

theorem mem_sel {k : κ} {x : β} {l : List (κ × β)} (h : (k, x) ∈ l) :
    x ∈ sel k l := by
  unfold sel
  rw [Multiset.mem_coe, List.mem_map]
  exact ⟨(k, x), List.mem_filter.mpr ⟨h, by simp⟩, rfl⟩

/-! ## The invariant -/

/-- Whether the second half that is left is to raise the counter of `k`. -/
def Thread.counting (k : κ) (th : Thread κ β) : ℕ :=
  match th.pending with
  | some (.count l _) => if l = k then 1 else 0
  | _ => 0

/-- **The invariant**, with the records that each lane has cells for, in
their order. -/
structure Inv (S : System κ β) (s : State κ β) (log : κ → List β) : Prop where
  /-- What has cells and what is to be done is all. -/
  total : ∀ k, (log k : Multiset β) +
    ∑ t ∈ Finset.range S.threads, sel k (s.thread t).todo = S.total k
  /-- The counters, with what is about to be counted, are the numbers of cells
  given out. -/
  count : ∀ k, s.count k + ∑ t ∈ Finset.range S.threads,
    (s.thread t).counting k = (log k).length
  todo : ∀ t, ∀ a ∈ (s.thread t).todo, a ∈ S.program t
  /-- A cell has its record, or a thread is about to write it. -/
  written : ∀ k (i : ℕ) x, (log k)[i]? = some x →
    s.cell (S.base k + i) = some x ∨
      ∃ t < S.threads, (s.thread t).pending =
        some (.store k (S.base k + i) x)
  /-- There are no other records in the array. -/
  fresh : ∀ z x, s.cell z = some x →
    ∃ k i, i < (log k).length ∧ z = S.base k + i
  /-- A cell that is about to be written is free … -/
  storing : ∀ t < S.threads, ∀ k slot x,
    (s.thread t).pending = some (.store k slot x) →
      S.allowed k x = true ∧ s.cell slot = none ∧
        ∃ i < (log k).length, slot = S.base k + i
  /-- … and is about to be written by one thread. -/
  distinct : ∀ t < S.threads, ∀ u < S.threads, ∀ k l slot x y,
    (s.thread t).pending = some (.store k slot x) →
      (s.thread u).pending = some (.store l slot y) → t = u
  counting : ∀ t < S.threads, ∀ k x,
    (s.thread t).pending = some (.count k x) →
      S.atomic k = false ∧ (k, x) ∈ S.program t

section Step

variable {s : State κ β} {log : κ → List β}

theorem inv_init : Inv S (init S) fun _ => [] where
  total := fun k => by
    show (([] : List β) : Multiset β) + S.total k = S.total k
    rw [Multiset.coe_nil, zero_add]
  count := fun k => by
    simp [init, Thread.counting]
  todo := fun _ _ ha => ha
  written := fun _ _ _ h => nomatch h
  fresh := fun _ _ h => nomatch h
  storing := fun _ _ _ _ _ h => nomatch h
  distinct := fun _ _ _ _ _ _ _ _ _ h => nomatch h
  counting := fun _ _ _ _ h => nomatch h

/-- A lane has cells for no more than is meant for it. -/
theorem Inv.length_le (h : Inv S s log) (k : κ) :
    (log k).length ≤ (S.total k).card := by
  have hcard := congrArg Multiset.card (h.total k)
  rw [Multiset.card_add, Multiset.coe_card] at hcard
  omega

/-- While an append is to be done, there is a cell more to come. -/
theorem Inv.length_lt (h : Inv S s log) {t : ℕ} (ht : t < S.threads) {k : κ}
    {x : β} (hmem : (k, x) ∈ (s.thread t).todo) :
    (log k).length < (S.total k).card := by
  have hcard := congrArg Multiset.card (h.total k)
  have hle : sel k (s.thread t).todo ≤
      ∑ t ∈ Finset.range S.threads, sel k (s.thread t).todo :=
    Finset.single_le_sum (f := fun t => sel k (s.thread t).todo)
      (fun _ _ => Multiset.zero_le _) (Finset.mem_range.mpr ht)
  have hpos := Multiset.card_pos_iff_exists_mem.mpr ⟨x, mem_sel hmem⟩
  have hcards := Multiset.card_le_card hle
  rw [Multiset.card_add, Multiset.coe_card] at hcard
  omega

/-- The cells that lanes have are apart. -/
theorem Inv.apart (h : Inv S s log) (hroomy : Roomy S) {k l : κ} {i j : ℕ}
    (hi : i < (S.total k).card) (hj : j < (log l).length)
    (heq : S.base k + i = S.base l + j) : k = l ∧ i = j :=
  hroomy.apart k l i hi j (lt_of_lt_of_le hj (h.length_le l)) heq

/-- The next cell of a lane is free. -/
theorem Inv.cell_next (h : Inv S s log) (hroomy : Roomy S) {t : ℕ}
    (ht : t < S.threads) {k : κ} {x : β}
    (hmem : (k, x) ∈ (s.thread t).todo) :
    s.cell (S.base k + (log k).length) = none := by
  cases hcell : s.cell (S.base k + (log k).length) with
  | none => rfl
  | some y =>
    obtain ⟨l, j, hj, heq⟩ := h.fresh _ _ hcell
    obtain ⟨rfl, hlen⟩ := h.apart hroomy (h.length_lt ht hmem) hj heq
    omega

/-- The next cell of a lane is not about to be written. -/
theorem Inv.slot_ne (h : Inv S s log) (hroomy : Roomy S) {t u : ℕ}
    (ht : t < S.threads) (hu : u < S.threads) {k l : κ} {x y : β} {slot : ℤ}
    (hmem : (k, x) ∈ (s.thread t).todo)
    (hpending : (s.thread u).pending = some (.store l slot y)) :
    slot ≠ S.base k + (log k).length := by
  intro heq
  obtain ⟨-, -, j, hj, hslot⟩ := h.storing u hu l slot y hpending
  obtain ⟨rfl, hlen⟩ := h.apart hroomy (h.length_lt ht hmem) hj
    (heq.symm.trans hslot)
  omega

/-- Nobody is about to raise the counter of a lane that a thread without a
half left appends to. -/
theorem Inv.count_eq (h : Inv S s log) (hroomy : Roomy S) {t : ℕ} {k : κ}
    {x : β} {rest : List (κ × β)}
    (hthread : s.thread t = ⟨none, (k, x) :: rest⟩) :
    s.count k = (log k).length := by
  have hzero : ∑ u ∈ Finset.range S.threads, (s.thread u).counting k = 0 := by
    refine Finset.sum_eq_zero fun u hu => ?_
    unfold Thread.counting
    split
    · next l y hpending =>
      split
      · next hl =>
        subst hl
        obtain ⟨hlane, hmem⟩ :=
          h.counting u (Finset.mem_range.mp hu) l y hpending
        have hx : (l, x) ∈ S.program t := h.todo t _ (by
          rw [hthread]
          exact List.mem_cons_self)
        have htu := hroomy.owner l hlane t u x y hx hmem
        rw [← htu, hthread] at hpending
        cases hpending
      · rfl
    · rfl
  have hcount := h.count k
  omega

/-! ## The first half of an append -/

theorem getElem?_concat {l : List β} {x y : β} {i : ℕ}
    (h : (l ++ [x])[i]? = some y) :
    l[i]? = some y ∨ i = l.length ∧ x = y := by
  rcases lt_trichotomy i l.length with hlt | heq | hgt
  · rw [List.getElem?_append_left hlt] at h
    exact Or.inl h
  · rw [heq, List.getElem?_concat_length, Option.some.injEq] at h
    exact Or.inr ⟨heq, h⟩
  · rw [List.getElem?_eq_none (by
      rw [List.length_append, List.length_singleton]
      omega)] at h
    cases h

theorem Inv.total_start (h : Inv S s log) {t : ℕ} (ht : t < S.threads) {k : κ}
    {x : β} {rest : List (κ × β)}
    (hthread : s.thread t = ⟨none, (k, x) :: rest⟩)
    (pending : Option (Pending κ β)) (l : κ) :
    (Function.update log k (log k ++ [x]) l : Multiset β) +
      ∑ u ∈ Finset.range S.threads,
        sel l (Function.update s.thread t ⟨pending, rest⟩ u).todo =
      S.total l := by
  have hsum := Transition.sum_exchange
    (f := fun u => sel l (Function.update s.thread t ⟨pending, rest⟩ u).todo)
    (g := fun u => sel l (s.thread u).todo) ht fun u hu => by
      rw [Function.update_of_ne hu]
  rw [Function.update_self, hthread, sel_cons, ← add_assoc] at hsum
  have hsum' := add_right_cancel hsum
  rw [← h.total l, ← hsum']
  by_cases hl : k = l
  · subst hl
    rw [Function.update_self, if_pos rfl, ← Multiset.coe_add,
      Multiset.coe_singleton]
    abel
  · rw [Function.update_of_ne (Ne.symm hl), if_neg hl, add_zero]

theorem Inv.count_start (h : Inv S s log) {t : ℕ} (ht : t < S.threads) {k : κ}
    {x : β} {rest : List (κ × β)}
    (hthread : s.thread t = ⟨none, (k, x) :: rest⟩)
    (pending : Pending κ β) (l : κ) :
    s.count l + ∑ u ∈ Finset.range S.threads,
        (Function.update s.thread t ⟨some pending, rest⟩ u).counting l =
      (log l).length + (Thread.mk (some pending) rest).counting l := by
  have hsum := Transition.sum_exchange
    (f := fun u =>
      (Function.update s.thread t ⟨some pending, rest⟩ u).counting l)
    (g := fun u => (s.thread u).counting l) ht fun u hu => by
      rw [Function.update_of_ne hu]
  rw [Function.update_self, hthread] at hsum
  have hzero : (Thread.mk none ((k, x) :: rest)).counting l = 0 := rfl
  have hcount := h.count l
  omega

theorem length_update_concat (log : κ → List β) (k l : κ) (x : β) :
    (Function.update log k (log k ++ [x]) l).length =
      (log l).length + if k = l then 1 else 0 := by
  by_cases hl : k = l
  · subst hl
    rw [Function.update_self, List.length_append, if_pos rfl]
    rfl
  · rw [Function.update_of_ne (Ne.symm hl), if_neg hl, Nat.add_zero]

theorem Inv.todo_start (h : Inv S s log) {t : ℕ} {k : κ} {x : β}
    {rest : List (κ × β)} (hthread : s.thread t = ⟨none, (k, x) :: rest⟩)
    (pending : Option (Pending κ β)) (u : ℕ) (a : κ × β)
    (ha : a ∈ (Function.update s.thread t ⟨pending, rest⟩ u).todo) :
    a ∈ S.program u := by
  by_cases hu : u = t
  · subst hu
    rw [Function.update_self] at ha
    refine h.todo u a ?_
    rw [hthread]
    exact List.mem_cons_of_mem _ ha
  · rw [Function.update_of_ne hu] at ha
    exact h.todo u a ha

omit [DecidableEq κ] in
/-- The half of another thread is the one it had. -/
theorem pending_update {t u : ℕ} {thread : ℕ → Thread κ β} {th : Thread κ β}
    {p : Pending κ β}
    (h : (Function.update thread t th u).pending = some p)
    (hth : th.pending ≠ some p) : u ≠ t ∧ (thread u).pending = some p := by
  by_cases hu : u = t
  · rw [hu, Function.update_self] at h
    exact absurd h hth
  · rw [Function.update_of_ne hu] at h
    exact ⟨hu, h⟩

/-- The counter of an atomic lane is raised: the place below it is the thread's
own from now on, so that it may store its record there when it likes. -/
theorem Inv.start_atomic (h : Inv S s log) (hroomy : Roomy S) {t : ℕ}
    (ht : t < S.threads) {k : κ} {x : β} {rest : List (κ × β)}
    (hthread : s.thread t = ⟨none, (k, x) :: rest⟩)
    (hlane : S.atomic k = true) :
    Inv S (start S s t k x rest) (Function.update log k (log k ++ [x])) := by
  have hmem : (k, x) ∈ (s.thread t).todo := by
    rw [hthread]
    exact List.mem_cons_self
  have hnone : (s.thread t).pending = none := by rw [hthread]
  have hcount := h.count_eq hroomy hthread
  unfold start
  rw [if_pos hlane, hcount]
  refine ⟨h.total_start ht hthread _, fun l => ?_, h.todo_start hthread _,
    fun l i y hy => ?_, fun z y hy => ?_, fun u hu l slot y hp => ?_,
    fun u hu v hv l l' slot y y' hp hp' => ?_, fun u hu l y hp => ?_⟩
  · have hstart := h.count_start ht hthread
      (.store k (S.base k + (log k).length) x) l
    have hzero : (Thread.mk (some (.store k (S.base k + (log k).length) x))
        rest).counting l = 0 := rfl
    rw [length_update_concat]
    dsimp only
    by_cases hl : k = l
    · subst hl
      rw [Function.update_self, if_pos rfl]
      omega
    · rw [Function.update_of_ne (Ne.symm hl), if_neg hl]
      omega
  · -- records that were written or pending stay so
    have hold : (log l)[i]? = some y → s.cell (S.base l + i) = some y ∨
        ∃ u < S.threads, (Function.update s.thread t
          ⟨some (.store k (S.base k + (log k).length) x), rest⟩ u).pending =
            some (.store l (S.base l + i) y) := by
      intro hget
      rcases h.written l i y hget with hcell | ⟨u, hu, hp⟩
      · exact Or.inl hcell
      · refine Or.inr ⟨u, hu, ?_⟩
        have hut : u ≠ t := by
          rintro rfl
          rw [hnone] at hp
          cases hp
        rw [Function.update_of_ne hut]
        exact hp
    by_cases hl : l = k
    · subst hl
      rw [Function.update_self] at hy
      -- the new one is pending at this thread
      rcases getElem?_concat hy with hget | ⟨rfl, rfl⟩
      · exact hold hget
      · refine Or.inr ⟨t, ht, ?_⟩
        show (Function.update s.thread t _ t).pending = _
        rw [Function.update_self]
    · rw [Function.update_of_ne hl] at hy
      exact hold hy
  · obtain ⟨l, i, hi, hz⟩ := h.fresh z y hy
    refine ⟨l, i, ?_, hz⟩
    rw [length_update_concat]
    omega
  · by_cases hut : u = t
    · subst hut
      dsimp only at hp
      rw [Function.update_self] at hp
      obtain ⟨rfl, rfl, rfl⟩ : k = l ∧ S.base k + (log k).length = slot ∧
          x = y := by
        simpa using hp
      refine ⟨hroomy.allowed u (k, x) (h.todo u _ hmem),
        h.cell_next hroomy hu hmem, (log k).length, ?_, rfl⟩
      rw [length_update_concat, if_pos rfl]
      exact Nat.lt_succ_self _
    · dsimp only at hp
      rw [Function.update_of_ne hut] at hp
      obtain ⟨hok, hcell, i, hi, hslot⟩ := h.storing u hu l slot y hp
      refine ⟨hok, hcell, i, ?_, hslot⟩
      rw [length_update_concat]
      omega
  · dsimp only at hp hp'
    by_cases hut : u = t
    · by_cases hvt : v = t
      · rw [hut, hvt]
      · subst hut
        -- no other thread has been given the place
        rw [Function.update_self, Option.some.injEq, Pending.store.injEq] at hp
        rw [Function.update_of_ne hvt] at hp'
        exact absurd hp.2.1.symm (h.slot_ne hroomy ht hv hmem hp')
    · rw [Function.update_of_ne hut] at hp
      by_cases hvt : v = t
      · subst hvt
        rw [Function.update_self, Option.some.injEq, Pending.store.injEq] at hp'
        exact absurd hp'.2.1.symm (h.slot_ne hroomy ht hu hmem hp)
      · rw [Function.update_of_ne hvt] at hp'
        exact h.distinct u hu v hv l l' slot y y' hp hp'
  · exact h.counting u hu l y (pending_update hp (by simp)).2

/-- A record is written to a lane that is not atomic: it is there before the
counter is raised, which is safe for the lane has one thread only. -/
theorem Inv.start_plain (h : Inv S s log) (hroomy : Roomy S) {t : ℕ}
    (ht : t < S.threads) {k : κ} {x : β} {rest : List (κ × β)}
    (hthread : s.thread t = ⟨none, (k, x) :: rest⟩)
    (hlane : S.atomic k = false) :
    Inv S (start S s t k x rest) (Function.update log k (log k ++ [x])) := by
  have hmem : (k, x) ∈ (s.thread t).todo := by
    rw [hthread]
    exact List.mem_cons_self
  have hnone : (s.thread t).pending = none := by rw [hthread]
  have hcount := h.count_eq hroomy hthread
  -- the place is one where no record is
  have hkeep : ∀ l i, i < (log l).length →
      S.base l + i ≠ S.base k + (log k).length := by
    intro l i hi heq
    obtain ⟨rfl, hlen⟩ :=
      h.apart hroomy (h.length_lt ht hmem) hi heq.symm
    omega
  unfold start
  rw [if_neg (by rw [hlane]; exact Bool.false_ne_true), hcount]
  refine ⟨h.total_start ht hthread _, fun l => ?_, h.todo_start hthread _,
    fun l i y hy => ?_, fun z y hy => ?_, fun u hu l slot y hp => ?_,
    fun u hu v hv l l' slot y y' hp hp' => ?_, fun u hu l y hp => ?_⟩
  · have hstart := h.count_start ht hthread (.count k x) l
    have hone : (Thread.mk (some (.count k x)) rest).counting l =
        if k = l then 1 else 0 := rfl
    rw [length_update_concat]
    dsimp only
    omega
  · have hold : (log l)[i]? = some y →
        Function.update s.cell (S.base k + (log k).length) (some x)
            (S.base l + i) = some y ∨
          ∃ u < S.threads, (Function.update s.thread t
            ⟨some (.count k x), rest⟩ u).pending =
              some (.store l (S.base l + i) y) := by
      intro hget
      obtain ⟨hi, -⟩ := List.getElem?_eq_some_iff.mp hget
      rw [Function.update_of_ne (hkeep l i hi)]
      rcases h.written l i y hget with hcell | ⟨u, hu, hp⟩
      · exact Or.inl hcell
      · refine Or.inr ⟨u, hu, ?_⟩
        have hut : u ≠ t := by
          rintro rfl
          rw [hnone] at hp
          cases hp
        rw [Function.update_of_ne hut]
        exact hp
    by_cases hl : l = k
    · subst hl
      rw [Function.update_self] at hy
      rcases getElem?_concat hy with hget | ⟨rfl, rfl⟩
      · exact hold hget
      · -- the new record is in its place at once
        exact Or.inl (Function.update_self _ _ _)
    · rw [Function.update_of_ne hl] at hy
      exact hold hy
  · dsimp only at hy
    by_cases hz : z = S.base k + (log k).length
    · refine ⟨k, (log k).length, ?_, hz⟩
      rw [length_update_concat, if_pos rfl]
      exact Nat.lt_succ_self _
    · rw [Function.update_of_ne hz] at hy
      obtain ⟨l, i, hi, hz'⟩ := h.fresh z y hy
      refine ⟨l, i, ?_, hz'⟩
      rw [length_update_concat]
      omega
  · obtain ⟨-, hp⟩ := pending_update hp (by simp)
    obtain ⟨hok, hcell, i, hi, hslot⟩ := h.storing u hu l slot y hp
    refine ⟨hok, ?_, i, ?_, hslot⟩
    · exact (Function.update_of_ne (h.slot_ne hroomy ht hu hmem hp) _ _).trans
        hcell
    · rw [length_update_concat]
      omega
  · obtain ⟨-, hp⟩ := pending_update hp (by simp)
    obtain ⟨-, hp'⟩ := pending_update hp' (by simp)
    exact h.distinct u hu v hv l l' slot y y' hp hp'
  · -- the thread still has to count it
    by_cases hut : u = t
    · subst hut
      dsimp only at hp
      rw [Function.update_self] at hp
      obtain ⟨rfl, rfl⟩ : k = l ∧ x = y := by
        simpa using hp
      exact ⟨hlane, h.todo u _ hmem⟩
    · dsimp only at hp
      rw [Function.update_of_ne hut] at hp
      exact h.counting u hu l y hp

/-! ## The second half of an append -/

omit [DecidableEq κ] in
/-- A second half leaves what is to be done. -/
theorem todo_complete {t : ℕ} {pending : Option (Pending κ β)}
    {todo : List (κ × β)} (hthread : s.thread t = ⟨pending, todo⟩) (u : ℕ) :
    (Function.update s.thread t ⟨none, todo⟩ u).todo = (s.thread u).todo := by
  by_cases hu : u = t
  · rw [hu, Function.update_self, hthread]
  · rw [Function.update_of_ne hu]

theorem Inv.total_complete (h : Inv S s log) {t : ℕ}
    {pending : Option (Pending κ β)} {todo : List (κ × β)}
    (hthread : s.thread t = ⟨pending, todo⟩) (l : κ) :
    (log l : Multiset β) + ∑ u ∈ Finset.range S.threads,
      sel l (Function.update s.thread t ⟨none, todo⟩ u).todo = S.total l := by
  rw [← h.total l]
  refine congrArg ((log l : Multiset β) + ·) (Finset.sum_congr rfl fun u _ => ?_)
  rw [todo_complete hthread]

theorem counting_complete {t : ℕ} (ht : t < S.threads) {p : Pending κ β}
    {todo : List (κ × β)} (hthread : s.thread t = ⟨some p, todo⟩) (l : κ) :
    ∑ u ∈ Finset.range S.threads,
        (Function.update s.thread t ⟨none, todo⟩ u).counting l
        + (Thread.mk (some p) todo).counting l =
      ∑ u ∈ Finset.range S.threads, (s.thread u).counting l := by
  have hsum := Transition.sum_exchange
    (f := fun u => (Function.update s.thread t ⟨none, todo⟩ u).counting l)
    (g := fun u => (s.thread u).counting l) ht fun u hu => by
      rw [Function.update_of_ne hu]
  rw [Function.update_self, hthread] at hsum
  exact hsum

/-- The cell of an atomic lane is written. -/
theorem Inv.complete_store (h : Inv S s log) {t : ℕ}
    (ht : t < S.threads) {k : κ} {slot : ℤ} {x : β} {todo : List (κ × β)}
    (hthread : s.thread t = ⟨some (.store k slot x), todo⟩) :
    Inv S (complete s t todo (.store k slot x)) log := by
  have hpending : (s.thread t).pending = some (.store k slot x) := by
    rw [hthread]
  obtain ⟨-, hfree, i₀, hi₀, hslot⟩ := h.storing t ht k slot x hpending
  refine ⟨h.total_complete hthread, fun l => ?_, fun u a ha => ?_,
    fun l i y hy => ?_, fun z y hz => ?_, fun u hu l slot' y hp => ?_,
    fun u hu v hv l l' slot' y y' hp hp' => ?_, fun u hu l y hp => ?_⟩
  · have hcounting := counting_complete ht hthread l
    have hzero : (Thread.mk (some (.store k slot x)) todo).counting l = 0 := rfl
    have hcount := h.count l
    unfold complete
    dsimp only
    omega
  · refine h.todo u a ?_
    rw [← todo_complete hthread u]
    exact ha
  · show Function.update s.cell slot (some x) (S.base l + i) = some y ∨ _
    by_cases hz : S.base l + i = slot
    · -- the lane has the cell for the record that is written
      refine Or.inl ?_
      rw [hz, Function.update_self]
      rcases h.written l i y hy with hcell | ⟨u, hu, hp⟩
      · rw [hz, hfree] at hcell
        cases hcell
      · rw [hz] at hp
        have hut := h.distinct u hu t ht l k slot y x hp hpending
        rw [hut, hpending, Option.some.injEq, Pending.store.injEq] at hp
        rw [hp.2.2]
    · rw [Function.update_of_ne hz]
      rcases h.written l i y hy with hcell | ⟨u, hu, hp⟩
      · exact Or.inl hcell
      · refine Or.inr ⟨u, hu, ?_⟩
        have hut : u ≠ t := by
          rintro rfl
          rw [hpending, Option.some.injEq, Pending.store.injEq] at hp
          exact hz hp.2.1.symm
        show (Function.update s.thread t _ u).pending = _
        rw [Function.update_of_ne hut]
        exact hp
  · have hz' : Function.update s.cell slot (some x) z = some y := hz
    by_cases hslotz : z = slot
    · exact ⟨k, i₀, hi₀, hslotz.trans hslot⟩
    · rw [Function.update_of_ne hslotz] at hz'
      exact h.fresh z y hz'
  · obtain ⟨hut, hp'⟩ := pending_update hp (by simp)
    obtain ⟨hok, hcell, hi⟩ := h.storing u hu l slot' y hp'
    refine ⟨hok, ?_, hi⟩
    have hne : slot' ≠ slot := by
      rintro rfl
      exact hut (h.distinct u hu t ht l k slot' y x hp' hpending)
    exact (Function.update_of_ne hne _ _).trans hcell
  · obtain ⟨-, hp⟩ := pending_update hp (by simp)
    obtain ⟨-, hp'⟩ := pending_update hp' (by simp)
    exact h.distinct u hu v hv l l' slot' y y' hp hp'
  · exact h.counting u hu l y (pending_update hp (by simp)).2

/-- The counter of a lane that is not atomic is raised. -/
theorem Inv.complete_count (h : Inv S s log) {t : ℕ} (ht : t < S.threads)
    {k : κ} {x : β} {todo : List (κ × β)}
    (hthread : s.thread t = ⟨some (.count k x), todo⟩) :
    Inv S (complete s t todo (.count k x)) log := by
  have hpending : (s.thread t).pending = some (.count k x) := by rw [hthread]
  refine ⟨h.total_complete hthread, fun l => ?_, fun u a ha => ?_,
    fun l i y hy => ?_, h.fresh, fun u hu l slot y hp => ?_,
    fun u hu v hv l l' slot y y' hp hp' => ?_, fun u hu l y hp => ?_⟩
  · have hcounting := counting_complete ht hthread l
    have hone : (Thread.mk (some (.count k x)) todo).counting l =
        if k = l then 1 else 0 := rfl
    have hcount := h.count l
    unfold complete
    dsimp only
    by_cases hl : k = l
    · subst hl
      rw [if_pos rfl] at hone
      rw [Function.update_self]
      omega
    · rw [if_neg hl] at hone
      rw [Function.update_of_ne (Ne.symm hl)]
      omega
  · refine h.todo u a ?_
    rw [← todo_complete hthread u]
    exact ha
  · rcases h.written l i y hy with hcell | ⟨u, hu, hp⟩
    · exact Or.inl hcell
    · -- the thread that counts has no record to store
      refine Or.inr ⟨u, hu, ?_⟩
      have hut : u ≠ t := by
        rintro rfl
        rw [hpending] at hp
        cases hp
      show (Function.update s.thread t _ u).pending = _
      rw [Function.update_of_ne hut]
      exact hp
  · exact h.storing u hu l slot y (pending_update hp (by simp)).2
  · obtain ⟨-, hp⟩ := pending_update hp (by simp)
    obtain ⟨-, hp'⟩ := pending_update hp' (by simp)
    exact h.distinct u hu v hv l l' slot y y' hp hp'
  · exact h.counting u hu l y (pending_update hp (by simp)).2

/-- **A step keeps the invariant**, with a longer log perhaps. -/
theorem Inv.step (h : Inv S s log) (hroomy : Roomy S) {s' : State κ β} {t : ℕ}
    (hstep : step S s t = some s') : ∃ log', Inv S s' log' := by
  obtain ⟨ht, ⟨p, todo, hthread, -, rfl⟩ | ⟨k, x, rest, hthread, rfl⟩⟩ :=
    step_cases hstep
  · cases p with
    | store k slot x => exact ⟨log, h.complete_store ht hthread⟩
    | count k x => exact ⟨log, h.complete_count ht hthread⟩
  · cases hlane : S.atomic k with
    | true => exact ⟨_, h.start_atomic hroomy ht hthread hlane⟩
    | false => exact ⟨_, h.start_plain hroomy ht hthread hlane⟩

/-! ## What follows from the invariant -/

/-- **No record is written over**: a place is free until the thread that has
claimed it writes there, and no other thread claims it. -/
theorem Inv.keeps (h : Inv S s log) (hroomy : Roomy S) {s' : State κ β}
    {t : ℕ} (hstep : SharedAppends.step S s t = some s') {z : ℤ} {x : β}
    (hz : s.cell z = some x) : s'.cell z = some x := by
  obtain ⟨ht, ⟨p, todo, hthread, -, rfl⟩ | ⟨k, y, rest, hthread, rfl⟩⟩ :=
    step_cases hstep
  · cases p with
    | store k slot y =>
      have hfree := (h.storing t ht k slot y (by rw [hthread])).2.1
      have hne : z ≠ slot := by
        rintro rfl
        rw [hfree] at hz
        cases hz
      exact (Function.update_of_ne hne _ _).trans hz
    | count k y => exact hz
  · unfold start
    split
    · exact hz
    · have hfree := h.cell_next hroomy ht (k := k) (x := y) (by
        rw [hthread]
        exact List.mem_cons_self)
      have hne : z ≠ S.base k + s.count k := by
        rintro rfl
        rw [h.count_eq hroomy hthread, hfree] at hz
        cases hz
      exact (Function.update_of_ne hne _ _).trans hz

/-- **A record is in a cell that its lane is meant to have.** -/
theorem Inv.within (h : Inv S s log) {z : ℤ} {x : β} (hz : s.cell z = some x) :
    ∃ k, ∃ i < (S.total k).card, z = S.base k + i := by
  obtain ⟨k, i, hi, hz'⟩ := h.fresh z x hz
  exact ⟨k, i, lt_of_lt_of_le hi (h.length_le k), hz'⟩

/-- **There is a step to take** until all threads have come to their end: no
thread waits for another one. -/
theorem Inv.live (h : Inv S s log) (hroomy : Roomy S) :
    s.Finished S ∨ ∃ t s', SharedAppends.step S s t = some s' := by
  by_cases hend : s.Finished S
  · exact Or.inl hend
  · refine Or.inr ?_
    obtain ⟨t, hne⟩ := not_forall.mp hend
    obtain ⟨ht, hne⟩ := Classical.not_imp.mp hne
    refine ⟨t, ?_⟩
    unfold SharedAppends.step
    rw [if_pos ht]
    cases hthread : s.thread t with
    | mk pending todo =>
      cases pending with
      | some p =>
        have hpending : (s.thread t).pending = some p := by rw [hthread]
        have hok : p.ok S = true := by
          cases p with
          | store k slot x => exact (h.storing t ht k slot x hpending).1
          | count k x =>
            exact hroomy.allowed t (k, x) (h.counting t ht k x hpending).2
        exact ⟨_, if_pos hok⟩
      | none =>
        cases todo with
        | nil => exact absurd hthread hne
        | cons a rest => exact ⟨_, rfl⟩

/-- **At the end each lane has the records that are meant for it**, in an order
that depends on the interleaving. -/
theorem Inv.lane_eq (h : Inv S s log) (hend : s.Finished S) (k : κ) :
    s.count k = (S.total k).card ∧
      (s.lane S k : Multiset (Option β)) = (S.total k).map some := by
  have htodo : ∑ t ∈ Finset.range S.threads, sel k (s.thread t).todo = 0 := by
    refine Finset.sum_eq_zero fun t ht => ?_
    rw [hend t (Finset.mem_range.mp ht)]
    rfl
  have hcounting : ∑ t ∈ Finset.range S.threads, (s.thread t).counting k =
      0 := by
    refine Finset.sum_eq_zero fun t ht => ?_
    rw [hend t (Finset.mem_range.mp ht)]
    rfl
  have htotal := h.total k
  rw [htodo, add_zero] at htotal
  have hcount := h.count k
  rw [hcounting, Nat.add_zero] at hcount
  have hlane : s.lane S k = (log k).map some := by
    refine List.ext_getElem? fun i => ?_
    unfold State.lane
    rw [List.getElem?_map, List.getElem?_map]
    by_cases hi : i < (log k).length
    · rw [List.getElem?_range (by omega), List.getElem?_eq_getElem hi]
      rcases h.written k i _ (List.getElem?_eq_getElem hi) with
        hcell | ⟨t, ht, hp⟩
      · exact congrArg some hcell
      · rw [hend t ht] at hp
        cases hp
    · rw [List.getElem?_eq_none (by rw [List.length_range]; omega),
        List.getElem?_eq_none (by omega)]
      rfl
  refine ⟨?_, ?_⟩
  · rw [hcount, ← htotal, Multiset.coe_card]
  · rw [hlane, ← htotal, Multiset.map_coe]

end Step

/-! ## The runs -/

theorem exists_inv (hroomy : Roomy S) {ts : List ℕ} {s : State κ β}
    (h : Reaches S ts s) : ∃ log, Inv S s log :=
  h.invariant (I := fun s => ∃ log, Inv S s log)
    (fun _ _ _ ⟨_, hinv⟩ _ hstep => hinv.step hroomy hstep) ⟨_, inv_init⟩

/-- The halves of appends that a thread has before it. -/
def Thread.halves (th : Thread κ β) : ℕ :=
  2 * th.todo.length + th.pending.toList.length

/-- The halves that are left to all threads. -/
def State.left (S : System κ β) (s : State κ β) : ℕ :=
  ∑ t ∈ Finset.range S.threads, (s.thread t).halves

/-- A step is one half less. -/
theorem left_step {s s' : State κ β} {t : ℕ} (h : step S s t = some s') :
    s'.left S + 1 = s.left S := by
  have hone : ∀ th : Thread κ β, s'.thread = Function.update s.thread t th →
      t < S.threads → th.halves + 1 = (s.thread t).halves →
      s'.left S + 1 = s.left S := by
    intro th hthread ht hhalves
    have hsum := Transition.sum_exchange
      (f := fun u => (s'.thread u).halves)
      (g := fun u => (s.thread u).halves) ht fun u hu => by
        rw [hthread, Function.update_of_ne hu]
    rw [hthread, Function.update_self] at hsum
    unfold State.left
    rw [hthread]
    omega
  obtain ⟨ht, ⟨p, todo, hthread, -, rfl⟩ | ⟨k, y, rest, hthread, rfl⟩⟩ :=
    step_cases h
  · refine hone ⟨none, todo⟩ (by cases p <;> rfl) ht ?_
    rw [hthread]
    rfl
  · cases hlane : S.atomic k with
    | true =>
      refine hone ⟨some (.store k (S.base k + s.count k) y), rest⟩
        (by simp [start, hlane]) ht ?_
      rw [hthread]
      rfl
    | false =>
      refine hone ⟨some (.count k y), rest⟩ (by simp [start, hlane]) ht ?_
      rw [hthread]
      rfl

/-- **A run takes each half of each append once at most.** -/
theorem Reaches.length_le {ts : List ℕ} {s : State κ β} (h : Reaches S ts s) :
    ts.length ≤ (init S).left S :=
  le_trans (Nat.le_add_right _ _) (@Transition.Run.length_le _ _ _ _
    (fun _ => True) (State.left S) _ _ _ h
    (fun s t s' _ _ hstep => ⟨trivial, by
      have hleft := left_step hstep
      omega⟩) trivial)

end SharedAppends
