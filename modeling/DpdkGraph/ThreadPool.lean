import Mathlib
import DpdkGraph.Transition

/-!
# The thread pool

`CThreadManager` keeps a queue of works, a mutex, a semaphore and a fixed
number of threads that run `ManageFuction`: wait for the semaphore, take the
mutex, take the work at the front of the queue, give the mutex back, run the
work. `PushWorkQue` takes the mutex, puts a work at the end of the queue,
posts the semaphore and gives the mutex back. `PopWorkQue` does not look
whether there is a work to be taken.

Every access to the semaphore, to the mutex and to the queue is a step of
its own, and the threads take their steps in any order. What a work is and
how long it runs is left open. One thread pushes, as the engine's compute
thread does; the works its loop has still to push are part of the state. So
are three histories that no step reads: the works the loop was given, those
taken off the queue, and those that have been run.

Each work costs eleven steps, five of the pushing thread and six of the one
that runs it, and this is what the runs are measured by. That the queue is
never empty when it is read, that the works are taken in the order in which
they are pushed, and that each of them is run by one thread, once, are the
invariant; it is read off one count of the semaphore's tickets and one of
the threads between the mutex's two ends.
-/

namespace ThreadPool

open Transition (Run)

/-! ## The state -/

/-- Where a thread of the pool is in `ManageFuction`. -/
inductive Place (α : Type*)
  /-- In `WaitSem`. -/
  | waitSem
  /-- In `LockMutex`. -/
  | lock
  /-- In `PopWorkQue`. -/
  | pop
  /-- In `UnlockMutex`, with the work it has taken. -/
  | unlock (work : α)
  /-- In `RunThreadFunction`, before the work is done. -/
  | run (work : α)
  /-- On its way back to `WaitSem`. -/
  | back
deriving DecidableEq

/-- Where the pushing thread is. -/
inductive Pusher (α : Type*)
  /-- Between two calls of `PushWorkQue`. -/
  | idle
  /-- At `pthread_mutex_lock`. -/
  | lock (work : α)
  /-- At `m_queWork.push`. -/
  | push (work : α)
  /-- At `PostSem`. -/
  | post
  /-- At `pthread_mutex_unlock`. -/
  | unlock
deriving DecidableEq

/-- A `CThreadManager`, its threads and the thread that pushes. -/
structure State (α : Type*) where
  /-- `m_sem`. -/
  sem : ℕ
  /-- `m_mutex`. -/
  locked : Bool
  /-- `m_queWork`. -/
  queue : List α
  /-- The threads of `m_lstThread`. -/
  thread : ℕ → Place α
  /-- The pushing thread. -/
  pusher : Pusher α
  /-- The works that its loop has still to push. -/
  todo : List α
  /-- Whether the front of an empty queue has been read. -/
  failed : Bool
  /-- The works given to the loop so far. -/
  given : List α
  /-- The works taken off the queue so far. -/
  taken : List α
  /-- The works that have been run. -/
  finished : List α

variable {α : Type*} {n : ℕ} {s s' : State α}

/-- The constructor: the semaphore starts at 0. -/
def init : State α where
  sem := 0
  locked := false
  queue := []
  thread := fun _ => .waitSem
  pusher := .idle
  todo := []
  failed := false
  given := []
  taken := []
  finished := []

/-! ## The steps -/

/-- What can happen next. -/
inductive Action (α : Type*)
  /-- The pushing thread enters a loop over `works`. -/
  | start (works : List α)
  /-- The pushing thread goes on. -/
  | push
  /-- Thread `i` goes on in `ManageFuction`. -/
  | go (i : ℕ)
  /-- The work that thread `i` runs is done. -/
  | finish (i : ℕ)

/-- The pushing thread's loop. -/
def State.start (s : State α) (works : List α) : State α :=
  { s with todo := s.todo ++ works, given := s.given ++ works }

/-- `PushWorkQue`. -/
def pushStep (s : State α) : Option (State α) :=
  match s.pusher with
  | .idle =>
    match s.todo with
    | [] => none
    | work :: todo => some { s with pusher := .lock work, todo := todo }
  | .lock work =>
    if s.locked then none
    else some { s with pusher := .push work, locked := true }
  | .push work => some { s with pusher := .post, queue := s.queue ++ [work] }
  | .post => some { s with pusher := .unlock, sem := s.sem + 1 }
  | .unlock => some { s with pusher := .idle, locked := false }

/-- `ManageFuction`, but for the work. -/
def goStep (s : State α) (i : ℕ) : Option (State α) :=
  match s.thread i with
  | .waitSem =>
    if s.sem = 0 then none
    else some { s with
      thread := Function.update s.thread i .lock, sem := s.sem - 1 }
  | .lock =>
    if s.locked then none
    else some { s with
      thread := Function.update s.thread i .pop, locked := true }
  | .pop =>
    match s.queue with
    | [] => some { s with failed := true }
    | work :: queue =>
      some { s with
        thread := Function.update s.thread i (.unlock work)
        queue := queue
        taken := s.taken ++ [work] }
  | .unlock work => some { s with
      thread := Function.update s.thread i (.run work), locked := false }
  | .run _ => none
  | .back => some { s with thread := Function.update s.thread i .waitSem }

/-- The work of `RunThreadFunction` is done. -/
def finishStep (s : State α) (i : ℕ) : Option (State α) :=
  match s.thread i with
  | .run work =>
    some { s with
      thread := Function.update s.thread i .back
      finished := s.finished ++ [work] }
  | _ => none

/-- **The next state** of a pool of `n` threads, where the action can
happen. -/
def step (n : ℕ) (s : State α) : Action α → Option (State α)
  | .start works => some (s.start works)
  | .push => pushStep s
  | .go i => if i < n then goStep s i else none
  | .finish i => if i < n then finishStep s i else none

/-- The outcomes of a step. -/
inductive Next (n : ℕ) (s : State α) : Action α → State α → Prop
  | start (works : List α) : Next n s (.start works) (s.start works)
  | enter (work : α) (todo : List α) : s.pusher = .idle →
      s.todo = work :: todo →
      Next n s .push { s with pusher := .lock work, todo := todo }
  | acquire (work : α) : s.pusher = .lock work → s.locked = false →
      Next n s .push { s with pusher := .push work, locked := true }
  | push (work : α) : s.pusher = .push work →
      Next n s .push { s with pusher := .post, queue := s.queue ++ [work] }
  | post : s.pusher = .post →
      Next n s .push { s with pusher := .unlock, sem := s.sem + 1 }
  | release : s.pusher = .unlock →
      Next n s .push { s with pusher := .idle, locked := false }
  | wake (i : ℕ) : i < n → s.thread i = .waitSem → 0 < s.sem →
      Next n s (.go i) { s with
        thread := Function.update s.thread i .lock, sem := s.sem - 1 }
  | lock (i : ℕ) : i < n → s.thread i = .lock → s.locked = false →
      Next n s (.go i) { s with
        thread := Function.update s.thread i .pop, locked := true }
  | empty (i : ℕ) : i < n → s.thread i = .pop → s.queue = [] →
      Next n s (.go i) { s with failed := true }
  | pop (i : ℕ) (work : α) (queue : List α) : i < n → s.thread i = .pop →
      s.queue = work :: queue →
      Next n s (.go i) { s with
        thread := Function.update s.thread i (.unlock work)
        queue := queue
        taken := s.taken ++ [work] }
  | unlock (i : ℕ) (work : α) : i < n → s.thread i = .unlock work →
      Next n s (.go i) { s with
        thread := Function.update s.thread i (.run work), locked := false }
  | finish (i : ℕ) (work : α) : i < n → s.thread i = .run work →
      Next n s (.finish i) { s with
        thread := Function.update s.thread i .back
        finished := s.finished ++ [work] }
  | back (i : ℕ) : i < n → s.thread i = .back →
      Next n s (.go i) { s with thread := Function.update s.thread i .waitSem }

/-- A step is one of its outcomes: the cases of the code, where a step that
waits is none. -/
theorem next_of_step {a : Action α} (h : step n s a = some s') :
    Next n s a s' := by
  cases a with
  | start works =>
    obtain rfl := Option.some.inj h
    exact .start works
  | push =>
    have h : pushStep s = some s' := h
    unfold pushStep at h
    split at h
    · next hpusher =>
      -- the pushing thread, step by step of `PushWorkQue`
      split at h
      · cases h
      · next work todo htodo =>
        obtain rfl := Option.some.inj h
        exact .enter work todo hpusher htodo
    · next work hpusher =>
      split at h
      · cases h
      · next hlocked =>
        obtain rfl := Option.some.inj h
        exact .acquire work hpusher (Bool.eq_false_iff.mpr hlocked)
    · next work hpusher =>
      obtain rfl := Option.some.inj h
      exact .push work hpusher
    · next hpusher =>
      obtain rfl := Option.some.inj h
      exact .post hpusher
    · next hpusher =>
      obtain rfl := Option.some.inj h
      exact .release hpusher
  | go i =>
    obtain ⟨hi, h⟩ := Option.ite_none_right_eq_some.mp h
    -- a thread of the pool, by the place where it is
    unfold goStep at h
    split at h
    · next hplace =>
      split at h
      · cases h
      · next hsem =>
        obtain rfl := Option.some.inj h
        exact .wake i hi hplace (Nat.pos_of_ne_zero hsem)
    · next hplace =>
      split at h
      · cases h
      · next hlocked =>
        obtain rfl := Option.some.inj h
        exact .lock i hi hplace (Bool.eq_false_iff.mpr hlocked)
    · next hplace =>
      split at h
      · next hqueue =>
        obtain rfl := Option.some.inj h
        exact .empty i hi hplace hqueue
      · next work queue hqueue =>
        obtain rfl := Option.some.inj h
        exact .pop i work queue hi hplace hqueue
    · next work hplace =>
      obtain rfl := Option.some.inj h
      exact .unlock i work hi hplace
    · cases h
    · next hplace =>
      obtain rfl := Option.some.inj h
      exact .back i hi hplace
  | finish i =>
    obtain ⟨hi, h⟩ := Option.ite_none_right_eq_some.mp h
    unfold finishStep at h
    split at h
    · next work hplace =>
      obtain rfl := Option.some.inj h
      exact .finish i work hi hplace
    · cases h

/-! ## The invariant -/

/-- The works a thread holds. -/
def Place.works : Place α → List α
  | .unlock work | .run work => [work]
  | _ => []

/-- Whether a thread has the mutex. -/
def Place.critical : Place α → ℕ
  | .pop | .unlock _ => 1
  | _ => 0

/-- Whether a thread has a ticket of the semaphore it has taken no work
for. -/
def Place.claims : Place α → ℕ
  | .lock | .pop => 1
  | _ => 0

/-- The work the pushing thread holds. -/
def Pusher.works : Pusher α → List α
  | .lock work | .push work => [work]
  | _ => []

/-- Whether the pushing thread has the mutex. -/
def Pusher.critical : Pusher α → ℕ
  | .push _ | .post | .unlock => 1
  | _ => 0

/-- Whether it has still to post for a work in the queue. -/
def Pusher.owes : Pusher α → ℕ
  | .post => 1
  | _ => 0

/-- The sum of a weight over the `n` threads. -/
def total {M : Type*} [AddCommMonoid M] (n : ℕ) (weight : Place α → M)
    (thread : ℕ → Place α) : M :=
  ∑ i ∈ Finset.range n, weight (thread i)

/-- Where a thread moves, its old weight makes room for the new one. -/
theorem total_update {M : Type*} [AddCommMonoid M] (weight : Place α → M)
    (thread : ℕ → Place α) {i : ℕ} (hi : i < n) (x : Place α) :
    total n weight (Function.update thread i x) + weight (thread i) =
      total n weight thread + weight x := by
  have h := Transition.sum_exchange
    (f := fun u => weight (Function.update thread i x u))
    (g := fun u => weight (thread u)) hi fun u hu => by
      rw [Function.update_of_ne hu]
  rwa [Function.update_self] at h

/-- A thread's weight is part of the sum. -/
theorem le_total (weight : Place α → ℕ) (thread : ℕ → Place α) {i : ℕ}
    (hi : i < n) : weight (thread i) ≤ total n weight thread :=
  Finset.single_le_sum (f := fun u => weight (thread u))
    (fun _ _ => Nat.zero_le _) (Finset.mem_range.mpr hi)

/-- **The invariant of the pool.** -/
structure Inv (n : ℕ) (s : State α) : Prop where
  /-- The mutex is held by one thread, or free. -/
  critical : total n Place.critical s.thread + s.pusher.critical =
    if s.locked then 1 else 0
  /-- There is a ticket for every work in the queue. -/
  tickets : s.queue.length =
    s.sem + total n Place.claims s.thread + s.pusher.owes
  /-- The works are taken in the order in which they are given. -/
  order : s.given = s.taken ++ s.queue ++ s.pusher.works ++ s.todo
  /-- What has been taken has been run, or is held by a thread. -/
  kept : (s.taken : Multiset α) =
    s.finished + total n (fun x => (x.works : Multiset α)) s.thread
  /-- No empty queue has been read. -/
  alive : s.failed = false

/-- The pool as it is constructed. -/
theorem Inv.init (n : ℕ) : Inv n (init : State α) := by
  constructor <;> simp [ThreadPool.init, total, Place.critical, Place.claims,
    Place.works, Pusher.critical, Pusher.owes, Pusher.works]

/-- Whoever is between its two ends holds the mutex. -/
theorem Inv.locked_of_thread (h : Inv n s) {i : ℕ} (hi : i < n)
    (hplace : (s.thread i).critical = 1) : s.locked = true := by
  by_contra hlocked
  have hle := le_total Place.critical s.thread hi
  have hcritical := h.critical
  rw [if_neg hlocked] at hcritical
  omega

/-- And so does the pushing thread. -/
theorem Inv.locked_of_pusher (h : Inv n s) (hpusher : s.pusher.critical = 1) :
    s.locked = true := by
  by_contra hlocked
  have hcritical := h.critical
  rw [if_neg hlocked] at hcritical
  omega

/-- A thread that is about to take a work finds one. -/
theorem Inv.queue_ne_nil (h : Inv n s) {i : ℕ} (hi : i < n)
    (hplace : s.thread i = .pop) : s.queue ≠ [] := by
  intro hqueue
  have hle := le_total Place.claims s.thread hi
  have htickets := h.tickets
  rw [hqueue, List.length_nil] at htickets
  simp only [hplace, Place.claims] at hle
  omega

/-- **A thread moves**: it is enough that the books balance at the thread, for
each of the sums changes by what changes there. -/
theorem Inv.of_thread (h : Inv n s) {i : ℕ} (hi : i < n) (x : Place α)
    (hthread : s'.thread = Function.update s.thread i x)
    (hpusher : s'.pusher = s.pusher)
    (hcritical : (if s'.locked then 1 else 0) + (s.thread i).critical =
      (if s.locked then 1 else 0) + x.critical)
    (htickets : s'.queue.length + s.sem + (s.thread i).claims =
      s.queue.length + s'.sem + x.claims)
    (horder : s'.given = s'.taken ++ s'.queue ++ s'.pusher.works ++ s'.todo)
    (hkept : (s'.taken : Multiset α) + s.finished + (s.thread i).works =
      s.taken + s'.finished + x.works)
    (halive : s'.failed = false) : Inv n s' where
  critical := by
    have hsum := total_update Place.critical s.thread hi x
    have hold := h.critical
    rw [hthread, hpusher]
    omega
  tickets := by
    have hsum := total_update Place.claims s.thread hi x
    have hold := h.tickets
    rw [hthread, hpusher]
    omega
  order := horder
  kept := by
    have hsum := total_update (fun x => (x.works : Multiset α)) s.thread hi x
    rw [hthread]
    refine add_right_cancel (b := (s.finished : Multiset α) +
      (s.thread i).works) ?_
    calc (s'.taken : Multiset α) + (s.finished + (s.thread i).works)
        = s.taken + s'.finished + x.works := by rw [← add_assoc, hkept]
      _ = s'.finished + s.finished +
          (total n (fun x => (x.works : Multiset α)) s.thread + x.works) := by
        rw [h.kept]
        abel
      _ = s'.finished +
          total n (fun x => (x.works : Multiset α))
            (Function.update s.thread i x) +
          (s.finished + (s.thread i).works) := by
        rw [← hsum]
        abel
  alive := halive

/-- **The pushing thread moves**: it is enough that the books balance at the
pushing thread. -/
theorem Inv.of_pusher (h : Inv n s) (hthread : s'.thread = s.thread)
    (hcritical : (if s'.locked then 1 else 0) + s.pusher.critical =
      (if s.locked then 1 else 0) + s'.pusher.critical)
    (htickets : s'.queue.length + s.sem + s.pusher.owes =
      s.queue.length + s'.sem + s'.pusher.owes)
    (hworks : s'.queue ++ s'.pusher.works ++ s'.todo =
      s.queue ++ s.pusher.works ++ s.todo)
    (hgiven : s'.given = s.given) (htaken : s'.taken = s.taken)
    (hfinished : s'.finished = s.finished) (halive : s'.failed = s.failed) :
    Inv n s' where
  critical := by
    have hold := h.critical
    rw [hthread]
    omega
  tickets := by
    have hold := h.tickets
    rw [hthread]
    omega
  order := by
    rw [hgiven, htaken, h.order]
    simp only [List.append_assoc] at hworks ⊢
    rw [hworks]
  kept := by rw [htaken, hfinished, hthread, h.kept]
  alive := halive.trans h.alive

/-- **Every step keeps the invariant.** The pusher has its own books, and the
threads have theirs; the queue is not empty where a thread takes from it, since
it has a ticket for a work. -/
theorem Inv.step (h : Inv n s) {a : Action α}
    (hstep : ThreadPool.step n s a = some s') : Inv n s' := by
  cases next_of_step hstep with
  | start works =>
    refine ⟨h.critical, h.tickets, ?_, h.kept, h.alive⟩
    simp [State.start, h.order]
  | enter work todo hpusher htodo =>
    refine h.of_pusher rfl ?_ ?_ ?_ rfl rfl rfl rfl <;>
      simp [hpusher, htodo, Pusher.critical, Pusher.owes, Pusher.works]
  | acquire work hpusher hlocked =>
    refine h.of_pusher rfl ?_ ?_ ?_ rfl rfl rfl rfl <;>
      simp [hpusher, hlocked, Pusher.critical, Pusher.owes, Pusher.works]
  | push work hpusher =>
    refine h.of_pusher rfl ?_ ?_ ?_ rfl rfl rfl rfl <;>
      simp [hpusher, Pusher.critical, Pusher.owes, Pusher.works]
    omega
  | post hpusher =>
    refine h.of_pusher rfl ?_ ?_ ?_ rfl rfl rfl rfl <;>
      simp [hpusher, Pusher.critical, Pusher.owes, Pusher.works]
    omega
  -- the lock is the pusher's own
  | release hpusher =>
    have hlocked := h.locked_of_pusher (by rw [hpusher]; rfl)
    refine h.of_pusher rfl ?_ ?_ ?_ rfl rfl rfl rfl <;>
      simp [hpusher, hlocked, Pusher.critical, Pusher.owes, Pusher.works]
  | wake i hi hplace hsem =>
    refine h.of_thread hi .lock rfl rfl ?_ ?_ h.order ?_ h.alive <;>
      simp [hplace, Place.critical, Place.claims, Place.works]
    omega
  | lock i hi hplace hlocked =>
    refine h.of_thread hi .pop rfl rfl ?_ ?_ h.order ?_ h.alive <;>
      simp [hplace, hlocked, Place.critical, Place.claims, Place.works]
  -- a ticket was given for a work, and nobody else can have taken it
  | empty i hi hplace hqueue => exact absurd hqueue (h.queue_ne_nil hi hplace)
  | pop i work queue hi hplace hqueue =>
    refine h.of_thread hi (.unlock work) rfl rfl ?_ ?_ ?_ ?_ h.alive
    · simp [hplace, Place.critical]
    · simp [hplace, hqueue, Place.claims]
      omega
    · -- works are taken in the order of the queue
      simp [h.order, hqueue]
    · rw [hplace, ← Multiset.coe_add]
      exact (add_zero _).trans (add_right_comm _ _ _)
  | unlock i work hi hplace =>
    have hlocked := h.locked_of_thread hi (by rw [hplace]; rfl)
    refine h.of_thread hi (.run work) rfl rfl ?_ ?_ h.order ?_ h.alive <;>
      simp [hplace, hlocked, Place.critical, Place.claims, Place.works]
  | finish i work hi hplace =>
    refine h.of_thread hi .back rfl rfl ?_ ?_ h.order ?_ h.alive
    · simp [hplace, Place.critical]
    · simp [hplace, Place.claims]
    · rw [hplace, ← Multiset.coe_add]
      exact (add_assoc _ _ _).trans (add_zero _).symm
  | back i hi hplace =>
    refine h.of_thread hi .waitSem rfl rfl ?_ ?_ h.order ?_ h.alive <;>
      simp [hplace, Place.critical, Place.claims, Place.works]

/-- The invariant holds in every run. -/
theorem inv_of_run {ok : State α → Action α → Prop} {as : List (Action α)}
    (hrun : Run (step n) ok init as s) : Inv n s :=
  hrun.invariant (fun _ _ _ h _ hstep => h.step hstep) (Inv.init n)

/-- **Mutual exclusion**: two threads are not both between the mutex's two
ends. -/
theorem Inv.eq_of_critical (h : Inv n s) {i j : ℕ} (hi : i < n) (hj : j < n)
    (hci : (s.thread i).critical = 1) (hcj : (s.thread j).critical = 1) :
    i = j := by
  by_contra hne
  have htwo : (s.thread i).critical + (s.thread j).critical ≤
      total n Place.critical s.thread := by
    rw [← Finset.sum_pair hne (f := fun u => (s.thread u).critical)]
    refine Finset.sum_le_sum_of_subset fun u hu => ?_
    rcases Finset.mem_insert.mp hu with rfl | hu
    · exact Finset.mem_range.mpr hi
    · rw [Finset.mem_singleton.mp hu]
      exact Finset.mem_range.mpr hj
  have hone : total n Place.critical s.thread + s.pusher.critical ≤ 1 :=
    h.critical.le.trans (by split <;> decide)
  omega

/-! ## The works that are not finished -/

/-- The works that have been given and not been run. -/
def outstanding (n : ℕ) (s : State α) : Multiset α :=
  (s.queue ++ s.pusher.works ++ s.todo : List α) +
    total n (fun x => (x.works : Multiset α)) s.thread

/-- **No work is lost and none is doubled.** -/
theorem Inv.given_eq (h : Inv n s) :
    (s.given : Multiset α) = s.finished + outstanding n s := by
  rw [h.order, outstanding, List.append_assoc, List.append_assoc,
    ← Multiset.coe_add, h.kept, List.append_assoc]
  abel

/-- What is given and finished says what is outstanding. -/
theorem Inv.outstanding_eq (h : Inv n s) (h' : Inv n s')
    (hgiven : s'.given = s.given) (hfinished : s'.finished = s.finished) :
    outstanding n s' = outstanding n s := by
  have heq := h'.given_eq
  rw [hgiven, hfinished, h.given_eq] at heq
  exact (add_left_cancel heq).symm

/-- Nothing is outstanding in a new pool. -/
theorem outstanding_init : outstanding n (init : State α) = 0 := by
  simp [outstanding, init, total, Place.works, Pusher.works]

/-- A loop gives its works. -/
theorem outstanding_start (works : List α) :
    outstanding n (s.start works) = outstanding n s + works := by
  unfold outstanding State.start
  rw [← List.append_assoc, ← Multiset.coe_add]
  abel

/-- Where no work is outstanding twice, no two threads run the same. -/
theorem eq_of_run (hnodup : (outstanding n s).Nodup) {i j : ℕ} {work : α}
    (hi : i < n) (hj : j < n) (hpi : s.thread i = .run work)
    (hpj : s.thread j = .run work) : i = j := by
  classical
  by_contra hne
  have hcount := Multiset.nodup_iff_count_le_one.mp hnodup work
  have hpair : ∑ u ∈ {i, j}, (s.thread u).works.count work ≤
      ∑ u ∈ Finset.range n, (s.thread u).works.count work := by
    refine Finset.sum_le_sum_of_subset fun u hu => ?_
    rcases Finset.mem_insert.mp hu with rfl | hu
    · exact Finset.mem_range.mpr hi
    · rw [Finset.mem_singleton.mp hu]
      exact Finset.mem_range.mpr hj
  rw [Finset.sum_pair hne, hpi, hpj] at hpair
  rw [outstanding, Multiset.count_add, total, Multiset.count_sum'] at hcount
  simp only [Multiset.coe_count, Place.works, List.count_singleton_self]
    at hpair hcount
  omega

/-! ## Steps that can be taken -/

/-- The steps but for the start of a loop and the end of a work. -/
def Action.Internal : Action α → Prop
  | .push | .go _ => True
  | .start _ | .finish _ => False

instance : DecidablePred (Action.Internal (α := α))
  | .push | .go _ => inferInstanceAs (Decidable True)
  | .start _ | .finish _ => inferInstanceAs (Decidable False)

/-- Such a step leaves what is outstanding. -/
theorem Inv.outstanding_internal (h : Inv n s) {a : Action α} (ha : a.Internal)
    (hstep : ThreadPool.step n s a = some s') :
    outstanding n s' = outstanding n s := by
  refine h.outstanding_eq (h.step hstep) ?_ ?_ <;>
    cases next_of_step hstep with
    | start | finish => exact ha.elim
    | _ => rfl

/-- And it starts no push where none is to be made. -/
theorem idle_of_internal {a : Action α} (ha : a.Internal)
    (hstep : step n s a = some s') (hpusher : s.pusher = .idle)
    (htodo : s.todo = []) : s'.pusher = .idle ∧ s'.todo = [] := by
  cases next_of_step hstep with
  | start | finish => exact ha.elim
  | enter work todo _ hcons =>
    rw [htodo] at hcons
    cases hcons
  | acquire _ h | push _ h | post h | release h =>
    rw [hpusher] at h
    cases h
  | wake | lock | empty | pop | unlock | back => exact ⟨hpusher, htodo⟩

/-- The end of a work takes it away. -/
theorem Inv.outstanding_finish (h : Inv n s) {i : ℕ} {work : α}
    (hplace : s.thread i = .run work)
    (hstep : ThreadPool.step n s (.finish i) = some s') :
    outstanding n s' + {work} = outstanding n s ∧
      s'.pusher = s.pusher ∧ s'.todo = s.todo := by
  have heq := (h.step hstep).given_eq
  cases next_of_step hstep with
  | finish i other hi hother =>
    rw [hplace] at hother
    obtain rfl := Place.run.inj hother
    refine ⟨?_, rfl, rfl⟩
    dsimp only at heq
    rw [h.given_eq, ← Multiset.coe_add, add_assoc] at heq
    rw [add_comm]
    exact (add_left_cancel heq).symm

/-- Such a step can be taken. -/
def CanMove (n : ℕ) (s : State α) : Prop :=
  ∃ a s', a.Internal ∧ step n s a = some s'

theorem canMove_push (h : (pushStep s).isSome = true) : CanMove n s := by
  obtain ⟨s', hs'⟩ := Option.isSome_iff_exists.mp h
  exact ⟨.push, s', trivial, hs'⟩

theorem canMove_go {i : ℕ} (hi : i < n) (h : (goStep s i).isSome = true) :
    CanMove n s := by
  obtain ⟨s', hs'⟩ := Option.isSome_iff_exists.mp h
  exact ⟨.go i, s', trivial, (if_pos hi).trans hs'⟩

/-- Whoever has the mutex goes on. -/
theorem canMove_of_critical {i : ℕ} (hi : i < n)
    (hplace : (s.thread i).critical ≠ 0) : CanMove n s := by
  refine canMove_go hi ?_
  unfold goStep
  cases hthread : s.thread i with
  | pop => cases s.queue <;> rfl
  | unlock work => rfl
  | waitSem | lock | run | back => exact absurd (by rw [hthread]; rfl) hplace

/-- Where the mutex is taken, somebody has it. -/
theorem Inv.canMove_of_locked (h : Inv n s) (hlocked : s.locked = true) :
    CanMove n s := by
  have hcritical := h.critical
  rw [if_pos hlocked] at hcritical
  cases hpusher : s.pusher with
  | push | post | unlock =>
    refine canMove_push ?_
    unfold pushStep
    rw [hpusher]
    rfl
  | idle | lock =>
    have hsum : total n Place.critical s.thread ≠ 0 := by
      rw [hpusher] at hcritical
      simp only [Pusher.critical] at hcritical
      omega
    obtain ⟨i, hi, hplace⟩ := Finset.exists_ne_zero_of_sum_ne_zero hsum
    exact canMove_of_critical (Finset.mem_range.mp hi) hplace

/-- **The loop gets to its end.** -/
theorem Inv.canMove_of_pushing (h : Inv n s)
    (hpushing : s.pusher ≠ .idle ∨ s.todo ≠ []) : CanMove n s := by
  by_cases hlocked : s.locked = true
  · exact h.canMove_of_locked hlocked
  · refine canMove_push ?_
    unfold pushStep
    cases hpusher : s.pusher with
    | idle =>
      have htodo : s.todo ≠ [] :=
        hpushing.resolve_left fun hne => hne hpusher
      obtain ⟨work, todo, htodo⟩ := List.exists_cons_of_ne_nil htodo
      simp [htodo]
    | lock | push | post | unlock => simp [hlocked]

/-- A thread that neither waits for a work nor runs one goes on. -/
theorem Inv.canMove_of_thread (h : Inv n s) {i : ℕ} (hi : i < n)
    (hwait : s.thread i ≠ .waitSem) (hrun : ∀ work, s.thread i ≠ .run work) :
    CanMove n s := by
  cases hplace : s.thread i with
  | waitSem => exact absurd hplace hwait
  | run work => exact absurd hplace (hrun work)
  | pop | unlock =>
    exact canMove_of_critical hi (by rw [hplace]; exact Nat.one_ne_zero)
  | back =>
    refine canMove_go hi ?_
    unfold goStep
    rw [hplace]
    rfl
  | lock =>
    by_cases hlocked : s.locked = true
    · exact h.canMove_of_locked hlocked
    · refine canMove_go hi ?_
      unfold goStep
      simp [hplace, hlocked]

/-- A thread that waits goes on where there is a ticket. -/
theorem canMove_of_sem {i : ℕ} (hi : i < n) (hplace : s.thread i = .waitSem)
    (hsem : 0 < s.sem) : CanMove n s := by
  refine canMove_go hi ?_
  unfold goStep
  simp [hplace, hsem.ne']

/-- **A work in the queue is taken by a thread that runs none.** -/
theorem Inv.canMove_of_queue (h : Inv n s) (hqueue : s.queue ≠ []) {i : ℕ}
    (hi : i < n) (hrun : ∀ work, s.thread i ≠ .run work) : CanMove n s := by
  by_cases hwait : s.thread i = .waitSem
  swap
  · exact h.canMove_of_thread hi hwait hrun
  by_cases hsem : 0 < s.sem
  · exact canMove_of_sem hi hwait hsem
  have htickets := h.tickets
  have hlen := List.length_pos_of_ne_nil hqueue
  by_cases howes : s.pusher.owes = 0
  · -- another thread has the ticket
    have hsum : total n Place.claims s.thread ≠ 0 := by omega
    obtain ⟨j, hj, hclaims⟩ := Finset.exists_ne_zero_of_sum_ne_zero hsum
    refine h.canMove_of_thread (Finset.mem_range.mp hj) (fun hplace => ?_)
      fun work hplace => ?_ <;>
      · rw [hplace] at hclaims
        exact hclaims rfl
  · refine h.canMove_of_pushing (Or.inl fun hidle => howes ?_)
    rw [hidle]
    rfl

/-- **As many threads as works are enough**: a work that no thread runs is on
its way to one. -/
theorem Inv.canMove_of_outstanding (h : Inv n s) {work : α}
    (hwork : work ∈ outstanding n s)
    (hcard : (outstanding n s).card ≤ n)
    (hrun : ∀ i < n, s.thread i ≠ .run work) : CanMove n s := by
  rcases Multiset.mem_add.mp hwork with hwork | hwork
  · by_cases hpushing : s.pusher ≠ .idle ∨ s.todo ≠ []
    · exact h.canMove_of_pushing hpushing
    push Not at hpushing
    rw [Multiset.mem_coe, hpushing.1, hpushing.2] at hwork
    have hqueue : s.queue ≠ [] := by
      rintro hnil
      rw [hnil] at hwork
      exact absurd hwork List.not_mem_nil
    -- not every thread runs a work
    have hfree : ∃ i < n, ∀ work, s.thread i ≠ .run work := by
      by_contra hall
      push Not at hall
      have hcount : n ≤ (total n (fun x => (x.works : Multiset α))
          s.thread).card := by
        rw [total, Multiset.card_sum]
        calc n = ∑ i ∈ Finset.range n, 1 := by simp
          _ ≤ _ := Finset.sum_le_sum fun i hi => by
            obtain ⟨work, hplace⟩ := hall i (Finset.mem_range.mp hi)
            rw [hplace]
            exact le_rfl
      rw [outstanding, Multiset.card_add, Multiset.coe_card] at hcard
      have hlen := List.length_pos_of_ne_nil hqueue
      simp only [List.length_append] at hcard
      omega
    obtain ⟨i, hi, hnot⟩ := hfree
    exact h.canMove_of_queue hqueue hi hnot
  · obtain ⟨i, hi, hmem⟩ := Multiset.mem_sum.mp hwork
    have hi := Finset.mem_range.mp hi
    cases hplace : s.thread i with
    | unlock other =>
      exact canMove_of_critical hi (by rw [hplace]; exact Nat.one_ne_zero)
    | run other =>
      rw [hplace] at hmem
      rw [List.mem_singleton.mp hmem] at hrun
      exact absurd hplace (hrun i hi)
    | waitSem | lock | pop | back =>
      rw [hplace] at hmem
      exact absurd hmem List.not_mem_nil

/-! ## How long the runs are -/

/-- The steps a thread has before it. -/
def Place.rest : Place α → ℕ
  | .waitSem => 0
  | .lock => 5
  | .pop => 4
  | .unlock _ => 3
  | .run _ => 2
  | .back => 1

/-- The steps the pushing thread has before it, and those of the thread that
it has not posted for. -/
def Pusher.rest : Pusher α → ℕ
  | .idle => 0
  | .lock _ => 10
  | .push _ => 9
  | .post => 8
  | .unlock => 1

/-- **What is left to be done.** -/
def rest (n : ℕ) (s : State α) : ℕ :=
  11 * s.todo.length + s.pusher.rest + 6 * s.sem + total n Place.rest s.thread

/-- A work costs eleven steps. -/
theorem rest_start (works : List α) :
    rest n (s.start works) = rest n s + 11 * works.length := by
  unfold rest State.start
  rw [List.length_append]
  dsimp only
  omega

/-- The actions that start no loop. -/
def Action.Goes : Action α → Prop
  | .start _ => False
  | .push | .go _ | .finish _ => True

instance : DecidablePred (Action.Goes (α := α))
  | .start _ => inferInstanceAs (Decidable False)
  | .push | .go _ | .finish _ => inferInstanceAs (Decidable True)

theorem Action.Internal.goes {a : Action α} (h : a.Internal) : a.Goes := by
  cases a with
  | start | finish => exact h.elim
  | push | go => exact trivial

/-- **Every other step takes one away** of what is left; a step of `start` alone
adds to it. -/
theorem Inv.rest_step (h : Inv n s) {a : Action α} (ha : a.Goes)
    (hstep : ThreadPool.step n s a = some s') : rest n s' + 1 = rest n s := by
  have hthread : ∀ {i : ℕ} (x : Place α), i < n →
      total n Place.rest (Function.update s.thread i x) +
        (s.thread i).rest = total n Place.rest s.thread + x.rest :=
    fun x hi => total_update Place.rest s.thread hi x
  cases next_of_step hstep with
  | start works => exact ha.elim
  | enter work todo hpusher htodo =>
    simp only [rest, hpusher, htodo, Pusher.rest, List.length_cons]
    omega
  | acquire work hpusher | push work hpusher | post hpusher
  | release hpusher =>
    simp only [rest, hpusher, Pusher.rest]
    omega
  | wake i hi hplace hsem =>
    have hsum := hthread .lock hi
    simp only [hplace, Place.rest] at hsum
    simp only [rest]
    omega
  | lock i hi hplace =>
    have hsum := hthread .pop hi
    simp only [hplace, Place.rest] at hsum
    simp only [rest]
    omega
  | empty i hi hplace hqueue => exact absurd hqueue (h.queue_ne_nil hi hplace)
  | pop i work queue hi hplace =>
    have hsum := hthread (.unlock work) hi
    simp only [hplace, Place.rest] at hsum
    simp only [rest]
    omega
  | unlock i work hi hplace =>
    have hsum := hthread (.run work) hi
    simp only [hplace, Place.rest] at hsum
    simp only [rest]
    omega
  | finish i work hi hplace =>
    have hsum := hthread .back hi
    simp only [hplace, Place.rest] at hsum
    simp only [rest]
    omega
  | back i hi hplace =>
    have hsum := hthread .waitSem hi
    simp only [hplace, Place.rest] at hsum
    simp only [rest]
    omega

/-- Where nothing is left, every work has been run. -/
theorem Inv.finished_of_rest (h : Inv n s) (hrest : rest n s = 0) :
    s.taken = s.given ∧ s.finished.Perm s.given := by
  have htodo : s.todo = [] := by
    rw [← List.length_eq_zero_iff]
    unfold rest at hrest
    omega
  have hpusher : s.pusher = .idle := by
    have hzero : s.pusher.rest = 0 := by
      unfold rest at hrest
      omega
    cases hp : s.pusher with
    | idle => rfl
    | _ => rw [hp] at hzero; cases hzero
  have hplace : ∀ i ∈ Finset.range n, s.thread i = .waitSem := by
    intro i hi
    have hle := le_total Place.rest s.thread (Finset.mem_range.mp hi)
    have hzero : (s.thread i).rest = 0 := by
      unfold rest at hrest
      omega
    cases hp : s.thread i with
    | waitSem => rfl
    | _ => rw [hp] at hzero; cases hzero
  -- nobody holds a ticket or a work
  have hclaims : total n Place.claims s.thread = 0 :=
    Finset.sum_eq_zero fun i hi => by rw [hplace i hi]; rfl
  have hworks : total n (fun x => (x.works : Multiset α)) s.thread = 0 :=
    Finset.sum_eq_zero fun i hi => by rw [hplace i hi]; rfl
  have hqueue : s.queue = [] := by
    rw [← List.length_eq_zero_iff, h.tickets, hclaims, hpusher]
    unfold rest at hrest
    simp only [Pusher.owes]
    omega
  -- what is neither in the queue nor to be pushed has been taken
  have htaken : s.taken = s.given := by
    rw [h.order, hqueue, hpusher, htodo]
    simp [Pusher.works]
  refine ⟨htaken, ?_⟩
  have hkept := h.kept
  rw [hworks, add_zero, htaken] at hkept
  exact (Multiset.coe_eq_coe.mp hkept).symm

/-- Where something is left, it can go on. -/
theorem Inv.exists_goes (h : Inv n s) (hn : 0 < n) (hrest : rest n s ≠ 0) :
    ∃ a s', a.Goes ∧ ThreadPool.step n s a = some s' := by
  have hmove : CanMove n s → ∃ a s', a.Goes ∧ ThreadPool.step n s a = some s' :=
    fun ⟨a, s', ha, hstep⟩ => ⟨a, s', ha.goes, hstep⟩
  have hthread : ∀ i < n, s.thread i ≠ .waitSem →
      ∃ a s', a.Goes ∧ ThreadPool.step n s a = some s' := by
    intro i hi hwait
    by_cases hrun : ∀ work, s.thread i ≠ .run work
    · exact hmove (h.canMove_of_thread hi hwait hrun)
    · push Not at hrun
      obtain ⟨work, hplace⟩ := hrun
      have hfinish : finishStep s i = some { s with
          thread := Function.update s.thread i .back
          finished := s.finished ++ [work] } := by
        unfold finishStep
        rw [hplace]
      exact ⟨.finish i, _, trivial, (if_pos hi).trans hfinish⟩
  by_cases hpushing : s.pusher ≠ .idle ∨ s.todo ≠ []
  · exact hmove (h.canMove_of_pushing hpushing)
  push Not at hpushing
  by_cases hsem : s.sem = 0
  · have hsum : total n Place.rest s.thread ≠ 0 := by
      intro hzero
      apply hrest
      rw [rest, hpushing.1, hpushing.2, hsem, hzero]
      rfl
    obtain ⟨i, hi, hplace⟩ := Finset.exists_ne_zero_of_sum_ne_zero hsum
    refine hthread i (Finset.mem_range.mp hi) fun hwait => hplace ?_
    rw [hwait]
    rfl
  · by_cases hwait : s.thread 0 = .waitSem
    · exact hmove (canMove_of_sem hn hwait (Nat.pos_of_ne_zero hsem))
    · exact hthread 0 hn hwait

/-- Only the start of a loop gives works. -/
theorem given_of_goes {a : Action α} (ha : a.Goes)
    (hstep : step n s a = some s') : s'.given = s.given := by
  cases next_of_step hstep with
  | start works => exact ha.elim
  | _ => rfl

/-- **Eleven steps for each work**, those taken and those that are left: five of
the pushing thread and six of the thread that runs it. -/
theorem Inv.rest_run (h : Inv n s) {ok : State α → Action α → Prop}
    {as : List (Action α)} (hrun : Run (ThreadPool.step n) ok s as s') :
    as.countP (fun a => decide a.Goes) + rest n s' + 11 * s.given.length =
      rest n s + 11 * s'.given.length := by
  induction hrun with
  | nil s => simp
  | @cons s t s' a as ha hnext _ ih =>
    have ih := ih (h.step hnext)
    by_cases hgoes : a.Goes
    · have hrest := h.rest_step hgoes hnext
      rw [given_of_goes hgoes hnext] at ih
      simp only [List.countP_cons, hgoes, decide_true, if_true]
      omega
    · rw [List.countP_cons_of_neg (by simp [hgoes])]
      cases a with
      | start works =>
        obtain rfl := Option.some.inj hnext
        have hgiven : (s.start works).given.length =
            s.given.length + works.length := List.length_append
        rw [rest_start, hgiven] at ih
        omega
      | _ => exact absurd trivial hgoes

/-- A run that starts no loop. -/
theorem Inv.goes_run (h : Inv n s) {as : List (Action α)}
    (hrun : Run (ThreadPool.step n) (fun _ a => a.Goes) s as s') :
    Inv n s' ∧ s'.given = s.given ∧ as.length + rest n s' = rest n s := by
  induction hrun with
  | nil s => exact ⟨h, rfl, Nat.zero_add _⟩
  | cons ha hnext _ ih =>
    obtain ⟨hinv, hgiven, hlen⟩ := ih (h.step hnext)
    refine ⟨hinv, hgiven.trans (given_of_goes ha hnext), ?_⟩
    have hrest := h.rest_step ha hnext
    rw [List.length_cons]
    omega

/-- **Every work is run, once, by one thread.** Whatever is pushed and
however the threads' steps come, `PopWorkQue` never reads an empty queue, no
two threads are in it at once, the works are taken in the order in which
they are given, and a work that has been taken has been run or is held by
one thread. A pool with a thread is never stuck before every work has been
run, and gets there after eleven steps for each. -/
theorem runs_each_once (hn : 0 < n) {as : List (Action α)}
    (hrun : Run (step n) (fun _ _ => True) init as s) :
    s.failed = false ∧
      (∀ i < n, ∀ j < n, s.thread i = .pop → s.thread j = .pop → i = j) ∧
      s.taken <+: s.given ∧
      (s.taken : Multiset α) =
        s.finished + ∑ i ∈ Finset.range n, ((s.thread i).works : Multiset α) ∧
      (s.finished.Perm s.given ∨
        ∃ a s', a.Goes ∧ step n s a = some s') ∧
      ∃ bs s', Run (step n) (fun _ a => a.Goes) s bs s' ∧
        as.countP (fun a => decide a.Goes) + bs.length =
          11 * s.given.length ∧
        s'.taken = s.given ∧ s'.finished.Perm s.given := by
  have h := inv_of_run hrun
  have hcost := (Inv.init n).rest_run hrun
  have hinit : rest n (init : State α) = 0 := by
    simp [rest, init, total, Place.rest, Pusher.rest]
  rw [hinit] at hcost
  -- each step takes one away from what is left, and there is one as long as
  -- something is
  have hend : ∃ bs s', Run (step n) (fun _ a => a.Goes) s bs s' ∧
      rest n s' = 0 := by
    refine Run.exists_end (n := rest n s) (fun bs s' hmore => ?_)
      fun bs s' hmore => ?_
    · have hlen := (h.goes_run hmore).2.2
      omega
    · exact or_iff_not_imp_left.mpr ((h.goes_run hmore).1.exists_goes hn)
  obtain ⟨bs, s', hmore, hzero⟩ := hend
  obtain ⟨hinv, hgiven, hlen⟩ := h.goes_run hmore
  obtain ⟨htaken, hfinished⟩ := hinv.finished_of_rest hzero
  rw [hgiven] at htaken hfinished
  refine ⟨h.alive, fun i hi j hj hpi hpj => ?_, ?_, h.kept, ?_, bs, s', hmore,
    ?_, htaken, hfinished⟩
  · exact h.eq_of_critical hi hj (by rw [hpi]; rfl) (by rw [hpj]; rfl)
  · rw [h.order, List.append_assoc, List.append_assoc]
    exact List.prefix_append _ _
  · by_cases hrest : rest n s = 0
    · exact Or.inl (h.finished_of_rest hrest).2
    · exact Or.inr (h.exists_goes hn hrest)
  · have hnone : (init : State α).given.length = 0 := rfl
    rw [hnone] at hcost
    omega

/-- Two threads and three works, in the middle. -/
theorem runs_each_once_two :
    ∃ s bs s', Run (step 2) (fun _ _ => True) (init : State ℕ)
        [.start [7, 8, 9], .push, .push, .push, .push, .go 1, .push, .go 1,
          .push, .go 1, .go 1, .push, .push] s ∧
      Run (step 2) (fun _ a => a.Goes) s bs s' ∧ bs.length = 21 ∧
      s'.finished.Perm [7, 8, 9] := by
  obtain ⟨s, hrun, hgiven⟩ := Transition.exists_run (step 2) (fun _ _ => True)
    (init : State ℕ)
    [.start [7, 8, 9], .push, .push, .push, .push, .go 1, .push, .go 1,
      .push, .go 1, .go 1, .push, .push] (fun s => s.given = [7, 8, 9])
    (by decide +kernel)
  obtain ⟨-, -, -, -, -, bs, s', hmore, hlen, -, hperm⟩ :=
    runs_each_once Nat.two_pos hrun
  rw [hgiven] at hlen hperm
  exact ⟨s, bs, s', hrun, hmore, Nat.add_left_cancel (n := 12) hlen, hperm⟩

end ThreadPool
