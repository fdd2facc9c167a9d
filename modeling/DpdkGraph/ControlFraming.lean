import Mathlib
import DpdkGraph.ControlChannel

/-!
# The messages on the control connections

A worker's messages are fixed in advance (`script`), and so is how many of
them it has sent and the master has taken at any point of their programs.
`Channel` says so for one connection; as long as at most one message is
under way, every read takes exactly that one.
-/

namespace ControlChannel

open Transition (Run exists_run)

variable {e : Setup} {s s' : State} {a : Action} {k : ℕ}

/-! ## How far the worker and the master are -/

/-- The messages of worker `k`, in their order. -/
def script (e : Setup) (k : ℕ) : List (List UInt8) :=
  List.replicate (e.iterations + 2) xgacks ++ [e.topList k]

theorem length_script (e : Setup) (k : ℕ) :
    (script e k).length = e.iterations + 3 := by
  unfold script
  rw [List.length_append, List.length_replicate]
  rfl

theorem script_ack {n : ℕ} (h : n < e.iterations + 2) :
    (script e k)[n]? = some xgacks := by
  unfold script
  rw [List.getElem?_append_left (by rw [List.length_replicate]; exact h),
    List.getElem?_replicate, if_pos h]

theorem script_top (e : Setup) (k : ℕ) :
    (script e k)[e.iterations + 2]? = some (e.topList k) := by
  unfold script
  rw [List.getElem?_append_right (by rw [List.length_replicate]),
    List.length_replicate, Nat.sub_self]
  rfl

/-- No message is empty. -/
theorem ne_nil_of_mem_script {m : List UInt8} (h : m ∈ script e k) :
    m ≠ [] := by
  rcases List.mem_append.mp h with h | h
  · rw [List.eq_of_mem_replicate h]
    exact List.cons_ne_nil _ _
  · rw [List.mem_singleton.mp h]
    refine List.ne_nil_of_length_pos ?_
    rw [e.topList_length]
    exact Nat.succ_pos _

/-- The first messages of the script, and one more. -/
theorem take_script_succ {n : ℕ} {m : List UInt8}
    (h : (script e k)[n]? = some m) :
    (script e k).take (n + 1) = (script e k).take n ++ [m] := by
  rw [List.take_add_one, h]
  rfl

namespace WorkerPc

/-- How many messages have been sent. -/
def sentCount (n : ℕ) : WorkerPc → ℕ
  | waitSchedule | schedAck => 0
  | loading => 1
  | head i | working i => i + 2
  | finished => n + 3

/-- How many iterations have been begun. -/
def begun (n : ℕ) : WorkerPc → ℕ
  | head i => i
  | working i => i + 1
  | finished => n
  | _ => 0

/-- Whether the schedule has been read. -/
def scheduled : WorkerPc → Bool
  | waitSchedule => false
  | _ => true

/-- The iterations are those of the job. -/
def Within (n : ℕ) : WorkerPc → Prop
  | head i => i ≤ n
  | working i => i < n
  | _ => True

end WorkerPc

namespace Phase

/-- How many messages of `k` have been taken. -/
def taken (n : ℕ) (got : ℕ → Bool) (k : ℕ) : Phase → ℕ
  | schedule i | awaitSchedule i => if k < i then 1 else 0
  | collect r => r + 1 + if got k = true then 1 else 0
  | begin r _ => r + 2
  | top => n + 2 + if got k = true then 1 else 0

/-- How many iterations have been begun for `k`. -/
def begunFor (n k : ℕ) : Phase → ℕ
  | schedule _ | awaitSchedule _ => 0
  | collect r => r
  | begin r next => r + if k < next then 1 else 0
  | top => n

/-- Whether the schedule has been sent to `k`. -/
def scheduledFor (k : ℕ) : Phase → Bool
  | schedule i => decide (k < i)
  | awaitSchedule i => decide (k ≤ i)
  | _ => true

/-- The rounds are those of the job, and reads are recorded for the places
where all workers are read from only. -/
def Within (n : ℕ) (got : ℕ → Bool) : Phase → Prop
  | schedule _ | awaitSchedule _ => ∀ k, got k = false
  | collect r => r ≤ n
  | begin r _ => r < n ∧ ∀ k, got k = false
  | top => True

/-- An iteration is begun for a worker when its last message is in hand. -/
theorem begunFor_lt_taken (n : ℕ) (got : ℕ → Bool) (k : ℕ) (ph : Phase) :
    ph.begunFor n k = 0 ∨ ph.begunFor n k < ph.taken n got k := by
  cases ph with
  | schedule i => exact Or.inl rfl
  | awaitSchedule i => exact Or.inl rfl
  | collect r =>
    refine Or.inr ?_
    show r < r + 1 + _
    omega
  | begin r next =>
    refine Or.inr ?_
    show r + (if k < next then 1 else 0) < r + 2
    split <;> omega
  | top =>
    refine Or.inr ?_
    show n < n + 2 + _
    omega

/-- A worker for which no schedule has been sent is not sent anything. -/
theorem begunFor_of_not_scheduled {n k : ℕ} {ph : Phase}
    (h : ph.scheduledFor k = false) : ph.begunFor n k = 0 := by
  cases ph with
  | schedule i => rfl
  | awaitSchedule i => rfl
  | collect r => cases h
  | begin r next => cases h
  | top => cases h

end Phase

/-! ## One connection -/

/-- What is on the connection of worker `k`, where the master has taken
`taken` messages and has begun `begunFor` iterations for it. -/
structure Channel (e : Setup) (k : ℕ) (x : Worker) (taken begunFor : ℕ)
    (scheduledFor : Bool) : Prop where
  /-- The worker is within its job. -/
  within : x.pc.Within e.iterations
  /-- It has sent the first messages of its script, -/
  sent : x.sent = (script e k).take (x.pc.sentCount e.iterations)
  /-- the reads have returned the first ones of these, -/
  reads : x.reads = (script e k).take taken
  /-- and the others are under way, -/
  unread : x.toMaster = (x.sent.drop taken).flatten
  /-- if any, -/
  taken_le : taken ≤ x.pc.sentCount e.iterations
  /-- and at most one. -/
  sent_le : x.pc.sentCount e.iterations ≤ taken + 1
  /-- What the master has sent is read or under way. -/
  fromMaster : x.fromMaster +
      (if x.pc.scheduled = true then e.scheduleSize else 0) +
        tbeginSize * x.pc.begun e.iterations =
    (if scheduledFor = true then e.scheduleSize else 0) + tbeginSize * begunFor

/-- A worker's counts are within its script. -/
theorem sentCount_le {n : ℕ} {pc : WorkerPc} (h : pc.Within n) :
    pc.sentCount n ≤ n + 3 := by
  cases pc with
  | head i =>
    have : i ≤ n := h
    show i + 2 ≤ n + 3
    omega
  | working i =>
    have : i < n := h
    show i + 2 ≤ n + 3
    omega
  | waitSchedule => exact Nat.zero_le _
  | schedAck => exact Nat.zero_le _
  | loading => exact Nat.le_add_left 1 (n + 2)
  | finished => exact le_rfl

section Channel

variable {x : Worker} {taken begunFor : ℕ} {scheduledFor : Bool}

/-- How many messages the worker has sent. -/
theorem Channel.length_sent (h : Channel e k x taken begunFor scheduledFor) :
    x.sent.length = x.pc.sentCount e.iterations := by
  rw [h.sent, List.length_take, length_script]
  exact Nat.min_eq_left (sentCount_le h.within)

/-- Nothing is under way when all messages have been taken. -/
theorem Channel.taken_eq (h : Channel e k x taken begunFor scheduledFor)
    (hnil : x.toMaster = []) : taken = x.pc.sentCount e.iterations := by
  have hdrop : x.sent.drop taken = [] := by
    rw [List.eq_nil_iff_forall_not_mem]
    intro m hm
    have hflat : (x.sent.drop taken).flatten = [] := by rw [← h.unread, hnil]
    have hmem : m ∈ script e k := by
      have hsent := List.mem_of_mem_drop hm
      rw [h.sent] at hsent
      exact List.mem_of_mem_take hsent
    exact ne_nil_of_mem_script hmem (List.flatten_eq_nil_iff.mp hflat m hm)
  have hle := List.drop_eq_nil_iff.mp hdrop
  rw [h.length_sent] at hle
  exact le_antisymm h.taken_le hle

/-- **What is under way is one message of the script**, the next to be
taken. -/
theorem Channel.message (h : Channel e k x taken begunFor scheduledFor)
    (hne : x.toMaster ≠ []) :
    x.pc.sentCount e.iterations = taken + 1 ∧
      (script e k)[taken]? = some x.toMaster := by
  have hlt : taken < x.pc.sentCount e.iterations := by
    refine lt_of_le_of_ne h.taken_le fun heq => hne ?_
    rw [h.unread, List.drop_eq_nil_of_le (by rw [h.length_sent, heq]),
      List.flatten_nil]
  have hone : x.pc.sentCount e.iterations = taken + 1 :=
    le_antisymm h.sent_le hlt
  have hbound := sentCount_le h.within
  have hin : taken < (script e k).length := by
    rw [length_script]
    omega
  obtain ⟨m, hm⟩ : ∃ m, (script e k)[taken]? = some m :=
    ⟨_, List.getElem?_eq_getElem hin⟩
  refine ⟨hone, ?_⟩
  have hun := h.unread
  rw [h.sent, hone, take_script_succ hm, List.drop_append_of_le_length
    (by rw [List.length_take, length_script]; omega),
    List.drop_eq_nil_of_le (by rw [List.length_take]; omega),
    List.nil_append, List.flatten_singleton] at hun
  rw [hun]
  exact hm

/-- The master takes the message that is under way. -/
theorem Channel.receive (h : Channel e k x taken begunFor scheduledFor)
    (hne : x.toMaster ≠ []) :
    Channel e k { x with toMaster := [], reads := x.reads ++ [x.toMaster] }
      (taken + 1) begunFor scheduledFor := by
  obtain ⟨hone, hmsg⟩ := h.message hne
  exact
    { within := h.within
      sent := h.sent
      reads := by
        show x.reads ++ [x.toMaster] = _
        rw [take_script_succ hmsg, h.reads]
      unread := by
        show [] = _
        rw [List.drop_eq_nil_of_le (by rw [h.length_sent, hone]),
          List.flatten_nil]
      taken_le := hone.ge
      sent_le := by rw [hone]; exact Nat.le_succ _
      fromMaster := h.fromMaster }

/-- The worker sends its next message, when the last one has been taken. -/
theorem Channel.send (h : Channel e k x taken begunFor scheduledFor)
    {m : List UInt8} {pc : WorkerPc}
    (htaken : taken = x.pc.sentCount e.iterations)
    (hm : (script e k)[taken]? = some m)
    (hcount : pc.sentCount e.iterations = taken + 1)
    (hwithin : pc.Within e.iterations)
    (hscheduled : pc.scheduled = x.pc.scheduled)
    (hbegun : pc.begun e.iterations = x.pc.begun e.iterations) :
    Channel e k (x.send m pc) taken begunFor scheduledFor where
  within := hwithin
  sent := by
    show x.sent ++ [m] = (script e k).take (pc.sentCount e.iterations)
    rw [hcount, take_script_succ hm, h.sent, htaken]
  reads := h.reads
  unread := by
    have hlen := h.length_sent
    show x.toMaster ++ m = ((x.sent ++ [m]).drop taken).flatten
    rw [h.unread, List.drop_eq_nil_of_le (by omega),
      List.drop_append_of_le_length (by omega),
      List.drop_eq_nil_of_le (by omega)]
    simp
  taken_le := by
    show taken ≤ pc.sentCount e.iterations
    rw [hcount]
    exact Nat.le_succ _
  sent_le := hcount.le
  fromMaster := by
    show x.fromMaster + (if pc.scheduled = true then e.scheduleSize else 0) +
      tbeginSize * pc.begun e.iterations = _
    rw [hscheduled, hbegun]
    exact h.fromMaster

/-- The worker reads all that the master has sent. -/
theorem Channel.read (h : Channel e k x taken begunFor scheduledFor)
    {pc : WorkerPc}
    (hcount : pc.sentCount e.iterations = x.pc.sentCount e.iterations)
    (hwithin : pc.Within e.iterations)
    (hfrom : (if pc.scheduled = true then e.scheduleSize else 0) +
        tbeginSize * pc.begun e.iterations =
      (if scheduledFor = true then e.scheduleSize else 0) +
        tbeginSize * begunFor) :
    Channel e k { x with pc := pc, fromMaster := 0 } taken begunFor
      scheduledFor where
  within := hwithin
  sent := by
    show x.sent = (script e k).take (pc.sentCount e.iterations)
    rw [hcount]
    exact h.sent
  reads := h.reads
  unread := h.unread
  taken_le := by
    show taken ≤ pc.sentCount e.iterations
    rw [hcount]
    exact h.taken_le
  sent_le := by
    show pc.sentCount e.iterations ≤ taken + 1
    rw [hcount]
    exact h.sent_le
  fromMaster := by
    show 0 + (if pc.scheduled = true then e.scheduleSize else 0) +
      tbeginSize * pc.begun e.iterations = _
    rw [Nat.zero_add]
    exact hfrom

/-- The master sends something. -/
theorem Channel.add (h : Channel e k x taken begunFor scheduledFor)
    {n begunFor' : ℕ} {scheduledFor' : Bool}
    (hn : (if scheduledFor' = true then e.scheduleSize else 0) +
        tbeginSize * begunFor' =
      (if scheduledFor = true then e.scheduleSize else 0) +
        tbeginSize * begunFor + n) :
    Channel e k { x with fromMaster := x.fromMaster + n } taken begunFor'
      scheduledFor' where
  within := h.within
  sent := h.sent
  reads := h.reads
  unread := h.unread
  taken_le := h.taken_le
  sent_le := h.sent_le
  fromMaster := by
    have hold := h.fromMaster
    show x.fromMaster + n +
        (if x.pc.scheduled = true then e.scheduleSize else 0) +
        tbeginSize * x.pc.begun e.iterations = _
    omega

end Channel

/-! ## All connections -/

/-- **The invariant** of the runs in which the reads return whole
messages. -/
structure Inv (e : Setup) (s : State) : Prop where
  /-- The header of every acknowledgement of a schedule has been right. -/
  failed : s.failed = false
  /-- The master is within its job. -/
  within : s.phase.Within e.iterations s.got
  /-- The connections. -/
  channel : ∀ k < e.workers,
    Channel e k (s.worker k) (s.phase.taken e.iterations s.got k)
      (s.phase.begunFor e.iterations k) (s.phase.scheduledFor k)
  /-- The top lists taken. -/
  tops : ∀ k < e.workers, ∀ list, s.tops k = some list → list = e.topList k

theorem Inv.init (e : Setup) : Inv e init where
  failed := rfl
  within _ := rfl
  channel k _ :=
    { within := trivial
      sent := rfl
      reads := rfl
      unread := rfl
      taken_le := le_rfl
      sent_le := Nat.zero_le _
      fromMaster := rfl }
  tops k _ list h := by cases h

/-- An action that a condition guards. -/
theorem of_guard {c : Prop} [Decidable c] {o : Option State} {s' : State}
    (h : (if c then o else none) = some s') : c ∧ o = some s' := by
  by_cases hc : c
  · exact ⟨hc, by rwa [if_pos hc] at h⟩
  · rw [if_neg hc] at h
    cases h

/-- The connections after a step that replaces one worker. -/
theorem channel_of_update {x : Worker} {t b : ℕ → ℕ} {f : ℕ → Bool}
    (hself : Channel e k x (t k) (b k) (f k))
    (hrest : ∀ j < e.workers, j ≠ k →
      Channel e j (s.worker j) (t j) (b j) (f j))
    (j : ℕ) (hj : j < e.workers) :
    Channel e j (Function.update s.worker k x j) (t j) (b j) (f j) := by
  by_cases hjk : j = k
  · rw [hjk, Function.update_self]
    exact hself
  · rw [Function.update_of_ne hjk]
    exact hrest j hj hjk

/-- The package `S` is sent. -/
theorem Inv.sendSchedule (h : Inv e s)
    (hstep : sendScheduleStep e s = some s') : Inv e s' := by
  unfold sendScheduleStep at hstep
  split at hstep
  · next k hphase =>
    obtain ⟨hk, hstep⟩ := of_guard hstep
    obtain rfl := Option.some.inj hstep
    have hwithin := h.within
    have hchannel := h.channel
    rw [hphase] at hwithin hchannel
    refine ⟨h.failed, hwithin, ?_, h.tops⟩
    refine channel_of_update ?_ fun j hj hjk => ?_
    · have hlt : (Phase.schedule k).scheduledFor k = false :=
        decide_eq_false (lt_irrefl k)
      have hle : (Phase.awaitSchedule k).scheduledFor k = true :=
        decide_eq_true le_rfl
      refine (hchannel k hk).add ?_
      show (if (Phase.awaitSchedule k).scheduledFor k = true
          then e.scheduleSize else 0) + tbeginSize * 0 =
        (if (Phase.schedule k).scheduledFor k = true
          then e.scheduleSize else 0) + tbeginSize * 0 + e.scheduleSize
      rw [hlt, hle]
      simp
    · have hsched : (Phase.awaitSchedule k).scheduledFor j =
          (Phase.schedule k).scheduledFor j := by
        show decide (j ≤ k) = decide (j < k)
        rw [decide_eq_decide]
        omega
      dsimp only
      rw [hsched]
      exact hchannel j hj
  · cases hstep

/-- Where the master goes from the acknowledgement of a schedule, as far as
worker `j` is concerned. -/
theorem afterSchedule_eq {i j : ℕ} {got : ℕ → Bool} (hj : j < e.workers)
    (hgot : got j = false) :
    (e.afterSchedule i).taken e.iterations got j =
        (if j = i then 1
          else (Phase.awaitSchedule i).taken e.iterations got j) ∧
      (e.afterSchedule i).begunFor e.iterations j = 0 ∧
      (e.afterSchedule i).scheduledFor j =
        (Phase.awaitSchedule i).scheduledFor j := by
  unfold Setup.afterSchedule
  split
  · refine ⟨?_, rfl, (decide_eq_true (by omega)).symm⟩
    show 0 + 1 + (if got j = true then 1 else 0) =
      if j = i then 1 else if j < i then 1 else 0
    rw [hgot]
    simp only [Bool.false_eq_true, if_false]
    split
    · rfl
    · rw [if_pos (by omega)]
  · refine ⟨?_, rfl, ?_⟩
    · show (if j < i + 1 then 1 else 0) =
        if j = i then 1 else if j < i then 1 else 0
      by_cases hji : j = i
      · rw [if_pos hji, if_pos (by omega)]
      · rw [if_neg hji]
        by_cases hlt : j < i
        · rw [if_pos hlt, if_pos (by omega)]
        · rw [if_neg hlt, if_neg (by omega)]
    · show decide (j < i + 1) = decide (j ≤ i)
      rw [decide_eq_decide]
      omega

/-- Where the buffer has room for the message under way, a read returns all
of it. -/
theorem whole_of_unsplit {n : ℕ} {junk : List UInt8}
    (hok : Unsplit s (.receive k n junk))
    (hle : n ≤ (s.worker k).toMaster.length)
    (hcap : (s.worker k).toMaster.length ≤
      if s.phase = .top then topCapacity else ackCapacity) :
    (s.worker k).toMaster.take n = (s.worker k).toMaster ∧
      (s.worker k).toMaster.drop n = [] := by
  have hn : n = (s.worker k).toMaster.length := by
    rcases hok with hn | hn
    · exact hn
    · omega
  rw [hn]
  exact ⟨List.take_length, List.drop_length⟩

/-- The connections of the other workers, where one more worker has been read
from at a place where all are. -/
theorem taken_update (n : ℕ) (got : ℕ → Bool) {ph : Phase} {j k : ℕ}
    (hjk : j ≠ k) :
    ph.taken n (Function.update got k true) j = ph.taken n got j := by
  cases ph with
  | collect r =>
    show r + 1 + (if Function.update got k true j = true then 1 else 0) = _
    rw [Function.update_of_ne hjk]
    rfl
  | top =>
    show n + 2 + (if Function.update got k true j = true then 1 else 0) = _
    rw [Function.update_of_ne hjk]
    rfl
  | _ => rfl

/-- The connections after a read at a place where all workers are read
from. -/
theorem Inv.channel_answer (h : Inv e s) (hk : k < e.workers)
    (hne : (s.worker k).toMaster ≠ [])
    (hplace : ∀ got : ℕ → Bool, s.phase.taken e.iterations
        (Function.update got k true) k =
      s.phase.taken e.iterations (Function.update got k false) k + 1)
    (hgot : s.got k = false) (j : ℕ) (hj : j < e.workers) :
    Channel e j
      (Function.update s.worker k
        { s.worker k with
          toMaster := []
          reads := (s.worker k).reads ++ [(s.worker k).toMaster] } j)
      (s.phase.taken e.iterations (Function.update s.got k true) j)
      (s.phase.begunFor e.iterations j) (s.phase.scheduledFor j) := by
  have hself : Function.update s.got k false = s.got := by
    rw [← hgot, Function.update_eq_self]
  have htaken := hplace s.got
  rw [hself] at htaken
  refine channel_of_update
    (t := s.phase.taken e.iterations (Function.update s.got k true))
    (b := s.phase.begunFor e.iterations)
    (f := s.phase.scheduledFor) ?_ (fun j hj hjk => ?_) j hj
  · rw [htaken]
    exact (h.channel k hk).receive hne
  · rw [taken_update _ _ hjk]
    exact h.channel j hj

section Receive

variable {n : ℕ} {junk : List UInt8} (h : Inv e s)
  (hok : Unsplit s (.receive k n junk))
  (hstep : receiveStep e s k n junk = some s')
include h hok hstep

/-- The answer to a schedule: the first message of the worker, which has
its header. -/
theorem Inv.receive_schedule {i : ℕ} (hphase : s.phase = .awaitSchedule i) :
    Inv e s' := by
  unfold receiveStep at hstep
  obtain ⟨⟨hk, hpos, hle⟩, hstep⟩ := of_guard hstep
  simp only [hphase] at hstep
  obtain ⟨⟨hik, hcap⟩, hstep⟩ := of_guard hstep
  subst hik
  -- the message under way is the first of the worker's script, so that the read
  -- returns all of it
  have hne : (s.worker i).toMaster ≠ [] := List.ne_nil_of_length_pos (by omega)
  have hwithin := h.within
  obtain ⟨hone, hmsg⟩ := (h.channel i hk).message hne
  have hwhole := whole_of_unsplit hok hle
  have hchannel := h.channel
  rw [hphase] at hwithin hmsg hwhole hchannel
  have htaken : (Phase.awaitSchedule i).taken e.iterations s.got i = 0 :=
    if_neg (lt_irrefl i)
  rw [htaken, script_ack (Nat.succ_pos _), Option.some.injEq] at hmsg
  obtain ⟨htake, hdrop⟩ := hwhole (by
    rw [← hmsg, if_neg (by simp)]
    decide)
  have hheader : ((s.worker i).toMaster.take n ++ xgreqs.drop n).take 6 =
      xgacks := by
    rw [htake, ← hmsg]
    rfl
  rw [if_pos hheader, htake, hdrop] at hstep
  obtain rfl := Option.some.inj hstep
  have hrec := (hchannel i hk).receive hne
  rw [htaken] at hrec
  refine ⟨h.failed, ?_, fun j hj => ?_, h.tops⟩
  · show (e.afterSchedule i).Within e.iterations s.got
    unfold Setup.afterSchedule
    split
    · exact Nat.zero_le _
    · exact hwithin
  · -- one message less to come from this worker, and nothing else changes for the
    -- others
    refine channel_of_update
      (t := (e.afterSchedule i).taken e.iterations s.got)
      (b := (e.afterSchedule i).begunFor e.iterations)
      (f := (e.afterSchedule i).scheduledFor)
      ?_ (fun j hj hji => ?_) j hj
    · obtain ⟨h1, h2, h3⟩ := afterSchedule_eq (i := i) hk (hwithin i)
      rw [h1, h2, h3, if_pos rfl]
      exact hrec
    · obtain ⟨h1, h2, h3⟩ := afterSchedule_eq (i := i) hj (hwithin j)
      rw [h1, h2, h3, if_neg hji]
      exact hchannel j hj

/-- The end of an iteration at one worker. -/
theorem Inv.receive_collect {r : ℕ} (hphase : s.phase = .collect r) :
    Inv e s' := by
  unfold receiveStep at hstep
  obtain ⟨⟨hk, hpos, hle⟩, hstep⟩ := of_guard hstep
  simp only [hphase] at hstep
  obtain ⟨⟨hgot, hcap⟩, hstep⟩ := of_guard hstep
  obtain rfl := Option.some.inj hstep
  have hne : (s.worker k).toMaster ≠ [] := List.ne_nil_of_length_pos (by omega)
  obtain ⟨hone, hmsg⟩ := (h.channel k hk).message hne
  have hwhole := whole_of_unsplit hok hle
  have hr : r ≤ e.iterations := by
    have hwithin := h.within
    rw [hphase] at hwithin
    exact hwithin
  have htaken : s.phase.taken e.iterations s.got k = r + 1 := by
    rw [hphase]
    show r + 1 + (if s.got k = true then 1 else 0) = r + 1
    rw [hgot]
    rfl
  rw [htaken, script_ack (by omega), Option.some.injEq] at hmsg
  rw [hphase] at hwhole
  obtain ⟨htake, hdrop⟩ := hwhole (by
    rw [← hmsg, if_neg (by simp)]
    decide)
  rw [htake, hdrop]
  refine ⟨h.failed, ?_, h.channel_answer hk hne (fun got => ?_) hgot, h.tops⟩
  · show s.phase.Within _ _
    rw [hphase]
    exact hr
  · rw [hphase]
    show r + 1 + (if Function.update got k true k = true then 1 else 0) =
      r + 1 + (if Function.update got k false k = true then 1 else 0) + 1
    rw [Function.update_self, Function.update_self]
    rfl

/-- The list of one worker, which fits the larger buffer. -/
theorem Inv.receive_top (hfit : e.ntop * 8 + 4 ≤ topCapacity)
    (hphase : s.phase = .top) : Inv e s' := by
  unfold receiveStep at hstep
  obtain ⟨⟨hk, hpos, hle⟩, hstep⟩ := of_guard hstep
  simp only [hphase] at hstep
  obtain ⟨⟨hgot, hcap⟩, hstep⟩ := of_guard hstep
  obtain rfl := Option.some.inj hstep
  have hne : (s.worker k).toMaster ≠ [] := List.ne_nil_of_length_pos (by omega)
  obtain ⟨hone, hmsg⟩ := (h.channel k hk).message hne
  -- two rounds of answers have been taken from each worker, so that its list is next
  have hwhole := whole_of_unsplit hok hle
  have htaken : s.phase.taken e.iterations s.got k = e.iterations + 2 := by
    rw [hphase]
    show e.iterations + 2 + (if s.got k = true then 1 else 0) = _
    rw [hgot]
    rfl
  rw [htaken, script_top, Option.some.injEq] at hmsg
  rw [hphase] at hwhole
  obtain ⟨htake, hdrop⟩ := hwhole (by
    rw [if_pos rfl, ← hmsg, e.topList_length]
    exact hfit)
  rw [htake, hdrop]
  refine ⟨h.failed, ?_, h.channel_answer hk hne (fun got => ?_) hgot,
    fun j hj list hlist => ?_⟩
  · show s.phase.Within _ _
    rw [hphase]
    trivial
  · rw [hphase]
    show e.iterations + 2 +
        (if Function.update got k true k = true then 1 else 0) =
      e.iterations + 2 +
        (if Function.update got k false k = true then 1 else 0) + 1
    rw [Function.update_self, Function.update_self]
    rfl
  · -- what is kept of the answer is the list without the junk behind it
    dsimp only at hlist
    by_cases hjk : j = k
    · rw [hjk, Function.update_self, Option.some.injEq, ← hmsg,
        List.take_append_of_le_length (by rw [e.topList_length]),
        List.take_of_length_le (by rw [e.topList_length])] at hlist
      rw [hjk, ← hlist]
    · rw [Function.update_of_ne hjk] at hlist
      exact h.tops j hj list hlist

/-- A read of the master returns the message under way. -/
theorem Inv.receive (hfit : e.ntop * 8 + 4 ≤ topCapacity) : Inv e s' := by
  cases hphase : s.phase with
  | awaitSchedule i => exact h.receive_schedule hok hstep hphase
  | collect r => exact h.receive_collect hok hstep hphase
  | top => exact h.receive_top hok hstep hfit hphase
  | _ =>
    unfold receiveStep at hstep
    obtain ⟨-, hstep⟩ := of_guard hstep
    simp only [hphase] at hstep
    cases hstep

end Receive

/-- The master goes on when it has read from all workers. -/
theorem Inv.advance (h : Inv e s) (hstep : advanceStep e s = some s') :
    Inv e s' := by
  unfold advanceStep at hstep
  split at hstep
  · next r hphase =>
    obtain ⟨hall, hstep⟩ := of_guard hstep
    obtain rfl := Option.some.inj hstep
    have hwithin := h.within
    have hchannel := h.channel
    rw [hphase] at hwithin hchannel
    have hr : r ≤ e.iterations := hwithin
    refine ⟨h.failed, ?_, fun k hk => ?_, h.tops⟩
    · dsimp only
      split
      · next hlt => exact ⟨hlt, fun _ => rfl⟩
      · trivial
    · have htaken : (Phase.collect r).taken e.iterations s.got k = r + 2 := by
        show r + 1 + (if s.got k = true then 1 else 0) = r + 2
        rw [hall k hk]
        rfl
      have hold := hchannel k hk
      rw [htaken] at hold
      dsimp only
      split
      · exact hold
      · obtain rfl : r = e.iterations := by omega
        exact hold
  · cases hstep

/-- Where the master goes from a `tbegin`. -/
theorem afterBegin_eq {r m j : ℕ} {got : ℕ → Bool} (hj : j < e.workers)
    (hgot : got j = false) :
    (e.afterBegin r m).taken e.iterations got j = r + 2 ∧
      (e.afterBegin r m).begunFor e.iterations j =
        (Phase.begin r m).begunFor e.iterations j +
          (if j = m then 1 else 0) ∧
      (e.afterBegin r m).scheduledFor j = true := by
  unfold Setup.afterBegin
  split
  · refine ⟨?_, ?_, rfl⟩
    · show r + 1 + 1 + (if got j = true then 1 else 0) = r + 2
      rw [hgot]
      rfl
    · show r + 1 = r + (if j < m then 1 else 0) + (if j = m then 1 else 0)
      split <;> split <;> omega
  · refine ⟨rfl, ?_, rfl⟩
    show r + (if j < m + 1 then 1 else 0) =
      r + (if j < m then 1 else 0) + (if j = m then 1 else 0)
    split <;> split <;> split <;> omega

/-- A `tbegin` is sent. -/
theorem Inv.begin (h : Inv e s) (hstep : beginStep e s = some s') :
    Inv e s' := by
  unfold beginStep at hstep
  split at hstep
  · next r next hphase =>
    obtain ⟨hnext, hstep⟩ := of_guard hstep
    obtain rfl := Option.some.inj hstep
    have hwithin := h.within
    have hchannel := h.channel
    rw [hphase] at hwithin hchannel
    obtain ⟨hr, hgot⟩ := hwithin
    refine ⟨h.failed, ?_, fun j hj => ?_, h.tops⟩
    · show (e.afterBegin r next).Within e.iterations s.got
      unfold Setup.afterBegin
      split
      · exact hr
      · exact ⟨hr, hgot⟩
    · refine channel_of_update
        (t := (e.afterBegin r next).taken e.iterations s.got)
        (b := (e.afterBegin r next).begunFor e.iterations)
        (f := (e.afterBegin r next).scheduledFor)
        ?_ (fun j hj hjn => ?_) j hj
      · obtain ⟨h1, h2, h3⟩ := afterBegin_eq (r := r) (m := next) hnext
          (hgot next)
        rw [h1, h2, h3, if_pos rfl]
        refine (hchannel next hnext).add ?_
        rw [Nat.mul_succ, ← Nat.add_assoc]
        rfl
      · obtain ⟨h1, h2, h3⟩ := afterBegin_eq (r := r) (m := next) hj (hgot j)
        rw [h1, h2, h3, if_neg hjn]
        exact hchannel j hj
  · cases hstep

/-- The connections after a step of worker `k`. -/
theorem Inv.of_worker (h : Inv e s) {x : Worker}
    (hx : Channel e k x (s.phase.taken e.iterations s.got k)
      (s.phase.begunFor e.iterations k) (s.phase.scheduledFor k)) :
    Inv e (s.setWorker k x) where
  failed := h.failed
  within := h.within
  channel j hj := channel_of_update
    (t := s.phase.taken e.iterations s.got)
    (b := s.phase.begunFor e.iterations)
    (f := s.phase.scheduledFor) hx
    (fun j hj _ => h.channel j hj) j hj
  tops := h.tops

/-- The iterations begun for a worker are at most one more than those it has
acknowledged. -/
theorem Inv.begunFor_le (h : Inv e s) (hk : k < e.workers) :
    s.phase.begunFor e.iterations k = 0 ∨
      s.phase.begunFor e.iterations k + 1 ≤
        (s.worker k).pc.sentCount e.iterations := by
  rcases Phase.begunFor_lt_taken e.iterations s.got k s.phase with h0 | hlt
  · exact Or.inl h0
  · exact Or.inr (Nat.succ_le_of_lt (hlt.trans_le (h.channel k hk).taken_le))

/-- A read of a worker returns what the master has sent. -/
theorem Inv.workerRead (h : Inv e s) {n : ℕ}
    (hok : Unsplit s (.workerRead k n))
    (hstep : workerReadStep e s k n = some s') : Inv e s' := by
  have hn : n = (s.worker k).fromMaster := hok
  subst hn
  unfold workerReadStep at hstep
  obtain ⟨⟨hk, hpos, -⟩, hstep⟩ := of_guard hstep
  have hch := h.channel k hk
  have hfrom := hch.fromMaster
  have hbegun := h.begunFor_le hk
  have hS := e.scheduleSize_pos
  split at hstep
  · next hpc =>
    obtain ⟨-, hstep⟩ := of_guard hstep
    obtain rfl := Option.some.inj hstep
    rw [hpc] at hfrom hbegun
    simp only [WorkerPc.scheduled, WorkerPc.begun, WorkerPc.sentCount,
      Bool.false_eq_true, if_false] at hfrom hbegun
    have hzero : s.phase.begunFor e.iterations k = 0 := by omega
    rw [Nat.sub_self]
    refine h.of_worker (hch.read (by rw [hpc]; rfl) trivial ?_)
    by_cases hs : s.phase.scheduledFor k = true
    · rw [hs, hzero]
      rfl
    · rw [if_neg hs, hzero] at hfrom
      omega
  · next i hpc =>
    obtain ⟨⟨hi, -⟩, hstep⟩ := of_guard hstep
    obtain rfl := Option.some.inj hstep
    rw [hpc] at hfrom hbegun
    simp only [WorkerPc.scheduled, WorkerPc.begun, WorkerPc.sentCount, if_true,
      tbeginSize] at hfrom hbegun
    rw [Nat.sub_self]
    refine h.of_worker (hch.read (by rw [hpc]; rfl) hi ?_)
    by_cases hs : s.phase.scheduledFor k = true
    · rw [if_pos hs] at hfrom
      -- one `tbegin` is under way
      have hone : s.phase.begunFor e.iterations k = i + 1 := by omega
      rw [hs, hone]
      rfl
    · rw [Phase.begunFor_of_not_scheduled (Bool.eq_false_iff.mpr hs),
        if_neg hs] at hfrom
      omega
  · cases hstep

/-- A worker sends its next message when the last one has been taken. -/
theorem Inv.workerSend (h : Inv e s) (hok : Spaced e s (.workerSend k))
    (hstep : workerSendStep e s k = some s') : Inv e s' := by
  unfold workerSendStep at hstep
  obtain ⟨hk, hstep⟩ := of_guard hstep
  have hch := h.channel k hk
  have htaken_le := hch.taken_le
  split at hstep
  · next hpc =>
    obtain rfl := Option.some.inj hstep
    have htaken : s.phase.taken e.iterations s.got k =
        (s.worker k).pc.sentCount e.iterations := by
      rw [hpc] at htaken_le ⊢
      exact Nat.le_zero.mp htaken_le
    refine h.of_worker (hch.send htaken ?_ ?_ trivial (by rw [hpc]; rfl)
      (by rw [hpc]; rfl))
    · rw [htaken, hpc]
      exact script_ack (Nat.succ_pos _)
    · rw [htaken, hpc]
      rfl
  · next hpc =>
    obtain rfl := Option.some.inj hstep
    have htaken := hch.taken_eq (hok (Or.inl hpc))
    refine h.of_worker (hch.send htaken ?_ ?_ (Nat.zero_le _)
      (by rw [hpc]; rfl) (by rw [hpc]; rfl))
    · rw [htaken, hpc]
      exact script_ack (by show 1 < _; omega)
    · rw [htaken, hpc]
      rfl
  · next i hpc =>
    obtain rfl := Option.some.inj hstep
    have hwithin := hch.within
    rw [hpc] at hwithin
    have hi : i < e.iterations := hwithin
    -- the `tbegin` of the iteration has been sent with all messages in hand
    have htaken : s.phase.taken e.iterations s.got k =
        (s.worker k).pc.sentCount e.iterations := by
      have hfrom := hch.fromMaster
      rw [hpc] at hfrom htaken_le ⊢
      simp only [WorkerPc.scheduled, WorkerPc.begun, WorkerPc.sentCount,
        if_true, tbeginSize] at hfrom htaken_le ⊢
      have hS := e.scheduleSize_pos
      have hle : i + 1 ≤ s.phase.begunFor e.iterations k := by
        split at hfrom <;> omega
      rcases Phase.begunFor_lt_taken e.iterations s.got k s.phase with h0 | hlt
      · omega
      · omega
    refine h.of_worker (hch.send htaken ?_ ?_ hi (by rw [hpc]; rfl)
      (by rw [hpc]; rfl))
    · rw [htaken, hpc]
      exact script_ack (by show i + 2 < _; omega)
    · rw [htaken, hpc]
      rfl
  · next i hpc =>
    obtain ⟨hle, hstep⟩ := of_guard hstep
    obtain rfl := Option.some.inj hstep
    have hwithin := hch.within
    rw [hpc] at hwithin
    have hi : i ≤ e.iterations := hwithin
    obtain rfl : i = e.iterations := le_antisymm hi hle
    have htaken := hch.taken_eq (hok (Or.inr hpc))
    refine h.of_worker (hch.send htaken ?_ ?_ trivial (by rw [hpc]; rfl)
      (by rw [hpc]; rfl))
    · rw [htaken, hpc]
      exact script_top e k
    · rw [htaken, hpc]
      rfl
  · cases hstep

/-- **Every step keeps the invariant** where no message is split and none is
sent behind another one. -/
theorem Inv.step (h : Inv e s) (hfit : e.ntop * 8 + 4 ≤ topCapacity)
    (hok : Unsplit s a ∧ Spaced e s a)
    (hstep : ControlChannel.step e s a = some s') : Inv e s' := by
  unfold ControlChannel.step at hstep
  rw [h.failed] at hstep
  simp only [Bool.false_eq_true, if_false] at hstep
  cases a with
  | sendSchedule => exact h.sendSchedule hstep
  | receive k n junk => exact h.receive hok.1 hstep hfit
  | advance => exact h.advance hstep
  | begin => exact h.begin hstep
  | workerRead k n => exact h.workerRead hok.1 hstep
  | workerSend k => exact h.workerSend hok.2 hstep

/-- The iterations the master has started need as many messages of every
worker. -/
theorem started_lt_taken (n : ℕ) (got : ℕ → Bool) (k : ℕ) {q : Phase}
    (h : 0 < q.started { e with iterations := n }) :
    q.started { e with iterations := n } < q.taken n got k := by
  cases q with
  | schedule i => cases h
  | awaitSchedule i => cases h
  | collect r =>
    show r < r + 1 + _
    omega
  | begin r next =>
    show (if 0 < next then r + 1 else r) < r + 2
    split <;> omega
  | top =>
    show n < n + 2 + _
    omega

/-- **The reads of the master return the messages of the workers**, in every
run in which no read returns a part of what has been sent and no worker
sends a message behind another one, where the top list fits the buffer. -/
theorem framed_of_run {as : List Action}
    (hfit : e.ntop * 8 + 4 ≤ topCapacity)
    (hrun : Run (step e) (fun s a => Unsplit s a ∧ Spaced e s a) init as s) :
    Framed e s := by
  have hinv : Inv e s := hrun.invariant
    (fun _ _ _ h hok hstep => h.step hfit hok hstep) (Inv.init e)
  refine ⟨hinv.failed, fun k hk => ?_⟩
  have hch := hinv.channel k hk
  refine ⟨?_, fun i hi => ?_, hinv.tops k hk⟩
  · rw [hch.reads, hch.sent]
    exact List.take_prefix_take_left hch.taken_le
  · have hlt := started_lt_taken (e := e) e.iterations s.got k (q := s.phase)
      (by show 0 < s.phase.started e; omega)
    have hlt' : s.phase.started e < s.phase.taken e.iterations s.got k := hlt
    have hle := hch.taken_le
    rw [hch.length_sent]
    omega

/-! ## One worker -/

/-- One worker, one iteration, and a top list of one entry. -/
def oneWorker : Setup where
  workers := 1
  iterations := 1
  ntop := 1
  scheduleSize := 64
  topList _ := [0, 0, 0, 0, 5, 0, 0, 0, 0, 0, 128, 63]
  topList_length _ := rfl
  scheduleSize_le := by decide
  scheduleSize_pos := by decide

/-- Up to the last acknowledgement, every message read at once. -/
def oneIteration : List Action :=
  [.sendSchedule, .workerRead 0 64, .workerSend 0, .receive 0 6 [],
    .workerSend 0, .receive 0 6 [], .advance, .begin, .workerRead 0 6,
    .workerSend 0]

/-- The master reads the last acknowledgement, then the top list. -/
theorem framed_oneWorker :
    oneWorker.ntop * 8 + 4 ≤ topCapacity ∧
      ∃ s, Run (step oneWorker)
          (fun s a => Unsplit s a ∧ Spaced oneWorker s a) init
          (oneIteration ++ [.receive 0 6 [], .advance, .workerSend 0,
            .receive 0 12 []]) s ∧
        Framed oneWorker s := by
  refine ⟨by decide, ?_⟩
  obtain ⟨s, hrun, -⟩ := exists_run (step oneWorker)
    (fun s a => Unsplit s a ∧ Spaced oneWorker s a) init
    (oneIteration ++ [.receive 0 6 [], .advance, .workerSend 0,
      .receive 0 12 []]) (fun _ => True) (by decide +kernel)
  exact ⟨s, hrun, framed_of_run (by decide) hrun⟩

/-- The worker sends its top list right behind its last acknowledgement, and
one read of the master returns both. -/
theorem not_framed_coalescedTop :
    ¬∀ (e : Setup) (as : List Action) (s : State),
      Run (step e) (fun _ _ => True) init as s → Framed e s := by
  intro h
  obtain ⟨s, hrun, hreads⟩ := exists_run (step oneWorker) (fun _ _ => True) init
    (oneIteration ++ [.workerSend 0, .receive 0 18 []])
    (fun s => ¬(s.worker 0).reads <+: (s.worker 0).sent)
    (by decide +kernel)
  exact hreads ((h _ _ s hrun).2 0 (by decide)).1

end ControlChannel
