import Mathlib
import DpdkGraph.Iterations

/-!
# How long a run of the workers can be

A run of the workers and the master can be cut into steps as small as one
byte, but it cannot go on for ever. Every step takes something away from
what is left to be done: a compute thread goes on, a byte that will be sent
is sent, a byte under way is received, a message is read. What is left is
counted in `remaining`. A byte counts more before it is sent than after, and
a byte under way pays for the event in which it is received, so that an
event may begin, take a single byte and end, and still lower the count.

The bound needs no assumption on how far the workers are apart, nor that
they all keep going: a worker that stops only takes steps away. Only a
server thread that listens already must not be started once more.
-/

namespace Exchange

open Transition (Run)

variable {job : Job} {s s' : State} {a : Action} {w p : ℕ}

/-! ## What is left -/

/-- What a compute thread has before it. An iteration has eight steps at
most. -/
def Pc.rest (job : Job) : Pc → ℕ
  | .loading n => 8 * job.iterations + 2 * job.workers + 7 + (job.workers - n)
  | .connecting j => 8 * job.iterations + 6 + 2 * (job.workers - j)
  | .greeting j => 8 * job.iterations + 7 + 2 * (job.workers - (j + 1))
  | .waitPeers => 8 * job.iterations + 4
  | .closePeers => 8 * job.iterations + 3
  | .initSend => 8 * job.iterations + 2
  | .initRecv => 8 * job.iterations + 1
  | .iter i .head => 8 * (job.iterations - i)
  | .iter i .compute => 8 * (job.iterations - (i + 1)) + 7
  | .iter i .waitRecv => 8 * (job.iterations - (i + 1)) + 6
  | .iter i .waitSend => 8 * (job.iterations - (i + 1)) + 5
  | .iter i .resetSend => 8 * (job.iterations - (i + 1)) + 4
  | .iter i .resetRecv => 8 * (job.iterations - (i + 1)) + 3
  | .iter i .ack => 8 * (job.iterations - (i + 1)) + 1

/-- What a network thread has before it in the event it is in. -/
def Net.weight : Net → ℕ
  | .idle => 3
  | .handle _ => 2
  | .count => 5
  | .bump _ => 4
  | .block _ _ _ _ ptr => if ptr = 0 then 2 else 4

/-- What has to be done at a worker and between it and the master. -/
def Worker.weight (job : Job) (m : Master) (w : ℕ) (x : Worker) : ℕ :=
  (if x.listening then 0 else 1) + (if x.failed = none then 1 else 0) +
    x.pc.rest job + x.inbox.net.weight +
    (job.iterations + 1 - m.collected w) + (job.iterations - m.begun w)

/-- What has to be done on the connection from `p`, whose compute thread is
at `pc`, to `w`. -/
def Link.weight (job : Job) (p w : ℕ) (pc : Pc) (l : Link) : ℕ :=
  5 * ((if pc.opened w then 0 else 8) +
      job.outSize p w * (job.iterations - pc.computed) + l.outbox.length) +
    4 * l.flight.length + (job.iterations - pc.computed) +
    if l.busy then 1 else 0

/-- What has to be done at a worker and on the connections to it. -/
def share (job : Job) (s : State) (w : ℕ) : ℕ :=
  (s.worker w).weight job s.master w +
    ∑ p ∈ peers job w, (s.link p w).weight job p w (s.worker p).pc

/-- **What is left of a run.** -/
def remaining (job : Job) (s : State) : ℕ :=
  ∑ w ∈ Finset.range job.workers, share job s w

/-- The servers that listen are not started again. -/
def Productive (s : State) : Action → Prop
  | .listen w => (s.worker w).listening = false
  | _ => True

instance (s : State) : DecidablePred (Productive s)
  | .listen _ => inferInstanceAs (Decidable (_ = false))
  | .compute _ _ | .readBegin _ _ | .send _ _ _ | .sendDone _ _ | .dispatch _ _
  | .receive _ _ _ | .bump _ | .drain _ | .collect _ _ | .begin =>
    inferInstanceAs (Decidable True)

/-! ## How far the master is -/

/-- The master begins at most `N` iterations. -/
structure Pace (job : Job) (s : State) : Prop where
  /-- The master begins no iteration too many … -/
  round : s.master.round ≤ job.iterations
  /-- … also while it is sending the beginnings. -/
  next : 0 < s.master.next →
    s.master.round < job.iterations ∧ s.master.next < job.workers

/-- The guard of `begin` that the outcomes do not list. -/
theorem round_lt_of_begin (h : step job s .begin = some s') :
    s.master.round < job.iterations :=
  (of_guard h).1.1

/-- Only the master changes how far it is. -/
theorem Pace.of_same (h : Pace job s)
    (hround : s'.master.round = s.master.round)
    (hnext : s'.master.next = s.master.next) : Pace job s' := by
  constructor
  · rw [hround]
    exact h.round
  · rw [hround, hnext]
    exact h.next

/-- A compute thread leaves the master alone. -/
theorem Computes.master {out : ℕ → List UInt8}
    (h : Computes job s w (s.worker w) out s') : s'.master = s.master := by
  cases h <;> rfl

/-- Every step keeps the pace. -/
theorem Pace.step (h : Pace job s) (hstep : step job s a = some s') :
    Pace job s' := by
  cases next_of_step hstep with
  | compute v out s' hup hc =>
    exact h.of_same (by rw [hc.master]) (by rw [hc.master])
  | begin hnext hgot =>
    have hround := round_lt_of_begin hstep
    by_cases hlast : s.master.next + 1 = job.workers
    · have hm : (if s.master.next + 1 = job.workers then
          (⟨s.master.round + 1, 0, fun _ => false⟩ : Master)
          else { s.master with next := s.master.next + 1 }) =
          ⟨s.master.round + 1, 0, fun _ => false⟩ := if_pos hlast
      rw [hm]
      exact ⟨hround, fun h0 => absurd h0 (lt_irrefl 0)⟩
    · have hm : (if s.master.next + 1 = job.workers then
          (⟨s.master.round + 1, 0, fun _ => false⟩ : Master)
          else { s.master with next := s.master.next + 1 }) =
          { s.master with next := s.master.next + 1 } := if_neg hlast
      rw [hm]
      refine ⟨hround.le, fun _ => ⟨hround, ?_⟩⟩
      show s.master.next + 1 < job.workers
      omega
  | listen | readBegin | send | sendDone | toHandle | toBlock | noSlot | parse
  | store | count | bump | full | partly | collect => exact h.of_same rfl rfl

/-- No worker has begun more than `N` iterations. -/
theorem Pace.begun_le (h : Pace job s) (hc : Control job s)
    (hw : w < job.workers) : (s.worker w).pc.begun ≤ job.iterations := by
  have hmaster : s.master.begun w ≤ job.iterations := by
    unfold Master.begun
    by_cases hnext : w < s.master.next
    · rw [if_pos hnext]
      exact (h.next (by omega)).1
    · rw [if_neg hnext]
      exact h.round
  have hbegun := hc.begun w hw
  unfold messageSize at hbegun
  omega

/-! ## Where a step lowers the count -/

section Lower

variable {v q : ℕ}

/-- It is enough that one share gets less. -/
theorem remaining_lt_of_share (hv : v < job.workers)
    (hle : ∀ u < job.workers, u ≠ v → share job s' u ≤ share job s u)
    (hlt : share job s' v < share job s v) :
    remaining job s' < remaining job s := by
  refine Finset.sum_lt_sum (fun u hu => ?_)
    ⟨v, Finset.mem_range.mpr hv, hlt⟩
  by_cases huv : u = v
  · rw [huv]
    exact hlt.le
  · exact hle u (Finset.mem_range.mp hu) huv

/-- A step at worker `v` that leaves no more to be done on the
connections. -/
theorem remaining_lt_of_worker (hv : v < job.workers)
    (hlink : ∀ u < job.workers, ∀ q < job.workers, u ≠ q →
      (s'.link q u).weight job q u (s'.worker q).pc ≤
        (s.link q u).weight job q u (s.worker q).pc)
    (hother : ∀ u < job.workers, u ≠ v →
      (s'.worker u).weight job s'.master u = (s.worker u).weight job s.master u)
    (hlt : (s'.worker v).weight job s'.master v <
      (s.worker v).weight job s.master v) :
    remaining job s' < remaining job s := by
  have hsum : ∀ u < job.workers,
      ∑ q ∈ peers job u, (s'.link q u).weight job q u (s'.worker q).pc ≤
        ∑ q ∈ peers job u, (s.link q u).weight job q u (s.worker q).pc :=
    fun u hu => Finset.sum_le_sum fun q hq => by
      obtain ⟨hne, hlt⟩ := mem_peers.mp hq
      exact hlink u hu q hlt hne.symm
  refine remaining_lt_of_share hv (fun u hu huv => ?_) ?_
  · rw [share, share, hother u hu huv]
    exact Nat.add_le_add_left (hsum u hu) _
  · exact Nat.add_lt_add_of_lt_of_le hlt (hsum v hv)

/-- A step at worker `v` and on one connection to it. -/
theorem remaining_lt_of_link (hv : v < job.workers) (hq : q < job.workers)
    (hne : q ≠ v)
    (hlink : ∀ u < job.workers, ∀ r < job.workers, u ≠ r → ¬(r = q ∧ u = v) →
      (s'.link r u).weight job r u (s'.worker r).pc =
        (s.link r u).weight job r u (s.worker r).pc)
    (hother : ∀ u < job.workers, u ≠ v →
      (s'.worker u).weight job s'.master u = (s.worker u).weight job s.master u)
    (hlt : (s'.worker v).weight job s'.master v +
        (s'.link q v).weight job q v (s'.worker q).pc <
      (s.worker v).weight job s.master v +
        (s.link q v).weight job q v (s.worker q).pc) :
    remaining job s' < remaining job s := by
  have hmem : q ∈ peers job v := mem_peers.mpr ⟨hne, hq⟩
  refine remaining_lt_of_share hv (fun u hu huv => Eq.le ?_) ?_
  · rw [share, share, hother u hu huv]
    refine congrArg _ (Finset.sum_congr rfl fun r hr => ?_)
    obtain ⟨hru, hr⟩ := mem_peers.mp hr
    exact hlink u hu r hr hru.symm fun h => huv h.2
  · have hrest : ∑ r ∈ (peers job v).erase q,
          (s'.link r v).weight job r v (s'.worker r).pc =
        ∑ r ∈ (peers job v).erase q,
          (s.link r v).weight job r v (s.worker r).pc :=
      Finset.sum_congr rfl fun r hr => by
        obtain ⟨hrq, hr⟩ := Finset.mem_erase.mp hr
        obtain ⟨hrv, hr⟩ := mem_peers.mp hr
        exact hlink v hv r hr hrv.symm fun h => hrq h.1
    rw [share, share, ← Finset.add_sum_erase _ _ hmem,
      ← Finset.add_sum_erase _ _ hmem, hrest]
    omega

/-- The connections after a step of worker `v` that leaves them, and how
much is opened and computed. -/
theorem link_weight_of_pc (hlink : s'.link = s.link)
    (hworker : ∀ u, u ≠ v → (s'.worker u).pc = (s.worker u).pc)
    (hopened : ∀ u < job.workers, u ≠ v →
      (s'.worker v).pc.opened u = (s.worker v).pc.opened u)
    (hcomputed : (s'.worker v).pc.computed = (s.worker v).pc.computed) :
    ∀ u < job.workers, ∀ q < job.workers, u ≠ q →
      (s'.link q u).weight job q u (s'.worker q).pc ≤
        (s.link q u).weight job q u (s.worker q).pc := by
  intro u hu q _ hne
  refine Eq.le ?_
  by_cases hqv : q = v
  · subst hqv
    unfold Link.weight
    rw [hlink, hopened u hu hne, hcomputed]
  · rw [hlink, hworker q hqv]

/-- A worker's step that replaces it and nothing else. -/
theorem remaining_lt_of_setWorker {x : Worker} (hv : v < job.workers)
    (hopened : ∀ u < job.workers, u ≠ v →
      x.pc.opened u = (s.worker v).pc.opened u)
    (hcomputed : x.pc.computed = (s.worker v).pc.computed)
    (hlt : x.weight job s.master v < (s.worker v).weight job s.master v) :
    remaining job (s.setWorker v x) < remaining job s := by
  refine remaining_lt_of_worker hv
    (link_weight_of_pc rfl (fun u hu => by rw [setWorker_of_ne _ _ _ hu])
      (by rw [setWorker_self]; exact hopened)
      (by rw [setWorker_self]; exact hcomputed))
    (fun u _ hu => by rw [setWorker_of_ne _ _ _ hu, setWorker_master]) ?_
  rw [setWorker_self]
  exact hlt

/-- As before, where the compute thread does not move. -/
theorem remaining_lt_of_setWorker_pc {x : Worker} (hv : v < job.workers)
    (hpc : x.pc = (s.worker v).pc)
    (hlt : x.weight job s.master v < (s.worker v).weight job s.master v) :
    remaining job (s.setWorker v x) < remaining job s :=
  remaining_lt_of_setWorker hv (fun u _ _ => by rw [hpc]) (by rw [hpc]) hlt

/-- A step on the connection from `q` to `v` and at `v`, whose compute
thread does not move. -/
theorem remaining_lt_of_setLink {x : Worker} {l : Link} (hv : v < job.workers)
    (hq : q < job.workers) (hne : q ≠ v) (hpc : x.pc = (s.worker v).pc)
    (hlt : x.weight job s.master v + l.weight job q v (s.worker q).pc <
      (s.worker v).weight job s.master v +
        (s.link q v).weight job q v (s.worker q).pc) :
    remaining job ((s.setLink q v l).setWorker v x) < remaining job s := by
  have hpcs : ∀ u, (((s.setLink q v l).setWorker v x).worker u).pc =
      (s.worker u).pc := pc_of_update rfl hpc
  refine remaining_lt_of_link hv hq hne (fun u _ r _ _ hru => ?_)
    (fun u _ hu => ?_) ?_
  · rw [hpcs, setWorker_link, setLink_of_ne _ _ _ _ hru]
  · rw [setWorker_of_ne _ _ _ hu, setLink_worker, setWorker_master,
      setLink_master]
  · rw [hpcs, setWorker_self, setWorker_link, setLink_self, setWorker_master,
      setLink_master]
    exact hlt

/-- A step of the sender of a connection, which changes no worker's
share but for the connection. -/
theorem remaining_lt_of_sent {l : Link} (hv : v < job.workers)
    (hq : q < job.workers) (hne : q ≠ v)
    (hlink : s'.link = (s.setLink q v l).link)
    (hpc : ∀ u, (s'.worker u).pc = (s.worker u).pc)
    (hworker : ∀ u, (s'.worker u).weight job s'.master u =
      (s.worker u).weight job s.master u)
    (hlt : l.weight job q v (s.worker q).pc <
      (s.link q v).weight job q v (s.worker q).pc) :
    remaining job s' < remaining job s := by
  refine remaining_lt_of_link hv hq hne (fun u _ r _ _ hru => ?_)
    (fun u _ _ => hworker u) ?_
  · rw [hpc, hlink, setLink_of_ne _ _ _ _ hru]
  · rw [hpc, hlink, setLink_self, hworker]
    omega

end Lower

/-! ## Every step lowers the count -/

/-- The weight of a worker after a step of its compute thread. -/
theorem Worker.weight_lt {m : Master} {x y : Worker}
    (hlisten : y.listening = x.listening)
    (hfailed : y.failed = x.failed) (hnet : y.inbox.net = x.inbox.net)
    (hpc : y.pc.rest job < x.pc.rest job) :
    y.weight job m w < x.weight job m w := by
  unfold Worker.weight
  rw [hlisten, hfailed, hnet]
  omega

/-- Where a network thread goes on. -/
theorem Worker.weight_lt_of_net {m : Master} {x y : Worker}
    (hlisten : y.listening = x.listening) (hfailed : y.failed = x.failed)
    (hpc : y.pc = x.pc) (hnet : y.inbox.net.weight < x.inbox.net.weight) :
    y.weight job m w < x.weight job m w := by
  unfold Worker.weight
  rw [hlisten, hfailed, hpc]
  omega

/-- Where a worker stops. -/
theorem Worker.weight_lt_of_failed {m : Master} {x y : Worker}
    (hlisten : y.listening = x.listening) (hpc : y.pc = x.pc)
    (hnet : y.inbox.net = x.inbox.net) (hrun : x.failed = none)
    (hfailed : y.failed ≠ none) : y.weight job m w < x.weight job m w := by
  unfold Worker.weight
  rw [hlisten, hpc, hnet, if_neg hfailed, if_pos hrun]
  omega

/-- The compute thread goes on, and neither opens a connection nor hands
blocks over. -/
theorem remaining_lt_of_rest {y : Worker} (hw : w < job.workers)
    (hlisten : y.listening = (s.worker w).listening)
    (hfailed : y.failed = (s.worker w).failed)
    (hnet : y.inbox.net = (s.worker w).inbox.net)
    (hopened : ∀ u < job.workers, u ≠ w →
      y.pc.opened u = (s.worker w).pc.opened u)
    (hcomputed : y.pc.computed = (s.worker w).pc.computed)
    (hrest : y.pc.rest job < (s.worker w).pc.rest job) :
    remaining job (s.setWorker w y) < remaining job s :=
  remaining_lt_of_setWorker hw hopened hcomputed
    (Worker.weight_lt hlisten hfailed hnet hrest)

/-- **A connection is opened.** The handshake was counted as one that will be
sent; now it is in the outbox, which was empty. -/
theorem remaining_lt_of_connect (hinv : Inv job s) (hup : s.Up job w) {j : ℕ}
    (hpc : (s.worker w).pc = .connecting j) (hj : j < job.workers)
    (hjw : j ≠ w) :
    remaining job ((s.setWorker w
      { s.worker w with pc := .greeting j }).setLink w j
        { s.link w j with outbox := greeting job w j }) < remaining job s := by
  have hw : w < job.workers := hup.1
  have hout : (s.link w j).outbox = [] :=
    ((hinv.stream w hw j hj hjw).unopened
      (by rw [hpc]; exact decide_eq_false (lt_irrefl j))).1
  refine remaining_lt_of_worker hw (fun u hu q _ hne => Eq.le ?_)
    (fun u _ hu => ?_) ?_
  · by_cases hqw : q = w
    · subst hqw
      rw [setLink_worker, setWorker_self, hpc]
      by_cases huj : u = j
      · -- the same bytes on both sides
        subst huj
        rw [setLink_self]
        unfold Link.weight
        rw [hout, length_greeting]
        simp only [Pc.opened, Pc.computed, lt_irrefl, le_refl, decide_true,
          decide_false, if_true, List.length_nil]
        rw [if_neg Bool.false_ne_true]
        omega
      · rw [setLink_of_ne _ _ _ _ fun hc => huj hc.2, setWorker_link]
        unfold Link.weight
        have hopened : (Pc.greeting j).opened u = (Pc.connecting j).opened u := by
          show decide (u ≤ j) = decide (u < j)
          rw [decide_eq_decide]
          omega
        rw [hopened]
        rfl
    · rw [setLink_worker, setWorker_of_ne _ _ _ hqw,
        setLink_of_ne _ _ _ _ fun hc => hqw hc.1, setWorker_link]
  · rw [setLink_worker, setLink_master, setWorker_of_ne _ _ _ hu,
      setWorker_master]
  · rw [setLink_worker, setLink_master, setWorker_self, setWorker_master]
    refine Worker.weight_lt rfl rfl rfl ?_
    rw [hpc]
    simp only [Pc.rest]
    omega

/-- **The blocks of an iteration are handed over.** Each was counted as one
that will be sent, as the iteration is one of the job's. -/
theorem remaining_lt_of_computed (hinv : Inv job s) (hpace : Pace job s)
    (hup : s.Up job w) {i : ℕ} {out : ℕ → List UInt8}
    (hpc : (s.worker w).pc = .iter i .compute)
    (hout : ∀ j < job.workers, (out j).length = job.outSize w j) :
    remaining job { s.setWorker w { s.worker w with pc := .iter i .waitRecv }
      with link := Function.update s.link w fun j =>
        if j < job.workers ∧ j ≠ w then (s.link w j).queue (out j)
        else s.link w j } < remaining job s := by
  have hw : w < job.workers := hup.1
  have hi : i + 1 ≤ job.iterations := by
    have hle := hpace.begun_le hinv.control hw
    rw [hpc] at hle
    exact hle
  refine remaining_lt_of_worker hw (fun u hu q _ hne => ?_)
    (fun u _ hu => ?_) ?_
  · by_cases hqw : q = w
    · subst hqw
      show Link.weight job q u ((s.setWorker q _).worker q).pc
        (Function.update s.link q _ q u) ≤ _
      rw [Function.update_self, setWorker_self, hpc, if_pos ⟨hu, hne⟩]
      unfold Link.weight Link.queue
      have hsucc : job.iterations - i = job.iterations - (i + 1) + 1 := by
        omega
      simp only [Pc.opened, Pc.computed, if_true, List.length_append]
      rw [hout u hu, hsucc, Nat.mul_succ]
      omega
    · show Link.weight job q u ((s.setWorker w _).worker q).pc
        (Function.update s.link w _ q u) ≤ _
      rw [Function.update_of_ne hqw, setWorker_of_ne _ _ _ hqw]
  · show ((s.setWorker w _).worker u).weight job s.master u = _
    rw [setWorker_of_ne _ _ _ hu]
  · show ((s.setWorker w _).worker w).weight job s.master w < _
    rw [setWorker_self]
    refine Worker.weight_lt rfl rfl rfl ?_
    rw [hpc]
    simp only [Pc.rest]
    omega

/-- The compute thread's steps. -/
theorem Computes.remaining_lt (hinv : Inv job s) (hpace : Pace job s)
    (hup : s.Up job w) {out : ℕ → List UInt8}
    (h : Computes job s w (s.worker w) out s') :
    remaining job s' < remaining job s := by
  have hw : w < job.workers := hup.1
  cases h with
  | load n hpc hn =>
    refine remaining_lt_of_rest hw rfl rfl rfl (fun u _ _ => by rw [hpc]; rfl)
      (by rw [hpc]; rfl) ?_
    rw [hpc]
    simp only [Pc.rest]
    omega
  | loaded n hpc hn =>
    refine remaining_lt_of_rest hw rfl rfl rfl (fun u _ _ => ?_)
      (by rw [hpc]; rfl) ?_
    · rw [hpc]
      exact decide_eq_false (Nat.not_lt_zero u)
    · rw [hpc]
      simp only [Pc.rest]
      omega
  | connected j hpc hj =>
    refine remaining_lt_of_rest hw rfl rfl rfl (fun u hu _ => ?_)
      (by rw [hpc]; rfl) ?_
    · rw [hpc]
      exact (decide_eq_true (hu.trans_le hj)).symm
    · rw [hpc]
      simp only [Pc.rest]
      omega
  | self hpc =>
    -- the connection that is skipped is to the worker itself
    refine remaining_lt_of_rest hw rfl rfl rfl (fun u _ hne => ?_)
      (by rw [hpc]; rfl) ?_
    · rw [hpc]
      show decide (u < w + 1) = decide (u < w)
      rw [decide_eq_decide]
      omega
    · rw [hpc]
      simp only [Pc.rest]
      omega
  | connect j hpc hj hjw => exact remaining_lt_of_connect hinv hup hpc hj hjw
  | refused j hpc | unreadable j hpc =>
    exact remaining_lt_of_setWorker_pc hw rfl
      (Worker.weight_lt_of_failed rfl rfl rfl hup.2 (Option.some_ne_none _))
  | greeted j hpc hout =>
    refine remaining_lt_of_rest hw rfl rfl rfl (fun u _ _ => ?_)
      (by rw [hpc]; rfl) ?_
    · rw [hpc]
      show decide (u < j + 1) = decide (u ≤ j)
      rw [decide_eq_decide]
      omega
    · rw [hpc]
      simp only [Pc.rest]
      omega
  | computed i hpc hout => exact remaining_lt_of_computed hinv hpace hup hpc hout
  | peers hpc | closePeers hpc | initSend hpc | initRecv hpc | received _ hpc
  | sent _ hpc | resetSend _ hpc | resetRecv _ hpc | ack _ hpc =>
    refine remaining_lt_of_rest hw rfl rfl rfl (fun u _ _ => by rw [hpc]; rfl)
      (by rw [hpc]; rfl) ?_
    rw [hpc]
    simp only [Pc.rest]
    omega

/-- The guard of `sendDone` that the outcomes do not list. -/
theorem busy_of_sendDone (h : step job s (.sendDone p w) = some s') :
    w < job.workers ∧ (s.link p w).busy = true ∧ (s.link p w).outbox = [] :=
  ⟨(of_guard h).1.2.1, (of_guard (of_guard h).2).1⟩

/-- The guard of `readBegin` that the outcomes do not list. -/
theorem lt_of_readBegin {n i : ℕ} (hpc : (s.worker w).pc = .iter i .head)
    (h : step job s (.readBegin w n) = some s') : i < job.iterations := by
  have hstep := (of_guard h).2
  unfold readBeginStep at hstep
  simp only [hpc] at hstep
  exact (of_guard hstep).1.1

/-- What `dpdk_handle_event` decides changes neither the compute thread nor
the server. -/
theorem accept_frame (x : Worker) (p : ℕ) (sender olen : ℤ) :
    (x.accept p sender olen).listening = x.listening ∧
      ((x.accept p sender olen).failed = x.failed ∧
          (x.accept p sender olen).inbox.net = .count ∨
        (x.accept p sender olen).failed ≠ none ∧
          (x.accept p sender olen).inbox.net = x.inbox.net) := by
  unfold Worker.accept
  split
  · split
    · exact ⟨rfl, Or.inl ⟨rfl, rfl⟩⟩
    · exact ⟨rfl, Or.inr ⟨Option.some_ne_none _, rfl⟩⟩
  · exact ⟨rfl, Or.inr ⟨Option.some_ne_none _, rfl⟩⟩

/-! The master's two steps, and what has been taken and begun. -/

section Master

variable {m m' : Master} {x : Worker}

/-- A worker's weight reads two numbers off the master. -/
theorem Worker.weight_of_master (hcollected : m'.collected w = m.collected w)
    (hbegun : m'.begun w = m.begun w) :
    x.weight job m' w = x.weight job m w := by
  unfold Worker.weight
  rw [hcollected, hbegun]

theorem Master.collected_update_of_ne {u : ℕ} (h : u ≠ w) :
    Master.collected { m with got := Function.update m.got w true } u =
      m.collected u := by
  unfold Master.collected
  simp only [Function.update_of_ne h]

theorem Master.collected_update_self (h : m.got w = false) :
    Master.collected { m with got := Function.update m.got w true } w =
      m.collected w + 1 := by
  unfold Master.collected
  simp only [Function.update_self, h, if_true, if_neg Bool.false_ne_true]

/-- What has been taken is not lost when a round begins. -/
theorem Master.collected_advance {u : ℕ}
    (h : ∀ y < job.workers, m.got y = true) (hu : u < job.workers) :
    (if m.next + 1 = job.workers then (⟨m.round + 1, 0, fun _ => false⟩ : Master)
      else { m with next := m.next + 1 }).collected u = m.collected u := by
  unfold Master.collected
  split
  · rw [h u hu]
    rfl
  · rfl

theorem Master.begun_advance_of_ne {u : ℕ} (hu : u < job.workers)
    (hne : u ≠ m.next) :
    (if m.next + 1 = job.workers then (⟨m.round + 1, 0, fun _ => false⟩ : Master)
      else { m with next := m.next + 1 }).begun u = m.begun u := by
  unfold Master.begun
  split
  · next hlast =>
    rw [if_pos (by omega : u < m.next)]
    rfl
  · have hiff : u < m.next + 1 ↔ u < m.next := by omega
    simp only [hiff]

theorem Master.begun_advance_self :
    (if m.next + 1 = job.workers then (⟨m.round + 1, 0, fun _ => false⟩ : Master)
      else { m with next := m.next + 1 }).begun m.next = m.round + 1 := by
  unfold Master.begun
  split
  · rfl
  · simp only [Nat.lt_succ_self, if_true]

end Master

/-- A worker reports once more than it has begun. -/
theorem Pc.reported_le (pc : Pc) : pc.reported ≤ pc.begun + 1 := by
  cases pc with
  | iter i stage => cases stage <;> simp [reported, begun]
  | _ => simp [reported, begun]

/-! Sending, receiving and the round of the master, one lemma an outcome. -/

/-- The network thread goes on and reads nothing. -/
theorem remaining_lt_of_net {y : Worker} (hw : w < job.workers)
    (hlisten : y.listening = (s.worker w).listening)
    (hfailed : y.failed = (s.worker w).failed) (hpc : y.pc = (s.worker w).pc)
    (hnet : y.inbox.net.weight < (s.worker w).inbox.net.weight) :
    remaining job (s.setWorker w y) < remaining job s :=
  remaining_lt_of_setWorker_pc hw hpc
    (Worker.weight_lt_of_net hlisten hfailed hpc hnet)

/-- Bytes leave the outbox: each has one step less before it. -/
theorem remaining_lt_of_send (hup : s.Up job p) (hw : w < job.workers)
    (hne : w ≠ p) {n : ℕ} (hn : 0 < n)
    (hle : n ≤ (s.link p w).outbox.length) :
    remaining job (s.setLink p w { s.link p w with
      outbox := (s.link p w).outbox.drop n
      flight := (s.link p w).flight ++ (s.link p w).outbox.take n }) <
        remaining job s := by
  refine remaining_lt_of_sent hw hup.1 hne.symm rfl (fun _ => rfl)
    (fun _ => rfl) ?_
  unfold Link.weight
  simp only [List.length_append, List.length_take, List.length_drop]
  omega

/-- A block has been sent. -/
theorem remaining_lt_of_sendDone (hup : s.Up job p) (hw : w < job.workers)
    (hne : w ≠ p) (hbusy : (s.link p w).busy = true) :
    remaining job ((s.setLink p w { s.link p w with busy := false }).setWorker p
      { s.worker p with sendJobNum := (s.worker p).sendJobNum - 1 }) <
        remaining job s := by
  refine remaining_lt_of_sent hw hup.1 hne.symm rfl (pc_of_update rfl (by rfl))
    (fun u => ?_) ?_
  · by_cases hu : u = p
    · subst hu
      rw [setWorker_self]
      rfl
    · rw [setWorker_of_ne _ _ _ hu]
      rfl
  · unfold Link.weight
    dsimp only
    rw [hbusy, if_pos rfl, if_neg Bool.false_ne_true]
    omega

/-- **A handshake is read**: its bytes pay for the network thread's way to
the counter, or the worker stops. -/
theorem remaining_lt_of_parse (hinv : Inv job s) (hup : s.Up job w)
    (hnet : (s.worker w).inbox.net = .handle p) {n : ℕ} (hn : 0 < n)
    (hle : n ≤ (s.link p w).flight.length) {l : Link}
    (hl : l = { s.link p w with
      flight := (s.link p w).flight.drop n, arrived := l.arrived })
    (sender olen : ℤ) :
    remaining job ((s.setLink p w l).setWorker w
      ((s.worker w).accept p sender olen)) < remaining job s := by
  obtain ⟨hmem, -⟩ := (hinv.receiver w hup.1 hup.2).handling p hnet
  obtain ⟨hne, hp⟩ := mem_peers.mp hmem
  obtain ⟨hlisten, hcase⟩ := accept_frame (s.worker w) p sender olen
  refine remaining_lt_of_setLink hup.1 hp hne (accept_pc _ _ _ _) ?_
  rw [hl]
  unfold Worker.weight Link.weight
  rw [hlisten, accept_pc, hnet, hup.2]
  simp only [List.length_drop]
  rcases hcase with ⟨hf, hn'⟩ | ⟨hf, hn'⟩
  · rw [hf, hn', hup.2]
    simp only [Net.weight]
    omega
  · rw [if_neg hf, hn', hnet]
    simp only [Net.weight]
    omega

/-- **Bytes of a block are read**: they pay for the network thread's way back
to where a read may end. -/
theorem remaining_lt_of_store (hinv : Inv job s) (hup : s.Up job w)
    {slot sender offset ptr n : ℕ}
    (hnet : (s.worker w).inbox.net = .block p slot sender offset ptr)
    (hn : 0 < n) (hle : n ≤ (s.link p w).flight.length) {l : Link}
    (hl : l = { s.link p w with
      flight := (s.link p w).flight.drop n, arrived := l.arrived }) {y : Worker}
    (hlisten : y.listening = (s.worker w).listening)
    (hfailed : y.failed = (s.worker w).failed) (hpc : y.pc = (s.worker w).pc)
    (hnet' : y.inbox.net = .block p slot sender offset (ptr + n)) :
    remaining job ((s.setLink p w l).setWorker w y) < remaining job s := by
  obtain ⟨-, -, hmem, -⟩ :=
    (hinv.receiver w hup.1 hup.2).storing p slot sender offset ptr hnet
  obtain ⟨hne, hp⟩ := mem_peers.mp hmem
  refine remaining_lt_of_setLink hup.1 hp hne hpc ?_
  have hptr : ptr + n ≠ 0 := by omega
  have hold : 2 ≤ if ptr = 0 then 2 else 4 := by
    split
    · exact le_rfl
    · decide
  rw [hl]
  unfold Worker.weight Link.weight
  dsimp only
  rw [hlisten, hfailed, hpc, hnet', hnet]
  simp only [Net.weight, List.length_drop, if_neg hptr]
  omega

/-- A block is complete, and is counted. -/
theorem remaining_lt_of_full (hinv : Inv job s) (hup : s.Up job w)
    {slot sender offset ptr : ℕ}
    (hnet : (s.worker w).inbox.net = .block p slot sender offset ptr)
    (hptr : 0 < ptr) {l : Link}
    (hl : l = { s.link p w with arrived := l.arrived }) {y : Worker}
    (hlisten : y.listening = (s.worker w).listening)
    (hfailed : y.failed = (s.worker w).failed) (hpc : y.pc = (s.worker w).pc)
    (hnet' : y.inbox.net = .idle) :
    remaining job ((s.setLink p w l).setWorker w y) < remaining job s := by
  obtain ⟨-, -, hmem, -⟩ :=
    (hinv.receiver w hup.1 hup.2).storing p slot sender offset ptr hnet
  obtain ⟨hne, hp⟩ := mem_peers.mp hmem
  refine remaining_lt_of_setLink hup.1 hp hne hpc ?_
  rw [hl]
  unfold Worker.weight Link.weight
  dsimp only
  rw [hlisten, hfailed, hpc, hnet', hnet]
  simp only [Net.weight]
  rw [if_neg hptr.ne']
  omega

/-- **The master collects a message**: it has been sent, so the worker has
one less to be taken from it. -/
theorem remaining_lt_of_collect (hinv : Inv job s) (hpace : Pace job s)
    (hw : w < job.workers) (hgot : s.master.got w = false)
    (hn : messageSize ≤ (s.worker w).toMaster) :
    remaining job { s.setWorker w { s.worker w with
        toMaster := (s.worker w).toMaster - messageSize } with
      master := { s.master with got := Function.update s.master.got w true } } <
        remaining job s := by
  have hlt : s.master.collected w < job.iterations + 1 := by
    have hsent := hinv.control.reported w hw
    have hle := (Pc.reported_le _).trans
      (Nat.add_le_add_right (hpace.begun_le hinv.control hw) 1)
    unfold messageSize at hn hsent
    omega
  refine remaining_lt_of_worker hw
    (link_weight_of_pc rfl (fun u hu => by rw [setWorker_of_ne _ _ _ hu])
      (fun u _ _ => by rw [setWorker_self]) (by rw [setWorker_self]))
    (fun u _ hu => ?_) ?_
  · rw [setWorker_of_ne _ _ _ hu]
    exact Worker.weight_of_master (Master.collected_update_of_ne hu) rfl
  · rw [setWorker_self]
    unfold Worker.weight
    rw [Master.collected_update_self hgot]
    show _ + (job.iterations - s.master.begun w) < _
    dsimp only
    omega

/-- **The master begins an iteration** at the next worker, which has one less
to begin. -/
theorem remaining_lt_of_begin (hnext : s.master.next < job.workers)
    (hgot : ∀ y < job.workers, s.master.got y = true)
    (hround : s.master.round < job.iterations) {x : Worker}
    (hx : x = { s.worker s.master.next with fromMaster := x.fromMaster }) :
    remaining job { s.setWorker s.master.next x with
      master :=
        if s.master.next + 1 = job.workers then
          ⟨s.master.round + 1, 0, fun _ => false⟩
        else { s.master with next := s.master.next + 1 } } <
          remaining job s := by
  have hpc : x.pc = (s.worker s.master.next).pc := by rw [hx]
  refine remaining_lt_of_worker hnext
    (link_weight_of_pc rfl (fun u hu => by rw [setWorker_of_ne _ _ _ hu])
      (fun u _ _ => by rw [setWorker_self, hpc])
      (by rw [setWorker_self, hpc]))
    (fun u hu hne => ?_) ?_
  · rw [setWorker_of_ne _ _ _ hne]
    exact Worker.weight_of_master (Master.collected_advance hgot hu)
      (Master.begun_advance_of_ne hu hne)
  · rw [setWorker_self, hx]
    unfold Worker.weight
    have hbegun : s.master.begun s.master.next = s.master.round := by
      unfold Master.begun
      rw [if_neg (lt_irrefl _), Nat.add_zero]
    rw [Master.collected_advance hgot hnext, Master.begun_advance_self, hbegun]
    dsimp only
    omega

/-- **Every step takes something away from what is left.** A compute thread
comes to a later place, a network thread to the end of its event, a byte from
the outbox into flight and from there to its place, and the master takes and
begins what it has to. -/
theorem remaining_lt (hinv : Inv job s) (hpace : Pace job s) (hok : Framed a)
    (hnew : Productive s a) (hstep : step job s a = some s') :
    remaining job s' < remaining job s := by
  cases next_of_step hstep with
  | listen w hup =>
    refine remaining_lt_of_setWorker_pc hup.1 rfl ?_
    have hlisten : (s.worker w).listening = false := hnew
    unfold Worker.weight
    dsimp only
    rw [hlisten, if_pos rfl, if_neg Bool.false_ne_true]
    omega
  | compute w out s' hup hc => exact hc.remaining_lt hinv hpace hup
  | readBegin w n i hup hpc hn =>
    have hi := lt_of_readBegin hpc hstep
    refine remaining_lt_of_rest hup.1 rfl rfl rfl
      (fun u _ _ => by rw [hpc]; rfl) (by rw [hpc]; rfl) ?_
    rw [hpc]
    simp only [Pc.rest]
    omega
  | send p w n hup hw hne hn hle => exact remaining_lt_of_send hup hw hne hn hle
  | sendDone p w hup hne =>
    obtain ⟨hw, hbusy, -⟩ := busy_of_sendDone hstep
    exact remaining_lt_of_sendDone hup hw hne hbusy
  | toHandle w p hup hnet =>
    refine remaining_lt_of_net hup.1 rfl rfl rfl ?_
    rw [hnet]
    show 2 < 3
    decide
  | toBlock w p slot hup hnet =>
    refine remaining_lt_of_net hup.1 rfl rfl rfl ?_
    rw [hnet]
    show 2 < 3
    decide
  | noSlot w p hup hnet =>
    exact remaining_lt_of_setWorker_pc hup.1 rfl
      (Worker.weight_lt_of_failed rfl rfl rfl hup.2 (Option.some_ne_none _))
  | parse w p n junk hup hnet hn hle hjunk =>
    exact remaining_lt_of_parse hinv hup hnet hn hle rfl _ _
  | store w p slot sender offset ptr n junk hup hnet hn hle =>
    exact remaining_lt_of_store hinv hup hnet hn hle rfl rfl rfl rfl rfl
  | count w hup hnet =>
    refine remaining_lt_of_net hup.1 rfl rfl rfl ?_
    rw [hnet]
    show 4 < 5
    decide
  | bump w v hup hnet =>
    refine remaining_lt_of_net hup.1 rfl rfl rfl ?_
    rw [hnet]
    show 3 < 4
    decide
  | full w p slot sender offset ptr hup hnet hptr =>
    exact remaining_lt_of_full hinv hup hnet hptr rfl rfl rfl rfl rfl
  | partly w p slot sender offset ptr hup hnet hptr =>
    refine remaining_lt_of_net hup.1 rfl rfl rfl ?_
    rw [hnet]
    simp only [Net.weight]
    rw [if_neg hptr.ne']
    decide
  | collect w n hw hnext hgot hn =>
    obtain rfl : n = messageSize := hok
    exact remaining_lt_of_collect hinv hpace hw hgot hn
  | begin hnext hgot =>
    exact remaining_lt_of_begin hnext hgot (round_lt_of_begin hstep) rfl

/-! ## The bound -/

/-- How many steps a run has at most: in each iteration a worker has ten
steps of its own and with the master, and one to be done with each block; a
byte has at most five. -/
def longest (job : Job) : ℕ :=
  ∑ w ∈ Finset.range job.workers,
    (10 * job.iterations + 3 * job.workers + 13 +
      ∑ p ∈ peers job w,
        (5 * (8 + job.outSize p w * job.iterations) + job.iterations))

/-- All of it is left before the first step. -/
theorem remaining_init : remaining job init = longest job := by
  refine Finset.sum_congr rfl fun w _ => ?_
  have hlinks : ∑ p ∈ peers job w,
        (init.link p w).weight job p w (init.worker p).pc =
      ∑ p ∈ peers job w,
        (5 * (8 + job.outSize p w * job.iterations) + job.iterations) :=
    Finset.sum_congr rfl fun p _ => rfl
  have hself : (init.worker w).weight job init.master w =
      10 * job.iterations + 3 * job.workers + 13 := by
    show 1 + 1 + (8 * job.iterations + 2 * job.workers + 7 +
        (job.workers - 0)) + 3 + (job.iterations + 1 - 0) +
      (job.iterations - 0) = _
    omega
  rw [share, hself, hlinks]

/-- What an orderly run keeps while it lowers the count. -/
theorem remaining_run {as : List Action}
    (hrun : Run (step job) (fun s a => Orderly s a ∧ Productive s a) init as s) :
    as.length + remaining job s ≤ longest job := by
  have hinit : remaining job init = longest job := remaining_init
  rw [← hinit]
  exact hrun.length_le (I := fun s => Inv job s ∧ Pace job s)
    (fun s a s' h hok hstep =>
      ⟨⟨h.1.step hok.1 hstep, h.2.step hstep⟩,
        remaining_lt h.1 h.2 hok.1.2.1 hok.2 hstep⟩)
    ⟨Inv.init job, ⟨Nat.zero_le _, fun h => absurd h (lt_irrefl 0)⟩⟩

end Exchange
