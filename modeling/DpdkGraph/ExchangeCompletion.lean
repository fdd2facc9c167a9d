import Mathlib
import DpdkGraph.ExchangeBound

/-!
# The iterations come to their end

A worker waits in many places: for a peer's server, for handshakes, for the
master, for the blocks of its peers and for its own sending threads. None of
the waits is for ever. Of the workers that have the most before them, one
can always go on, or another thread can go on that it waits for: whoever is
further on has sent what it waits for, or has it in a buffer that can be
sent.

This holds of the orderly runs where the two sizes of each block agree and
each in-block is read in one chunk, for as long as no worker has stopped.
Together with the bound on the runs it says that the workers
compute all `N` iterations, whichever steps are taken, as long as some step
is taken that can be.
-/

namespace Exchange

open Transition (Run exists_run)
open BlockBuffer (overwrite)

variable {job : Job} {s s' : State} {a : Action} {w p : ℕ}

/-! ## The sending threads -/

/-- Whether sending threads may be at work. -/
def Pc.handing : Pc → Bool
  | .iter _ .waitRecv | .iter _ .waitSend => true
  | _ => false

/-- Whether `send_job_num` has been set, and no block handed over since. -/
def Pc.fresh : Pc → Bool
  | .initRecv | .iter _ .head | .iter _ .compute | .iter _ .resetRecv
  | .iter _ .ack => true
  | _ => false

theorem Pc.not_fresh_of_handing {pc : Pc} (h : pc.handing = true) :
    pc.fresh = false := by
  cases pc with
  | iter i stage => cases stage <;> simp [handing, fresh] at h ⊢
  | _ => cases h

/-- The peers whose block is with a sending thread. -/
def sending (job : Job) (p : ℕ) (busy : ℕ → Bool) : Finset ℕ :=
  (peers job p).filter fun w => busy w = true

/-- `send_job_num` counts the sending threads at work. -/
structure Sender (job : Job) (p : ℕ) (pc : Pc) (n : ℤ) (busy : ℕ → Bool) :
    Prop where
  /-- While it hands over, `send_job_num` is the number of connections that are
  busy. -/
  counts : pc.handing = true → n = (sending job p busy).card
  /-- Otherwise none is. -/
  idle : pc.handing = false → ∀ w ∈ peers job p, busy w = false
  /-- Before it begins the number is that of the peers. -/
  fresh : pc.fresh = true → n = (job.workers : ℤ) - 1

/-- The sender's part, at one worker. -/
def Sends (job : Job) (s : State) (p : ℕ) : Prop :=
  Sender job p (s.worker p).pc (s.worker p).sendJobNum
    fun w => (s.link p w).busy

theorem Sends.of_same (h : Sends job s p)
    (hpc : (s'.worker p).pc = (s.worker p).pc)
    (hnum : (s'.worker p).sendJobNum = (s.worker p).sendJobNum)
    (hbusy : ∀ w, (s'.link p w).busy = (s.link p w).busy) : Sends job s' p := by
  unfold Sends
  rw [hpc, hnum, funext hbusy]
  exact h

/-- A step of the compute thread between two places at which no block is
with a sending thread. -/
theorem Sender.move {pc pc' : Pc} {n : ℤ} {busy : ℕ → Bool}
    (h : Sender job p pc n busy) (hpc : pc.handing = false)
    (hpc' : pc'.handing = false) (hfresh : pc'.fresh = true → pc.fresh = true) :
    Sender job p pc' n busy where
  counts hc := by
    rw [hpc'] at hc
    cases hc
  idle _ := h.idle hpc
  fresh hf := h.fresh (hfresh hf)

/-- `send_job_num = M-1`. -/
theorem Sender.set {pc pc' : Pc} {n : ℤ} {busy : ℕ → Bool}
    (h : Sender job p pc n busy) (hpc : pc.handing = false)
    (hpc' : pc'.handing = false) :
    Sender job p pc' ((job.workers : ℤ) - 1) busy where
  counts hc := by
    rw [hpc'] at hc
    cases hc
  idle _ := h.idle hpc
  fresh _ := rfl

/-- A step of the worker's own compute thread. -/
theorem Sends.compute (h : Sends job s w) (hw : w < job.workers)
    {out : ℕ → List UInt8} (hc : Computes job s w (s.worker w) out s') :
    Sends job s' w := by
  cases hc with
  | computed i hpc hout =>
    -- every peer's block is handed over
    have hall : ∀ q ∈ peers job w, ((Function.update s.link w fun j =>
        if j < job.workers ∧ j ≠ w then (s.link w j).queue (out j)
        else s.link w j) w q).busy = true := by
      intro q hq
      obtain ⟨hne, hlt⟩ := mem_peers.mp hq
      rw [Function.update_self, if_pos ⟨hlt, hne⟩]
      rfl
    have hnum := h.fresh (by rw [hpc]; rfl)
    show Sender job w ((s.setWorker w _).worker w).pc
      ((s.setWorker w _).worker w).sendJobNum _
    rw [setWorker_self]
    refine ⟨fun _ => ?_, fun hn => ?_, fun hf => ?_⟩
    · rw [hnum, sending, card_filter_all hall, card_peers hw]
      omega
    · cases hn
    · cases hf
  | connect j hpc hj hjw =>
    have hmove : Sender job w (.greeting j) (s.worker w).sendJobNum
        fun u => (s.link w u).busy :=
      Sender.move h (by rw [hpc]; rfl) rfl fun hf => by cases hf
    unfold Sends
    rw [setLink_worker, setWorker_self]
    have hbusy : ∀ u, (((s.setWorker w { s.worker w with
        pc := .greeting j }).setLink w j
          { s.link w j with outbox := greeting job w j }).link w u).busy =
        (s.link w u).busy := by
      intro u
      by_cases hu : u = j
      · rw [hu, setLink_self]
      · rw [setLink_of_ne _ _ _ _ fun hc => hu hc.2, setWorker_link]
    rw [funext hbusy]
    exact hmove
  | refused j hpc | unreadable j hpc =>
    exact h.of_same (by rw [setWorker_self]) (by rw [setWorker_self])
      fun _ => rfl
  | received i hpc =>
    unfold Sends at h ⊢
    rw [setWorker_self]
    rw [hpc] at h
    exact ⟨fun _ => h.counts rfl, fun hn => (by cases hn), fun hf => by cases hf⟩
  | sent i hpc hzero =>
    unfold Sends at h ⊢
    rw [setWorker_self]
    rw [hpc] at h
    refine ⟨fun hn => (by cases hn), fun _ q hq => ?_, fun hf => by cases hf⟩
    have hcard := h.counts rfl
    rw [hzero] at hcard
    have hempty : sending job w (fun u => (s.link w u).busy) = ∅ :=
      Finset.card_eq_zero.mp (by exact_mod_cast hcard.symm)
    by_contra hbusy
    have hmem : q ∈ sending job w fun u => (s.link w u).busy :=
      Finset.mem_filter.mpr ⟨hq, Bool.of_not_eq_false hbusy⟩
    rw [hempty] at hmem
    exact absurd hmem (Finset.notMem_empty q)
  | initSend hpc | resetSend _ hpc =>
    unfold Sends at h ⊢
    rw [setWorker_self]
    exact h.set (by rw [hpc]; rfl) rfl
  | initRecv hpc | resetRecv _ hpc | ack _ hpc =>
    unfold Sends at h ⊢
    rw [setWorker_self]
    exact h.move (by rw [hpc]; rfl) rfl fun _ => by rw [hpc]; rfl
  | load _ hpc | loaded _ hpc | connected _ hpc | self hpc | greeted _ hpc
  | peers hpc | closePeers hpc =>
    unfold Sends at h ⊢
    rw [setWorker_self]
    exact h.move (by rw [hpc]; rfl) rfl fun hf => by cases hf

/-- The end of a sending thread: `send_job_num` remains the number of the peers
whose block is with such a thread. -/
theorem Sends.sendDone (h : Sends job s p) (hw : w ∈ peers job p)
    (hbusy : (s.link p w).busy = true) :
    Sends job ((s.setLink p w { s.link p w with busy := false }).setWorker p
      { s.worker p with sendJobNum := (s.worker p).sendJobNum - 1 }) p := by
  -- a block that is with a sending thread has been handed over
  have hhand : (s.worker p).pc.handing = true := by
    by_contra hn
    rw [h.idle (Bool.eq_false_iff.mpr hn) w hw] at hbusy
    cases hbusy
  have hnew : ∀ u, (((s.setLink p w { s.link p w with busy := false }).setWorker
      p { s.worker p with
        sendJobNum := (s.worker p).sendJobNum - 1 }).link p u).busy =
      if u = w then false else (s.link p u).busy := by
    intro u
    rw [setWorker_link]
    by_cases hu : u = w
    · rw [hu, setLink_self, if_pos rfl]
    · rw [setLink_of_ne _ _ _ _ fun hc => hu hc.2, if_neg hu]
  unfold Sends
  rw [funext hnew, setWorker_self]
  refine ⟨fun _ => ?_, fun hn => ?_, fun hf => ?_⟩
  · -- one peer less is being sent to, and the counter is one less
    have hcard : (sending job p fun u => (s.link p u).busy).card =
        (sending job p fun u =>
          if u = w then false else (s.link p u).busy).card + 1 := by
      refine card_filter_succ hw ?_ hbusy fun q _ hq => ?_
      · dsimp only
        rw [if_pos rfl]
        exact Bool.false_ne_true
      · dsimp only
        rw [if_neg hq]
    show (s.worker p).sendJobNum - 1 = _
    rw [h.counts hhand, hcard]
    push_cast
    omega
  · have hn' : (s.worker p).pc.handing = false := hn
    rw [hhand] at hn'
    cases hn'
  · have hf' : (s.worker p).pc.fresh = true := hf
    rw [Pc.not_fresh_of_handing hhand] at hf'
    cases hf'

/-! ## What is sent and what a network thread waits for -/

/-- The peer whose bytes a network thread is about to take. -/
def Net.expects : Net → Option ℕ
  | .handle p => some p
  | .block p _ _ _ ptr => if ptr = 0 then some p else none
  | _ => none

/-- **The rest of the invariant**: what the progress relies on. A thread that
waits for something must find that another is bound to bring it. -/
structure Live (job : Job) (s : State) : Prop where
  /-- The sending threads. -/
  sends : ∀ p < job.workers, Sends job s p
  /-- A handshake is sent before its sender goes on. -/
  greeted : ∀ p < job.workers, ∀ w < job.workers, w ≠ p →
    (s.worker p).pc.opened w = true → (s.worker p).pc ≠ .greeting w →
    8 ≤ (s.link p w).sent
  /-- What a network thread is about to take is there. -/
  expects : ∀ w < job.workers, (s.worker w).failed = none →
    ∀ p, (s.worker w).inbox.net.expects = some p → (s.link p w).flight ≠ []
  /-- Handshakes are sent to the other workers. -/
  others : ∀ p < job.workers, ∀ j, (s.worker p).pc = .greeting j →
    j < job.workers ∧ j ≠ p

/-- The initial state. -/
theorem Live.init (job : Job) : Live job init where
  sends p _ :=
    ⟨fun h => (by cases h), fun _ _ _ => rfl, fun h => by cases h⟩
  greeted _ _ _ _ _ h := by cases h
  expects _ _ _ _ h := by cases h
  others _ _ _ h := by cases h

/-- No step takes back what has been sent. -/
theorem sent_mono (hnext : Next job s a s') (p w : ℕ) :
    (s.link p w).sent ≤ (s'.link p w).sent := by
  cases hnext with
  | compute v out s' hup hc =>
    obtain ⟨hf, ha⟩ := hc.transport p w
    unfold Link.sent
    rw [hf, ha]
  | send q v n =>
    refine link_cases (fun l => (s.link p w).sent ≤ l.sent) rfl le_rfl ?_
    rintro rfl rfl
    simp only [Link.sent, List.length_append]
    omega
  | sendDone q v =>
    refine link_cases (fun l => (s.link p w).sent ≤ l.sent) rfl le_rfl ?_
    rintro rfl rfl
    exact le_rfl
  | parse v q n | store v q slot sender offset ptr n =>
    refine link_cases (fun l => (s.link p w).sent ≤ l.sent) rfl le_rfl ?_
    rintro rfl rfl
    simp only [Link.sent, List.length_append, List.length_take,
      List.length_drop]
    omega
  | full v q =>
    refine link_cases (fun l => (s.link p w).sent ≤ l.sent) rfl le_rfl ?_
    rintro rfl rfl
    exact le_rfl
  | _ => exact le_rfl

/-- A compute thread does not move its network thread. -/
theorem Computes.net {out : ℕ → List UInt8}
    (h : Computes job s w (s.worker w) out s') :
    (s'.worker w).inbox.net = (s.worker w).inbox.net := by
  cases h with
  | connect j => rw [setLink_worker, setWorker_self]
  | computed i =>
    show ((s.setWorker w _).worker w).inbox.net = _
    rw [setWorker_self]
  | self | load _ | loaded _ | unreadable _ | connected _ | refused _ | greeted _ | peers
  | closePeers | initSend | initRecv | received _ | sent _ | resetSend _
  | resetRecv _ | ack _ => rw [setWorker_self]

/-- What is under way stays there while nothing is received. -/
theorem flight_ne_nil_mono {l l' : List UInt8} (h : l <+: l')
    (hl : l ≠ []) : l' ≠ [] := by
  rintro rfl
  exact hl (List.prefix_nil.mp h)

/-- The sending threads after a step. Only the worker's own compute thread and
sending threads change the counter or the blocks that are with a thread; the
receives of others keep both. -/
theorem Live.sends_step (h : Live job s) (hstep : step job s a = some s')
    (hp : p < job.workers) : Sends job s' p := by
  have hold := h.sends p hp
  have hlinks : ∀ {q v : ℕ} {l : Link}, s'.link = (s.setLink q v l).link →
      l.busy = (s.link q v).busy →
      ∀ w, (s'.link p w).busy = (s.link p w).busy := by
    intro q v l hlink hl w
    refine link_cases (fun l => l.busy = _) hlink rfl ?_
    rintro rfl rfl
    exact hl
  cases next_of_step hstep with
  | compute v out s' hup hc =>
    by_cases hv : p = v
    · subst hv
      exact hold.compute hp hc
    · exact hold.of_same (by rw [hc.worker_of_ne hv])
        (by rw [hc.worker_of_ne hv]) fun w => by rw [hc.link_of_ne hv]
  | readBegin v n i hup hpc hn =>
    by_cases hv : p = v
    · subst hv
      unfold Sends
      rw [setWorker_self]
      exact Sender.move hold (by rw [hpc]; rfl) rfl fun _ => by rw [hpc]; rfl
    · exact hold.of_same (by rw [setWorker_of_ne _ _ _ hv])
        (by rw [setWorker_of_ne _ _ _ hv]) fun w => rfl
  | sendDone q v hup hne =>
    obtain ⟨hv, hbusy, -⟩ := busy_of_sendDone hstep
    by_cases hq : p = q
    · subst hq
      exact hold.sendDone (mem_peers.mpr ⟨hne, hv⟩) hbusy
    · refine hold.of_same (by rw [setWorker_of_ne _ _ _ hq]; rfl)
        (by rw [setWorker_of_ne _ _ _ hq]; rfl) fun w => ?_
      rw [setWorker_link, setLink_of_ne _ _ _ _ fun hc => hq hc.1]
  | send q v n => exact hold.of_same rfl rfl (hlinks rfl rfl)
  | parse v q n junk =>
    have hnum : ∀ (x : Worker) (a b : ℤ),
        (x.accept q a b).sendJobNum = x.sendJobNum := by
      intro x a b
      unfold Worker.accept
      split
      · split <;> rfl
      · rfl
    exact hold.of_same (pc_of_update rfl (accept_pc _ _ _ _) p)
      (field_of_update Worker.sendJobNum rfl (hnum _ _ _) p) (hlinks rfl rfl)
  | store v q | full v q =>
    exact hold.of_same (pc_of_update rfl (by rfl) p)
      (field_of_update Worker.sendJobNum rfl (by rfl) p) (hlinks rfl rfl)
  | listen v | toHandle v | toBlock v | noSlot v | count v | bump v | partly v
  | collect v | begin =>
    exact hold.of_same (pc_of_update rfl (by rfl) p)
      (field_of_update Worker.sendJobNum rfl (by rfl) p) fun _ => rfl

/-- The handshakes after a step: a sender goes on when the last byte is
sent. -/
theorem Live.greeted_step (h : Live job s) (hinv : Inv job s)
    (hstep : step job s a = some s') (hp : p < job.workers)
    (hw : w < job.workers) (hne : w ≠ p)
    (hopened : (s'.worker p).pc.opened w = true)
    (hgone : (s'.worker p).pc ≠ .greeting w) : 8 ≤ (s'.link p w).sent := by
  have hnext := next_of_step hstep
  have hold : (s.worker p).pc.opened w = true → (s.worker p).pc ≠ .greeting w →
      8 ≤ (s'.link p w).sent := fun ho hg =>
    (h.greeted p hp w hw hne ho hg).trans (sent_mono hnext p w)
  have hsame : (s'.worker p).pc = (s.worker p).pc → 8 ≤ (s'.link p w).sent :=
    fun hpc => hold (by rw [← hpc]; exact hopened) (by rw [← hpc]; exact hgone)
  cases hnext with
  | compute v out s' hup hc =>
    by_cases hv : p = v
    swap
    · exact hsame (by rw [hc.worker_of_ne hv])
    subst hv
    cases hc with
    | load n hpc =>
      rw [setWorker_self] at hopened
      cases hopened
    | loaded n hpc =>
      rw [setWorker_self] at hopened
      have hlt : w < 0 := of_decide_eq_true hopened
      exact absurd hlt (Nat.not_lt_zero w)
    | connected j hpc hj =>
      refine hold ?_ (by rw [hpc]; simp)
      rw [hpc]
      exact decide_eq_true (hw.trans_le hj)
    | self hpc =>
      rw [setWorker_self] at hopened
      have hlt : w < p + 1 := of_decide_eq_true hopened
      refine hold ?_ (by rw [hpc]; simp)
      rw [hpc]
      exact decide_eq_true (by omega)
    | connect j hpc hj hjp =>
      rw [setLink_worker, setWorker_self] at hopened hgone
      have hle : w ≤ j := of_decide_eq_true hopened
      have hwj : w ≠ j := fun hwj => hgone (by rw [hwj])
      refine hold ?_ (by rw [hpc]; simp)
      rw [hpc]
      exact decide_eq_true (by omega)
    | refused j hpc | unreadable j hpc => exact hsame (by rw [setWorker_self])
    | greeted j hpc hout =>
      rw [setWorker_self] at hopened
      have hlt : w < j + 1 := of_decide_eq_true hopened
      by_cases hwj : w = j
      · -- nothing of the handshake is left
        subst hwj
        have hstream := hinv.stream p hp w hw hne
        have ho : (s.worker p).pc.opened w = true := by
          rw [hpc]
          exact decide_eq_true le_rfl
        have hleft : (s.link p w).left = [] :=
          List.eq_nil_of_length_eq_zero (by rw [hstream.left_length, hpc]; rfl)
        have hlen := congrArg List.length (hstream.order ho)
        rw [hout, hleft] at hlen
        simp only [List.length_append, length_greeting, List.flatten_nil,
          List.length_nil] at hlen
        show 8 ≤ (s.link p w).sent
        unfold Link.sent
        omega
      · refine hold ?_ ?_
        · rw [hpc]
          exact decide_eq_true (by omega)
        · rw [hpc]
          exact fun hc => hwj (Pc.greeting.inj hc).symm
    | computed i hpc | peers hpc | closePeers hpc | initSend hpc | initRecv hpc
    | received _ hpc | sent _ hpc | resetSend _ hpc | resetRecv _ hpc
    | ack _ hpc => exact hold (by rw [hpc]; rfl) (by rw [hpc]; simp)
  | readBegin v n i hup hpc hn =>
    by_cases hv : p = v
    · subst hv
      exact hold (by rw [hpc]; rfl) (by rw [hpc]; simp)
    · exact hsame (by rw [setWorker_of_ne _ _ _ hv])
  | send q v n => exact hsame rfl
  | parse v q n junk => exact hsame (pc_of_update rfl (accept_pc _ _ _ _) p)
  | sendDone | store | full | listen | toHandle | toBlock | noSlot | count
  | bump | partly | collect | begin =>
    exact hsame (pc_of_update rfl (by rfl) p)

/-- Only the steps of a worker take bytes from the connections to it. -/
theorem Next.flight_prefix (hnext : Next job s a s') (hw : w ≠ a.worker s)
    (p : ℕ) : (s.link p w).flight <+: (s'.link p w).flight := by
  cases hnext with
  | compute v out s' hup hc => rw [(hc.transport p w).1]
  | send q v n =>
    refine link_cases (fun l => (s.link p w).flight <+: l.flight) rfl
      (List.prefix_refl _) ?_
    rintro rfl rfl
    exact List.prefix_append _ _
  | sendDone q v =>
    refine link_cases (fun l => (s.link p w).flight <+: l.flight) rfl
      (List.prefix_refl _) ?_
    rintro rfl rfl
    exact List.prefix_refl _
  | parse v q | store v q | full v q =>
    have hw : w ≠ v := hw
    rw [setWorker_link, setLink_of_ne _ _ _ _ fun hc => hw hc.2]
  | _ => exact List.prefix_refl _

/-- **What a network thread waits for after a step of its worker**: a dispatch
makes it wait for bytes that are there, and its receives end the waiting. -/
theorem Live.expects_own (h : Live job s) (hnext : Next job s a s')
    (hself : a.worker s = w) (hw : w < job.workers)
    (hfailed : (s'.worker w).failed = none) (p : ℕ)
    (hexp : (s'.worker w).inbox.net.expects = some p) :
    (s'.link p w).flight ≠ [] := by
  -- a step that takes nothing from the connection and leaves the thread
  have hold : (s'.worker w).failed = (s.worker w).failed →
      (s'.worker w).inbox.net = (s.worker w).inbox.net →
      (s.link p w).flight <+: (s'.link p w).flight →
      (s'.link p w).flight ≠ [] := fun hf hnet hpre =>
    flight_ne_nil_mono hpre
      (h.expects w hw (by rw [← hf]; exact hfailed) p (by rw [← hnet]; exact hexp))
  cases hnext with
  | compute v out s' hup hc =>
    obtain rfl : v = w := hself
    refine hold (hfailed.trans hup.2.symm) hc.net ?_
    rw [(hc.transport p v).1]
  | send q v n hup hv hne =>
    obtain rfl : q = w := hself
    refine hold rfl rfl ?_
    rw [setLink_of_ne _ _ _ _ fun hc => hne hc.2.symm]
  | sendDone q v hup hne =>
    obtain rfl : q = w := hself
    refine hold (field_of_update Worker.failed rfl (by rfl) q)
      (field_of_update (fun x => x.inbox.net) rfl (by rfl) q) ?_
    rw [setWorker_link, setLink_of_ne _ _ _ _ fun hc => hne hc.2.symm]
  | toHandle v q hup hnet hq hne hfl | toBlock v q slot hup hnet hq hne hfl =>
    obtain rfl : v = w := hself
    rw [setWorker_self] at hexp
    obtain rfl : q = p := Option.some.inj hexp
    exact hfl
  | noSlot v q hup =>
    obtain rfl : v = w := hself
    rw [setWorker_self] at hfailed
    cases hfailed
  | parse v q n junk hup hnet =>
    obtain rfl : v = w := hself
    rw [setWorker_self] at hexp hfailed
    rcases (accept_frame (s.worker v) q _ _).2 with ⟨-, hn⟩ | ⟨hf, -⟩
    · rw [hn] at hexp
      cases hexp
    · exact absurd hfailed hf
  | store v q slot sender offset ptr n junk hup hnet hn =>
    -- some of the block is read, so that the thread need not wait for more
    obtain rfl : v = w := hself
    rw [setWorker_self] at hexp
    have hnone : (Net.block q slot sender offset (ptr + n)).expects = none :=
      if_neg (by omega)
    rw [hnone] at hexp
    cases hexp
  | count v hup hnet | bump v _ hup hnet | partly v _ _ _ _ _ hup hnet
  | full v q slot sender offset ptr hup hnet =>
    obtain rfl : v = w := hself
    rw [setWorker_self] at hexp
    cases hexp
  | listen v | readBegin v | collect v | begin =>
    exact hold (field_of_update Worker.failed rfl (by rfl) w)
      (field_of_update (fun x => x.inbox.net) rfl (by rfl) w)
      (List.prefix_refl _)

/-- What the network threads wait for, after a step: only their own
receives take bytes. -/
theorem Live.expects_step (h : Live job s)
    (hstep : step job s a = some s') (hw : w < job.workers)
    (hfailed : (s'.worker w).failed = none) (p : ℕ)
    (hexp : (s'.worker w).inbox.net.expects = some p) :
    (s'.link p w).flight ≠ [] := by
  have hnext := next_of_step hstep
  by_cases hself : w = a.worker s
  · exact h.expects_own hnext hself.symm hw hfailed p hexp
  · rw [hnext.worker_of_ne hself] at hfailed hexp
    exact flight_ne_nil_mono (hnext.flight_prefix hself p)
      (h.expects w hw hfailed p hexp)

/-- Whom a handshake is sent to, after a step. -/
theorem Live.others_step (h : Live job s) (hstep : step job s a = some s')
    (hp : p < job.workers) {j : ℕ} (hpc' : (s'.worker p).pc = .greeting j) :
    j < job.workers ∧ j ≠ p := by
  have hsame : (s'.worker p).pc = (s.worker p).pc →
      j < job.workers ∧ j ≠ p := fun hpc =>
    h.others p hp j (by rw [← hpc]; exact hpc')
  cases next_of_step hstep with
  | compute v out s' hup hc =>
    by_cases hv : p = v
    swap
    · exact hsame (by rw [hc.worker_of_ne hv])
    subst hv
    cases hc with
    | connect k hpc hk hkp =>
      rw [setLink_worker, setWorker_self] at hpc'
      obtain rfl : k = j := Pc.greeting.inj hpc'
      exact ⟨hk, hkp⟩
    | refused k hpc | unreadable k hpc => exact hsame (by rw [setWorker_self])
    | computed i hpc =>
      have hpc'' : ((s.setWorker p _).worker p).pc = .greeting j := hpc'
      rw [setWorker_self] at hpc''
      cases hpc''
    | load | loaded | connected | self | greeted | peers | closePeers | initSend
    | initRecv | received | sent | resetSend | resetRecv | ack =>
      rw [setWorker_self] at hpc'
      cases hpc'
  | readBegin v n i hup hpc hn =>
    by_cases hv : p = v
    · subst hv
      rw [setWorker_self] at hpc'
      cases hpc'
    · exact hsame (by rw [setWorker_of_ne _ _ _ hv])
  | send q v n => exact hsame rfl
  | parse v q n junk => exact hsame (pc_of_update rfl (accept_pc _ _ _ _) p)
  | sendDone | store | full | listen | toHandle | toBlock | noSlot | count
  | bump | partly | collect | begin =>
    exact hsame (pc_of_update rfl (by rfl) p)

/-- Every step of a run in which the invariant holds keeps the rest of
it. -/
theorem Live.step (h : Live job s) (hinv : Inv job s)
    (hstep : Exchange.step job s a = some s') : Live job s' where
  sends _ hp := h.sends_step hstep hp
  greeted _ hp _ hw hne := h.greeted_step hinv hstep hp hw hne
  expects _ hw hfailed := h.expects_step hstep hw hfailed
  others _ hp _ := h.others_step hstep hp

/-! ## Steps that can be taken -/

/-- An orderly step can be taken, after which still no worker has stopped. -/
def CanGoOn (job : Job) (s : State) : Prop :=
  ∃ a s', Orderly s a ∧ Productive s a ∧ step job s a = some s' ∧
    Running job s'

theorem canGoOn_of_step (hstep : step job s a = some s') (hok : Orderly s a)
    (hnew : Productive s a) (hrun : Running job s') : CanGoOn job s :=
  ⟨a, s', hok, hnew, hstep, hrun⟩

section Moves

variable (hrun : Running job s)
include hrun

/-- A server that does not listen can start to. -/
theorem canGoOn_listen (hw : w < job.workers)
    (h : (s.worker w).listening = false) : CanGoOn job s :=
  ⟨.listen w, _, ⟨trivial, trivial, trivial⟩, h, if_pos ⟨hw, hrun w hw⟩,
    hrun.of_update rfl rfl⟩

/-- A compute thread that is not about to connect, and can read its in-blocks
where it loads, can go on. -/
theorem canGoOn_compute (hw : w < job.workers)
    (hpc : (∀ j, (s.worker w).pc ≠ .connecting j) ∧
      ∀ n, (s.worker w).pc = .loading n → job.Readable w) (out : ℕ → List UInt8)
    (hsome : (computeStep job s w out).isSome = true) : CanGoOn job s := by
  obtain ⟨s', hcompute⟩ := Option.isSome_iff_exists.mp hsome
  have hstep : step job s (.compute w out) = some s' := by
    rw [← hcompute]
    exact if_pos ⟨hw, hrun w hw⟩
  have hc := computes_of_step hcompute
  have hfailed : (s'.worker w).failed = (s.worker w).failed := by
    cases hc with
    | refused j h | connect j h => exact absurd h (hpc.1 j)
    | unreadable n h _ hnot => exact absurd (hpc.2 n h) hnot
    | computed i =>
      show ((s.setWorker w _).worker w).failed = _
      rw [setWorker_self]
    | self | load _ | loaded _ | connected _ | greeted _ | peers | closePeers
    | initSend | initRecv | received _ | sent _ | resetSend _ | resetRecv _
    | ack _ => rw [setWorker_self]
  refine canGoOn_of_step hstep ⟨trivial, trivial, trivial⟩ trivial
    fun u hu => ?_
  by_cases huw : u = w
  · rw [huw, hfailed]
    exact hrun w hw
  · rw [hc.worker_of_ne huw]
    exact hrun u hu

/-- One that is about to connect can, where the servers listen. -/
theorem canGoOn_connect (hw : w < job.workers) {j : ℕ}
    (hpc : (s.worker w).pc = .connecting j)
    (hlisten : ∀ u < job.workers, (s.worker u).listening = true) :
    CanGoOn job s := by
  have hcompute : step job s (.compute w fun _ => []) =
      computeStep job s w fun _ => [] := if_pos ⟨hw, hrun w hw⟩
  unfold computeStep at hcompute
  simp only [hpc] at hcompute
  by_cases hj : job.workers ≤ j
  · rw [if_pos hj] at hcompute
    exact canGoOn_of_step hcompute ⟨trivial, trivial, trivial⟩ trivial
      (hrun.of_update rfl rfl)
  rw [if_neg hj] at hcompute
  by_cases hjw : j = w
  · rw [if_pos hjw] at hcompute
    exact canGoOn_of_step hcompute ⟨trivial, trivial, trivial⟩ trivial
      (hrun.of_update rfl rfl)
  · rw [if_neg hjw, if_pos ⟨hlisten j (not_le.mp hj), hrun j (not_le.mp hj)⟩]
      at hcompute
    exact canGoOn_of_step hcompute ⟨trivial, trivial, trivial⟩ trivial
      (hrun.of_update rfl rfl)

/-- A byte that may be sent can be. -/
theorem canGoOn_send (hp : p < job.workers) (hw : w < job.workers)
    (hne : w ≠ p) (hout : (s.link p w).outbox ≠ [])
    (hafter : 0 < (s.worker p).pc.computed → (s.worker w).pc.ready = true) :
    CanGoOn job s := by
  have hlen : 1 ≤ (s.link p w).outbox.length := List.length_pos_of_ne_nil hout
  have hstep : step job s (.send p w 1) = some (s.setLink p w { s.link p w with
      outbox := (s.link p w).outbox.drop 1
      flight := (s.link p w).flight ++ (s.link p w).outbox.take 1 }) := by
    show (if s.Up job p ∧ w < job.workers ∧ w ≠ p then sendStep s p w 1
      else none) = _
    rw [if_pos ⟨⟨hp, hrun p hp⟩, hw, hne⟩]
    exact if_pos ⟨Nat.one_pos, by decide, hlen⟩
  exact canGoOn_of_step hstep ⟨trivial, trivial, hafter⟩ trivial hrun

/-- A sending thread whose block is sent can end. -/
theorem canGoOn_sendDone (hp : p < job.workers) (hw : w < job.workers)
    (hne : w ≠ p) (hbusy : (s.link p w).busy = true)
    (hout : (s.link p w).outbox = []) : CanGoOn job s := by
  have hstep : step job s (.sendDone p w) =
      some ((s.setLink p w { s.link p w with busy := false }).setWorker p
        { s.worker p with sendJobNum := (s.worker p).sendJobNum - 1 }) := by
    show (if s.Up job p ∧ w < job.workers ∧ w ≠ p then sendDoneStep s p w
      else none) = _
    rw [if_pos ⟨⟨hp, hrun p hp⟩, hw, hne⟩]
    exact if_pos ⟨hbusy, hout⟩
  exact canGoOn_of_step hstep ⟨trivial, trivial, trivial⟩ trivial (hrun.of_update rfl rfl)

/-- An event can be taken, before the handshakes are closed. -/
theorem canGoOn_toHandle (hw : w < job.workers) (hp : p < job.workers)
    (hne : p ≠ w) (hlisten : (s.worker w).listening = true)
    (hnet : (s.worker w).inbox.net = .idle) (hf : (s.link p w).flight ≠ [])
    (hfd : -1 < (s.worker w).inbox.recvFd) : CanGoOn job s := by
  have hstep : step job s (.dispatch w p) = some (s.setWorker w
      { s.worker w with
        inbox := { (s.worker w).inbox with net := .handle p } }) := by
    show (if s.Up job w then dispatchStep job s w p else none) = _
    rw [if_pos ⟨hw, hrun w hw⟩, dispatchStep,
      if_pos ⟨hlisten, hnet, hp, hne, hf⟩]
    exact if_pos hfd
  exact canGoOn_of_step hstep ⟨trivial, trivial, trivial⟩ trivial (hrun.of_update rfl rfl)

/-- An event can be taken, after the handshakes are closed. -/
theorem canGoOn_toBlock (hw : w < job.workers) (hp : p < job.workers)
    (hne : p ≠ w) (hlisten : (s.worker w).listening = true)
    (hnet : (s.worker w).inbox.net = .idle) (hf : (s.link p w).flight ≠ [])
    (hfd : (s.worker w).inbox.recvFd ≤ -1) {slot : ℕ}
    (hslot : findSlot job w (s.worker w).inbox.infos p = some slot) :
    CanGoOn job s := by
  have hstep : step job s (.dispatch w p) = some (s.setWorker w
      { s.worker w with
        inbox := { (s.worker w).inbox with
          net := .block p slot ((s.worker w).inbox.infos slot).sender
            ((s.worker w).inbox.infos slot).offset 0 } }) := by
    show (if s.Up job w then dispatchStep job s w p else none) = _
    rw [if_pos ⟨hw, hrun w hw⟩, dispatchStep,
      if_pos ⟨hlisten, hnet, hp, hne, hf⟩, if_neg (not_lt.mpr hfd)]
    simp only [hslot]
  exact canGoOn_of_step hstep ⟨trivial, trivial, trivial⟩ trivial (hrun.of_update rfl rfl)

/-- `recv_fd ++` can read the variable, -/
theorem canGoOn_count (hw : w < job.workers)
    (hnet : (s.worker w).inbox.net = .count) : CanGoOn job s := by
  have hstep : step job s (.bump w) = some (s.setWorker w { s.worker w with
      inbox := { (s.worker w).inbox with
        net := .bump (s.worker w).inbox.recvFd } }) := by
    show (if s.Up job w then bumpStep s w else none) = _
    rw [if_pos ⟨hw, hrun w hw⟩, bumpStep]
    simp only [hnet]
  exact canGoOn_of_step hstep ⟨trivial, trivial, trivial⟩ trivial (hrun.of_update rfl rfl)

/-- and write it. -/
theorem canGoOn_bump (hw : w < job.workers) {v : ℤ}
    (hnet : (s.worker w).inbox.net = .bump v) : CanGoOn job s := by
  have hstep : step job s (.bump w) = some (s.setWorker w { s.worker w with
      inbox := { (s.worker w).inbox with
        recvFd := v + 1, net := .idle } }) := by
    show (if s.Up job w then bumpStep s w else none) = _
    rw [if_pos ⟨hw, hrun w hw⟩, bumpStep]
    simp only [hnet]
  exact canGoOn_of_step hstep ⟨trivial, trivial, trivial⟩ trivial (hrun.of_update rfl rfl)

/-- A receive of `dpdk_block_event` can be made, -/
theorem canGoOn_store (hw : w < job.workers) {slot sender offset ptr : ℕ}
    (hnet : (s.worker w).inbox.net = .block p slot sender offset ptr)
    (hf : (s.link p w).flight ≠ []) : CanGoOn job s := by
  have hlen : 1 ≤ (s.link p w).flight.length := List.length_pos_of_ne_nil hf
  have hstep : step job s (.receive w 1 []) =
      some ((s.setLink p w { s.link p w with
          flight := (s.link p w).flight.drop 1
          arrived := { (s.link p w).arrived with
            stored := (s.link p w).arrived.stored ++
              (s.link p w).flight.take 1 } }).setWorker w
        { s.worker w with inbox := { (s.worker w).inbox with
            inbuf := Function.update (s.worker w).inbox.inbuf sender
              (overwrite ((s.worker w).inbox.inbuf sender) (offset + ptr)
                ((s.link p w).flight.take 1))
            net := .block p slot sender offset (ptr + 1) } }) := by
    show (if s.Up job w then receiveStep s w 1 [] else none) = _
    rw [if_pos ⟨hw, hrun w hw⟩, receiveStep]
    simp only [hnet]
    exact if_pos ⟨Nat.one_pos, by decide, hlen⟩
  refine canGoOn_of_step hstep ⟨fun hh => ?_, trivial, trivial⟩ trivial
    (hrun.of_update rfl rfl)
  rw [hnet] at hh
  cases hh

/-- and the event ended when something has been taken. -/
theorem canGoOn_drain (hw : w < job.workers) {slot sender offset ptr : ℕ}
    (hnet : (s.worker w).inbox.net = .block p slot sender offset ptr)
    (hptr : ptr ≠ 0) : CanGoOn job s := by
  have hdrain : step job s (.drain w) = drainStep s w :=
    if_pos ⟨hw, hrun w hw⟩
  unfold drainStep at hdrain
  simp only [hnet, if_neg hptr] at hdrain
  by_cases hfull : ((offset + ptr : ℕ) : ℤ) =
      ((s.worker w).inbox.infos slot).len
  · rw [if_pos hfull] at hdrain
    exact canGoOn_of_step hdrain ⟨trivial, trivial, trivial⟩ trivial (hrun.of_update rfl rfl)
  · rw [if_neg hfull] at hdrain
    exact canGoOn_of_step hdrain ⟨trivial, trivial, trivial⟩ trivial (hrun.of_update rfl rfl)

/-- A message can be read from the master, -/
theorem canGoOn_readBegin (hw : w < job.workers) {i : ℕ}
    (hpc : (s.worker w).pc = .iter i .head) (hi : i < job.iterations)
    (hmsg : messageSize ≤ (s.worker w).fromMaster) : CanGoOn job s := by
  have hstep : step job s (.readBegin w messageSize) = some (s.setWorker w
      { s.worker w with
        pc := .iter i .compute
        fromMaster := (s.worker w).fromMaster - messageSize }) := by
    show (if s.Up job w then readBeginStep job s w messageSize else none) = _
    rw [if_pos ⟨hw, hrun w hw⟩, readBeginStep]
    simp only [hpc]
    exact if_pos ⟨hi, by decide, by decide, hmsg⟩
  exact canGoOn_of_step hstep ⟨trivial, rfl, trivial⟩ trivial (hrun.of_update rfl rfl)

/-- one can be read by the master, -/
theorem canGoOn_collect (hw : w < job.workers) (hnext : s.master.next = 0)
    (hgot : s.master.got w = false)
    (hmsg : messageSize ≤ (s.worker w).toMaster) : CanGoOn job s := by
  have hstep : step job s (.collect w messageSize) = some
      { s.setWorker w { s.worker w with
          toMaster := (s.worker w).toMaster - messageSize } with
        master := { s.master with
          got := Function.update s.master.got w true } } := by
    show (if w < job.workers then collectStep s w messageSize else none) = _
    rw [if_pos hw]
    exact if_pos ⟨hnext, hgot, by decide, by decide, hmsg⟩
  exact canGoOn_of_step hstep ⟨trivial, rfl, trivial⟩ trivial (hrun.of_update rfl rfl)

/-- and the master can begin an iteration for one more worker. -/
theorem canGoOn_begin (hround : s.master.round < job.iterations)
    (hnext : s.master.next < job.workers)
    (hgot : ∀ y < job.workers, s.master.got y = true) : CanGoOn job s := by
  have hstep : step job s .begin = some
      { s.setWorker s.master.next { s.worker s.master.next with
          fromMaster := (s.worker s.master.next).fromMaster + messageSize } with
        master :=
          if s.master.next + 1 = job.workers then
            ⟨s.master.round + 1, 0, fun _ => false⟩
          else { s.master with next := s.master.next + 1 } } :=
    if_pos ⟨hround, hnext, hgot⟩
  exact canGoOn_of_step hstep ⟨trivial, trivial, trivial⟩ trivial (hrun.of_update rfl rfl)

end Moves

/-! ## One worker can always go on -/

/-- **The sizes of the blocks agree, and the in-blocks can be read.** -/
structure Job.WellSized (job : Job) : Prop where
  /-- What a peer announces is what the in-block file has. -/
  agree : job.SizesAgree
  /-- Each in-block is read in one chunk. -/
  readable : ∀ w < job.workers, job.Readable w

/-- No block is empty. -/
theorem Job.WellSized.outSize_pos (h : job.WellSized) (hp : p < job.workers)
    (hw : w < job.workers) (hne : w ≠ p) : 0 < job.outSize p w := by
  rw [h.agree p hp w hw hne]
  exact (h.readable w hw p hp).1

/-- A worker that loads can go on. -/
theorem canGoOn_of_loading (hrun : Running job s) (hsize : job.WellSized)
    (hw : w < job.workers) {n : ℕ} (hpc : (s.worker w).pc = .loading n) :
    CanGoOn job s := by
  refine canGoOn_compute hrun hw
    ⟨by rw [hpc]; simp, fun _ _ => hsize.readable w hw⟩
    (fun _ => []) ?_
  unfold computeStep
  simp only [hpc]
  split
  · rfl
  · rw [if_pos (hsize.readable w hw)]
    rfl

/-- A handshake that is there can be taken, where the file of the in-block is
open. -/
theorem canGoOn_parse (hinv : Inv job s) (hrun : Running job s)
    (hsize : job.WellSized) (hw : w < job.workers)
    (hload : p < (s.worker w).pc.loaded job.workers)
    (hnet : (s.worker w).inbox.net = .handle p)
    (hlen : 8 ≤ (s.link p w).flight.length) : CanGoOn job s := by
  have hrec := hinv.receiver w hw (hrun w hw)
  obtain ⟨hmem, hnil, -⟩ := hrec.handling p hnet
  obtain ⟨hne, hp⟩ := mem_peers.mp hmem
  have htake := (hinv.stream p hp w hw hne.symm).take_eight hnil
    ((hrec.peer p hmem).silent hnil).1 hlen
  have hstep : step job s (.receive w 8 []) =
      some ((s.setLink p w { s.link p w with
          flight := (s.link p w).flight.drop 8
          arrived := { (s.link p w).arrived with
            parsed := (s.link p w).arrived.parsed ++
              (s.link p w).flight.take 8 } }).setWorker w
        ((s.worker w).accept p
          (intAt ((s.link p w).flight.take 8 ++ []) 0)
          (intAt ((s.link p w).flight.take 8 ++ []) 4))) := by
    show (if s.Up job w then receiveStep s w 8 [] else none) = _
    rw [if_pos ⟨hw, hrun w hw⟩, receiveStep]
    simp only [hnet]
    exact if_pos ⟨by decide, le_rfl, hlen, rfl⟩
  rw [htake, List.append_nil] at hstep
  have haccept : ((s.worker w).accept p (intAt (greeting job p w) 0)
      (intAt (greeting job p w) 4)).failed = (s.worker w).failed := by
    rcases accept_greeting hp hne.symm hrec with ⟨-, -, hacc⟩ | ⟨hbad, -⟩
    · rw [hacc]
    · exact absurd (hsize.agree p hp w hw hne.symm)
        (hbad.resolve_left (not_le.mpr hload))
  exact canGoOn_of_step hstep ⟨fun _ => rfl, trivial, trivial⟩ trivial
    (hrun.of_update rfl haccept)

/-- **A network thread in an event can go on**, or the sender of a handshake
can send the rest of it. -/
theorem canGoOn_of_net (hinv : Inv job s) (hlive : Live job s)
    (hrun : Running job s) (hsize : job.WellSized) (hw : w < job.workers)
    (hload : (s.worker w).pc.loaded job.workers = job.workers)
    (hnet : (s.worker w).inbox.net ≠ .idle) : CanGoOn job s := by
  have hrec := hinv.receiver w hw (hrun w hw)
  cases hcase : (s.worker w).inbox.net with
  | idle => exact absurd hcase hnet
  | count => exact canGoOn_count hrun hw hcase
  | bump v => exact canGoOn_bump hrun hw hcase
  | block p slot sender offset ptr =>
    by_cases hptr : ptr = 0
    · refine canGoOn_store hrun hw hcase
        (hlive.expects w hw (hrun w hw) p ?_)
      rw [hcase]
      exact if_pos hptr
    · exact canGoOn_drain hrun hw hcase hptr
  | handle p =>
    obtain ⟨hmem, hnil, -⟩ := hrec.handling p hcase
    obtain ⟨hne, hp⟩ := mem_peers.mp hmem
    by_cases hlen : 8 ≤ (s.link p w).flight.length
    · exact canGoOn_parse hinv hrun hsize hw (by rw [hload]; exact hp)
        hcase hlen
    · -- the sender is still at it
      have hf : (s.link p w).flight ≠ [] :=
        hlive.expects w hw (hrun w hw) p (by rw [hcase]; rfl)
      have hstream := hinv.stream p hp w hw hne.symm
      have ho := hstream.opened_of_flight hf
      have hstored := ((hrec.peer p hmem).silent hnil).1
      have hpc : (s.worker p).pc = .greeting w := by
        by_contra hgone
        have h8 := hlive.greeted p hp w hw hne.symm ho hgone
        unfold Link.sent at h8
        rw [hnil, hstored] at h8
        simp only [List.length_nil] at h8
        omega
      have hzero : (s.worker p).pc.computed = 0 := by
        rw [hpc]
        rfl
      have hlenall := congrArg List.length (hstream.order ho)
      rw [hnil, hstored] at hlenall
      simp only [List.length_append, List.length_nil, length_greeting]
        at hlenall
      refine canGoOn_send hrun hp hw hne.symm (fun hout => ?_)
        fun hc => absurd hc (by rw [hzero]; exact lt_irrefl 0)
      rw [hout] at hlenall
      simp only [List.length_nil] at hlenall
      omega

/-! What is left for a compute thread says how far it is. -/

namespace Pc

variable {pc : Pc} {i : ℕ}

theorem opened_of_rest (h : pc.rest job ≤ 8 * job.iterations + 4) (u : ℕ) :
    pc.opened u = true ∧ pc ≠ .greeting u := by
  cases pc with
  | loading n | connecting j | greeting j =>
    simp only [rest] at h
    omega
  | iter i stage => exact ⟨rfl, by simp⟩
  | _ => exact ⟨rfl, by simp⟩

theorem ready_of_rest (h : pc.rest job ≤ 8 * job.iterations) :
    pc.ready = true := by
  cases pc with
  | iter i stage => rfl
  | _ =>
    simp only [rest] at h
    omega

theorem reported_of_rest (hi : i < job.iterations)
    (h : pc.rest job ≤ 8 * (job.iterations - i)) : i + 1 ≤ pc.reported := by
  cases pc with
  | iter k stage =>
    cases stage
    all_goals
      simp only [rest, reported] at h ⊢
      omega
  | _ =>
    simp only [rest] at h
    omega

theorem computed_of_rest (hi : i < job.iterations)
    (h : pc.rest job ≤ 8 * (job.iterations - (i + 1)) + 6) :
    i + 1 ≤ pc.computed := by
  cases pc with
  | iter k stage =>
    cases stage
    all_goals
      simp only [rest, computed] at h ⊢
      omega
  | _ =>
    simp only [rest] at h
    omega

theorem eq_head_of_rest (hle : pc.begun ≤ job.iterations)
    (h : pc.rest job = 0) : pc = .iter job.iterations .head := by
  cases pc with
  | iter k stage =>
    cases stage
    case head =>
      simp only [rest, begun] at h hle
      have hk : k = job.iterations := by omega
      rw [hk]
    all_goals
      simp only [rest] at h
      omega
  | _ =>
    simp only [rest] at h
    omega

end Pc

/-- **All iterations are over.** -/
def Finished (job : Job) (s : State) : Prop :=
  ∀ w < job.workers, (s.worker w).pc = .iter job.iterations .head

section Last

/-! The network threads are idle, and `w` is the worker that has the most
before it. -/

variable (hinv : Inv job s) (hlive : Live job s) (hpace : Pace job s)
  (hrun : Running job s) (hsize : job.WellSized) (hw : w < job.workers)
  (hlisten : ∀ u < job.workers, (s.worker u).listening = true)
  (hidle : ∀ u < job.workers, (s.worker u).inbox.net = .idle)
  (hlast : ∀ u < job.workers,
    (s.worker u).pc.rest job ≤ (s.worker w).pc.rest job)

include hrun hw in
/-- Its handshake for a peer can be sent. -/
theorem canGoOn_of_greeting {j : ℕ} (hj : j < job.workers) (hjw : j ≠ w)
    (hpc : (s.worker w).pc = .greeting j) : CanGoOn job s := by
  by_cases hout : (s.link w j).outbox = []
  · refine canGoOn_compute hrun hw (by rw [hpc]; simp) (fun _ => []) ?_
    unfold computeStep
    simp only [hpc]
    rw [if_pos hout]
    rfl
  · refine canGoOn_send hrun hw hj hjw hout fun hc => ?_
    rw [hpc] at hc
    exact absurd hc (lt_irrefl 0)

include hinv hlive hrun hw hlisten hidle hlast in
/-- The handshakes it waits for have been sent. -/
theorem canGoOn_of_waitPeers (hpc : (s.worker w).pc = .waitPeers) :
    CanGoOn job s := by
  have hrec := hinv.receiver w hw (hrun w hw)
  have hcount := hrec.opened (by rw [hpc]; rfl)
  rw [hidle w hw] at hcount
  simp only [Net.pending, Nat.cast_zero, add_zero] at hcount
  by_cases hall : (job.workers : ℤ) - 1 ≤ (s.worker w).inbox.recvFd
  · refine canGoOn_compute hrun hw (by rw [hpc]; simp) (fun _ => []) ?_
    unfold computeStep
    simp only [hpc]
    rw [if_pos hall]
    rfl
  -- some peer's handshake has not been taken
  have hmissing : ∃ p ∈ peers job w, (s.link p w).arrived.parsed = [] := by
    by_contra hnone
    push Not at hnone
    have hcard : (heard job w fun p => (s.link p w).arrived).card =
        job.workers - 1 := by
      rw [heard, card_filter_all hnone, card_peers hw]
    rw [hcard] at hcount
    omega
  obtain ⟨p, hmem, hnil⟩ := hmissing
  obtain ⟨hne, hp⟩ := mem_peers.mp hmem
  have hrest : (s.worker p).pc.rest job ≤ 8 * job.iterations + 4 := by
    have := hlast p hp
    rw [hpc] at this
    exact this
  obtain ⟨ho, hgone⟩ := Pc.opened_of_rest hrest w
  have h8 := hlive.greeted p hp w hw hne.symm ho hgone
  unfold Link.sent at h8
  rw [hnil, ((hrec.peer p hmem).silent hnil).1] at h8
  refine canGoOn_toHandle hrun hw hp hne (hlisten w hw) (hidle w hw)
    (fun hf => ?_) (by omega)
  rw [hf] at h8
  simp only [List.length_nil] at h8
  omega

include hinv hrun hpace hw hlast in
/-- The message that begins its next iteration can be sent. -/
theorem canGoOn_of_head {i : ℕ} (hi : i < job.iterations)
    (hpc : (s.worker w).pc = .iter i .head) : CanGoOn job s := by
  have hbegun := hinv.control.begun w hw
  rw [hpc] at hbegun
  by_cases hmsg : messageSize ≤ (s.worker w).fromMaster
  · exact canGoOn_readBegin hrun hw hpc hi hmsg
  -- it has not been sent
  have hround : s.master.begun w = i := by
    simp only [Pc.begun] at hbegun
    unfold messageSize at hbegun hmsg
    omega
  have hle : s.master.round ≤ i := by
    rw [← hround]
    exact Nat.le_add_right _ _
  by_cases hgot : ∀ y < job.workers, s.master.got y = true
  · refine canGoOn_begin hrun (by omega) ?_ hgot
    by_cases hnext : 0 < s.master.next
    · exact (hpace.next hnext).2
    · omega
  -- a worker's report can be read
  push Not at hgot
  obtain ⟨y, hy, hnot⟩ := hgot
  have hfalse : s.master.got y = false := Bool.eq_false_iff.mpr hnot
  have hnext : s.master.next = 0 := by
    by_contra hne
    exact hnot (hinv.control.got (Nat.pos_of_ne_zero hne) y hy)
  refine canGoOn_collect hrun hy hnext hfalse ?_
  have hreported := hinv.control.reported y hy
  have hmore : i + 1 ≤ (s.worker y).pc.reported :=
    Pc.reported_of_rest hi (by have := hlast y hy; rw [hpc] at this; exact this)
  unfold Master.collected at hreported
  rw [hfalse, if_neg Bool.false_ne_true] at hreported
  unfold messageSize at hreported ⊢
  omega

include hinv hrun hpace hsize hw hlisten hidle hlast in
/-- The block it waits for is on its way, or can be sent. -/
theorem canGoOn_of_waitRecv {i : ℕ} (hpc : (s.worker w).pc = .iter i .waitRecv) :
    CanGoOn job s := by
  have hrec := hinv.receiver w hw (hrun w hw)
  have hready : (s.worker w).pc.ready = true := by
    rw [hpc]
    rfl
  have hi : i < job.iterations := by
    have hle := hpace.begun_le hinv.control hw
    rw [hpc] at hle
    exact hle
  have hcount := hrec.waiting hready
  by_cases hzero : (s.worker w).inbox.recvJobNum = 0
  · refine canGoOn_compute hrun hw (by rw [hpc]; simp) (fun _ => []) ?_
    unfold computeStep
    simp only [hpc]
    rw [if_pos hzero]
    rfl
  have hsome : (awaited job w (fun p => (s.link p w).arrived)
      (s.worker w).pc.settled).Nonempty := by
    rw [Finset.nonempty_iff_ne_empty]
    intro hempty
    rw [hempty, Finset.card_empty] at hcount
    exact hzero hcount
  obtain ⟨p, hmem⟩ := hsome
  obtain ⟨hpeer, hcounted⟩ := Finset.mem_filter.mp hmem
  rw [hpc] at hcounted
  obtain ⟨hne, hp⟩ := mem_peers.mp hpeer
  have hagree := hsize.agree p hp w hw hne.symm
  have hpos := hsize.outSize_pos hp hw hne.symm
  have hshut := hrec.shut (Pc.closed_of_ready hready)
  have hpar := hshut.2.1 p hpeer
  obtain ⟨hgreet, -⟩ := (hrec.peer p hpeer).known hpar
  have hcomputed : i + 1 ≤ (s.worker p).pc.computed :=
    Pc.computed_of_rest hi (by have := hlast p hp; rw [hpc] at this; exact this)
  -- the block is not stored whole
  have hstored := hinv.stored_length hp hw hne.symm (hrun w hw) hpar
  have hoff : (s.worker w).inbox.pos p =
      ((s.worker w).inbox.infos p).offset :=
    Inbox.pos_of_not_storesTo (by rw [hidle w hw]; rfl)
  have hlt : (s.worker w).inbox.pos p < job.inSize w p := by
    rw [hoff]
    rcases (hrec.peer p hpeer).between with h0 | hlt
    · rw [h0]
      omega
    · exact hlt
  have hstream := hinv.stream p hp w hw hne.symm
  have ho : (s.worker p).pc.opened w = true := by
    by_contra ho
    exact hpar (hstream.unopened (Bool.eq_false_iff.mpr ho)).2.2.1
  have hflat : (s.link p w).left.flatten.length =
      job.outSize p w * (s.worker p).pc.computed := by
    rw [BlockBuffer.length_flatten_of_forall hstream.blocks,
      hstream.left_length]
  have hlen := congrArg List.length (hstream.order ho)
  rw [hgreet] at hlen
  simp only [List.length_append, length_greeting, hflat] at hlen
  have hmul := Nat.mul_le_mul_left (job.outSize p w) hcomputed
  rw [Nat.mul_succ] at hmul
  rw [hcounted, ← hagree] at hstored
  simp only [Pc.settled] at hstored
  rw [← hagree] at hlt
  by_cases hf : (s.link p w).flight = []
  · refine canGoOn_send hrun hp hw hne.symm (fun hout => ?_) fun _ => hready
    rw [hf, hout] at hlen
    simp only [List.length_nil] at hlen
    omega
  · exact canGoOn_toBlock hrun hw hp hne (hlisten w hw) (hidle w hw) hf
      (by rw [hshut.1]; decide) (hrec.findSlot hpeer hpar)

include hinv hlive hpace hrun hw hlast in
/-- Its sending threads can go on. -/
theorem canGoOn_of_waitSend {i : ℕ} (hpc : (s.worker w).pc = .iter i .waitSend) :
    CanGoOn job s := by
  by_cases hzero : (s.worker w).sendJobNum = 0
  · refine canGoOn_compute hrun hw (by rw [hpc]; simp) (fun _ => []) ?_
    unfold computeStep
    simp only [hpc]
    rw [if_pos hzero]
    rfl
  have hcount := (hlive.sends w hw).counts (by rw [hpc]; rfl)
  have hsome : (sending job w fun u => (s.link w u).busy).Nonempty := by
    rw [Finset.nonempty_iff_ne_empty]
    intro hempty
    rw [hempty, Finset.card_empty] at hcount
    exact hzero hcount
  obtain ⟨u, hmem⟩ := hsome
  obtain ⟨hpeer, hbusy⟩ := Finset.mem_filter.mp hmem
  obtain ⟨hne, hu⟩ := mem_peers.mp hpeer
  by_cases hout : (s.link w u).outbox = []
  · exact canGoOn_sendDone hrun hw hu hne hbusy hout
  · refine canGoOn_send hrun hw hu hne hout fun _ => ?_
    refine Pc.ready_of_rest (show _ ≤ 8 * job.iterations from (hlast u hu).trans ?_)
    have hle := hpace.begun_le hinv.control hw
    rw [hpc] at hle ⊢
    simp only [Pc.rest, Pc.begun] at hle ⊢
    omega

end Last

/-- **Some step can be taken, unless all iterations are over.** If every server
listens, every file has been loaded and no network thread is at work, the worker
that has the most before it can go on: whom it waits for is ahead of it. -/
theorem canGoOn_or_finished (hinv : Inv job s) (hlive : Live job s)
    (hpace : Pace job s) (hrun : Running job s) (hsize : job.WellSized) :
    CanGoOn job s ∨ Finished job s := by
  by_cases hlisten : ∀ u < job.workers, (s.worker u).listening = true
  swap
  · push Not at hlisten
    obtain ⟨u, hu, hnot⟩ := hlisten
    exact Or.inl (canGoOn_listen hrun hu (Bool.eq_false_iff.mpr hnot))
  by_cases hload : ∃ u < job.workers, ∃ n, (s.worker u).pc = .loading n
  · obtain ⟨u, hu, n, hpc⟩ := hload
    exact Or.inl (canGoOn_of_loading hrun hsize hu hpc)
  push Not at hload
  by_cases hidle : ∀ u < job.workers, (s.worker u).inbox.net = .idle
  swap
  · push Not at hidle
    obtain ⟨u, hu, hnot⟩ := hidle
    refine Or.inl (canGoOn_of_net hinv hlive hrun hsize hu ?_ hnot)
    cases hpc : (s.worker u).pc with
    | loading n => exact absurd hpc (hload u hu n)
    | _ => rfl
  by_cases hzero : job.workers = 0
  · refine Or.inr fun w hw => ?_
    rw [hzero] at hw
    exact absurd hw (Nat.not_lt_zero w)
  -- the worker with the most before it
  obtain ⟨w, hmem, hmax⟩ := Finset.exists_max_image
    (Finset.range job.workers) (fun u => (s.worker u).pc.rest job)
    ⟨0, Finset.mem_range.mpr (Nat.pos_of_ne_zero hzero)⟩
  have hw := Finset.mem_range.mp hmem
  have hlast : ∀ u < job.workers,
      (s.worker u).pc.rest job ≤ (s.worker w).pc.rest job :=
    fun u hu => hmax u (Finset.mem_range.mpr hu)
  cases hpc : (s.worker w).pc with
  | loading n => exact absurd hpc (hload w hw n)
  | connecting j => exact Or.inl (canGoOn_connect hrun hw hpc hlisten)
  | greeting j =>
    obtain ⟨hj, hjw⟩ := hlive.others w hw j hpc
    exact Or.inl (canGoOn_of_greeting hrun hw hj hjw hpc)
  | waitPeers =>
    exact Or.inl
      (canGoOn_of_waitPeers hinv hlive hrun hw hlisten hidle hlast hpc)
  | closePeers | initSend | initRecv =>
    refine Or.inl (canGoOn_compute hrun hw (by rw [hpc]; simp)
      (fun _ => []) ?_)
    unfold computeStep
    simp only [hpc]
    rfl
  | iter i stage =>
    cases stage with
    | head =>
      by_cases hi : i < job.iterations
      · exact Or.inl (canGoOn_of_head hinv hpace hrun hw hlast hi hpc)
      · refine Or.inr fun u hu =>
          Pc.eq_head_of_rest (hpace.begun_le hinv.control hu) ?_
        have hle := hlast u hu
        rw [hpc] at hle
        have hrest : (Pc.iter i .head).rest job = 8 * (job.iterations - i) := rfl
        omega
    | compute =>
      refine Or.inl (canGoOn_compute hrun hw (by rw [hpc]; simp)
        (fun j => List.replicate (job.outSize w j) 0) ?_)
      unfold computeStep
      simp only [hpc]
      rw [if_pos fun j _ => List.length_replicate]
      rfl
    | waitRecv =>
      exact Or.inl
        (canGoOn_of_waitRecv hinv hpace hrun hsize hw hlisten hidle hlast hpc)
    | waitSend =>
      exact Or.inl (canGoOn_of_waitSend hinv hlive hpace hrun hw hlast hpc)
    | resetSend | resetRecv | ack =>
      refine Or.inl (canGoOn_compute hrun hw (by rw [hpc]; simp)
        (fun _ => []) ?_)
      unfold computeStep
      simp only [hpc]
      rfl

/-! ## Whole runs -/

/-- The steps of the runs that are bounded and in which nobody stops. -/
def Steady (job : Job) (s : State) (a : Action) : Prop :=
  Orderly s a ∧ Productive s a ∧ ∀ s' ∈ step job s a, Running job s'

instance (job : Job) : DecidablePred (Running job) := fun _ =>
  inferInstanceAs (Decidable (∀ w < job.workers, _))

instance (job : Job) (s : State) : DecidablePred (Steady job s) := fun _ =>
  inferInstanceAs (Decidable (_ ∧ _ ∧ ∀ s' ∈ _, _))

/-- All of the invariant holds in a steady run. -/
theorem live_of_run {as : List Action}
    (hrun : Run (step job) (Steady job) init as s) :
    Inv job s ∧ Live job s ∧ Pace job s ∧ Running job s := by
  refine hrun.invariant
    (I := fun s => Inv job s ∧ Live job s ∧ Pace job s ∧ Running job s)
    (fun s a s' h hok hstep => ?_) ⟨Inv.init job, Live.init job, ?_, ?_⟩
  · exact ⟨h.1.step hok.1 hstep, h.2.1.step h.1 hstep, h.2.2.1.step hstep,
      hok.2.2 s' hstep⟩
  · exact ⟨Nat.zero_le _, fun h => absurd h (lt_irrefl 0)⟩
  · exact fun _ _ => rfl

/-- At the end every block of every iteration has been counted. -/
theorem Finished.counted (h : Finished job s) (hinv : Inv job s)
    (hrun : Running job s) (hp : p < job.workers) (hw : w < job.workers)
    (hne : w ≠ p) : (s.link p w).arrived.counted = job.iterations := by
  have hle := hinv.counted p hp w hw hne
  have hge := (hinv.receiver w hw (hrun w hw)).settled p
    (mem_peers.mpr ⟨hne.symm, hp⟩)
  rw [h p hp] at hle
  rw [h w hw] at hge
  exact le_antisymm hle hge

/-- **The workers compute all iterations.** Where the sizes of the blocks
agree and each is read in one chunk, an orderly run in which nobody stops takes at
most `longest job` steps, can be continued as long as the iterations are not
over, and is part of one that gets to their end, with every block of every
iteration counted. -/
theorem completes_of_steady (hsize : job.WellSized) {as : List Action}
    (hrun : Run (step job) (Steady job) init as s) :
    as.length ≤ longest job ∧
      (Finished job s ∨
        ∃ a s', Steady job s a ∧ step job s a = some s') ∧
      ∃ bs s', Run (step job) (Steady job) s bs s' ∧ Finished job s' ∧
        ∀ p < job.workers, ∀ w < job.workers, w ≠ p →
          (s'.link p w).arrived.counted = job.iterations := by
  have hbound : ∀ {as : List Action} {s : State},
      Run (step job) (Steady job) init as s → as.length ≤ longest job :=
    fun h => (Nat.le_add_right _ _).trans
      (remaining_run (h.mono fun _ _ hok => ⟨hok.1, hok.2.1⟩))
  have hlive : ∀ {as : List Action} {s : State},
      Run (step job) (Steady job) init as s →
      Finished job s ∨ ∃ a s', Steady job s a ∧ step job s a = some s' := by
    intro as s h
    obtain ⟨hinv, hlive, hpace, hrunning⟩ := live_of_run h
    rcases canGoOn_or_finished hinv hlive hpace hrunning hsize with
      ⟨a, s', hok, hnew, hstep, hrunning'⟩ | hfin
    · refine Or.inr ⟨a, s', ⟨hok, hnew, fun t ht => ?_⟩, hstep⟩
      rw [hstep] at ht
      rw [← Option.some.inj ht]
      exact hrunning'
    · exact Or.inl hfin
  have hrest : ∀ bs s', Run (step job) (Steady job) s bs s' →
      bs.length ≤ longest job := by
    intro bs s' hmore
    have hle := hbound (hrun.append hmore)
    rw [List.length_append] at hle
    omega
  obtain ⟨bs, s', hmore, hfin⟩ := Run.exists_end hrest
    fun bs s' hmore => hlive (hrun.append hmore)
  obtain ⟨hinv, -, -, hrunning⟩ := live_of_run (hrun.append hmore)
  exact ⟨hbound hrun, hlive hrun, bs, s', hmore, hfin,
    fun p hp w hw hne => hfin.counted hinv hrunning hp hw hne⟩

/-- Two workers in the middle of their second iteration. -/
theorem completes_twoWorkers :
    ∃ s bs s', Run (step (twoWorkers 1 (by decide)))
        (Steady (twoWorkers 1 (by decide))) init
        (startAll ++ iterateAll 1 2 ++ beginAll ++ computeAt 0 [3]) s ∧
      Run (step (twoWorkers 1 (by decide)))
        (Steady (twoWorkers 1 (by decide))) s bs s' ∧
      Finished (twoWorkers 1 (by decide)) s' := by
  have hsize : (twoWorkers 1 (by decide)).WellSized :=
    ⟨fun _ _ _ _ _ => rfl, readable_twoWorkers⟩
  obtain ⟨s, hrun, -⟩ := exists_run (step (twoWorkers 1 (by decide)))
    (Steady (twoWorkers 1 (by decide))) init
    (startAll ++ iterateAll 1 2 ++ beginAll ++ computeAt 0 [3])
    (fun _ => True) (by decide +kernel)
  obtain ⟨-, -, bs, s', hmore, hfin, -⟩ := completes_of_steady hsize hrun
  exact ⟨s, bs, s', hrun, hmore, hfin⟩

end Exchange
