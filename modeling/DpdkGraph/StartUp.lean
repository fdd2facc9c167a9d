import Mathlib
import DpdkGraph.Orderly

/-!
# The start-up

Two properties of the workers' start-up. `PhasesApart`: the handshake parser
sees handshakes only, `dpdk_block_event` sees blocks only, and no block is
counted before `recv_job_num` is initialised. `HandshakesTaken`: every
handshake a worker receives is accepted, under the number of its sender,
and counted once, unless the two sizes differ.

Neither holds of all runs. Both hold of the orderly ones, the second where
nobody comes too early (`InTime`): no handshake is taken before the receiver
has opened the in-block of its sender, and no connection is asked for before
the peer listens.
-/

namespace Exchange

open Transition (Run exec exists_run)

variable {job : Job} {s s' : State} {a : Action} {p w : ℕ}

/-! ## Every phase has its own bytes -/

/-- Which function takes which bytes. -/
def PhasesApart (job : Job) (s : State) : Prop :=
  ∀ w < job.workers, ∀ p < job.workers, w ≠ p →
    (s.link p w).arrived.parsed <+: greeting job p w ∧
      ((s.link p w).arrived.stored ≠ [] →
        (s.link p w).arrived.parsed = greeting job p w) ∧
      (s.link p w).arrived.stored <+: (s.link p w).left.flatten ∧
      ((s.worker w).pc.ready = false → (s.link p w).arrived.counted = 0)

/-- How much of each phase a worker has received, whether it has failed
since or not. -/
structure Apart (s : State) (p w : ℕ) : Prop where
  /-- A handshake is taken as a whole, and before anything is stored. -/
  parsed : (s.link p w).arrived.parsed = [] ∧
      (s.link p w).arrived.stored = [] ∨
    (s.link p w).arrived.parsed.length = 8
  /-- No block is counted during the start-up. -/
  early : (s.worker w).pc.ready = false → (s.link p w).arrived.counted = 0

/-- A step that moves no compute thread and receives nothing. -/
theorem Apart.of_same (h : Apart s p w)
    (hpc : (s'.worker w).pc = (s.worker w).pc)
    (harr : (s'.link p w).arrived = (s.link p w).arrived) : Apart s' p w := by
  constructor
  · rw [harr]
    exact h.parsed
  · rw [hpc, harr]
    exact h.early

/-- Orderly steps keep the phases apart. -/
theorem Apart.step (h : Apart s p w) (hinv : Inv job s) (hok : Orderly s a)
    (hnext : Next job s a s') : Apart s' p w := by
  cases hnext with
  | compute v out s' hup hc =>
    constructor
    · rw [(hc.transport p w).2]
      exact h.parsed
    · intro hr
      rw [(hc.transport p w).2]
      refine h.early ?_
      by_cases hv : w = v
      · subst hv
        exact hc.forward.1 hr
      · rw [← hc.worker_of_ne hv]
        exact hr
  | readBegin v n i hup hpc hn =>
    refine ⟨h.parsed, fun hr => h.early ?_⟩
    by_cases hv : w = v
    · subst hv
      rw [setWorker_self] at hr
      cases hr
    · rw [setWorker_of_ne _ _ _ hv] at hr
      exact hr
  | send q v n => exact h.of_same rfl (arrived_of_eq rfl (by rfl) p w)
  | sendDone q v =>
    exact h.of_same (pc_of_update rfl (by rfl) w)
      (arrived_of_eq rfl (by rfl) p w)
  | parse v q n junk hup hnet hn hle =>
    have hn8 : n = 8 := hok.1 (by rw [hnet]; rfl)
    subst hn8
    constructor
    · refine link_cases (fun l => l.arrived.parsed = [] ∧
        l.arrived.stored = [] ∨ l.arrived.parsed.length = 8) rfl h.parsed ?_
      rintro rfl rfl
      obtain ⟨-, hnil, -⟩ := (hinv.receiver w hup.1 hup.2).handling p hnet
      refine Or.inr ?_
      dsimp only
      rw [hnil, List.nil_append, List.length_take]
      exact Nat.min_eq_left hle
    · intro hr
      rw [pc_of_update (s := s) rfl (accept_pc _ _ _ _) w] at hr
      refine link_cases (fun l => l.arrived.counted = 0) rfl (h.early hr) ?_
      rintro rfl rfl
      exact h.early hr
  | store v q slot sender offset ptr n junk hup hnet hn hle =>
    constructor
    · refine link_cases (fun l => l.arrived.parsed = [] ∧
        l.arrived.stored = [] ∨ l.arrived.parsed.length = 8) rfl h.parsed ?_
      rintro rfl rfl
      have hpar := ((hinv.receiver w hup.1 hup.2).storing
        p slot sender offset ptr hnet).2.2.2.1
      exact Or.inr (h.parsed.resolve_left fun hc => hpar hc.1)
    · intro hr
      rw [pc_of_update (s := s) rfl (by rfl) w] at hr
      refine link_cases (fun l => l.arrived.counted = 0) rfl (h.early hr) ?_
      rintro rfl rfl
      exact h.early hr
  | full v q slot sender offset ptr hup hnet hptr hlen =>
    constructor
    · refine link_cases (fun l => l.arrived.parsed = [] ∧
        l.arrived.stored = [] ∨ l.arrived.parsed.length = 8) rfl h.parsed ?_
      rintro rfl rfl
      exact h.parsed
    · intro hr
      rw [pc_of_update (s := s) rfl (by rfl) w] at hr
      refine link_cases (fun l => l.arrived.counted = 0) rfl (h.early hr) ?_
      rintro rfl rfl
      -- a worker that counts blocks is past its start-up
      rw [hinv.ready_of_full hup hnet hptr] at hr
      cases hr
  | collect v n => exact h.of_same (pc_of_update rfl (by rfl) w) rfl
  | begin => exact h.of_same (pc_of_update rfl (by rfl) w) rfl
  | listen v => exact h.of_same (pc_of_update rfl (by rfl) w) rfl
  | toHandle v => exact h.of_same (pc_of_update rfl (by rfl) w) rfl
  | toBlock v => exact h.of_same (pc_of_update rfl (by rfl) w) rfl
  | noSlot v => exact h.of_same (pc_of_update rfl (by rfl) w) rfl
  | count v => exact h.of_same (pc_of_update rfl (by rfl) w) rfl
  | bump v => exact h.of_same (pc_of_update rfl (by rfl) w) rfl
  | partly v => exact h.of_same (pc_of_update rfl (by rfl) w) rfl

/-- The phases are apart in every state of an orderly run. -/
theorem apart_of_run {as : List Action}
    (hrun : Run (step job) Orderly init as s) (p w : ℕ) : Apart s p w := by
  have h : Inv job s ∧ Apart s p w := by
    refine hrun.invariant (I := fun s => Inv job s ∧ Apart s p w)
      (fun s a s' h hok hstep => ?_) ⟨Inv.init job, ?_⟩
    · exact ⟨h.1.step hok hstep,
        h.2.step h.1 hok (next_of_step hstep)⟩
    · exact ⟨Or.inl ⟨rfl, rfl⟩, fun _ => rfl⟩
  exact h.2

/-- **The phases of the start-up are apart in every orderly run**: the parser of
handshakes gets the handshake, the events of blocks get the blocks, and nothing
is counted before the counter is set. -/
theorem phasesApart_of_orderly {as : List Action}
    (hrun : Run (step job) Orderly init as s) : PhasesApart job s := by
  intro w hw p hp hne
  have hstream := (inv_of_run hrun).stream p hp w hw hne
  have hapart := apart_of_run hrun p w
  rcases hapart.parsed with ⟨hpar, hst⟩ | hlen
  · rw [hpar, hst]
    exact ⟨List.nil_prefix, fun h => absurd rfl h, List.nil_prefix,
      hapart.early⟩
  · have ho : (s.worker p).pc.opened w = true := by
      by_contra ho
      obtain ⟨-, -, hnil, -⟩ := hstream.unopened (Bool.eq_false_iff.mpr ho)
      rw [hnil] at hlen
      cases hlen
    -- the first eight bytes on the connection are the handshake
    have horder := hstream.order ho
    rw [List.append_assoc, List.append_assoc] at horder
    obtain ⟨hpar, hrest⟩ := List.append_inj horder hlen
    rw [hpar]
    refine ⟨List.prefix_rfl, fun _ => rfl, ?_, hapart.early⟩
    rw [← hrest]
    exact List.prefix_append _ _

/-! ## Every handshake is taken -/

/-- The lengths that the workers announce are those of the in-block files. -/
def Job.SizesAgree (job : Job) : Prop :=
  ∀ p < job.workers, ∀ w < job.workers, w ≠ p →
    job.outSize p w = job.inSize w p

/-- No worker has stopped. -/
def Running (job : Job) (s : State) : Prop :=
  ∀ w < job.workers, (s.worker w).failed = none

theorem Running.of_update {v : ℕ} {x : Worker} (h : Running job s)
    (hworker : s'.worker = Function.update s.worker v x)
    (hx : x.failed = (s.worker v).failed) : Running job s' := fun w hw => by
  rw [field_of_update Worker.failed hworker hx]
  exact h w hw

/-- **What the workers make of the handshakes.** Where the sizes agree nobody
stops; a worker finds fault with a length only where the two sizes differ;
and one that goes on has taken each handshake it has received, under the
number of its sender, and counts it once. -/
def HandshakesTaken (job : Job) (s : State) : Prop :=
  (job.SizesAgree → Running job s) ∧
  ∀ w < job.workers,
    ((s.worker w).failed = some .length →
      ∃ p < job.workers, w ≠ p ∧ job.outSize p w ≠ job.inSize w p) ∧
    (s.worker w).failed ≠ some .bounds ∧ (s.worker w).failed ≠ some .slot ∧
    ((s.worker w).failed = none →
      (∀ p < job.workers, w ≠ p → (s.link p w).arrived.parsed ≠ [] →
        ((s.worker w).inbox.infos p).fd = some p ∧
          ((s.worker w).inbox.infos p).len = job.outSize p w ∧
          ((s.worker w).inbox.infos p).sender = p) ∧
      ((s.worker w).pc.closed = false →
        (s.worker w).inbox.recvFd + (s.worker w).inbox.net.pending =
          (heard job w fun p => (s.link p w).arrived).card) ∧
      ((s.worker w).pc.closed = true →
        ∀ p < job.workers, w ≠ p → (s.link p w).arrived.parsed ≠ []))

/-- A handshake is received when the file of the in-block of its sender is
open. -/
def Loaded (job : Job) (s : State) : Action → Prop
  | .receive w _ _ => ∀ p ∈ (s.worker w).inbox.net.handler,
      p < (s.worker w).pc.loaded job.workers
  | _ => True

instance (job : Job) (s : State) : DecidablePred (Loaded job s)
  | .receive _ _ _ => inferInstanceAs (Decidable (∀ p ∈ _, p < _))
  | .listen _ | .compute _ _ | .readBegin _ _ | .send _ _ _ | .sendDone _ _
  | .dispatch _ _ | .bump _ | .drain _ | .collect _ _ | .begin =>
    inferInstanceAs (Decidable True)

/-- A connection is asked for when the server of the peer listens. -/
def Listening (job : Job) (s : State) : Action → Prop
  | .compute w _ => ∀ j < job.workers, (s.worker w).pc = .connecting j →
      j ≠ w → (s.worker j).listening = true
  | _ => True

instance (job : Job) (s : State) : DecidablePred (Listening job s)
  | .compute _ _ => inferInstanceAs (Decidable (∀ j < job.workers, _))
  | .receive _ _ _ | .listen _ | .readBegin _ _ | .send _ _ _
  | .sendDone _ _ | .dispatch _ _ | .bump _ | .drain _ | .collect _ _
  | .begin => inferInstanceAs (Decidable True)

/-- **The steps of a start-up in which nobody comes too early**, neither to the
length table of its peer nor to its server. -/
structure InTime (job : Job) (s : State) (a : Action) : Prop where
  /-- The start-up is orderly. -/
  orderly : Orderly s a
  /-- The receiver of a handshake knows the length. -/
  loaded : Loaded job s a
  /-- The peer of a connection listens. -/
  listening : Listening job s a

instance (job : Job) (s : State) : DecidablePred (InTime job s) := fun _ =>
  decidable_of_iff (_ ∧ _ ∧ _)
    ⟨fun h => ⟨h.1, h.2.1, h.2.2⟩, fun h => ⟨h.orderly, h.loaded, h.listening⟩⟩

/-- What becomes of a worker that takes a handshake in time: it goes on, or
the sizes differ. -/
theorem Inv.parse_failed (h : Inv job s) {n : ℕ} {junk : List UInt8} {q : ℕ}
    (hup : s.Up job w) (hnet : (s.worker w).inbox.net = .handle q)
    (hle : n ≤ (s.link q w).flight.length) (hjunk : junk.length = 8 - n)
    (hok : InTime job s (.receive w n junk)) :
    let x := (s.worker w).accept q
      (intAt ((s.link q w).flight.take n ++ junk) 0)
      (intAt ((s.link q w).flight.take n ++ junk) 4)
    x.failed = (s.worker w).failed ∨ x.failed = some .length ∧
      ∃ p < job.workers, w ≠ p ∧ job.outSize p w ≠ job.inSize w p := by
  have hrec := h.receiver w hup.1 hup.2
  have hn8 : n = 8 := hok.orderly.1 (by rw [hnet]; rfl)
  subst hn8
  obtain ⟨hmem, hnil, -⟩ := hrec.handling q hnet
  obtain ⟨hne, hlt⟩ := mem_peers.mp hmem
  have htake := (h.stream q hlt w hup.1 hne.symm).take_eight hnil
    ((hrec.peer q hmem).silent hnil).1 hle
  have hl : q < (s.worker w).pc.loaded job.workers :=
    hok.loaded q (by rw [hnet]; rfl)
  dsimp only
  rw [htake, List.eq_nil_of_length_eq_zero hjunk, List.append_nil]
  rcases accept_greeting hlt hne.symm hrec with ⟨-, -, hacc⟩ | ⟨hbad, hacc⟩
  · rw [hacc]
    exact Or.inl rfl
  · rw [hacc]
    exact Or.inr ⟨rfl, q, hlt, hne.symm, hbad.resolve_left (not_le.mpr hl)⟩

/-- Every socket has an entry once the handshakes are over. -/
theorem Inv.exists_slot (h : Inv job s) {q : ℕ} (hup : s.Up job w)
    (hnet : (s.worker w).inbox.net = .idle) (hq : q < job.workers) (hne : q ≠ w)
    (hfd : (s.worker w).inbox.recvFd ≤ -1) :
    findSlot job w (s.worker w).inbox.infos q ≠ none := by
  have hrec := h.receiver w hup.1 hup.2
  have hmem : q ∈ peers job w := mem_peers.mpr ⟨hne, hq⟩
  have hclosed := (hrec.closed_iff hnet).mpr hfd
  rw [hrec.findSlot hmem ((hrec.shut hclosed).2.1 q hmem)]
  exact Option.some_ne_none _

/-- Why a worker may have stopped. -/
structure Stopped (job : Job) (s : State) (w : ℕ) : Prop where
  /-- The length check fails where the sizes differ. -/
  length : (s.worker w).failed = some .length →
    ∃ p < job.workers, w ≠ p ∧ job.outSize p w ≠ job.inSize w p
  /-- Every number announced is one of a worker. -/
  bounds : (s.worker w).failed ≠ some .bounds
  /-- Every socket has an entry. -/
  slot : (s.worker w).failed ≠ some .slot

/-- A step at which the worker does not stop. -/
theorem Stopped.of_same (h : Stopped job s w)
    (hfailed : (s'.worker w).failed = (s.worker w).failed) :
    Stopped job s' w := by
  constructor
  · rw [hfailed]
    exact h.length
  · rw [hfailed]
    exact h.bounds
  · rw [hfailed]
    exact h.slot

/-- A step at which it stops for another reason than the handshakes. -/
theorem Stopped.of_failed {f : Failure} (hfailed : (s'.worker w).failed = some f)
    (hlength : f = .length →
      ∃ p < job.workers, w ≠ p ∧ job.outSize p w ≠ job.inSize w p)
    (hbounds : f ≠ .bounds) (hslot : f ≠ .slot) : Stopped job s' w := by
  constructor
  · rw [hfailed]
    exact fun h => hlength (Option.some.inj h)
  · rw [hfailed]
    exact fun h => hbounds (Option.some.inj h)
  · rw [hfailed]
    exact fun h => hslot (Option.some.inj h)

/-- Steps in time stop a worker for a reason. -/
theorem Stopped.step (h : Stopped job s w) (hinv : Inv job s)
    (hok : InTime job s a) (hnext : Next job s a s') : Stopped job s' w := by
  cases hnext with
  | compute v out s' hup hc =>
    by_cases hv : w = v
    · subst hv
      rcases hc.failed with hsame | ⟨hchunk, -⟩ | ⟨hconn, -⟩
      · exact h.of_same hsame
      · exact .of_failed hchunk (fun hf => by cases hf) (by simp) (by simp)
      · exact .of_failed hconn (fun hf => by cases hf) (by simp) (by simp)
    · exact h.of_same (by rw [hc.worker_of_ne hv])
  | noSlot v q hup hnet hq hne hf hfd hslot =>
    exact absurd hslot (hinv.exists_slot hup hnet hq hne hfd)
  | parse v q n junk hup hnet hn hle hjunk =>
    by_cases hv : w = v
    · subst hv
      rcases hinv.parse_failed hup hnet hle hjunk hok with hsame | ⟨hlength, hdiffer⟩
      · exact h.of_same (field_of_update Worker.failed rfl hsame w)
      · refine .of_failed (f := .length) ?_ (fun _ => hdiffer) (by simp) (by simp)
        rw [setWorker_self]
        exact hlength
    · refine h.of_same ?_
      rw [setWorker_of_ne _ _ _ hv]
      rfl
  | send q v n => exact h.of_same rfl
  | sendDone q v =>
    exact h.of_same (field_of_update Worker.failed rfl (by rfl) w)
  | store v q =>
    exact h.of_same (field_of_update Worker.failed rfl (by rfl) w)
  | full v q =>
    exact h.of_same (field_of_update Worker.failed rfl (by rfl) w)
  | listen v | readBegin v | toHandle v | toBlock v | count v | bump v
  | partly v | collect v | begin =>
    exact h.of_same (field_of_update Worker.failed rfl (by rfl) w)

/-- **Nobody stops in time**, where the sizes agree and the in-blocks can be
read: whoever is connected to listens, and has not stopped either. -/
theorem Running.step (h : Running job s) (hagree : job.SizesAgree)
    (hread : ∀ w < job.workers, job.Readable w) (hinv : Inv job s)
    (hok : InTime job s a) (hnext : Next job s a s') : Running job s' := by
  cases hnext with
  | compute v out s' hup hc =>
    have hv : (s'.worker v).failed = none := by
      rcases hc.failed with hsame | ⟨-, hnot, -⟩ | ⟨-, j, hj, hpc, hne, hnot⟩
      · exact hsame.trans hup.2
      · exact absurd (hread v hup.1) hnot
      · exact absurd ⟨hok.listening j hj hpc hne, h j hj⟩ hnot
    intro w hw
    by_cases hwv : w = v
    · exact hwv ▸ hv
    · rw [hc.worker_of_ne hwv]
      exact h w hw
  | noSlot v q hup hnet hq hne hf hfd hslot =>
    exact absurd hslot (hinv.exists_slot hup hnet hq hne hfd)
  | parse v q n junk hup hnet hn hle hjunk =>
    rcases hinv.parse_failed hup hnet hle hjunk hok with hsame | ⟨-, p, hp, hne, hdiffer⟩
    · exact h.of_update rfl hsame
    · exact absurd (hagree p hp v hup.1 hne) hdiffer
  | send q v n => exact h
  | sendDone q v => exact h.of_update rfl (by rfl)
  | store v q => exact h.of_update rfl (by rfl)
  | full v q => exact h.of_update rfl (by rfl)
  | listen v | readBegin v | toHandle v | toBlock v | count v | bump v
  | partly v | collect v | begin => exact h.of_update rfl (by rfl)

/-- **In every run in time every handshake is taken**, where the in-blocks of
each worker can be read. -/
theorem handshakesTaken_of_orderly
    (hread : ∀ w < job.workers, job.Readable w) {as : List Action}
    (hrun : Run (step job) (InTime job) init as s) : HandshakesTaken job s := by
  have hinv : Inv job s := inv_of_run (hrun.mono fun _ _ h => h.orderly)
  refine ⟨fun hagree => ?_, fun w hw => ?_⟩
  · have hrunning : Inv job s ∧ Running job s := by
      refine hrun.invariant (I := fun s => Inv job s ∧ Running job s)
        (fun s a s' h hok hstep => ?_) ⟨Inv.init job, fun _ _ => rfl⟩
      exact ⟨h.1.step hok.orderly hstep,
        h.2.step hagree hread h.1 hok (next_of_step hstep)⟩
    exact hrunning.2
  · have hstopped : Inv job s ∧ Stopped job s w := by
      refine hrun.invariant (I := fun s => Inv job s ∧ Stopped job s w)
        (fun s a s' h hok hstep => ?_) ⟨Inv.init job, ?_⟩
      · exact ⟨h.1.step hok.orderly hstep,
          h.2.step h.1 hok (next_of_step hstep)⟩
      · exact ⟨fun hf => (by cases hf), fun hf => (by cases hf),
          fun hf => by cases hf⟩
    obtain ⟨-, hlength, hbounds, hslot⟩ := hstopped
    refine ⟨hlength, hbounds, hslot, fun hfailed => ?_⟩
    have hrec := hinv.receiver w hw hfailed
    refine ⟨fun p hp hne hpar => ?_, hrec.opened, fun hc p hp hne => ?_⟩
    · obtain ⟨-, hfd, hlen, hsender, -⟩ :=
        (hrec.peer p (mem_peers.mpr ⟨hne.symm, hp⟩)).known hpar
      exact ⟨hfd, hlen, hsender⟩
    · exact (hrec.shut hc).2.1 p (mem_peers.mpr ⟨hne.symm, hp⟩)

/-! ## Two workers -/

/-- Two workers, with blocks of `size` bytes for each other. -/
def twoWorkers (size : ℕ) (h : size < 2 ^ 31) : Job where
  workers := 2
  iterations := 2
  inSize _ _ := size
  outSize _ _ := size
  loaded _ _ := List.replicate size 0
  stripesize := 2 ^ 21
  workers_le := by decide
  loaded_length _ _ := List.length_replicate
  inSize_lt _ _ := h
  outSize_lt _ _ := h

/-- Steps of the compute thread of `w`, with nothing to hand over. -/
def goOn (w n : ℕ) : List Action :=
  List.replicate n (.compute w fun _ => [])

/-- Both servers listen, and both workers load. -/
def loadAll : List Action :=
  [.listen 0, .listen 1] ++ goOn 0 3 ++ goOn 1 3

/-- Both workers connect and send their handshakes. -/
def connectAll : List Action :=
  goOn 0 2 ++ [.send 0 1 8] ++ goOn 0 2 ++
    goOn 1 1 ++ [.send 1 0 8] ++ goOn 1 3

/-- Worker `w` takes the handshake of worker `p`. -/
def take (w p : ℕ) : List Action :=
  [.dispatch w p, .receive w 8 [], .bump w, .bump w]

/-- The start-up of both workers, in step. -/
def startAll : List Action :=
  loadAll ++ connectAll ++ take 0 1 ++ take 1 0 ++ goOn 0 4 ++ goOn 1 4

/-- The master has heard of both workers and begins an iteration. -/
def beginAll : List Action :=
  [.collect 0 messageSize, .collect 1 messageSize, .begin, .begin]

/-- Worker `w` computes. -/
def computeAt (w : ℕ) (block : List UInt8) : List Action :=
  [.readBegin w messageSize, .compute w fun _ => block]

/-- Worker `p` sends `n` bytes of its block, and worker `w` stores them. -/
def deliver (p w n : ℕ) : List Action :=
  [.send p w n, .dispatch w p, .receive w n [], .drain w]

/-- An iteration with blocks of one byte. -/
def iterateAll (b₀ b₁ : UInt8) : List Action :=
  beginAll ++ computeAt 0 [b₀] ++ computeAt 1 [b₁] ++ deliver 0 1 1 ++
    deliver 1 0 1 ++ [.sendDone 0 1, .sendDone 1 0] ++ goOn 0 5 ++ goOn 1 5

/-- Where both workers start up in step, the phases are apart. -/
theorem phasesApart_twoWorkers :
    ∃ s, Run (step (twoWorkers 1 (by decide))) Orderly init
        (startAll ++ iterateAll 1 2) s ∧
      PhasesApart (twoWorkers 1 (by decide)) s := by
  obtain ⟨s, hrun, -⟩ := exists_run (step (twoWorkers 1 (by decide)))
    Orderly init (startAll ++ iterateAll 1 2) (fun _ => True)
    (by decide +kernel)
  exact ⟨s, hrun, phasesApart_of_orderly hrun⟩

/-- A worker that has loaded is reported to the master, so that the other
one may send it a block while it still waits for handshakes: the handshake
parser takes the byte. -/
theorem not_phasesApart_lateWorker :
    ¬∀ (job : Job) (as : List Action) (s : State),
      Run (step job) (fun _ _ => True) init as s → PhasesApart job s := by
  intro h
  obtain ⟨s, hrun, hlen⟩ := exists_run
    (step (twoWorkers 1 (by decide))) (fun _ _ => True) init
    (loadAll ++ connectAll ++ take 0 1 ++ take 1 0 ++ goOn 1 4 ++
      beginAll ++ computeAt 1 [7] ++
      [.send 1 0 1, .dispatch 0 1, .receive 0 1 (List.replicate 7 0)])
    (fun s => 8 < (s.link 1 0).arrived.parsed.length)
    (by decide +kernel)
  obtain ⟨hpar, -⟩ := h _ _ s hrun 0 (by decide) 1 (by decide) (by decide)
  have hle := hpar.length_le
  rw [length_greeting] at hle
  omega

/-- Blocks of one byte can be read. -/
theorem readable_twoWorkers :
    ∀ w < (twoWorkers 1 (by decide)).workers, (twoWorkers 1 (by decide)).Readable w :=
  fun _ _ _ _ => ⟨Nat.one_pos, Nat.one_le_two_pow⟩

/-- Where both workers start up in step, every handshake is taken. -/
theorem handshakesTaken_twoWorkers :
    ∃ s, Run (step (twoWorkers 1 (by decide)))
        (InTime (twoWorkers 1 (by decide))) init startAll s ∧
      HandshakesTaken (twoWorkers 1 (by decide)) s := by
  obtain ⟨s, hrun, -⟩ := exists_run (step (twoWorkers 1 (by decide)))
    (InTime (twoWorkers 1 (by decide))) init startAll (fun _ => True)
    (by decide +kernel)
  exact ⟨s, hrun, handshakesTaken_of_orderly readable_twoWorkers hrun⟩

/-- A handshake that is received before the file of the in-block is open
fails the length check, although the sizes agree. -/
theorem not_handshakesTaken_earlyPeer :
    ¬∀ (job : Job) (as : List Action) (s : State),
      Run (step job) (fun _ _ => True) init as s → HandshakesTaken job s := by
  intro h
  obtain ⟨s, hrun, hfailed⟩ := exists_run
    (step (twoWorkers 1 (by decide))) (fun _ _ => True) init
    ([.listen 0] ++ goOn 1 4 ++
      [.send 1 0 8, .dispatch 0 1, .receive 0 8 []])
    (fun s => (s.worker 0).failed = some .length)
    (by decide +kernel)
  obtain ⟨hrunning, -⟩ := h _ _ s hrun
  rw [hrunning (fun _ _ _ _ _ => rfl) 0 (by decide)] at hfailed
  cases hfailed

end Exchange
