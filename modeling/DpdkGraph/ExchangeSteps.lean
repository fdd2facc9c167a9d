import Mathlib
import DpdkGraph.Exchange

/-!
# What a step of the workers and the master can do

`Next` lists the outcomes of `step`, one constructor each, with the guard
under which it happens; `next_of_step` is the inversion of `step` that every
invariant is derived from.
-/

namespace Exchange

open BlockBuffer (overwrite)

/-! ## Replacing a part of the state -/

section Replace

variable (s : State) (w p : ℕ) (x : Worker) (l : Link)

@[simp] theorem setWorker_link : (s.setWorker w x).link = s.link := rfl

@[simp] theorem setWorker_master : (s.setWorker w x).master = s.master := rfl

@[simp] theorem setLink_worker : (s.setLink p w l).worker = s.worker := rfl

@[simp] theorem setLink_master : (s.setLink p w l).master = s.master := rfl

theorem setWorker_worker (w' : ℕ) :
    (s.setWorker w x).worker w' = if w' = w then x else s.worker w' :=
  Function.update_apply _ _ _ _

@[simp] theorem setWorker_self : (s.setWorker w x).worker w = x :=
  Function.update_self _ _ _

@[simp] theorem setWorker_of_ne {w' : ℕ} (h : w' ≠ w) :
    (s.setWorker w x).worker w' = s.worker w' :=
  Function.update_of_ne h _ _

@[simp] theorem setLink_self : (s.setLink p w l).link p w = l := by
  show Function.update s.link p (Function.update (s.link p) w l) p w = l
  rw [Function.update_self, Function.update_self]

theorem setLink_of_ne {p' w' : ℕ} (h : ¬(p' = p ∧ w' = w)) :
    (s.setLink p w l).link p' w' = s.link p' w' := by
  show Function.update s.link p (Function.update (s.link p) w l) p' w' = _
  by_cases hp : p' = p
  · rw [hp, Function.update_self]
    exact Function.update_of_ne (fun hw => h ⟨hp, hw⟩) _ _
  · rw [Function.update_of_ne hp]

end Replace

/-! ## The outcomes -/

/-- The outcomes of the compute thread's steps, `x` being the worker. -/
inductive Computes (job : Job) (s : State) (w : ℕ) (x : Worker)
    (out : ℕ → List UInt8) : State → Prop
  | load (n : ℕ) : x.pc = .loading n → n < job.workers →
      Computes job s w x out (s.setWorker w { x with
        pc := .loading (n + 1)
        inbox := { x.inbox with
          inlength := Function.update x.inbox.inlength n (job.inSize w n)
          inbuf := Function.update x.inbox.inbuf n (job.loaded w n) } })
  | unreadable (n : ℕ) : x.pc = .loading n → job.workers ≤ n → ¬job.Readable w →
      Computes job s w x out
        (s.setWorker w { x with failed := some .chunk })
  | loaded (n : ℕ) : x.pc = .loading n → job.workers ≤ n → job.Readable w →
      Computes job s w x out (s.setWorker w { x with
        pc := .connecting 0, toMaster := x.toMaster + messageSize })
  | connected (j : ℕ) : x.pc = .connecting j → job.workers ≤ j →
      Computes job s w x out (s.setWorker w { x with pc := .waitPeers })
  | self : x.pc = .connecting w →
      Computes job s w x out
        (s.setWorker w { x with pc := .connecting (w + 1) })
  | connect (j : ℕ) : x.pc = .connecting j → j < job.workers → j ≠ w →
      Computes job s w x out ((s.setWorker w
        { x with pc := .greeting j }).setLink w j
          { s.link w j with outbox := greeting job w j })
  | refused (j : ℕ) : x.pc = .connecting j → j < job.workers → j ≠ w →
      ¬((s.worker j).listening = true ∧ (s.worker j).failed = none) →
      Computes job s w x out
        (s.setWorker w { x with failed := some .connect })
  | greeted (j : ℕ) : x.pc = .greeting j → (s.link w j).outbox = [] →
      Computes job s w x out
        (s.setWorker w { x with pc := .connecting (j + 1) })
  | peers : x.pc = .waitPeers → (job.workers : ℤ) - 1 ≤ x.inbox.recvFd →
      Computes job s w x out (s.setWorker w { x with pc := .closePeers })
  | closePeers : x.pc = .closePeers →
      Computes job s w x out (s.setWorker w { x with
        pc := .initSend, inbox := { x.inbox with recvFd := -999 } })
  | initSend : x.pc = .initSend →
      Computes job s w x out (s.setWorker w { x with
        pc := .initRecv, sendJobNum := (job.workers : ℤ) - 1 })
  | initRecv : x.pc = .initRecv →
      Computes job s w x out (s.setWorker w { x with
        pc := .iter 0 .head
        inbox := { x.inbox with recvJobNum := (job.workers : ℤ) - 1 } })
  | computed (i : ℕ) : x.pc = .iter i .compute →
      (∀ j < job.workers, (out j).length = job.outSize w j) →
      Computes job s w x out
        { s.setWorker w { x with pc := .iter i .waitRecv } with
          link := Function.update s.link w fun j =>
            if j < job.workers ∧ j ≠ w then (s.link w j).queue (out j)
            else s.link w j }
  | received (i : ℕ) : x.pc = .iter i .waitRecv → x.inbox.recvJobNum = 0 →
      Computes job s w x out
        (s.setWorker w { x with pc := .iter i .waitSend })
  | sent (i : ℕ) : x.pc = .iter i .waitSend → x.sendJobNum = 0 →
      Computes job s w x out
        (s.setWorker w { x with pc := .iter i .resetSend })
  | resetSend (i : ℕ) : x.pc = .iter i .resetSend →
      Computes job s w x out (s.setWorker w { x with
        pc := .iter i .resetRecv, sendJobNum := (job.workers : ℤ) - 1 })
  | resetRecv (i : ℕ) : x.pc = .iter i .resetRecv →
      Computes job s w x out (s.setWorker w { x with
        pc := .iter i .ack
        inbox := { x.inbox with recvJobNum := (job.workers : ℤ) - 1 } })
  | ack (i : ℕ) : x.pc = .iter i .ack →
      Computes job s w x out (s.setWorker w { x with
        pc := .iter (i + 1) .head, toMaster := x.toMaster + messageSize })

/-- The outcomes of the other steps of a worker. -/
inductive Next (job : Job) (s : State) : Action → State → Prop
  | listen (w : ℕ) : s.Up job w →
      Next job s (.listen w)
        (s.setWorker w { s.worker w with listening := true })
  | compute (w : ℕ) (out : ℕ → List UInt8) (s' : State) : s.Up job w →
      Computes job s w (s.worker w) out s' → Next job s (.compute w out) s'
  | readBegin (w n i : ℕ) : s.Up job w →
      (s.worker w).pc = .iter i .head → n ≤ (s.worker w).fromMaster →
      Next job s (.readBegin w n) (s.setWorker w { s.worker w with
        pc := .iter i .compute
        fromMaster := (s.worker w).fromMaster - n })
  | send (p w n : ℕ) : s.Up job p → w < job.workers → w ≠ p → 0 < n →
      n ≤ (s.link p w).outbox.length →
      Next job s (.send p w n) (s.setLink p w { s.link p w with
        outbox := (s.link p w).outbox.drop n
        flight := (s.link p w).flight ++ (s.link p w).outbox.take n })
  | sendDone (p w : ℕ) : s.Up job p → w ≠ p →
      Next job s (.sendDone p w)
        ((s.setLink p w { s.link p w with busy := false }).setWorker p
          { s.worker p with sendJobNum := (s.worker p).sendJobNum - 1 })
  | toHandle (w p : ℕ) : s.Up job w → (s.worker w).inbox.net = .idle →
      p < job.workers → p ≠ w → (s.link p w).flight ≠ [] →
      -1 < (s.worker w).inbox.recvFd →
      Next job s (.dispatch w p) (s.setWorker w { s.worker w with
        inbox := { (s.worker w).inbox with net := .handle p } })
  | toBlock (w p slot : ℕ) : s.Up job w → (s.worker w).inbox.net = .idle →
      p < job.workers → p ≠ w → (s.link p w).flight ≠ [] →
      (s.worker w).inbox.recvFd ≤ -1 →
      findSlot job w (s.worker w).inbox.infos p = some slot →
      Next job s (.dispatch w p) (s.setWorker w { s.worker w with
        inbox := { (s.worker w).inbox with
          net := .block p slot ((s.worker w).inbox.infos slot).sender
            ((s.worker w).inbox.infos slot).offset 0 } })
  | noSlot (w p : ℕ) : s.Up job w → (s.worker w).inbox.net = .idle →
      p < job.workers → p ≠ w → (s.link p w).flight ≠ [] →
      (s.worker w).inbox.recvFd ≤ -1 →
      findSlot job w (s.worker w).inbox.infos p = none →
      Next job s (.dispatch w p)
        (s.setWorker w { s.worker w with failed := some .slot })
  | parse (w p n : ℕ) (junk : List UInt8) : s.Up job w →
      (s.worker w).inbox.net = .handle p → 0 < n →
      n ≤ (s.link p w).flight.length → junk.length = 8 - n →
      Next job s (.receive w n junk)
        ((s.setLink p w { s.link p w with
            flight := (s.link p w).flight.drop n
            arrived := { (s.link p w).arrived with
              parsed := (s.link p w).arrived.parsed ++
                (s.link p w).flight.take n } }).setWorker w
          ((s.worker w).accept p
            (intAt ((s.link p w).flight.take n ++ junk) 0)
            (intAt ((s.link p w).flight.take n ++ junk) 4)))
  | store (w p slot sender offset ptr n : ℕ) (junk : List UInt8) :
      s.Up job w →
      (s.worker w).inbox.net = .block p slot sender offset ptr → 0 < n →
      n ≤ (s.link p w).flight.length →
      Next job s (.receive w n junk)
        ((s.setLink p w { s.link p w with
            flight := (s.link p w).flight.drop n
            arrived := { (s.link p w).arrived with
              stored := (s.link p w).arrived.stored ++
                (s.link p w).flight.take n } }).setWorker w
          { s.worker w with inbox := { (s.worker w).inbox with
              inbuf := Function.update (s.worker w).inbox.inbuf sender
                (overwrite ((s.worker w).inbox.inbuf sender) (offset + ptr)
                  ((s.link p w).flight.take n))
              net := .block p slot sender offset (ptr + n) } })
  | count (w : ℕ) : s.Up job w → (s.worker w).inbox.net = .count →
      Next job s (.bump w) (s.setWorker w { s.worker w with
        inbox := { (s.worker w).inbox with
          net := .bump (s.worker w).inbox.recvFd } })
  | bump (w : ℕ) (v : ℤ) : s.Up job w → (s.worker w).inbox.net = .bump v →
      Next job s (.bump w) (s.setWorker w { s.worker w with
        inbox := { (s.worker w).inbox with recvFd := v + 1, net := .idle } })
  | full (w p slot sender offset ptr : ℕ) : s.Up job w →
      (s.worker w).inbox.net = .block p slot sender offset ptr → 0 < ptr →
      ((offset + ptr : ℕ) : ℤ) = ((s.worker w).inbox.infos slot).len →
      Next job s (.drain w)
        ((s.setLink p w { s.link p w with
            arrived := { (s.link p w).arrived with
              counted := (s.link p w).arrived.counted + 1 } }).setWorker w
          { s.worker w with inbox := { (s.worker w).inbox with
              infos := Function.update (s.worker w).inbox.infos slot
                { (s.worker w).inbox.infos slot with offset := 0 }
              recvJobNum := (s.worker w).inbox.recvJobNum - 1
              net := .idle } })
  | partly (w p slot sender offset ptr : ℕ) : s.Up job w →
      (s.worker w).inbox.net = .block p slot sender offset ptr → 0 < ptr →
      ((offset + ptr : ℕ) : ℤ) ≠ ((s.worker w).inbox.infos slot).len →
      Next job s (.drain w) (s.setWorker w { s.worker w with
        inbox := { (s.worker w).inbox with
          infos := Function.update (s.worker w).inbox.infos slot
            { (s.worker w).inbox.infos slot with offset := offset + ptr }
          net := .idle } })
  | collect (w n : ℕ) : w < job.workers → s.master.next = 0 →
      s.master.got w = false → n ≤ (s.worker w).toMaster →
      Next job s (.collect w n)
        { s.setWorker w { s.worker w with
            toMaster := (s.worker w).toMaster - n } with
          master := { s.master with
            got := Function.update s.master.got w true } }
  | begin : s.master.next < job.workers →
      (∀ y < job.workers, s.master.got y = true) →
      Next job s .begin
        { s.setWorker s.master.next { s.worker s.master.next with
            fromMaster :=
              (s.worker s.master.next).fromMaster + messageSize } with
          master :=
            if s.master.next + 1 = job.workers then
              ⟨s.master.round + 1, 0, fun _ => false⟩
            else { s.master with next := s.master.next + 1 } }

/-- The worker that an action is a step of; the master's are steps at the
worker that it reads from or writes to. -/
def Action.worker (s : State) : Action → ℕ
  | .listen w | .compute w _ | .readBegin w _ | .dispatch w _ | .receive w _ _
  | .bump w | .drain w | .collect w _ => w
  | .send p _ _ | .sendDone p _ => p
  | .begin => s.master.next

/-- A step of the compute thread is one of its outcomes. The cases are those of
the place of the thread, in the order of `computeStep`. -/
theorem computes_of_step {job : Job} {s s' : State} {w : ℕ}
    {out : ℕ → List UInt8} (h : computeStep job s w out = some s') :
    Computes job s w (s.worker w) out s' := by
  unfold computeStep at h
  dsimp only at h
  split at h
  case h_1 n hpc =>
    split at h
    · next hn =>
      obtain rfl := Option.some.inj h
      exact .load n hpc hn
    · next hn =>
      split at h <;> obtain rfl := Option.some.inj h
      · next hread => exact .loaded n hpc (by omega) hread
      · next hread => exact .unreadable n hpc (by omega) hread
  case h_2 j hpc =>
    split at h
    · next hj =>
      obtain rfl := Option.some.inj h
      exact .connected j hpc hj
    · next hj =>
      split at h
      · next hw =>
        obtain rfl := Option.some.inj h
        rw [hw] at hpc ⊢
        exact .self hpc
      · next hw =>
        split at h <;> obtain rfl := Option.some.inj h
        · exact .connect j hpc (by omega) hw
        · next hup => exact .refused j hpc (by omega) hw hup
  case h_3 j hpc =>
    split at h
    · next hout =>
      obtain rfl := Option.some.inj h
      exact .greeted j hpc hout
    · cases h
  case h_4 hpc =>
    split at h
    · next hfd =>
      obtain rfl := Option.some.inj h
      exact .peers hpc hfd
    · cases h
  case h_5 hpc =>
    obtain rfl := Option.some.inj h
    exact .closePeers hpc
  case h_6 hpc =>
    obtain rfl := Option.some.inj h
    exact .initSend hpc
  case h_7 hpc =>
    obtain rfl := Option.some.inj h
    exact .initRecv hpc
  case h_8 => cases h
  case h_9 i hpc =>
    split at h
    · next hout =>
      obtain rfl := Option.some.inj h
      exact .computed i hpc hout
    · cases h
  case h_10 i hpc =>
    split at h
    · next hz =>
      obtain rfl := Option.some.inj h
      exact .received i hpc hz
    · cases h
  case h_11 i hpc =>
    split at h
    · next hz =>
      obtain rfl := Option.some.inj h
      exact .sent i hpc hz
    · cases h
  case h_12 i hpc =>
    obtain rfl := Option.some.inj h
    exact .resetSend i hpc
  case h_13 i hpc =>
    obtain rfl := Option.some.inj h
    exact .resetRecv i hpc
  case h_14 i hpc =>
    obtain rfl := Option.some.inj h
    exact .ack i hpc

/-- An action that its worker's being up guards. -/
theorem of_guard {c : Prop} [Decidable c] {o : Option State} {s' : State}
    (h : (if c then o else none) = some s') : c ∧ o = some s' := by
  by_cases hc : c
  · exact ⟨hc, by rwa [if_pos hc] at h⟩
  · rw [if_neg hc] at h
    cases h

/-- **A step has one of the outcomes `Next` lists**: the guards of `step`, read
off once, so that the proofs about the protocol do not unfold it. -/
theorem next_of_step {job : Job} {s s' : State} {a : Action}
    (h : step job s a = some s') : Next job s a s' := by
  cases a with
  | listen w =>
    obtain ⟨hup, h⟩ := of_guard h
    obtain rfl := Option.some.inj h
    exact .listen w hup
  | compute w out =>
    obtain ⟨hup, h⟩ := of_guard h
    exact .compute w out s' hup (computes_of_step h)
  | readBegin w n =>
    obtain ⟨hup, h⟩ := of_guard h
    unfold readBeginStep at h
    dsimp only at h
    split at h
    · next i hpc =>
      obtain ⟨⟨_, _, _, hn⟩, h⟩ := of_guard h
      obtain rfl := Option.some.inj h
      exact .readBegin w n i hup hpc hn
    · cases h
  | send p w n =>
    obtain ⟨⟨hup, hw, hne⟩, h⟩ := of_guard h
    obtain ⟨⟨hn, _, hle⟩, h⟩ := of_guard h
    obtain rfl := Option.some.inj h
    exact .send p w n hup hw hne hn hle
  | sendDone p w =>
    obtain ⟨⟨hup, _, hne⟩, h⟩ := of_guard h
    obtain ⟨_, h⟩ := of_guard h
    obtain rfl := Option.some.inj h
    exact .sendDone p w hup hne
  | dispatch w p =>
    obtain ⟨hup, h⟩ := of_guard h
    obtain ⟨⟨_, hnet, hp, hne, hfl⟩, h⟩ := of_guard h
    split at h
    · next hfd =>
      obtain rfl := Option.some.inj h
      exact .toHandle w p hup hnet hp hne hfl hfd
    · next hfd =>
      split at h
      · next slot hslot =>
        obtain rfl := Option.some.inj h
        exact .toBlock w p slot hup hnet hp hne hfl (by omega) hslot
      · next hslot =>
        obtain rfl := Option.some.inj h
        exact .noSlot w p hup hnet hp hne hfl (by omega) hslot
  | receive w n junk =>
    obtain ⟨hup, h⟩ := of_guard h
    unfold receiveStep at h
    dsimp only at h
    split at h
    · next p hnet =>
      obtain ⟨⟨hn, _, hle, hjunk⟩, h⟩ := of_guard h
      obtain rfl := Option.some.inj h
      exact .parse w p n junk hup hnet hn hle hjunk
    · next p slot sender offset ptr hnet =>
      obtain ⟨⟨hn, _, hle⟩, h⟩ := of_guard h
      obtain rfl := Option.some.inj h
      exact .store w p slot sender offset ptr n junk hup hnet hn hle
    · cases h
  | bump w =>
    obtain ⟨hup, h⟩ := of_guard h
    unfold bumpStep at h
    dsimp only at h
    split at h
    · next hnet =>
      obtain rfl := Option.some.inj h
      exact .count w hup hnet
    · next v hnet =>
      obtain rfl := Option.some.inj h
      exact .bump w v hup hnet
    · cases h
  | drain w =>
    obtain ⟨hup, h⟩ := of_guard h
    unfold drainStep at h
    dsimp only at h
    split at h
    · next p slot sender offset ptr hnet =>
      split at h
      · cases h
      · next hptr =>
        split at h
        · next hlen =>
          obtain rfl := Option.some.inj h
          exact .full w p slot sender offset ptr hup hnet (by omega) hlen
        · next hlen =>
          obtain rfl := Option.some.inj h
          exact .partly w p slot sender offset ptr hup hnet (by omega) hlen
    · cases h
  | collect w n =>
    obtain ⟨hw, h⟩ := of_guard h
    obtain ⟨⟨hnext, hgot, _, _, hn⟩, h⟩ := of_guard h
    obtain rfl := Option.some.inj h
    exact .collect w n hw hnext hgot hn
  | begin =>
    obtain ⟨⟨_, hnext, hgot⟩, h⟩ := of_guard h
    obtain rfl := Option.some.inj h
    exact .begin hnext hgot

end Exchange
