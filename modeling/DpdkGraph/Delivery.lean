import Mathlib
import DpdkGraph.Reception

/-!
# The bytes on the connections

On every connection the bytes parsed, stored, under way and not yet sent
make up the handshake followed by the blocks of the iterations computed so
far (`Stream`). The conditions on the runs under which the development
establishes its invariant are stated here too.
-/

namespace Exchange

/-! ## The conditions -/

/-- The peer whose handshake `dpdk_handle_event` is about to receive. -/
def Net.handler : Net → Option ℕ
  | .handle p => some p
  | _ => none

/-- A receive of `dpdk_handle_event` returns the whole handshake. -/
def Whole (s : State) : Action → Prop
  | .receive w n _ => (s.worker w).inbox.net.handler.isSome = true → n = 8
  | _ => True

/-- Bytes of a block are sent to workers whose start-up is over. -/
def AfterStart (s : State) : Action → Prop
  | .send p w _ =>
    0 < (s.worker p).pc.computed → (s.worker w).pc.ready = true
  | _ => True

/-- The three conditions. -/
def Orderly (s : State) (a : Action) : Prop :=
  Whole s a ∧ Framed a ∧ AfterStart s a

instance (s : State) : DecidablePred (Whole s)
  | .receive _ n _ => inferInstanceAs (Decidable (_ → n = 8))
  | .listen _ | .compute _ _ | .readBegin _ _ | .send _ _ _ | .sendDone _ _
  | .dispatch _ _ | .bump _ | .drain _ | .collect _ _ | .begin =>
    inferInstanceAs (Decidable True)

instance : DecidablePred Framed
  | .collect _ n | .readBegin _ n => inferInstanceAs (Decidable (n = _))
  | .listen _ | .compute _ _ | .send _ _ _ | .sendDone _ _ | .dispatch _ _
  | .receive _ _ _ | .bump _ | .drain _ | .begin =>
    inferInstanceAs (Decidable True)

instance (s : State) : DecidablePred (AfterStart s)
  | .send p _ _ =>
    inferInstanceAs (Decidable (0 < (s.worker p).pc.computed → _ = true))
  | .listen _ | .compute _ _ | .readBegin _ _ | .sendDone _ _ | .dispatch _ _
  | .receive _ _ _ | .bump _ | .drain _ | .collect _ _ | .begin =>
    inferInstanceAs (Decidable True)

instance (s : State) : DecidablePred (Orderly s) := fun _ =>
  inferInstanceAs (Decidable (_ ∧ _ ∧ _))

/-! ## One connection -/

/-- How many bytes have been sent on a connection. -/
def Link.sent (l : Link) : ℕ :=
  l.arrived.parsed.length + l.arrived.stored.length + l.flight.length

/-- What is on the connection from `p` to `w`. -/
structure Stream (job : Job) (p w : ℕ) (pc : Pc) (l : Link) : Prop where
  /-- Nothing, before it is opened. -/
  unopened : pc.opened w = false →
    l.outbox = [] ∧ l.flight = [] ∧ l.arrived.parsed = [] ∧
      l.arrived.stored = []
  /-- Then the handshake and the blocks. -/
  order : pc.opened w = true →
    l.arrived.parsed ++ l.arrived.stored ++ l.flight ++ l.outbox =
      greeting job p w ++ l.left.flatten
  /-- The blocks have their length. -/
  blocks : ∀ b ∈ l.left, b.length = job.outSize p w
  /-- There is one for each iteration computed. -/
  left_length : l.left.length = pc.computed
  /-- Before the first block nothing but the handshake is sent. -/
  flushed : pc ≠ .greeting w → pc.computed = 0 → l.outbox = []

variable {job : Job} {s s' : State} {a : Action} {p w : ℕ} {pc pc' : Pc}
  {l l' : Link}

theorem Stream.init (job : Job) (p w : ℕ) :
    Stream job p w (init.worker p).pc (init.link p w) where
  unopened _ := ⟨rfl, rfl, rfl, rfl⟩
  order h := by cases h
  blocks b h := by cases h
  left_length := rfl
  flushed _ _ := rfl

/-- The invariant reads the bytes on the connection and the blocks left. -/
theorem Stream.congr (h : Stream job p w pc l)
    (hout : l'.outbox = l.outbox) (hflight : l'.flight = l.flight)
    (hparsed : l'.arrived.parsed = l.arrived.parsed)
    (hstored : l'.arrived.stored = l.arrived.stored)
    (hleft : l'.left = l.left) : Stream job p w pc l' where
  unopened := by rw [hout, hflight, hparsed, hstored]; exact h.unopened
  order := by rw [hout, hflight, hparsed, hstored, hleft]; exact h.order
  blocks := by rw [hleft]; exact h.blocks
  left_length := by rw [hleft]; exact h.left_length
  flushed := by rw [hout]; exact h.flushed

/-- A step of the compute thread that does not concern the connection. -/
theorem Stream.move (h : Stream job p w pc l)
    (hopened : pc'.opened w = pc.opened w)
    (hcomputed : pc'.computed = pc.computed)
    (hflushed : pc' ≠ .greeting w → pc.computed = 0 → l.outbox = []) :
    Stream job p w pc' l where
  unopened := by rw [hopened]; exact h.unopened
  order := by rw [hopened]; exact h.order
  blocks := h.blocks
  left_length := by rw [hcomputed]; exact h.left_length
  flushed := by rw [hcomputed]; exact hflushed

/-- What has been sent is at most the handshake and the blocks left. -/
theorem Stream.length_le (h : Stream job p w pc l) :
    l.sent ≤ 8 + job.outSize p w * pc.computed := by
  unfold Link.sent
  by_cases ho : pc.opened w = true
  · have hlen := congrArg List.length (h.order ho)
    simp only [List.length_append, length_greeting] at hlen
    rw [BlockBuffer.length_flatten_of_forall h.blocks, h.left_length] at hlen
    omega
  · obtain ⟨-, hf, hp, hs⟩ := h.unopened (Bool.eq_false_iff.mpr ho)
    rw [hf, hp, hs]
    exact Nat.zero_le _

/-- What has not been received can only be there on an open connection. -/
theorem Stream.opened_of_flight (h : Stream job p w pc l)
    (hf : l.flight ≠ []) : pc.opened w = true := by
  by_contra ho
  exact hf (h.unopened (Bool.eq_false_iff.mpr ho)).2.1

/-- The bytes a first receive of eight bytes returns. -/
theorem Stream.take_eight (h : Stream job p w pc l)
    (hparsed : l.arrived.parsed = []) (hstored : l.arrived.stored = [])
    (hle : 8 ≤ l.flight.length) : l.flight.take 8 = greeting job p w := by
  have ho := h.opened_of_flight
    (List.ne_nil_of_length_pos (by omega : 0 < l.flight.length))
  have horder := h.order ho
  rw [hparsed, hstored, List.append_nil, List.nil_append] at horder
  have htake := congrArg (List.take 8) horder
  rw [List.take_append_of_le_length hle, ← length_greeting job p w,
    List.take_left] at htake
  exact htake

/-- Sending moves bytes from one part of the connection to the next. -/
theorem Stream.send (h : Stream job p w pc l) {n : ℕ} :
    Stream job p w pc { l with
      outbox := l.outbox.drop n, flight := l.flight ++ l.outbox.take n } where
  unopened ho := by
    obtain ⟨h1, h2, h3, h4⟩ := h.unopened ho
    refine ⟨?_, ?_, h3, h4⟩
    · show l.outbox.drop n = []
      rw [h1, List.drop_nil]
    · show l.flight ++ l.outbox.take n = []
      rw [h1, h2, List.take_nil, List.nil_append]
  order ho := by
    show _ ++ _ ++ (l.flight ++ l.outbox.take n) ++ l.outbox.drop n = _
    rw [← h.order ho, ← List.append_assoc, List.append_assoc _ _ (l.outbox.drop n),
      List.take_append_drop]
  blocks := h.blocks
  left_length := h.left_length
  flushed hg hc := by
    show l.outbox.drop n = []
    rw [h.flushed hg hc, List.drop_nil]

/-- A receive of `dpdk_handle_event`, before anything is stored. -/
theorem Stream.parse (h : Stream job p w pc l) {n : ℕ}
    (hstored : l.arrived.stored = []) (hf : l.flight ≠ []) :
    Stream job p w pc { l with
      flight := l.flight.drop n
      arrived := { l.arrived with
        parsed := l.arrived.parsed ++ l.flight.take n } } where
  unopened ho := by
    rw [h.opened_of_flight hf] at ho
    cases ho
  order ho := by
    show l.arrived.parsed ++ l.flight.take n ++ l.arrived.stored ++
      l.flight.drop n ++ l.outbox = _
    rw [← h.order ho, hstored, List.append_nil, List.append_nil,
      List.append_assoc l.arrived.parsed, List.take_append_drop]
  blocks := h.blocks
  left_length := h.left_length
  flushed := h.flushed

/-- A receive of `dpdk_block_event`. -/
theorem Stream.store (h : Stream job p w pc l) {n : ℕ} (hf : l.flight ≠ []) :
    Stream job p w pc { l with
      flight := l.flight.drop n
      arrived := { l.arrived with
        stored := l.arrived.stored ++ l.flight.take n } } where
  unopened ho := by
    rw [h.opened_of_flight hf] at ho
    cases ho
  order ho := by
    show l.arrived.parsed ++ (l.arrived.stored ++ l.flight.take n) ++
      l.flight.drop n ++ l.outbox = _
    rw [← h.order ho, ← List.append_assoc, List.append_assoc _ (l.flight.take n),
      List.take_append_drop]
  blocks := h.blocks
  left_length := h.left_length
  flushed := h.flushed

/-- The handshake is handed over when the connection has been opened. -/
theorem Stream.connect (h : Stream job p w (.connecting w) l) :
    Stream job p w (.greeting w) { l with outbox := greeting job p w } where
  unopened ho := absurd le_rfl (of_decide_eq_false ho)
  order _ := by
    obtain ⟨-, h2, h3, h4⟩ :=
      h.unopened (decide_eq_false (lt_irrefl w))
    have hleft : l.left = [] := List.eq_nil_of_length_eq_zero h.left_length
    show l.arrived.parsed ++ l.arrived.stored ++ l.flight ++ _ = _
    rw [h2, h3, h4, hleft]
    rfl
  blocks := h.blocks
  left_length := h.left_length
  flushed hg := absurd rfl hg

/-- The block of an iteration is handed over when it has been computed. -/
theorem Stream.queue (h : Stream job p w pc l) {block : List UInt8}
    (hopened : pc.opened w = true) (hopened' : pc'.opened w = true)
    (hcomputed : pc'.computed = pc.computed + 1)
    (hlen : block.length = job.outSize p w) :
    Stream job p w pc' (l.queue block) where
  unopened ho := by
    rw [hopened'] at ho
    cases ho
  order _ := by
    show l.arrived.parsed ++ l.arrived.stored ++ l.flight ++
      (l.outbox ++ block) = _ ++ (l.left ++ [block]).flatten
    rw [List.flatten_append, List.flatten_singleton, ← List.append_assoc,
      ← List.append_assoc, ← h.order hopened]
  blocks b hb := by
    rcases List.mem_append.mp hb with hb | hb
    · exact h.blocks b hb
    · rw [List.mem_singleton.mp hb]
      exact hlen
  left_length := by
    show (l.left ++ [block]).length = _
    rw [List.length_append, h.left_length, hcomputed]
    rfl
  flushed _ hc := by
    rw [hcomputed] at hc
    cases hc

/-- The compute thread's steps, on one of its connections. Most of them leave
the connection and its part of the program counter; a connect puts the handshake
in the outbox, and the end of an iteration adds a block. -/
theorem Stream.compute (hw : w < job.workers) (hne : w ≠ p)
    (h : Stream job p w (s.worker p).pc (s.link p w)) {out : ℕ → List UInt8}
    (hnext : Computes job s p (s.worker p) out s') :
    Stream job p w (s'.worker p).pc (s'.link p w) := by
  cases hnext with
  | load n hpc =>
    rw [setWorker_self]
    rw [hpc] at h
    exact h.move rfl rfl fun _ => h.flushed (by simp)
  | loaded n hpc =>
    rw [setWorker_self]
    rw [hpc] at h
    exact h.move (decide_eq_false (Nat.not_lt_zero w)) rfl
      fun _ => h.flushed (by simp)
  | connected j hpc hj =>
    rw [setWorker_self]
    rw [hpc] at h
    exact h.move (decide_eq_true (hw.trans_le hj)).symm rfl
      fun _ => h.flushed (by simp)
  | self hpc =>
    rw [setWorker_self]
    rw [hpc] at h
    refine h.move ?_ rfl fun _ => h.flushed (by simp)
    -- the connection that is skipped is the worker's own, which is not the one to
    -- `w`
    show decide (w < p + 1) = decide (w < p)
    rw [decide_eq_decide]
    omega
  | connect j hpc hj hjp =>
    rw [setLink_worker, setWorker_self]
    rw [hpc] at h
    by_cases hwj : w = j
    · subst hwj
      rw [setLink_self]
      exact h.connect
    · rw [setLink_of_ne _ _ _ _ fun hc => hwj hc.2]
      refine h.move ?_ rfl fun _ => h.flushed (by simp)
      show decide (w ≤ j) = decide (w < j)
      rw [decide_eq_decide]
      omega
  | refused j hpc | unreadable j hpc =>
    rw [setWorker_self]
    exact h.move rfl rfl h.flushed
  | greeted j hpc hout =>
    rw [setWorker_self]
    rw [hpc] at h
    refine h.move ?_ rfl fun _ hc => ?_
    · show decide (w < j + 1) = decide (w ≤ j)
      rw [decide_eq_decide]
      omega
    · -- nothing of the handshake is left where the thread waited for it
      by_cases hwj : w = j
      · rw [hwj]
        exact hout
      · exact h.flushed (fun hg => hwj (Pc.greeting.inj hg).symm) hc
  | computed i hpc hout =>
    rw [hpc] at h
    have hlink : (Function.update s.link p fun j =>
        if j < job.workers ∧ j ≠ p then (s.link p j).queue (out j)
        else s.link p j) p w = (s.link p w).queue (out w) := by
      rw [Function.update_self]
      exact if_pos ⟨hw, hne⟩
    show Stream job p w ((s.setWorker p _).worker p).pc
      ((Function.update s.link p fun j =>
        if j < job.workers ∧ j ≠ p then (s.link p j).queue (out j)
        else s.link p j) p w)
    rw [hlink, setWorker_self]
    exact h.queue rfl rfl rfl (hout w hw)
  | peers hpc | closePeers hpc | initSend hpc | initRecv hpc | received _ hpc
  | sent _ hpc | resetSend _ hpc | resetRecv _ hpc | ack _ hpc =>
    rw [setWorker_self]
    rw [hpc] at h
    exact h.move rfl rfl fun _ => h.flushed (by simp)

/-! ## What a step of a compute thread leaves alone -/

section Frame

variable {v : ℕ} {out : ℕ → List UInt8}

/-- It moves no other worker, -/
theorem Computes.worker_of_ne (h : Computes job s v (s.worker v) out s')
    (hw : w ≠ v) : s'.worker w = s.worker w := by
  cases h <;> exact setWorker_of_ne s v _ hw

/-- concerns no connection of another worker, -/
theorem Computes.link_of_ne (h : Computes job s v (s.worker v) out s')
    (hp : p ≠ v) : s'.link p w = s.link p w := by
  cases h with
  | connect j => exact setLink_of_ne _ _ _ _ fun hc => hp hc.1
  | computed i =>
    show Function.update s.link v _ p w = _
    rw [Function.update_of_ne hp]
  | _ => rfl

/-- and neither sends nor receives. -/
theorem Computes.transport (h : Computes job s v (s.worker v) out s')
    (p w : ℕ) :
    (s'.link p w).flight = (s.link p w).flight ∧
      (s'.link p w).arrived = (s.link p w).arrived := by
  cases h with
  | connect j =>
    by_cases hpw : p = v ∧ w = j
    · obtain ⟨rfl, rfl⟩ := hpw
      rw [setLink_self]
      exact ⟨rfl, rfl⟩
    · rw [setLink_of_ne _ _ _ _ hpw]
      exact ⟨rfl, rfl⟩
  | computed i =>
    show (Function.update s.link v _ p w).flight = _ ∧
      (Function.update s.link v _ p w).arrived = _
    by_cases hp : p = v
    · rw [hp, Function.update_self]
      split
      · exact ⟨rfl, rfl⟩
      · exact ⟨rfl, rfl⟩
    · rw [Function.update_of_ne hp]
      exact ⟨rfl, rfl⟩
  | _ => exact ⟨rfl, rfl⟩

/-- The compute thread goes forward. -/
theorem Computes.forward (h : Computes job s v (s.worker v) out s') :
    ((s'.worker v).pc.ready = false → (s.worker v).pc.ready = false) ∧
      (s.worker v).pc.computed ≤ (s'.worker v).pc.computed := by
  cases h with
  | refused j | unreadable j =>
    rw [setWorker_self]
    exact ⟨id, le_rfl⟩
  | connect j hpc =>
    rw [setLink_worker, setWorker_self, hpc]
    exact ⟨id, le_rfl⟩
  | computed i hpc =>
    show (((s.setWorker v _).worker v).pc.ready = false → _) ∧
      _ ≤ ((s.setWorker v _).worker v).pc.computed
    rw [setWorker_self, hpc]
    exact ⟨id, Nat.le_succ i⟩
  | initRecv hpc =>
    rw [setWorker_self, hpc]
    exact ⟨fun _ => rfl, le_rfl⟩
  | self hpc | load _ hpc | loaded _ hpc | connected _ hpc | greeted _ hpc
  | peers hpc | closePeers hpc | initSend hpc | received _ hpc
  | sent _ hpc | resetSend _ hpc | resetRecv _ hpc | ack _ hpc =>
    rw [setWorker_self, hpc]
    exact ⟨id, le_rfl⟩

/-- It fails only where its in-blocks cannot be read, or a connection is
refused. -/
theorem Computes.failed (h : Computes job s v (s.worker v) out s') :
    (s'.worker v).failed = (s.worker v).failed ∨
      ((s'.worker v).failed = some .chunk ∧ ¬job.Readable v ∧
        ∃ n, (s.worker v).pc = .loading n ∧ job.workers ≤ n) ∨
      (s'.worker v).failed = some .connect ∧
        ∃ j < job.workers, (s.worker v).pc = .connecting j ∧ j ≠ v ∧
          ¬((s.worker j).listening = true ∧ (s.worker j).failed = none) := by
  cases h with
  | unreadable n hpc hn hread =>
    rw [setWorker_self]
    exact Or.inr (Or.inl ⟨rfl, hread, n, hpc, hn⟩)
  | refused j hpc hj hjv hup =>
    rw [setWorker_self]
    exact Or.inr (Or.inr ⟨rfl, j, hj, hpc, hjv, hup⟩)
  | connect j =>
    rw [setLink_worker, setWorker_self]
    exact Or.inl rfl
  | computed i =>
    refine Or.inl ?_
    show ((s.setWorker v _).worker v).failed = _
    rw [setWorker_self]
  | self | load _ | loaded _ | connected _ | greeted _ | peers | closePeers
  | initSend | initRecv | received _ | sent _ | resetSend _ | resetRecv _
  | ack _ =>
    rw [setWorker_self]
    exact Or.inl rfl

end Frame

/-- What `dpdk_handle_event` decides keeps the compute thread in place. -/
theorem accept_pc (x : Worker) (p : ℕ) (sender olen : ℤ) :
    (x.accept p sender olen).pc = x.pc :=
  (accept_control x p sender olen).1

/-- What the replacement of a worker leaves alone. -/
theorem field_of_update {β : Type*} (f : Worker → β) {v : ℕ} {x : Worker}
    (hworker : s'.worker = Function.update s.worker v x)
    (hx : f x = f (s.worker v)) (w : ℕ) : f (s'.worker w) = f (s.worker w) := by
  rw [hworker, Function.update_apply]
  split
  · next hw => rw [hw, hx]
  · rfl

/-- A worker's compute thread is not moved by a step of another thread. -/
theorem pc_of_update {v : ℕ} {x : Worker}
    (hworker : s'.worker = Function.update s.worker v x)
    (hx : x.pc = (s.worker v).pc) (w : ℕ) :
    (s'.worker w).pc = (s.worker w).pc :=
  field_of_update Worker.pc hworker hx w

end Exchange
