import Mathlib
import DpdkGraph.Barrier

/-!
# What a worker has received

`Receiver` ties the variables of one worker's network thread – the table
`in_infos`, the buffers `inbuf`, `recv_fd` and `recv_job_num` – to the bytes
that have arrived on its sockets, at every point of the worker's own
compute thread. The lemmas below keep it over the steps of the worker's two
threads, each under the facts about the rest of the system that the step
relies on.
-/

namespace Exchange

open BlockBuffer (Overlay overwrite)
open SparseRows (u32le readU32)
open Reshard (toInt32)

/-! ## The position of the network thread -/

/-- Whether the network thread stores into the buffer of `p`. -/
def Net.storesTo (p : ℕ) : Net → Bool
  | .block _ slot _ _ _ => decide (slot = p)
  | _ => false

/-- Handshakes taken that `recv_fd` does not count yet. -/
def Net.pending : Net → ℕ
  | .count | .bump _ => 1
  | _ => 0

/-- Whether the network thread has left the handshakes behind. -/
def Net.past : Net → Bool
  | .idle | .block _ _ _ _ _ => true
  | _ => false

/-- How many bytes of the current block of `p` are stored. -/
def Inbox.pos (x : Inbox) (p : ℕ) : ℕ :=
  match x.net with
  | .block _ slot _ offset ptr =>
    if slot = p then offset + ptr else (x.infos p).offset
  | _ => (x.infos p).offset

theorem Inbox.pos_of_not_storesTo {x : Inbox} {p : ℕ}
    (h : x.net.storesTo p = false) : x.pos p = (x.infos p).offset := by
  unfold Inbox.pos
  unfold Net.storesTo at h
  split
  · next slot sender offset ptr hnet =>
    rw [hnet] at h
    exact if_neg (of_decide_eq_false h)
  · rfl

/-! ## The invariant -/

/-- The workers that `w` exchanges blocks with. -/
def peers (job : Job) (w : ℕ) : Finset ℕ := (Finset.range job.workers).erase w

theorem mem_peers {job : Job} {w p : ℕ} :
    p ∈ peers job w ↔ p ≠ w ∧ p < job.workers := by
  rw [peers, Finset.mem_erase, Finset.mem_range]

theorem card_peers {job : Job} {w : ℕ} (hw : w < job.workers) :
    (peers job w).card = job.workers - 1 := by
  rw [peers, Finset.card_erase_of_mem (Finset.mem_range.mpr hw),
    Finset.card_range]

/-- The peers whose handshake has been taken. -/
def heard (job : Job) (w : ℕ) (got : ℕ → Arrived) : Finset ℕ :=
  (peers job w).filter fun p => (got p).parsed ≠ []

/-- The peers that `recv_job_num` has not been decremented for in the
iteration of which `n` came before. -/
def awaited (job : Job) (w : ℕ) (got : ℕ → Arrived) (n : ℕ) : Finset ℕ :=
  (peers job w).filter fun p => (got p).counted = n

/-- What the entries for the peer `p` are, given what has arrived. -/
structure Peer (job : Job) (w : ℕ) (pc : Pc) (x : Inbox) (p : ℕ)
    (a : Arrived) : Prop where
  /-- The length is not known before the file is opened. -/
  missing : pc.loaded job.workers ≤ p → x.inlength p = -1
  /-- The length is that of the file. -/
  length : p < pc.loaded job.workers → x.inlength p = job.inSize w p
  /-- A peer that has not been heard of. -/
  silent : a.parsed = [] →
    a.stored = [] ∧ (x.infos p).fd = none ∧ x.pos p = 0
  /-- A peer that has been heard of. -/
  known : a.parsed ≠ [] →
    a.parsed = greeting job p w ∧ (x.infos p).fd = some p ∧
      (x.infos p).len = job.outSize p w ∧ (x.infos p).sender = p ∧
      job.outSize p w = job.inSize w p ∧ p < pc.loaded job.workers
  /-- The buffer holds the bytes stored. -/
  overlay : p < pc.loaded job.workers →
    Overlay (job.loaded w p) a.stored a.counted (x.pos p) (x.inbuf p)
  /-- No byte is stored beyond the end of the buffer. -/
  fits : x.pos p ≤ job.inSize w p
  /-- Between two events no block is complete and not counted. -/
  between : (x.infos p).offset = 0 ∨ (x.infos p).offset < job.inSize w p

/-- The invariant of a worker's network thread. -/
structure Receiver (job : Job) (w : ℕ) (pc : Pc) (x : Inbox)
    (got : ℕ → Arrived) : Prop where
  /-- The entries of the peers. -/
  peer : ∀ p ∈ peers job w, Peer job w pc x p (got p)
  /-- `recv_fd` counts the handshakes, -/
  opened : pc.closed = false → x.recvFd + x.net.pending = (heard job w got).card
  /-- until all of them have been taken. -/
  shut : pc.closed = true →
    x.recvFd = -999 ∧ (∀ p ∈ peers job w, (got p).parsed ≠ []) ∧
      x.net.past = true
  /-- The wait for the handshakes is over. -/
  enough : pc = .closePeers → (job.workers : ℤ) - 1 ≤ x.recvFd
  /-- Nobody writes `recv_fd` between the read and the write of `++`. -/
  bumping : ∀ v, x.net = .bump v → v = x.recvFd
  /-- A handshake is taken from a peer that has not been heard of. -/
  handling : ∀ p, x.net = .handle p →
    p ∈ peers job w ∧ (got p).parsed = [] ∧ pc.closed = false
  /-- A block is stored where its peer's are. -/
  storing : ∀ p slot sender offset ptr,
    x.net = .block p slot sender offset ptr →
      p = slot ∧ p = sender ∧ p ∈ peers job w ∧ (got p).parsed ≠ [] ∧
        offset = (x.infos p).offset ∧ pc.closed = true
  /-- `recv_job_num` counts the peers whose block is awaited. -/
  waiting : pc.ready = true →
    x.recvJobNum = (awaited job w got pc.settled).card
  /-- No block is complete before `recv_job_num` is initialised. -/
  unready : pc.ready = false →
    x.recvJobNum = 0 ∧ ∀ p ∈ peers job w, (got p).counted = 0
  /-- Every block of an iteration that is over has been counted. -/
  settled : ∀ p ∈ peers job w, pc.settled ≤ (got p).counted
  /-- After the wait, so have the blocks of this one. -/
  synced : pc.synced = true →
    ∀ p ∈ peers job w, (got p).counted = pc.settled + 1

/-- The entries of a peer that a step leaves alone. -/
theorem Peer.congr {job : Job} {w p : ℕ} {pc pc' : Pc} {x x' : Inbox}
    {a : Arrived} (h : Peer job w pc x p a)
    (hload : pc'.loaded job.workers = pc.loaded job.workers)
    (hlength : x'.inlength p = x.inlength p)
    (hinfos : (x'.infos p).fd = (x.infos p).fd ∧
      (x'.infos p).len = (x.infos p).len ∧
      (x'.infos p).sender = (x.infos p).sender)
    (hpos : x'.pos p = x.pos p) (hinbuf : x'.inbuf p = x.inbuf p)
    (hoffset : (x'.infos p).offset = 0 ∨
      (x'.infos p).offset < job.inSize w p) :
    Peer job w pc' x' p a := by
  obtain ⟨hfd, hlen, hsender⟩ := hinfos
  exact
    { missing := by rw [hload, hlength]; exact h.missing
      length := by rw [hload, hlength]; exact h.length
      silent := by rw [hfd, hpos]; exact h.silent
      known := by rw [hload, hfd, hlen, hsender]; exact h.known
      overlay := by rw [hload, hpos, hinbuf]; exact h.overlay
      fits := by rw [hpos]; exact h.fits
      between := hoffset }

/-- As before, where the inbox keeps all that concerns the peers. -/
theorem Peer.of_inbox {job : Job} {w p : ℕ} {pc pc' : Pc} {x x' : Inbox}
    {a : Arrived} (h : Peer job w pc x p a)
    (hload : pc'.loaded job.workers = pc.loaded job.workers)
    (hlength : x'.inlength = x.inlength) (hinfos : x'.infos = x.infos)
    (hinbuf : x'.inbuf = x.inbuf) (hnet : x'.net = x.net) :
    Peer job w pc' x' p a := by
  refine h.congr hload (by rw [hlength]) ?_ ?_ (by rw [hinbuf]) ?_
  · rw [hinfos]
    exact ⟨rfl, rfl, rfl⟩
  · unfold Inbox.pos
    rw [hnet, hinfos]
  · rw [hinfos]
    exact h.between

/-! ## Counting peers -/

/-- One more element passes the filter. -/
theorem card_filter_succ {S : Finset ℕ} {P Q : ℕ → Prop} [DecidablePred P]
    [DecidablePred Q] {p : ℕ} (hp : p ∈ S) (hP : ¬P p) (hQ : Q p)
    (hrest : ∀ q ∈ S, q ≠ p → (Q q ↔ P q)) :
    (S.filter Q).card = (S.filter P).card + 1 := by
  have hins : S.filter Q = insert p (S.filter P) := by
    ext q
    rw [Finset.mem_insert, Finset.mem_filter, Finset.mem_filter]
    by_cases hq : q = p
    · subst hq
      exact ⟨fun _ => Or.inl rfl, fun _ => ⟨hp, hQ⟩⟩
    · constructor
      · rintro ⟨hmem, h⟩
        exact Or.inr ⟨hmem, (hrest q hmem hq).mp h⟩
      · rintro (h | ⟨hmem, h⟩)
        · exact absurd h hq
        · exact ⟨hmem, (hrest q hmem hq).mpr h⟩
  rw [hins, Finset.card_insert_of_notMem
    fun h => hP (Finset.mem_filter.mp h).2]

/-- Where all pass, all are counted. -/
theorem card_filter_all {S : Finset ℕ} {P : ℕ → Prop} [DecidablePred P]
    (h : ∀ p ∈ S, P p) : (S.filter P).card = S.card := by
  rw [Finset.filter_true_of_mem h]

section Worker

variable {job : Job} {w : ℕ} {pc pc' : Pc} {x : Inbox} {got : ℕ → Arrived}

/-- At most all peers have been heard of. -/
theorem heard_card_le (hw : w < job.workers) :
    (heard job w got).card ≤ job.workers - 1 := by
  rw [← card_peers hw]
  exact Finset.card_filter_le _ _

/-! ## The compute thread's steps -/

/-- The initial state. -/
theorem Receiver.init (job : Job) (w : ℕ) :
    Receiver job w (init.worker w).pc (init.worker w).inbox
      (fun p => (init.link p w).arrived) where
  peer p _ :=
    { missing := fun _ => rfl
      length := fun h => absurd h (by simp [Exchange.init, Pc.loaded])
      silent := fun _ => ⟨rfl, rfl, rfl⟩
      known := fun h => absurd rfl h
      overlay := fun h => absurd h (by simp [Exchange.init, Pc.loaded])
      fits := Nat.zero_le _
      between := Or.inl rfl }
  opened _ := by
    show (0 : ℤ) + (0 : ℕ) = _
    unfold heard
    rw [Finset.filter_false_of_mem fun p _ h => h rfl]
    rfl
  shut h := by cases h
  enough h := by cases h
  bumping v h := by cases h
  handling p h := by cases h
  storing p slot sender offset ptr h := by cases h
  waiting h := by cases h
  unready _ := ⟨rfl, fun _ _ => rfl⟩
  settled _ _ := le_rfl
  synced h := by cases h

/-- A step of the compute thread that leaves the inbox alone. -/
theorem Receiver.move (h : Receiver job w pc x got)
    (hload : pc'.loaded job.workers = pc.loaded job.workers)
    (hclosed : pc'.closed = pc.closed) (hready : pc'.ready = pc.ready)
    (hsettled : pc'.settled = pc.settled)
    (henough : pc' = .closePeers → (job.workers : ℤ) - 1 ≤ x.recvFd)
    (hsynced : pc'.synced = true →
      ∀ p ∈ peers job w, (got p).counted = pc.settled + 1) :
    Receiver job w pc' x got where
  peer p hp := (h.peer p hp).of_inbox hload rfl rfl rfl rfl
  opened := by rw [hclosed]; exact h.opened
  shut := by rw [hclosed]; exact h.shut
  enough := henough
  bumping := h.bumping
  handling := by rw [hclosed]; exact h.handling
  storing := by rw [hclosed]; exact h.storing
  waiting := by rw [hready, hsettled]; exact h.waiting
  unready := by rw [hready]; exact h.unready
  settled := by rw [hsettled]; exact h.settled
  synced := by rw [hsettled]; exact hsynced

/-- Opening the file of an in-block. -/
theorem Receiver.load {n : ℕ} (h : Receiver job w (.loading n) x got) :
    Receiver job w (.loading (n + 1))
      { x with
        inlength := Function.update x.inlength n (job.inSize w n)
        inbuf := Function.update x.inbuf n (job.loaded w n) } got where
  peer p hp := by
    have hold := h.peer p hp
    have hcounted := (h.unready rfl).2 p hp
    have hpm := (mem_peers.mp hp).2
    by_cases hpn : p = n
    · subst hpn
      -- a peer that has been heard of is loaded
      have hpar : (got p).parsed = [] := by
        by_contra hne
        have hlt : p < min p job.workers := (hold.known hne).2.2.2.2.2
        omega
      obtain ⟨hst, -, hpos⟩ := hold.silent hpar
      exact
        { missing := fun hle => by
            have hle' : min (p + 1) job.workers ≤ p := hle
            omega
          length := fun _ => Function.update_self _ _ _
          silent := hold.silent
          known := fun hne => absurd hpar hne
          overlay := fun _ => by
            show Overlay _ (got p).stored (got p).counted (x.pos p)
              (Function.update x.inbuf p (job.loaded w p) p)
            rw [hst, hcounted, hpos, Function.update_self]
            exact Overlay.start _
          fits := hold.fits
          between := hold.between }
    · have hlt : p < min (n + 1) job.workers ↔ p < min n job.workers := by
        omega
      exact
        { missing := fun hle => by
            show Function.update x.inlength n _ p = -1
            rw [Function.update_of_ne hpn]
            exact hold.missing (not_lt.mp fun hc => not_lt.mpr hle (hlt.mpr hc))
          length := fun hp' => by
            show Function.update x.inlength n _ p = _
            rw [Function.update_of_ne hpn]
            exact hold.length (hlt.mp hp')
          silent := hold.silent
          known := fun hne => by
            obtain ⟨h1, h2, h3, h4, h5, h6⟩ := hold.known hne
            exact ⟨h1, h2, h3, h4, h5, hlt.mpr h6⟩
          overlay := fun hp' => by
            show Overlay _ _ _ (x.pos p) (Function.update x.inbuf n _ p)
            rw [Function.update_of_ne hpn]
            exact hold.overlay (hlt.mp hp')
          fits := hold.fits
          between := hold.between }
  opened := h.opened
  shut hc := by cases hc
  enough he := by cases he
  bumping := h.bumping
  handling := h.handling
  storing := h.storing
  waiting hr := by cases hr
  unready := h.unready
  settled := h.settled
  synced hs := by cases hs

/-- When the wait for the handshakes is over, the network thread is idle and
every peer has been heard of. -/
theorem Receiver.all_heard (h : Receiver job w .closePeers x got)
    (hw : w < job.workers) :
    (∀ p ∈ peers job w, (got p).parsed ≠ []) ∧ x.net = .idle := by
  have hopened := h.opened rfl
  have henough := h.enough rfl
  have hle : (heard job w got).card ≤ job.workers - 1 := heard_card_le hw
  have hcard : (heard job w got).card = (peers job w).card := by
    rw [card_peers hw]
    omega
  have hall : ∀ p ∈ peers job w, (got p).parsed ≠ [] :=
    Finset.filter_card_eq hcard
  have hpending : x.net.pending = 0 := by omega
  refine ⟨hall, ?_⟩
  cases hnet : x.net with
  | idle => rfl
  | handle p =>
    obtain ⟨hp, hnil, -⟩ := h.handling p hnet
    exact absurd hnil (hall p hp)
  | count =>
    rw [hnet] at hpending
    cases hpending
  | bump v =>
    rw [hnet] at hpending
    cases hpending
  | block p slot sender offset ptr =>
    have hc := (h.storing p slot sender offset ptr hnet).2.2.2.2.2
    cases hc

/-- `recv_fd = -999`. -/
theorem Receiver.closePeers (h : Receiver job w .closePeers x got)
    (hw : w < job.workers) :
    Receiver job w .initSend { x with recvFd := -999 } got := by
  obtain ⟨hall, hidle⟩ := h.all_heard hw
  exact
    { peer := fun p hp => (h.peer p hp).of_inbox rfl rfl rfl rfl rfl
      opened := fun hc => by cases hc
      shut := fun _ => ⟨rfl, hall, by rw [hidle]; rfl⟩
      enough := fun he => by cases he
      bumping := fun v hv => by rw [hidle] at hv; cases hv
      handling := fun p hp => by rw [hidle] at hp; cases hp
      storing := fun p slot sender offset ptr hb => by
        rw [hidle] at hb; cases hb
      waiting := fun hr => by cases hr
      unready := h.unready
      settled := h.settled
      synced := fun hs => by cases hs }

/-- `recv_job_num = M-1`, when no block of the next iteration has been
counted. -/
theorem Receiver.reset (h : Receiver job w pc x got) (hw : w < job.workers)
    (hload : pc'.loaded job.workers = pc.loaded job.workers)
    (hclosed : pc'.closed = pc.closed) (hready : pc'.ready = true)
    (hsynced : pc'.synced = false) (henough : pc' ≠ .closePeers)
    (hcounted : ∀ p ∈ peers job w, (got p).counted = pc'.settled) :
    Receiver job w pc' { x with recvJobNum := (job.workers : ℤ) - 1 } got where
  peer p hp := (h.peer p hp).of_inbox hload rfl rfl rfl rfl
  opened := by rw [hclosed]; exact h.opened
  shut := by rw [hclosed]; exact h.shut
  enough he := absurd he henough
  bumping := h.bumping
  handling := by rw [hclosed]; exact h.handling
  storing := by rw [hclosed]; exact h.storing
  waiting _ := by
    show (job.workers : ℤ) - 1 = _
    unfold awaited
    rw [card_filter_all hcounted, card_peers hw]
    omega
  unready hr := by rw [hready] at hr; cases hr
  settled p hp := (hcounted p hp).ge
  synced hs := by rw [hsynced] at hs; cases hs

/-- After the wait for the in-blocks every one of them has been counted. -/
theorem Receiver.all_counted (h : Receiver job w pc x got)
    (hready : pc.ready = true) (hzero : x.recvJobNum = 0)
    (hle : ∀ p ∈ peers job w, (got p).counted ≤ pc.settled + 1) :
    ∀ p ∈ peers job w, (got p).counted = pc.settled + 1 := by
  intro p hp
  have hw := h.waiting hready
  rw [hzero] at hw
  have hnil : awaited job w got pc.settled = ∅ :=
    Finset.card_eq_zero.mp (by omega)
  have hne : (got p).counted ≠ pc.settled := by
    intro heq
    have hmem : p ∈ awaited job w got pc.settled :=
      Finset.mem_filter.mpr ⟨hp, heq⟩
    rw [hnil] at hmem
    exact Finset.notMem_empty p hmem
  have h1 := h.settled p hp
  have h2 := hle p hp
  omega

/-! ## The network thread's steps -/

theorem length_greeting (job : Job) (p w : ℕ) : (greeting job p w).length = 8 :=
  rfl

theorem greeting_ne_nil (job : Job) (p w : ℕ) : greeting job p w ≠ [] :=
  List.ne_nil_of_length_pos (by rw [length_greeting]; decide)

/-- The position while the network thread is not storing. -/
theorem Inbox.pos_eq {x x' : Inbox} {p : ℕ} (hx : x.net.storesTo p = false)
    (hx' : x'.net.storesTo p = false)
    (hinfo : (x'.infos p).offset = (x.infos p).offset) :
    x'.pos p = x.pos p := by
  rw [Inbox.pos_of_not_storesTo hx, Inbox.pos_of_not_storesTo hx', hinfo]

/-- The entries of a peer, where only the position of the network thread
changes, and it does not store. -/
theorem Peer.of_net {p : ℕ} {a : Arrived} (h : Peer job w pc x p a)
    {x' : Inbox} (hlength : x'.inlength = x.inlength)
    (hinfos : x'.infos = x.infos) (hinbuf : x'.inbuf = x.inbuf)
    (hold : x.net.storesTo p = false) (hnew : x'.net.storesTo p = false) :
    Peer job w pc x' p a := by
  refine h.congr rfl (by rw [hlength]) ?_
    (Inbox.pos_eq hold hnew (by rw [hinfos])) (by rw [hinbuf])
    (by rw [hinfos]; exact h.between)
  rw [hinfos]
  exact ⟨rfl, rfl, rfl⟩

/-- While the network thread is not in a receive loop, `recv_fd` tells
whether the compute thread has closed the handshakes. -/
theorem Receiver.closed_iff (h : Receiver job w pc x got)
    (hnet : x.net = .idle) : pc.closed = true ↔ x.recvFd ≤ -1 := by
  constructor
  · intro hc
    rw [(h.shut hc).1]
    decide
  · intro hfd
    by_contra hc
    have hopened := h.opened (Bool.eq_false_iff.mpr hc)
    rw [hnet] at hopened
    simp only [Net.pending] at hopened
    omega

/-- An event before the handshakes are closed: it is the first one of its
peer, since nothing but a handshake has been sent. -/
theorem Receiver.toHandle (h : Receiver job w pc x got) {p : ℕ}
    (hnet : x.net = .idle) (hp : p ∈ peers job w) (hfd : -1 < x.recvFd)
    (hquiet : pc.ready = false → (got p).parsed.length < 8) :
    Receiver job w pc { x with net := .handle p } got := by
  have hclosed : pc.closed = false := by
    rw [Bool.eq_false_iff]
    intro hc
    have := (h.closed_iff hnet).mp hc
    omega
  have hpar : (got p).parsed = [] := by
    by_contra hne
    have hlt := hquiet (Pc.not_ready_of_not_closed hclosed)
    rw [((h.peer p hp).known hne).1, length_greeting] at hlt
    exact lt_irrefl 8 hlt
  exact
    { peer := fun q hq => (h.peer q hq).of_net rfl rfl rfl
        (by rw [hnet]; rfl) rfl
      opened := fun hc => by
        have hopened := h.opened hc
        rw [hnet] at hopened
        exact hopened
      shut := fun hc => by rw [hclosed] at hc; cases hc
      enough := h.enough
      bumping := fun v hv => by cases hv
      handling := fun q hq => by
        obtain rfl := Net.handle.inj hq
        exact ⟨hp, hpar, hclosed⟩
      storing := fun p slot sender offset ptr hb => by cases hb
      waiting := h.waiting
      unready := h.unready
      settled := h.settled
      synced := h.synced }

/-- A peer that has been heard of is found by its socket. -/
theorem Receiver.findSlot (h : Receiver job w pc x got) {p : ℕ}
    (hp : p ∈ peers job w) (hpar : (got p).parsed ≠ []) :
    findSlot job w x.infos p = some p := by
  obtain ⟨hne, hlt⟩ := mem_peers.mp hp
  unfold Exchange.findSlot
  rw [List.find?_range_eq_some]
  refine ⟨decide_eq_true ⟨hne, ((h.peer p hp).known hpar).2.1⟩,
    List.mem_range.mpr hlt, fun q hq => ?_⟩
  rw [Bool.not_eq_true', decide_eq_false_iff_not]
  rintro ⟨hqw, hfd⟩
  have hq' : q ∈ peers job w := mem_peers.mpr ⟨hqw, hq.trans hlt⟩
  -- the entry of `q` holds the socket of `q`, or none
  by_cases hqpar : (got q).parsed = []
  · rw [((h.peer q hq').silent hqpar).2.1] at hfd
    cases hfd
  · rw [((h.peer q hq').known hqpar).2.1, Option.some.injEq] at hfd
    omega

/-- An event after the handshakes: its peer has been heard of. -/
theorem Receiver.toBlock (h : Receiver job w pc x got) {p slot : ℕ}
    (hnet : x.net = .idle) (hp : p ∈ peers job w) (hfd : x.recvFd ≤ -1)
    (hslot : Exchange.findSlot job w x.infos p = some slot) :
    Receiver job w pc
      { x with
        net := .block p slot (x.infos slot).sender (x.infos slot).offset 0 }
      got := by
  have hclosed : pc.closed = true := (h.closed_iff hnet).mpr hfd
  have hpar := (h.shut hclosed).2.1 p hp
  rw [h.findSlot hp hpar] at hslot
  obtain rfl := Option.some.inj hslot
  have hpos : ∀ q, Inbox.pos { x with
      net := .block p p (x.infos p).sender (x.infos p).offset 0 } q
        = x.pos q := by
    intro q
    rw [Inbox.pos_of_not_storesTo (x := x) (by rw [hnet]; rfl)]
    show (if p = q then (x.infos p).offset + 0 else (x.infos q).offset) = _
    split
    · next hq => rw [hq, Nat.add_zero]
    · rfl
  exact
    { peer := fun q hq => (h.peer q hq).congr rfl rfl ⟨rfl, rfl, rfl⟩
        (hpos q) rfl (h.peer q hq).between
      opened := fun hc => by rw [hclosed] at hc; cases hc
      shut := fun hc => ⟨(h.shut hc).1, (h.shut hc).2.1, rfl⟩
      enough := h.enough
      bumping := fun v hv => by cases hv
      handling := fun q hq => by cases hq
      storing := fun p' slot' sender' offset' ptr' hb => by
        obtain ⟨rfl, rfl, rfl, rfl, -⟩ := Net.block.inj hb
        exact ⟨rfl, ((h.peer p hp).known hpar).2.2.2.1.symm, hp, hpar, rfl,
          hclosed⟩
      waiting := h.waiting
      unready := h.unready
      settled := h.settled
      synced := h.synced }

/-- A handshake that passes the length check. -/
theorem Receiver.accept (h : Receiver job w pc x got) {p : ℕ}
    {got' : ℕ → Arrived} (hnet : x.net = .handle p)
    (hloaded : p < pc.loaded job.workers)
    (hsize : job.outSize p w = job.inSize w p)
    (hgot : got' p = { got p with parsed := greeting job p w })
    (hrest : ∀ q, q ≠ p → got' q = got q) :
    Receiver job w pc
      { x with
        infos := Function.update x.infos p ⟨some p, job.outSize p w, p, 0⟩
        net := .count } got' := by
  obtain ⟨hp, hpar, hclosed⟩ := h.handling p hnet
  obtain ⟨-, -, hpos⟩ := (h.peer p hp).silent hpar
  have hoff : (x.infos p).offset = 0 := by
    rw [← hpos, Inbox.pos_of_not_storesTo (by rw [hnet]; rfl)]
  have hcounted : ∀ q, (got' q).counted = (got q).counted := by
    intro q
    by_cases hq : q = p
    · rw [hq, hgot]
    · rw [hrest q hq]
  have hpar' : (got' p).parsed = greeting job p w := by rw [hgot]
  exact
    -- the peer that is accepted gets its entry; the others keep theirs
    { peer := fun q hq => by
        have hold := h.peer q hq
        have hposq : Inbox.pos { x with
            infos := Function.update x.infos p ⟨some p, job.outSize p w, p, 0⟩
            net := .count } q = x.pos q := by
          refine Inbox.pos_eq (by rw [hnet]; rfl) rfl ?_
          show (Function.update x.infos p _ q).offset = _
          by_cases hqp : q = p
          · rw [hqp, Function.update_self, hoff]
          · rw [Function.update_of_ne hqp]
        by_cases hqp : q = p
        · subst hqp
          exact
            { missing := hold.missing
              length := hold.length
              silent := fun hnil => by
                rw [hpar'] at hnil
                exact absurd hnil (greeting_ne_nil job q w)
              known := fun _ => by
                show _ ∧ (Function.update x.infos q _ q).fd = _ ∧
                  (Function.update x.infos q _ q).len = _ ∧
                  (Function.update x.infos q _ q).sender = _ ∧ _
                rw [Function.update_self]
                exact ⟨hpar', rfl, rfl, rfl, hsize, hloaded⟩
              overlay := fun hlt => by
                rw [hposq, hgot]
                exact hold.overlay hlt
              fits := by rw [hposq]; exact hold.fits
              -- the entry starts at the beginning of the block
              between := Or.inl (by
                show (Function.update x.infos q _ q).offset = 0
                rw [Function.update_self]) }
        · rw [hrest q hqp]
          have hinfo : Function.update x.infos p
              ⟨some p, job.outSize p w, p, 0⟩ q = x.infos q :=
            Function.update_of_ne hqp _ _
          exact hold.congr rfl rfl (by dsimp only; rw [hinfo]; simp) hposq rfl
            (by dsimp only; rw [hinfo]; exact hold.between)
      -- one peer more has been heard, which the next step counts
      opened := fun hc => by
        have hopened := h.opened hc
        rw [hnet] at hopened
        have hcard : (heard job w got').card = (heard job w got).card + 1 :=
          card_filter_succ hp (fun hne => hne hpar)
            (by rw [hpar']; exact greeting_ne_nil job p w)
            fun q _ hqp => by rw [hrest q hqp]
        rw [hcard]
        simp only [Net.pending] at hopened ⊢
        push_cast
        omega
      shut := fun hc => by rw [hclosed] at hc; cases hc
      enough := h.enough
      bumping := fun v hv => by cases hv
      handling := fun q hq => by cases hq
      storing := fun p' slot sender offset ptr hb => by cases hb
      waiting := fun hr => by
        rw [Pc.not_ready_of_not_closed hclosed] at hr
        cases hr
      unready := fun hr => ⟨(h.unready hr).1, fun q hq => by
        rw [hcounted]
        exact (h.unready hr).2 q hq⟩
      settled := fun q hq => by
        rw [hcounted]
        exact h.settled q hq
      synced := fun hs q hq => by
        rw [hcounted]
        exact h.synced hs q hq }

/-- A piece of a block, as long as it fits. -/
theorem Receiver.store (h : Receiver job w pc x got)
    {p slot sender offset ptr : ℕ} {g : ℕ → Arrived} (bs : List UInt8)
    (hnet : x.net = .block p slot sender offset ptr)
    (hfit : x.pos p + bs.length ≤ job.inSize w p)
    (hgot : g p = { got p with stored := (got p).stored ++ bs })
    (hrest : ∀ q, q ≠ p → g q = got q) :
    Receiver job w pc
      { x with
        inbuf := Function.update x.inbuf sender
          (overwrite (x.inbuf sender) (offset + ptr) bs)
        net := .block p slot sender offset (ptr + bs.length) } g := by
  obtain ⟨rfl, rfl, hp, hpar, hoff, hclosed⟩ :=
    h.storing p slot sender offset ptr hnet
  have hpos : x.pos p = offset + ptr := by
    unfold Inbox.pos
    rw [hnet]
    exact if_pos rfl
  have hcounted : ∀ q, (g q).counted = (got q).counted := by
    intro q
    by_cases hq : q = p
    · rw [hq, hgot]
    · rw [hrest q hq]
  have hparsed : ∀ q, (g q).parsed = (got q).parsed := by
    intro q
    by_cases hq : q = p
    · rw [hq, hgot]
    · rw [hrest q hq]
  have hstores : ∀ q, q ≠ p → x.net.storesTo q = false := by
    intro q hq
    rw [hnet]
    exact decide_eq_false fun he => hq he.symm
  exact
    { peer := fun q hq => by
        have hold := h.peer q hq
        by_cases hqp : q = p
        · subst hqp
          -- the position moves on by what has been stored
          have hposq : Inbox.pos { x with
              inbuf := Function.update x.inbuf q
                (overwrite (x.inbuf q) (offset + ptr) bs)
              net := .block q q q offset (ptr + bs.length) } q
                = x.pos q + bs.length := by
            rw [hpos, Nat.add_assoc]
            exact if_pos rfl
          rw [hgot]
          exact
            { missing := hold.missing
              length := hold.length
              silent := fun hnil => absurd hnil hpar
              known := hold.known
              overlay := fun hlt => by
                rw [hposq]
                -- the buffer has that much more of the block
                show Overlay _ _ _ _ (Function.update x.inbuf q _ q)
                rw [Function.update_self, ← hpos]
                exact (hold.overlay hlt).store bs
              fits := by rw [hposq]; exact hfit
              between := hold.between }
        · rw [hrest q hqp]
          refine hold.congr rfl rfl ⟨rfl, rfl, rfl⟩ ?_ ?_ hold.between
          · exact Inbox.pos_eq (hstores q hqp)
              (decide_eq_false fun he => hqp he.symm) rfl
          · exact Function.update_of_ne hqp _ _
      opened := fun hc => by rw [hclosed] at hc; cases hc
      shut := fun hc => ⟨(h.shut hc).1, fun q hq => by
        rw [hparsed]
        exact (h.shut hc).2.1 q hq, rfl⟩
      enough := h.enough
      bumping := fun v hv => by cases hv
      handling := fun q hq => by cases hq
      storing := fun p' slot' sender' offset' ptr' hb => by
        obtain ⟨rfl, rfl, rfl, rfl, -⟩ := Net.block.inj hb
        exact ⟨rfl, rfl, hp, by rw [hparsed]; exact hpar, hoff, hclosed⟩
      waiting := fun hr => by
        unfold awaited
        simp only [hcounted]
        exact h.waiting hr
      unready := fun hr => ⟨(h.unready hr).1, fun q hq => by
        rw [hcounted]
        exact (h.unready hr).2 q hq⟩
      settled := fun q hq => by
        rw [hcounted]
        exact h.settled q hq
      synced := fun hs q hq => by
        rw [hcounted]
        exact h.synced hs q hq }

/-- The read of `recv_fd ++`. -/
theorem Receiver.count (h : Receiver job w pc x got) (hnet : x.net = .count) :
    Receiver job w pc { x with net := .bump x.recvFd } got where
  peer p hp := (h.peer p hp).of_net rfl rfl rfl (by rw [hnet]; rfl) rfl
  opened hc := by
    have hopened := h.opened hc
    rw [hnet] at hopened
    exact hopened
  shut hc := by
    have hpast := (h.shut hc).2.2
    rw [hnet] at hpast
    cases hpast
  enough := h.enough
  bumping v hv := (Net.bump.inj hv).symm
  handling p hp := by cases hp
  storing p slot sender offset ptr hb := by cases hb
  waiting := h.waiting
  unready := h.unready
  settled := h.settled
  synced := h.synced

/-- The write of `recv_fd ++`. -/
theorem Receiver.bump (h : Receiver job w pc x got) {v : ℤ}
    (hnet : x.net = .bump v) :
    Receiver job w pc { x with recvFd := v + 1, net := .idle } got where
  peer p hp := (h.peer p hp).of_net rfl rfl rfl (by rw [hnet]; rfl) rfl
  opened hc := by
    have hopened := h.opened hc
    rw [hnet, ← h.bumping v hnet] at hopened
    simp only [Net.pending] at hopened ⊢
    omega
  shut hc := by
    have hpast := (h.shut hc).2.2
    rw [hnet] at hpast
    cases hpast
  enough he := by
    have henough := h.enough he
    rw [← h.bumping v hnet] at henough
    show _ ≤ v + 1
    omega
  bumping v hv := by cases hv
  handling p hp := by cases hp
  storing p slot sender offset ptr hb := by cases hb
  waiting := h.waiting
  unready := h.unready
  settled := h.settled
  synced := h.synced

/-- The end of an event that completes a block. -/
theorem Receiver.full (h : Receiver job w pc x got)
    {p slot sender offset ptr : ℕ} {got' : ℕ → Arrived}
    (hnet : x.net = .block p slot sender offset ptr)
    (hlen : ((offset + ptr : ℕ) : ℤ) = (x.infos slot).len)
    (hready : pc.ready = true) (hle : (got p).counted ≤ pc.settled)
    (hgot : got' p = { got p with counted := (got p).counted + 1 })
    (hrest : ∀ q, q ≠ p → got' q = got q) :
    Receiver job w pc
      { x with
        infos := Function.update x.infos slot { x.infos slot with offset := 0 }
        recvJobNum := x.recvJobNum - 1
        net := .idle } got' := by
  obtain ⟨rfl, rfl, hp, hpar, hoff, hclosed⟩ :=
    h.storing p slot sender offset ptr hnet
  have hcounted : (got p).counted = pc.settled :=
    le_antisymm hle (h.settled p hp)
  obtain ⟨-, -, hlen', -, hsize, hlt⟩ := (h.peer p hp).known hpar
  have hpos : x.pos p = job.inSize w p := by
    have hpos' : x.pos p = offset + ptr := by
      unfold Inbox.pos
      rw [hnet]
      exact if_pos rfl
    rw [hpos', ← hsize]
    rw [hlen'] at hlen
    exact_mod_cast hlen
  have hstores : ∀ q, q ≠ p → x.net.storesTo q = false := by
    intro q hq
    rw [hnet]
    exact decide_eq_false fun he => hq he.symm
  have hparsed : ∀ q, (got' q).parsed = (got q).parsed := by
    intro q
    by_cases hq : q = p
    · rw [hq, hgot]
    · rw [hrest q hq]
  exact
    { peer := fun q hq => by
        have hold := h.peer q hq
        by_cases hqp : q = p
        · subst hqp
          have hposq : Inbox.pos { x with
              infos := Function.update x.infos q { x.infos q with offset := 0 }
              recvJobNum := x.recvJobNum - 1
              net := .idle } q = 0 := by
            show (Function.update x.infos q _ q).offset = 0
            rw [Function.update_self]
          rw [hgot]
          exact
            { missing := hold.missing
              length := hold.length
              silent := fun hnil => absurd hnil hpar
              known := fun hne => by
                show _ ∧ (Function.update x.infos q _ q).fd = _ ∧
                  (Function.update x.infos q _ q).len = _ ∧
                  (Function.update x.infos q _ q).sender = _ ∧ _
                rw [Function.update_self]
                exact hold.known hne
              overlay := fun hlt' => by
                rw [hposq]
                have hov := hold.overlay hlt'
                rw [hpos, ← job.loaded_length] at hov
                exact hov.wrap
              fits := by rw [hposq]; exact Nat.zero_le _
              between := Or.inl hposq }
        · rw [hrest q hqp]
          have hinfo : Function.update x.infos p
              { x.infos p with offset := 0 } q = x.infos q :=
            Function.update_of_ne hqp _ _
          exact hold.congr rfl rfl (by dsimp only; rw [hinfo]; simp)
            (Inbox.pos_eq (hstores q hqp) rfl (by dsimp only; rw [hinfo])) rfl
            (by dsimp only; rw [hinfo]; exact hold.between)
      opened := fun hc => by rw [hclosed] at hc; cases hc
      shut := fun hc => ⟨(h.shut hc).1, fun q hq => by
        rw [hparsed]
        exact (h.shut hc).2.1 q hq, rfl⟩
      enough := h.enough
      bumping := fun v hv => by cases hv
      handling := fun q hq => by cases hq
      storing := fun p' slot' sender' offset' ptr' hb => by cases hb
      waiting := fun hr => by
        -- one peer less is awaited
        have hcard : (awaited job w got pc.settled).card
            = (awaited job w got' pc.settled).card + 1 :=
          card_filter_succ hp
            (by rw [hgot]; show (got p).counted + 1 ≠ _; omega) hcounted
            fun q _ hqp => by rw [hrest q hqp]
        have hwait := h.waiting hr
        show x.recvJobNum - 1 = _
        omega
      unready := fun hr => by rw [hready] at hr; cases hr
      settled := fun q hq => by
        by_cases hqp : q = p
        · rw [hqp, hgot]
          exact (h.settled p hp).trans (Nat.le_succ _)
        · rw [hrest q hqp]
          exact h.settled q hq
      synced := fun hs q hq => by
        have := h.synced hs p hp
        omega }

/-- The end of an event that does not complete a block. -/
theorem Receiver.partly (h : Receiver job w pc x got)
    {p slot sender offset ptr : ℕ}
    (hnet : x.net = .block p slot sender offset ptr)
    (hlen : ((offset + ptr : ℕ) : ℤ) ≠ (x.infos slot).len) :
    Receiver job w pc
      { x with
        infos := Function.update x.infos slot
          { x.infos slot with offset := offset + ptr }
        net := .idle } got := by
  obtain ⟨rfl, rfl, hp, hpar, hoff, hclosed⟩ :=
    h.storing p slot sender offset ptr hnet
  obtain ⟨-, -, hlen', -, hsize, hlt⟩ := (h.peer p hp).known hpar
  have hposold : ∀ q, x.pos q
      = if p = q then offset + ptr else (x.infos q).offset := by
    intro q
    unfold Inbox.pos
    rw [hnet]
  -- the entry has the position now that the event had
  have hpos : ∀ q, Inbox.pos { x with
      infos := Function.update x.infos p
        { x.infos p with offset := offset + ptr }
      net := .idle } q = x.pos q := by
    intro q
    show (Function.update x.infos p _ q).offset = _
    rw [hposold]
    by_cases hq : p = q
    · rw [← hq, Function.update_self, if_pos rfl]
    · rw [Function.update_of_ne (Ne.symm hq), if_neg hq]
  exact
    { peer := fun q hq => by
        have hold := h.peer q hq
        refine hold.congr rfl rfl ?_ (hpos q) rfl ?_
        · show (Function.update x.infos p _ q).fd = _ ∧
            (Function.update x.infos p _ q).len = _ ∧
            (Function.update x.infos p _ q).sender = _
          by_cases hqp : q = p
          · rw [hqp, Function.update_self]
            exact ⟨rfl, rfl, rfl⟩
          · rw [Function.update_of_ne hqp]
            exact ⟨rfl, rfl, rfl⟩
        · show (Function.update x.infos p _ q).offset = 0 ∨
            (Function.update x.infos p _ q).offset < _
          by_cases hqp : q = p
          · subst hqp
            have hfits := hold.fits
            rw [hposold, if_pos rfl] at hfits
            rw [Function.update_self]
            -- the event would have completed the block at its end
            refine Or.inr (lt_of_le_of_ne hfits fun heq => hlen ?_)
            rw [hlen', hsize]
            exact_mod_cast heq
          · rw [Function.update_of_ne hqp]
            exact hold.between
      opened := fun hc => by rw [hclosed] at hc; cases hc
      shut := fun hc => ⟨(h.shut hc).1, (h.shut hc).2.1, rfl⟩
      enough := h.enough
      bumping := fun v hv => by cases hv
      handling := fun q hq => by cases hq
      storing := fun p' slot' sender' offset' ptr' hb => by cases hb
      waiting := h.waiting
      unready := h.unready
      settled := h.settled
      synced := h.synced }

end Worker

end Exchange
