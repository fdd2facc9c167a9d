import Mathlib
import DpdkGraph.Iterations

/-!
# However the bytes arrive

The transport splits each connection's bytes into receives as it likes.
`SegmentationFree` compares a worker that has received everything sent to it
with one that received the handshake and each block in one piece: the
entries of `in_infos` and the buffers are the same. It holds in the orderly
runs, whose handshakes do arrive in one piece; the parser of the handshakes
cannot continue one that does not.
-/

namespace Exchange

open BlockBuffer (overwrite)
open Transition (Run exec exists_run)

variable {job : Job} {s s' : State} {a : Action} {p w : ℕ}

/-- The entry of `in_infos` after a handshake received in one piece. -/
def entryOf (p : ℕ) (handshake : List UInt8) : InInfo :=
  ⟨some p, intAt handshake 4, (intAt handshake 0).toNat, 0⟩

/-- The entry and the buffer after an event of `dpdk_block_event` that
receives `bs` in one piece. -/
def storeWhole (e : InInfo × List UInt8) (bs : List UInt8) :
    InInfo × List UInt8 :=
  let offset := e.1.offset + bs.length
  ({ e.1 with offset := if (offset : ℤ) = e.1.len then 0 else offset },
    overwrite e.2 e.1.offset bs)

/-- The entry and the buffer for `p` at `w` when the handshake and each of
the blocks have arrived in one piece. -/
def inOnePiece (job : Job) (p w : ℕ) (blocks : List (List UInt8)) :
    InInfo × List UInt8 :=
  blocks.foldl storeWhole (entryOf p (greeting job p w), job.loaded w p)

/-- **The pieces do not matter.** A worker that has received all that has
been sent to it, and is between two events, is as if everything had arrived
in one piece. -/
def SegmentationFree (job : Job) (s : State) : Prop :=
  ∀ w < job.workers, (s.worker w).failed = none →
    (s.worker w).inbox.net = .idle →
      ∀ p < job.workers, w ≠ p → (s.worker p).pc.opened w = true →
        (s.link p w).outbox = [] → (s.link p w).flight = [] →
          ((s.worker w).inbox.infos p, (s.worker w).inbox.inbuf p) =
            inOnePiece job p w (s.link p w).left

/-- One block of the length of the buffer. -/
theorem storeWhole_block {e : InInfo} {buf bs : List UInt8} {n : ℕ}
    (hoff : e.offset = 0) (hlen : e.len = n) (hbs : bs.length = n)
    (hbuf : buf.length = n) : storeWhole (e, buf) bs = (e, bs) := by
  have hover : overwrite buf 0 bs = bs := by
    unfold overwrite
    rw [List.take_zero, List.nil_append, Nat.zero_add,
      List.drop_eq_nil_of_le (by omega), List.append_nil]
  unfold storeWhole
  dsimp only
  rw [hoff, Nat.zero_add, hbs, hlen, if_pos rfl, hover]
  cases e
  rw [Prod.mk.injEq]
  exact ⟨by rw [InInfo.mk.injEq]; exact ⟨rfl, hlen.symm, rfl, hoff.symm⟩, rfl⟩

/-- A stretch of blocks: the entry is unchanged, and the buffer holds the
last of them. -/
theorem foldl_storeWhole {e : InInfo} {n : ℕ} (hoff : e.offset = 0)
    (hlen : e.len = n) (blocks : List (List UInt8)) :
    ∀ buf : List UInt8, buf.length = n → (∀ b ∈ blocks, b.length = n) →
      ∃ b, blocks.foldl storeWhole (e, buf) = (e, b) ∧
        (buf :: blocks)[blocks.length]? = some b := by
  induction blocks with
  | nil =>
    intro buf _ _
    exact ⟨buf, rfl, rfl⟩
  | cons c blocks ih =>
    intro buf hbuf hblocks
    have hc : c.length = n := hblocks c List.mem_cons_self
    rw [List.foldl_cons, storeWhole_block hoff hlen hc hbuf]
    obtain ⟨b, hfold, hget⟩ :=
      ih c hc fun b hb => hblocks b (List.mem_cons_of_mem c hb)
    exact ⟨b, hfold, hget⟩

/-- What is stored is all that has been left, when nothing is under way. -/
theorem Stream.stored_all {l : Link} {pc : Pc} (h : Stream job p w pc l)
    (hpar : l.arrived.parsed = greeting job p w)
    (hopened : pc.opened w = true) (hout : l.outbox = [])
    (hf : l.flight = []) : l.arrived.stored = l.left.flatten := by
  have horder := h.order hopened
  rw [hf, hout, hpar, List.append_nil, List.append_nil,
    List.append_cancel_left_eq] at horder
  exact horder

/-- **In every orderly run the pieces in which the blocks arrive do not
matter.** -/
theorem segmentationFree_of_orderly {as : List Action}
    (hrun : Run (step job) Orderly init as s) : SegmentationFree job s := by
  have hinv := inv_of_run hrun
  intro w hw hfailed hidle p hp hne hopened hout hf
  have hmem : p ∈ peers job w := mem_peers.mpr ⟨hne.symm, hp⟩
  have hrec := hinv.receiver w hw hfailed
  have hpeer := hrec.peer p hmem
  have hstream := hinv.stream p hp w hw hne
  -- the handshake has been received
  have hpar : (s.link p w).arrived.parsed ≠ [] := by
    intro hnil
    have horder := hstream.order hopened
    rw [hnil, (hpeer.silent hnil).1, hf, hout] at horder
    exact greeting_ne_nil job p w (List.append_eq_nil_iff.mp horder.symm).1
  obtain ⟨hgreet, hfd, hlen, hsender, hsize, hloaded⟩ := hpeer.known hpar
  have hall := hstream.stored_all hgreet hopened hout hf
  have hblocks : ∀ b ∈ (s.link p w).left, b.length = job.inSize w p := by
    rw [← hsize]
    exact hstream.blocks
  have hlength := hinv.stored_length hp hw hne hfailed hpar
  rw [hall, BlockBuffer.length_flatten_of_forall hblocks] at hlength
  -- between two events no part of a block is left over
  have hoff : (s.worker w).inbox.pos p =
      ((s.worker w).inbox.infos p).offset :=
    Inbox.pos_of_not_storesTo (by rw [hidle]; rfl)
  have hzero : (s.worker w).inbox.pos p = 0 := by
    rcases hpeer.between with h0 | hlt
    · rw [hoff, h0]
    · rw [← hoff] at hlt
      have hmod := congrArg (· % job.inSize w p) hlength
      simp only [Nat.mul_mod_right, Nat.mul_add_mod, Nat.mod_eq_of_lt hlt]
        at hmod
      exact hmod.symm
  obtain ⟨h0, h4⟩ := intAt_greeting job w hp
  have hentry : entryOf p (greeting job p w) = (s.worker w).inbox.infos p := by
    unfold entryOf
    rw [h0, h4, Int.toNat_natCast, ← hlen, ← hfd]
    cases hinfo : (s.worker w).inbox.infos p
    rw [hinfo] at hsender hoff
    rw [InInfo.mk.injEq]
    exact ⟨rfl, rfl, hsender.symm, by rw [← hzero, hoff]⟩
  unfold inOnePiece
  rw [hentry]
  obtain ⟨b, hfold, hget⟩ := foldl_storeWhole (e := (s.worker w).inbox.infos p)
    (by rw [← hoff, hzero]) (by rw [hlen, hsize]) (s.link p w).left
    (job.loaded w p) (job.loaded_length w p) hblocks
  have hbuf := hinv.inbuf_eq hp hw hne hfailed hpar (n := (s.link p w).left.length)
    (by rw [hall, BlockBuffer.length_flatten_of_forall hblocks])
    (by rw [hstream.left_length]) hzero
  rw [hfold]
  rw [hget] at hbuf
  rw [Option.some.inj hbuf]

/-- Blocks of two bytes, each of which arrives in two pieces. -/
theorem segmentationFree_twoWorkers :
    ∃ s, Run (step (twoWorkers 2 (by decide))) Orderly init
        (startAll ++ beginAll ++ computeAt 1 [3, 4] ++
          deliver 1 0 1 ++ deliver 1 0 1) s ∧
      SegmentationFree (twoWorkers 2 (by decide)) s := by
  obtain ⟨s, hrun, -⟩ := exists_run (step (twoWorkers 2 (by decide)))
    Orderly init
    (startAll ++ beginAll ++ computeAt 1 [3, 4] ++
      deliver 1 0 1 ++ deliver 1 0 1)
    (fun _ => True) (by decide +kernel)
  exact ⟨s, hrun, segmentationFree_of_orderly hrun⟩

/-- A handshake of which only the number arrives at first: the length is
read off what the stack holds, and the bytes of the length are stored as the
beginning of a block. -/
theorem not_segmentationFree_splitHandshake :
    ¬∀ (job : Job) (as : List Action) (s : State),
      Run (step job) (fun _ _ => True) init as s → SegmentationFree job s := by
  intro h
  obtain ⟨s, hrun, hfailed, hidle, hopened, hout, hf, hoff⟩ := exists_run
    (step (twoWorkers 2 (by decide))) (fun _ _ => True) init
    (loadAll ++ connectAll ++
      [.dispatch 0 1, .receive 0 4 [2, 0, 0, 0], .bump 0, .bump 0] ++
      goOn 0 2 ++ [.dispatch 0 1, .receive 0 4 [], .drain 0])
    (fun s => (s.worker 0).failed = none ∧
      (s.worker 0).inbox.net = .idle ∧ (s.worker 1).pc.opened 0 = true ∧
      (s.link 1 0).outbox = [] ∧ (s.link 1 0).flight = [] ∧
      ((s.worker 0).inbox.infos 1, (s.worker 0).inbox.inbuf 1) ≠
        inOnePiece (twoWorkers 2 (by decide)) 1 0 (s.link 1 0).left)
    (by decide +kernel)
  exact hoff (h _ _ s hrun 0 (by decide) hfailed hidle 1 (by decide)
    (by decide) hopened hout hf)

end Exchange
