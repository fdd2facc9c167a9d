import Mathlib
import DpdkGraph.InnerEdges
import DpdkGraph.LoadCompletion

/-!
# The copy of the main block

`load_edata_XG` copies the block of the interval itself to
`main_to_main_buf`, right after it has asked for the reads: whether the I/O
thread has read the block by then is a matter of the schedule. If it has not,
the copy has the values `ET()` with which the buffers are set up, and after
the first iteration these are copied over the values of the file, also of the
edges that no vertex has written to.

The first part is about one load, in any order of its threads. The second
one lets the workers iterate on what their loads have left.
-/

namespace BlockLoading

open Transition (Run)

variable {J : Job}

/-- The file of the block holds the value `ET()` everywhere. -/
def Job.Blank (J : Job) : Prop :=
  J.file J.exec = (List.replicate ((J.file J.exec).length / J.edgeSize)
    J.ET).flatten

/-- No read of block `k` is to be done: none is in a queue, and no thread has
one that it has not done. -/
def State.Over (s : State J) (k : Fin J.P) : Prop :=
  (∀ t < J.threads, ∀ x ∈ s.readqueue t, x.block ≠ k) ∧
    ∀ t < J.threads, ∀ x ∈ s.task t, x.2 = false → x.1.block ≠ k

/-- **The block is copied when it has been read**, if it makes a
difference. -/
def CopiesLate (s : State J) : Action → Prop
  | .main _ => s.pc = .copying → s.Over J.exec ∨ J.Blank
  | _ => True

instance : Decidable J.Blank := inferInstanceAs (Decidable (_ = _))

instance (s : State J) (k : Fin J.P) : Decidable (s.Over k) :=
  inferInstanceAs (Decidable (_ ∧ _))

instance (s : State J) : DecidablePred (CopiesLate s)
  | .main _ => inferInstanceAs (Decidable (_ → _ ∨ _))
  | .take _ | .read _ | .finish _ => inferInstanceAs (Decidable True)

/-- The copy has been made. -/
def Pc.Copied : Pc J → Prop
  | .waiting _ | .done => True
  | _ => False

/-- What the two buffers of the block hold. -/
structure State.Same (s : State J) : Prop where
  /-- Where it makes no difference, the buffer has the file from the
  beginning. -/
  blank : J.Blank → s.pc.Opened J.exec → s.inbuf J.exec = J.file J.exec ++ [0]
  copied : s.pc.Copied → s.mainToMainBuf = J.file J.exec

/-- A turn that leaves the buffers. -/
theorem State.Same.move {s s' : State J} (h : s.Same)
    (hinbuf : s'.inbuf = s.inbuf) (hbuf : s'.mainToMainBuf = s.mainToMainBuf)
    (hopened : s'.pc.Opened J.exec → s.pc.Opened J.exec)
    (hcopied : s'.pc.Copied → s.pc.Copied) : s'.Same where
  blank hblank hpc := by
    rw [hinbuf]
    exact h.blank hblank (hopened hpc)
  copied hpc := by
    rw [hbuf]
    exact h.copied (hcopied hpc)

theorem same_init : (init J).Same where
  blank _ hpc := absurd hpc (Nat.not_lt_zero _)
  copied hpc := hpc.elim

theorem same_openBlock (hJ : J.Fits) {s : State J} (h : s.Same) {i : ℕ}
    (hpc : s.pc = .opening i) (hi : i < J.P) :
    (openBlock J ⟨i, hi⟩ s).Same := by
  have hdvd := J.dvd_length ⟨i, hi⟩
  have hlt : (J.file ⟨i, hi⟩).length < 2 ^ 31 :=
    lt_of_le_of_lt (hJ.size ⟨i, hi⟩).2 J.stripesize_lt
  unfold openBlock
  dsimp only
  rw [if_pos ⟨Nat.mod_eq_zero_of_dvd hdvd, hJ.opens⟩]
  refine ⟨fun hblank hopened => ?_, fun hcopied => hcopied.elim⟩
  show Function.update s.inbuf _ _ _ = _
  by_cases hexec : J.exec = ⟨i, hi⟩
  · rw [hexec, Function.update_self, initialBuf_eq hlt hdvd, ← hexec]
    exact congrArg (· ++ [0]) hblank.symm
  · rw [Function.update_of_ne hexec]
    refine h.blank hblank ?_
    rw [hpc]
    have hne : (J.exec : ℕ) ≠ i := fun hv => hexec (Fin.ext hv)
    exact lt_of_le_of_ne (Nat.lt_succ_iff.mp hopened) hne

/-- **The copy**, made when the block has been read, has the file. -/
theorem same_copy {s : State J} (hinv : s.Inv) (h : s.Same)
    (hpc : s.pc = .copying) (hlate : s.Over J.exec ∨ J.Blank) :
    (copy J s).Same := by
  have hfile : s.inbuf J.exec = J.file J.exec ++ [0] := by
    rcases hlate with hover | hblank
    · rcases hinv.served J.exec (by rw [hpc]; trivial) with
        ⟨t, ht, x, hx, hk⟩ | ⟨t, ht, x, hx, hk⟩ | hfile
      · exact absurd hk (hover.1 t ht x hx)
      · exact absurd hk (hover.2 t ht _ hx rfl)
      · exact hfile
    · exact h.blank hblank (by rw [hpc]; trivial)
  have hlength := (hinv.opened J.exec (by rw [hpc]; trivial)).1
  refine ⟨fun _ _ => hfile, fun _ => ?_⟩
  show (s.inbuf J.exec).take (s.inlength J.exec).toNat = _
  rw [hfile, hlength, Int.toNat_natCast, List.take_left]

/-- A turn of the main thread keeps the two buffers alike: the copy makes
them so, and no other turn writes to either. -/
theorem same_mainStep (hJ : J.Fits) {s s' : State J} (hinv : s.Inv)
    (h : s.Same) {random : ℕ → ℕ}
    (hlate : s.pc = .copying → s.Over J.exec ∨ J.Blank)
    (hstep : mainStep J random s = some s') : s'.Same := by
  cases mainNext_of_step hstep with
  | opening i hi hpc => exact same_openBlock hJ h hpc hi
  | opened i hpc hi =>
    refine h.move rfl rfl (fun _ => ?_) fun hc => hc.elim
    rw [hpc]
    exact lt_of_lt_of_le J.exec.isLt hi
  | request n hn hpc =>
    have hopened : s.pc.Opened J.exec := by rw [hpc]; trivial
    unfold request
    split
    · exact h.move rfl rfl (fun _ => hopened) fun hc => hc.elim
    · exact h.move rfl rfl (fun _ => hopened) fun hc => hc.elim
  | requested _ hpc | count _ _ hpc | push _ _ hpc =>
    exact h.move rfl rfl (fun _ => by rw [hpc]; trivial) fun hc => hc.elim
  | copy hpc => exact same_copy hinv h hpc (hlate hpc)
  | wait i hpc | waited i hpc =>
    exact h.move rfl rfl (fun _ => by rw [hpc]; trivial)
      fun _ => by rw [hpc]; trivial

/-- A read puts the file into the buffer. -/
theorem same_read {s s' : State J} (hinv : s.Inv) (h : s.Same) {t : ℕ}
    (hstep : read J t s = some s') : s'.Same := by
  cases htask : s.task t with
  | none =>
    unfold read at hstep
    rw [htask] at hstep
    cases hstep
  | some y =>
    obtain ⟨x, b⟩ := y
    cases b with
    | true =>
      unfold read at hstep
      rw [htask] at hstep
      cases hstep
    | false =>
      rw [read_eq hinv htask] at hstep
      obtain rfl := Option.some.inj hstep
      refine ⟨fun hblank hopened => ?_, h.copied⟩
      show Function.update s.inbuf _ _ _ = _
      by_cases hexec : J.exec = x.block
      · obtain ⟨-, l, hlen, hl⟩ := hinv.opened J.exec hopened
        rw [← hexec, Function.update_self, hl, ← hlen, List.drop_left]
      · rw [Function.update_of_ne hexec]
        exact h.blank hblank hopened

theorem same_step (hJ : J.Fits) {s s' : State J} (hinv : s.Inv) (h : s.Same)
    {a : Action} (hlate : CopiesLate s a) (hstep : step J s a = some s') :
    s'.Same := by
  cases a with
  | main random => exact same_mainStep hJ hinv h hlate hstep
  | take t =>
    simp only [step] at hstep
    split at hstep
    case isFalse => cases hstep
    case isTrue =>
      unfold take at hstep
      split at hstep
      · split at hstep
        · obtain rfl := Option.some.inj hstep
          exact h.move rfl rfl id id
        · cases hstep
      · cases hstep
  | read t =>
    simp only [step] at hstep
    split at hstep
    case isFalse => cases hstep
    case isTrue => exact same_read hinv h hstep
  | finish t =>
    simp only [step] at hstep
    split at hstep
    case isFalse => cases hstep
    case isTrue =>
      unfold finish at hstep
      split at hstep
      · obtain rfl := Option.some.inj hstep
        exact h.move rfl rfl id id
      · cases hstep

/-- **The buffers after a load** whose copy was made late enough. -/
theorem copied_of_copiesLate {as : List Action} {s : State J}
    (hrun : Run (step J) CopiesLate (init J) as s) (hpc : s.pc = .done) :
    s.mainToMainBuf = J.file J.exec ∧
      (s.inbuf J.exec).take (s.inlength J.exec).toNat = J.file J.exec := by
  have hreaches : Reaches J as s := hrun.mono fun _ _ _ => trivial
  have hJ := fits_of_done hreaches hpc
  have hboth : s.Inv ∧ s.Same := hrun.invariant
    (I := fun s => s.Inv ∧ s.Same)
    (fun _ _ _ h hlate hstep =>
      ⟨inv_step hJ h.1 hstep, same_step hJ h.1 h.2 hlate hstep⟩)
    ⟨inv_init, same_init⟩
  obtain ⟨hfile, hlength⟩ := loaded_of_done hboth.1 hpc J.exec
  refine ⟨hboth.2.copied (by rw [hpc]; trivial), ?_⟩
  rw [hfile, hlength, Int.toNat_natCast, List.take_left]

/-! ## One block -/

/-- One worker, whose block file has one edge value of a byte. -/
def oneBlock : Job where
  P := 1
  exec := 0
  edgeSize := 1
  edgeSize_pos := by decide
  ET := [0]
  length_ET := rfl
  file := fun _ => [7]
  dvd_length := fun _ => one_dvd _
  multiplex := 1
  multiplex_pos := by decide
  niothreads := 1
  niothreads_pos := by decide
  ioStripesize := 1024
  ioStripesize_pos := by decide
  ioStripesize_lt := by decide
  found := fun _ => true
  startMplex := fun _ => 0
  startMplex_lt := by decide

/-- The chunk of the only request. -/
def oneChunk : StripeChunk := ⟨0, 0, 1⟩

/-- When the block has been requested. -/
def oneRequest : State oneBlock :=
  let opened := openBlock oneBlock oneBlock.exec (init oneBlock)
  push oneBlock oneBlock.exec oneChunk
    (count oneBlock oneBlock.exec oneChunk
      { opened with pc := .counting oneBlock.exec oneChunk })

theorem run_oneRequest :
    Run (step oneBlock) CopiesLate (init oneBlock)
      (List.replicate 5 (.main fun _ => 0)) oneRequest := by
  have hrequest : request oneBlock oneBlock.exec (fun _ => 0)
      { openBlock oneBlock oneBlock.exec (init oneBlock) with
        pc := .requesting 0 } =
        { openBlock oneBlock oneBlock.exec (init oneBlock) with
          pc := .counting oneBlock.exec oneChunk } := by
    have hblock : oneBlock.block oneBlock.exec = oneBlock.exec := rfl
    have hmplex : mplexForOffset oneBlock oneBlock.exec 0 = 0 := by
      decide +kernel
    have hchunk : stripeOffsets oneBlock oneBlock.exec (fun _ => 0)
        (oneBlock.file oneBlock.exec).length 0 = [oneChunk] := by
      have hone := stripeOffsets_of_le oneBlock.exec (fun _ => 0) (n := 1)
        (by decide) (by decide)
      rw [hmplex] at hone
      exact hone
    unfold request
    rw [hblock, hchunk]
  refine Run.cons ?_ rfl (Run.cons ?_ rfl (Run.cons ?_ (congrArg some hrequest)
    (Run.cons ?_ rfl (Run.cons ?_ rfl (Run.nil _)))))
  all_goals exact fun h => nomatch h

/-- The I/O thread reads the block, and the main thread goes on. -/
def readFirst : List (Action) :=
  [.take 0, .read 0, .main fun _ => 0, .main fun _ => 0, .finish 0,
    .main fun _ => 0, .main fun _ => 0]

/-- The main thread copies the block, which is read then. -/
def copyFirst : List (Action) :=
  [.main fun _ => 0, .main fun _ => 0, .take 0, .read 0, .finish 0,
    .main fun _ => 0, .main fun _ => 0]

theorem exists_readFirst :
    ∃ s, Run (step oneBlock) CopiesLate (init oneBlock)
        (List.replicate 5 (.main fun _ => 0) ++ readFirst) s ∧
      s.pc = .done ∧ s.mainToMainBuf = [7] := by
  obtain ⟨s, hrun, hend⟩ := Transition.exists_run (step oneBlock) CopiesLate
    oneRequest readFirst (fun s => s.pc = .done ∧ s.mainToMainBuf = [7])
    (by decide +kernel)
  exact ⟨s, run_oneRequest.append hrun, hend⟩

theorem exists_copyFirst :
    ∃ s, Reaches oneBlock (List.replicate 5 (.main fun _ => 0) ++ copyFirst) s ∧
      s.pc = .done ∧ s.mainToMainBuf = [0] := by
  obtain ⟨s, hrun, hend⟩ := Transition.exists_run (step oneBlock)
    (fun _ _ => True) oneRequest copyFirst
    (fun s => s.pc = .done ∧ s.mainToMainBuf = [0]) (by decide +kernel)
  exact ⟨s, (run_oneRequest.mono fun _ _ _ => trivial).append hrun, hend⟩

end BlockLoading

namespace Engine

open VertexProgram
open Transition (Run)

variable {V E : Type} {x : Input V E} {job : Job x}

/-- **The loads of all workers**, each of which has come to its end, and left
the buffers with which the worker starts. -/
structure Loads (job : Job x) where
  /-- The bytes of an edge value. -/
  bytes : E → List UInt8
  injective : Function.Injective bytes
  /-- The load of each worker. -/
  load : ℕ → BlockLoading.Job
  length_bytes : ∀ w, ∀ e, (bytes e).length = (load w).edgeSize
  P : ∀ w < job.workers, (load w).P = job.workers
  exec : ∀ w < job.workers, ((load w).exec : ℕ) = w
  /-- Its block files have the values of the graph's edges. -/
  file : ∀ w < job.workers, ∀ k,
    (load w).file k = ((x.block job.part k w).map bytes).flatten
  actions : ℕ → List BlockLoading.Action
  /-- The state of the load of worker `w` when iteration 0 starts. -/
  state : ∀ w, BlockLoading.State (load w)
  /-- The load has been run … -/
  reaches : ∀ w < job.workers,
    BlockLoading.Reaches (load w) (actions w) (state w)
  /-- … to its end. -/
  done : ∀ w < job.workers, (state w).pc = .done
  /-- The copy, value by value. -/
  copied : ∀ w < job.workers, ∀ i < (x.block job.part w w).length,
    bytes (job.loaded w (.mainToMain i)) =
      ((state w).mainToMainBuf.drop (i * (load w).edgeSize)).take
        (load w).edgeSize

/-- **The frame of the double buffer**: nobody writes, nothing changes. It fails
for the buffer that is copied before the block has been read. -/
structure Loads.Framed (l : Loads job) : Prop where
  /-- When iteration 0 starts, both buffers have the block file. -/
  copy : ∀ w < job.workers,
    (l.state w).mainToMainBuf = (l.load w).file (l.load w).exec
  block : ∀ w < job.workers,
    ((l.state w).inbuf (l.load w).exec).take
        ((l.state w).inlength (l.load w).exec).toNat =
      (l.load w).file (l.load w).exec
  /-- An edge inside an interval that nobody writes to has the value of the
  file, in every iteration. -/
  kept : ∀ as s, Run (step job) (fun _ _ => True) (init job) as s →
    ∀ n ∈ x.numbered, home job.part n.1.src = home job.part n.1.dst →
      (∀ r ∈ s.writes, r.edge ≠ n.2) →
        ∀ r ∈ s.found, r.edge = n.2 → r.value = n.1.value

/-- The values of a list, from its bytes. -/
theorem take_drop_flatten {α : Type} {f : α → List UInt8} {size : ℕ}
    (hf : ∀ a, (f a).length = size) (as : List α) :
    ∀ (i : ℕ) (a : α), as[i]? = some a →
      (((as.map f).flatten).drop (i * size)).take size = f a := by
  induction as with
  | nil => intro i a h; cases h
  | cons b as ih =>
    intro i a h
    rw [List.map_cons, List.flatten_cons]
    cases i with
    | zero =>
      obtain rfl := Option.some.inj h
      rw [Nat.zero_mul, List.drop_zero, ← hf b, List.take_left]
    | succ i =>
      have hdrop : (i + 1) * size = (f b).length + i * size := by
        rw [hf, Nat.succ_mul, Nat.add_comm]
      rw [hdrop, ← List.drop_drop, List.drop_left]
      exact ih i a h

/-- Where every load has come to its end, no block is empty. -/
theorem Loads.noGaps (l : Loads job) : NoGaps x job.part := by
  intro w hw q _ p hpq hzero
  exfalso
  have hq : q < (l.load w).P := by
    rw [l.P w hw]
    assumption
  have hJ := BlockLoading.fits_of_done (l.reaches w hw) (l.done w hw)
  have hpos := (hJ.size ⟨p, hpq.trans hq⟩).1
  rw [l.file w hw, List.length_eq_zero_iff.mp hzero] at hpos
  exact absurd hpos (Nat.lt_irrefl 0)

/-- **The frame holds** where every worker copies its block when it has been
read, or where the block has nothing but `ET()`. -/
theorem Loads.framed_of_copiesLate (l : Loads job)
    (hlate : ∀ w < job.workers, Run (BlockLoading.step (l.load w))
      BlockLoading.CopiesLate (BlockLoading.init (l.load w)) (l.actions w)
        (l.state w)) : l.Framed := by
  have hcopied := fun w hw =>
    BlockLoading.copied_of_copiesLate (hlate w hw) (l.done w hw)
  refine ⟨fun w hw => (hcopied w hw).1, fun w hw => (hcopied w hw).2, ?_⟩
  intro as s hrun n hn hinner hnone r hr hk
  have hw : home job.part n.1.src < job.workers :=
    (mem_src job.covered (mem_of_numbered hn)).1
  have hslot := block_slot job.covered hn
  rw [← hinner] at hslot
  obtain ⟨hval, -⟩ := (inner_of_run l.noGaps hn rfl hinner.symm hrun).known r hr hk
  have hfirst : job.loaded (home job.part n.1.src)
      (.inbuf (home job.part n.1.src) (slot x job.part n)) = n.1.value := by
    show List.getD _ _ _ = _
    rw [List.getD_eq_getElem?_getD, hslot, Option.getD_some]
  have hsame : job.loaded (home job.part n.1.src)
      (.mainToMain (slot x job.part n)) = n.1.value := by
    refine l.injective ?_
    rw [l.copied _ hw _ (List.getElem?_eq_some_iff.mp hslot).1,
      (hcopied _ hw).1, l.file _ hw, l.exec _ hw]
    exact take_drop_flatten (l.length_bytes _) _ _ _ hslot
  rw [hval]
  unfold Job.heldAt
  rw [hfirst, hsame]
  exact held_eq_first
    (fun i => lastWrite_eq_none fun r hr hk => absurd hk (hnone r hr)) rfl

/-- One edge, and a program that does nothing. -/
def oneValue : Input ℕ UInt8 where
  edges := [⟨1, 2, 7⟩]
  sorted := List.pairwise_singleton _ _
  noloop := by decide
  program _ _ := .done ()
  value := fun _ => 0

def oneWorker : IntervalPartition where
  intervals := [(0, 4)]
  start := rfl
  contiguous := by decide
  ordered := by decide
  vid := by decide

/-- `copied` says whether the block was read before it was copied. -/
def oneValueJob (copied : Bool) : Job oneValue where
  part := oneWorker
  covered e he := by
    rw [List.mem_singleton.mp he]
    exact ⟨⟨0, by decide⟩, 0, by decide⟩
  outedges w v := (loadBeforeUpdates oneValue oneWorker w).edges .outedge v
  added _ _ := List.Perm.refl _
  copied _ _ := copied
  blank _ _ := 0

/-- The load of the only worker. -/
def oneLoad (copied : Bool) {actions : List BlockLoading.Action}
    {state : BlockLoading.State BlockLoading.oneBlock}
    (hreaches : BlockLoading.Reaches BlockLoading.oneBlock actions state)
    (hdone : state.pc = .done)
    (hcopied : state.mainToMainBuf = [if copied then 7 else 0]) :
    Loads (oneValueJob copied) where
  bytes e := [e]
  injective := List.singleton_injective
  load _ := BlockLoading.oneBlock
  length_bytes _ _ := rfl
  P _ _ := rfl
  exec w hw := (Nat.lt_one_iff.mp hw).symm
  file w hw k := by
    obtain rfl := Nat.lt_one_iff.mp hw
    have hk : (k : ℕ) = 0 := Nat.lt_one_iff.mp k.isLt
    rw [hk]
    show ([7] : List UInt8) =
      ((oneValue.block oneWorker 0 0).map fun e => [e]).flatten
    decide
  actions _ := actions
  state _ := state
  reaches _ _ := hreaches
  done _ _ := hdone
  copied w hw i hi := by
    obtain rfl := Nat.lt_one_iff.mp hw
    obtain rfl := Nat.lt_one_iff.mp (hi.trans_eq
      (show (oneValue.block oneWorker 0 0).length = 1 by decide))
    rw [hcopied]
    cases copied <;> decide

/-- The block is read first. -/
theorem Loads.framed_of_copiesLate_readFirst :
    ∃ l : Loads (oneValueJob true), l.Framed := by
  obtain ⟨s, hrun, hdone, hbuf⟩ := BlockLoading.exists_readFirst
  exact ⟨oneLoad true (hrun.mono fun _ _ _ => trivial) hdone hbuf,
    Loads.framed_of_copiesLate _ fun _ _ => hrun⟩

/-- The block is copied first: it is copied before it is there. -/
theorem not_framed_copyFirst :
    ¬∀ (x : Input ℕ UInt8) (job : Job x) (l : Loads job), l.Framed := by
  intro h
  obtain ⟨s, hrun, hdone, hbuf⟩ := BlockLoading.exists_copyFirst
  have hcopy := (h _ _ (oneLoad false hrun hdone hbuf)).copy 0
    (by decide)
  have hbad : s.mainToMainBuf = [7] := hcopy
  rw [hbuf] at hbad
  exact absurd hbad (by decide)

end Engine
