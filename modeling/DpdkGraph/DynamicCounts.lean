import Mathlib
import DpdkGraph.DynamicSteps

/-!
# What is booked

An edge belongs to the block of its source's shard if it goes to the own
shard, and else to the file of its destination's shard. While the rows go to
their files, what is booked there and what is pending for it are together
the edges taken (`Counted`): the cursor that decides for a block has followed
to the shard of the pending edges when the next edge is there.

`Standing` is the case distinction of the walk, with the counters. Where the
edges from vertex 0 or the last out-edges are misplaced, the number of some
file is wrong, and stays wrong.
-/

namespace DynamicReshard

open Reshard

variable {W : Type}

/-- The edge belongs to the block of the source shard `k`. -/
def toBlock (c : Params) (k : ℕ) (e : EdgeWithValue W) : Bool :=
  decide (c.intervals.Mem k e.src ∧ c.intervals.Mem c.shard e.dst)

/-- The edge belongs to the file of the destination shard `k`. -/
def toFile (c : Params) (k : ℕ) (e : EdgeWithValue W) : Bool :=
  decide (c.intervals.Mem c.shard e.src ∧ c.intervals.Mem k e.dst)

/-- **The counters have the edges `done`, but for the pending ones.** -/
structure Counted (c : Params) (done pending : List (EdgeWithValue W)) (b : Books) :
    Prop where
  block : ∀ k, b.uniqEdges k + pending.countP (toBlock c k) = done.countP (toBlock c k)
  file : ∀ k, k ≠ c.shard →
    b.wslUniqEdges k + pending.countP (toFile c k) = done.countP (toFile c k)

section Counted

variable {c : Params} {done rest pending : List (EdgeWithValue W)} {b : Books}
  {e : EdgeWithValue W} {t j k d : ℕ}

theorem Counted.init : Counted c ([] : List (EdgeWithValue W)) []
    ⟨0, 0, none, fun _ => 0, fun _ => 0, 0⟩ :=
  ⟨fun _ => rfl, fun _ _ => rfl⟩

/-- Only the two numbers matter. -/
theorem Counted.congr {b' : Books} (h : Counted c done pending b)
    (hblock : b'.uniqEdges = b.uniqEdges) (hfile : b'.wslUniqEdges = b.wslUniqEdges) :
    Counted c done pending b' :=
  ⟨fun k => by rw [hblock]; exact h.block k, fun k hk => by rw [hfile]; exact h.file k hk⟩

/-- One more edge is pending. -/
theorem Counted.keep (h : Counted c done pending b) (e : EdgeWithValue W) :
    Counted c (done ++ [e]) (pending ++ [e]) b where
  block k := by
    rw [List.countP_append, List.countP_append, ← Nat.add_assoc, h.block k]
  file k hk := by
    rw [List.countP_append, List.countP_append, ← Nat.add_assoc, h.file k hk]

/-- Edges of one block, or of one file, all count there and nowhere else. -/
theorem countP_eq_ite {p : ℕ → EdgeWithValue W → Bool} {l : List (EdgeWithValue W)}
    (hin : ∀ a ∈ l, p t a = true) (hout : ∀ k, k ≠ t → ∀ a ∈ l, p k a = false) (k : ℕ) :
    l.countP (p k) = if k = t then l.length else 0 := by
  split
  · next hk =>
    rw [hk]
    exact List.countP_eq_length.mpr hin
  · next hk =>
    refine List.countP_eq_zero.mpr fun a ha => ?_
    rw [hout k hk a ha]
    exact Bool.false_ne_true

/-- What is booked on the main file goes to the block of the second cursor. -/
theorem uniqEdges_book_self {n : ℕ} (hcws : b.currentWritingShard = some j) :
    (b.book c c.shard n).uniqEdges
      = Function.update b.uniqEdges j (b.uniqEdges j + n) := by
  unfold Books.book
  rw [if_pos rfl, hcws]
  rfl

theorem wslUniqEdges_book_self {n : ℕ} :
    (b.book c c.shard n).wslUniqEdges = b.wslUniqEdges := by
  unfold Books.book
  rw [if_pos rfl]

/-- What is booked on the file of another shard goes there. -/
theorem uniqEdges_book_of_ne {n : ℕ} (ht : t ≠ c.shard) :
    (b.book c t n).uniqEdges = b.uniqEdges := by
  unfold Books.book
  rw [if_neg ht]

theorem wslUniqEdges_book_of_ne {n : ℕ} (ht : t ≠ c.shard) :
    (b.book c t n).wslUniqEdges
      = Function.update b.wslUniqEdges t (b.wslUniqEdges t + n) := by
  unfold Books.book
  rw [if_neg ht]

/-- **Pending edges that go to the main file** are booked on their block, if
the second cursor is there. -/
theorem Counted.book_self (h : Counted c done pending b)
    (hcws : b.currentWritingShard = some j)
    (hsrc : ∀ a ∈ pending, c.intervals.Mem j a.src)
    (hdst : ∀ a ∈ pending, c.intervals.Mem c.shard a.dst) :
    Counted c done [] (b.book c c.shard pending.length) := by
  have hcount := countP_eq_ite (p := toBlock c) (t := j) (l := pending)
    (fun a ha => decide_eq_true ⟨hsrc a ha, hdst a ha⟩)
    (fun k hk a ha => decide_eq_false fun hmem => hk (hmem.1.unique (hsrc a ha)))
  refine ⟨fun k => ?_, fun k hk => ?_⟩
  · rw [uniqEdges_book_self hcws, ← h.block k, hcount, List.countP_nil]
    by_cases hkj : k = j
    · rw [hkj, Function.update_self, if_pos rfl]
      rfl
    · rw [Function.update_of_ne hkj, if_neg hkj]
  · have hnone : pending.countP (toFile c k) = 0 :=
      List.countP_eq_zero.mpr fun a ha hmem =>
        hk ((of_decide_eq_true hmem).2.unique (hdst a ha))
    rw [wslUniqEdges_book_self, ← h.file k hk, hnone, List.countP_nil]

/-- **Pending out-edges that go to their file** are booked there. -/
theorem Counted.book_of_ne (h : Counted c done pending b) (ht : t ≠ c.shard)
    (hlegal : ∀ a ∈ pending, Legal c a) (hdst : ∀ a ∈ pending, c.intervals.Mem t a.dst) :
    Counted c done [] (b.book c t pending.length) := by
  have hcount := countP_eq_ite (p := toFile c) (t := t) (l := pending)
    (fun a ha => decide_eq_true ⟨(hlegal a ha).src_of_dst (hdst a ha) ht, hdst a ha⟩)
    (fun k hk a ha => decide_eq_false fun hmem => hk (hmem.2.unique (hdst a ha)))
  refine ⟨fun k => ?_, fun k hk => ?_⟩
  · have hnone : pending.countP (toBlock c k) = 0 :=
      List.countP_eq_zero.mpr fun a ha hmem =>
        ht ((hdst a ha).unique (of_decide_eq_true hmem).2)
    rw [uniqEdges_book_of_ne ht, ← h.block k, hnone, List.countP_nil]
  · rw [wslUniqEdges_book_of_ne ht, ← h.file k hk, hcount, List.countP_nil]
    by_cases hkt : k = t
    · rw [hkt, Function.update_self, if_pos rfl]
      rfl
    · rw [Function.update_of_ne hkt, if_neg hkt]

/-- Settling books the edges before the current one. -/
theorem Counted.settle (h : Counted c done [] (b.book c t pending.length))
    (hn : b.count = pending.length) : Counted c done [] (b.settle c t) := by
  rw [← hn] at h
  exact h.congr rfl rfl

/-- An in-edge belongs to no file of another shard. -/
theorem countP_toFile_append (hk : c.intervals.Mem k e.src) (hne : k ≠ c.shard) :
    (done ++ [e]).countP (toFile c t) = done.countP (toFile c t) := by
  rw [List.countP_append, List.countP_singleton, if_neg, Nat.add_zero]
  exact fun hmem => hne (hk.unique (of_decide_eq_true hmem).1)

end Counted

/-! ## Where the counters stand -/

/-- **Where the counters of a walk stand**: they have the edges taken, or the
number of some file is wrong for good. -/
inductive Standing (c : Params) (done rest : List (EdgeWithValue W)) (log : Log W)
    (w : Walk W) (b : Books) : Prop
  | good (mode : Sound c done rest log w ∨ Held c done log w)
      (counted : Counted c done w.pending b)
  | off (beyond : Beyond c w) (cond : ZeroHead c done ∨ Jump c done)
      (wrong : ∃ t, t < c.intervals.nshards ∧ t ≠ c.shard
        ∧ b.wslUniqEdges t ≠ done.countP (toFile c t))

section Step

variable {c : Params} {done rest : List (EdgeWithValue W)} {log : Log W} {w w' : Walk W}
  {b : Books} {e : EdgeWithValue W} {j k d : ℕ}

/-- What a step comes to, with the counters. -/
def Stands (c : Params) (done rest : List (EdgeWithValue W)) (w : Walk W) (b : Books) :
    Prop :=
  ∃ log, w.At c done log ∧ Standing c done rest log w b

/-- While no misplacement has come about, the rows are right or held. -/
theorem good_of_mode (hat : w.At c done log) (hmode : Mode c done rest log w)
    (hcounted : Counted c done w.pending b)
    (hbeyond : ¬(Beyond c w ∧ (ZeroHead c done ∨ Jump c done))) :
    Stands c done rest w b := by
  refine ⟨log, hat, .good ?_ hcounted⟩
  cases hmode with
  | sound h => exact Or.inl h
  | held h => exact Or.inr h
  | spoiled h => exact absurd ⟨h.beyond, Or.inl h.zeroHead⟩ hbeyond
  | jumped h => exact absurd ⟨h.beyond, Or.inr h.jump⟩ hbeyond

theorem mode_of_good (hmode : Sound c done rest log w ∨ Held c done log w) :
    Mode c done rest log w :=
  hmode.elim .sound .held

/-- The step of a walk in a mode, once it is known what it leads to. -/
theorem mode_step (hat : w.At c done log) (hscan : Scan c (done ++ e :: rest))
    (hmode : Mode c done (e :: rest) log w) (hstep : w.step c e = some w') :
    ∃ log', w'.At c (done ++ [e]) log' ∧ Mode c (done ++ [e]) rest log' w' := by
  rcases hmode.step hat hscan with ⟨w₁, log', hstep', hat', hmode'⟩ | ⟨hnone, -⟩
  · obtain rfl := Option.some.inj (hstep.symm.trans hstep')
    exact ⟨log', hat', hmode'⟩
  · rw [hnone] at hstep
    exact absurd hstep (by simp)

/-- The pending edges are legal. -/
theorem pending_legal (hat : w.At c done log) (hscan : Scan c (done ++ e :: rest)) :
    ∀ a ∈ w.pending, Legal c a := fun a ha =>
  hscan.legal a (List.mem_append_left _ (hat.mem_done_of_pending ha))

/-- **The row goes to the current file**, when the rows are right. -/
theorem counted_settle_placed (hat : w.At c done log) (hscan : Scan c (done ++ e :: rest))
    (hplaced : w.Placed c log) (h : Counted c done w.pending b)
    (hn : b.count = w.pending.length) (hcws : b.currentWritingShard = some j)
    (hj : c.intervals.Mem j w.curvid) :
    Counted c (done ++ [e]) [e] (b.settle c w.currentMemoryShard) := by
  have hsettled : Counted c done [] (b.settle c w.currentMemoryShard) := by
    by_cases ht : w.currentMemoryShard = c.shard
    · rw [ht]
      refine (h.book_self hcws (fun a ha => ?_) fun a ha => ?_).settle hn
      · rw [hplaced.pendSrc a ha]
        exact hj
      · exact ht ▸ hplaced.pendDst a ha
    · exact (h.book_of_ne ht (pending_legal hat hscan) hplaced.pendDst).settle hn
  exact hsettled.keep e

/-- **An out-edge.** It is counted where the walk has been put right before it,
and the walk then goes on as the plain `reshard` does; in the case that has gone
wrong there are no out-edges left. A round that fails is excluded by the
step. -/
theorem Standing.stepOut (hat : w.At c done log) (hscan : Scan c (done ++ e :: rest))
    (h : Standing c done (e :: rest) log w b) (hn : b.count = w.pending.length)
    (hcws : b.currentWritingShard = some j) (hj : c.intervals.Mem j w.curvid)
    (hk : c.intervals.Mem c.shard e.src) (hd : c.intervals.Mem d e.dst)
    (hstep : w.step c e = some w') :
    Stands c (done ++ [e]) rest w' (stepBooks c c.shard d e.src w b) := by
  have hstop := hscan.here.stopper
  have hadv := hat.advance hscan hk
  have hfind := IntervalPartition.shardOf_eq_some hd
  cases h with
  | off beyond _ _ =>
    have hlt := (beyond.next hat hscan hk).1
    omega
  | good hmode hcounted =>
    obtain ⟨log', hat', hmode'⟩ := mode_step hat hscan (mode_of_good hmode) hstep
    unfold stepBooks
    rw [if_pos rfl]
    by_cases hplace : w.currentMemoryShard = d ∧ e.src = (w.wsl d).curvid
    · rw [if_pos hplace]
      obtain rfl := Option.some.inj (hstep.symm.trans
        (Walk.step_outStay hstop hadv hfind hplace.1 hplace.2))
      refine good_of_mode hat' hmode' (hcounted.keep e) ?_
      -- an out-edge does not leave the books between two shards
      rintro ⟨⟨⟨k, hcss, hlt⟩, -⟩, -⟩
      obtain rfl := Option.some.inj hcss
      exact lt_irrefl _ hlt
    · rw [if_neg hplace]
      by_cases hassert : w.pendingInInterval c = true
      · obtain rfl := Option.some.inj (hstep.symm.trans
          (Walk.step_outSwitch hstop hadv hfind hplace hassert))
        -- settling first gives the edges that were pending to the shard that was
        -- written to; a walk that holds edges of shard 0 fails here
        rcases hmode with hsound | hheld
        · refine good_of_mode hat' hmode'
            (counted_settle_placed hat hscan hsound.placed hcounted hn hcws hj) ?_
          rintro ⟨⟨⟨k, hcss, hlt⟩, -⟩, -⟩
          obtain rfl := Option.some.inj hcss
          exact lt_irrefl _ hlt
        · exact absurd hassert (hheld.not_pendingInInterval hat hscan)
      · rw [Walk.step_outFail hstop hadv hfind hplace hassert] at hstep
        exact absurd hstep (by simp)

/-! ### In-edges -/

/-- A wrong number stays wrong: the in-edges to come belong to the main
file, and nothing more is booked elsewhere. -/
theorem stands_off (hat : w.At c done log) (hscan : Scan c (done ++ e :: rest))
    (hk : c.intervals.Mem k e.src) (hne : k ≠ c.shard) (hbeyond : Beyond c w)
    (hcond : ZeroHead c done ∨ Jump c done)
    (hwrong : ∃ t, t < c.intervals.nshards ∧ t ≠ c.shard
      ∧ b.wslUniqEdges t ≠ done.countP (toFile c t))
    {b' : Books} {log' : Log W} (hat' : w'.At c (done ++ [e]) log')
    (hbeyond' : Beyond c w') (hb : b'.wslUniqEdges = b.wslUniqEdges) :
    Stands c (done ++ [e]) rest w' b' := by
  refine ⟨log', hat', .off hbeyond' ?_ ?_⟩
  · exact hcond.imp (hbeyond.zeroHead hat hscan hk) (hbeyond.jump hat hscan hk)
  · obtain ⟨t, ht, hts, hbad⟩ := hwrong
    exact ⟨t, ht, hts, by rw [hb, countP_toFile_append hk hne]; exact hbad⟩

/-- **The first in-edge after the own interval.** Held edges are booked on
the file of shard 0, and too many for it. -/
theorem Standing.stepLeave (hat : w.At c done log) (hscan : Scan c (done ++ e :: rest))
    (h : Standing c done (e :: rest) log w b) (hn : b.count = w.pending.length)
    (hcws : b.currentWritingShard = some j) (hj : c.intervals.Mem j w.curvid)
    (hk : c.intervals.Mem (c.shard + 1) e.src) (hw : w.willout = true)
    (hstep : w.step c e = some w') :
    Stands c (done ++ [e]) rest w' (b.settle c w.currentMemoryShard) := by
  have hne := Nat.succ_ne_self c.shard
  have hsrc := hat.src_ne hk hw
  cases h with
  | off beyond _ _ => exact absurd ⟨rfl, hw⟩ (beyond.next hat hscan hk).2
  | good hmode hcounted =>
    obtain rfl := Option.some.inj (hstep.symm.trans
      (Walk.step_inLeave hscan.here.stopper (hat.advance hscan hk) hw hsrc))
    obtain ⟨log', hat', hmode'⟩ := mode_step hat hscan (mode_of_good hmode) hstep
    rcases hmode with hsound | hheld
    · refine good_of_mode hat' hmode'
        (counted_settle_placed hat hscan hsound.placed hcounted hn hcws hj) ?_
      rintro ⟨-, hzero | hjump⟩
      · exact not_zeroHead_of_new hat hscan hsrc hsound.noZeroHead hzero
      · exact not_jump_of_next hk hjump
    · obtain ⟨a, ha, hzero⟩ := hheld.zero
      have hpend := hheld.pending_eq hat
      have hs : 0 < c.intervals.nshards := lt_of_le_of_lt (Nat.zero_le _) hk.1
      -- the walk has been in the own interval
      obtain ⟨o, -, -, ho, -, k', hk', hmem⟩ := hat.init_or_last.resolve_left
        fun hinit => List.ne_nil_of_mem ha hinit.1
      have hout : c.intervals.Mem c.shard o.src := by
        obtain ⟨k'', hk'', hcase⟩ := hat.past hw
        obtain rfl : k'' = k' := Option.some.inj (hk''.symm.trans hk')
        have hle := hmem.mono hk (EdgeWithValue.src_le_of_sortKey_le (hscan.le ho))
        obtain rfl : k'' = c.shard := by omega
        exact hmem
      refine ⟨log', hat', .off ⟨⟨_, rfl, Nat.lt_succ_self _⟩, rfl⟩ (Or.inl ?_)
        ⟨0, hs, hheld.shard.symm, ?_⟩⟩
      · exact hheld.zeroHead ((hout.2.1.trans hout.2.2).trans
          (second_lt_src hk (Nat.lt_succ_self _)).le) ⟨o, List.mem_append_left _ ho, hout⟩
      · have hfile := hcounted.file 0 hheld.shard.symm
        have hlt : done.countP (toFile c 0) < done.length := by
          refine List.countP_lt_length_iff.mpr ⟨a, ha, ?_⟩
          rw [toFile, decide_eq_false_iff_not]
          exact fun hmem => hheld.shard (shard_of_zero hmem.1 hzero)
        rw [hheld.current, Books.settle]
        show (b.book c 0 b.count).wslUniqEdges 0 ≠ _
        rw [wslUniqEdges_book_of_ne hheld.shard.symm, Function.update_self, hn,
          countP_toFile_append hk hne, hpend]
        rw [hpend] at hfile
        omega

/-- **An in-edge of the row under construction**: the walk takes it in, and the
counters go on with it. -/
theorem Standing.stepStay (hat : w.At c done log) (hscan : Scan c (done ++ e :: rest))
    (h : Standing c done (e :: rest) log w b) (hk : c.intervals.Mem k e.src)
    (hne : k ≠ c.shard) (hleave : ¬(k = c.shard + 1 ∧ w.willout = true))
    (hsrc : e.src = w.curvid) (hstep : w.step c e = some w') :
    Stands c (done ++ [e]) rest w' b := by
  have hkeep := Walk.step_inStay hscan.here.stopper (hat.advance hscan hk) hne hleave hsrc
  obtain rfl := Option.some.inj (hstep.symm.trans hkeep)
  cases h with
  | off beyond hcond hwrong =>
    exact stands_off hat hscan hk hne beyond hcond hwrong
      (hat.inStay hscan hk hne hleave hsrc)
      ⟨⟨k, rfl, (beyond.next hat hscan hk).1⟩, beyond.current⟩ rfl
  | good hmode hcounted =>
    obtain ⟨log', hat', hmode'⟩ := mode_step hat hscan (mode_of_good hmode) hstep
    refine good_of_mode hat' hmode' (hcounted.keep e) ?_
    rintro ⟨hbeyond, hcond⟩
    have hcms : w.currentMemoryShard = c.shard := hbeyond.current
    rcases hmode with hsound | hheld
    · rcases hcond with hzero | hjump
      · refine hsound.noZeroHead (hzero.of_append hscan fun hnil => hne ?_)
        obtain ⟨rfl, -⟩ := hat.fresh hnil
        exact (shard_of_zero hk hsrc).trans hcms
      · exact hsound.not_jump hat hscan hk hne
          (fun a ha => hcms ▸ hsound.placed.pendDst a ha) hjump
    · exact hheld.shard (hcms.symm.trans hheld.current)

/-- **An in-edge that moves the main file on.** What is pending for another
file is not booked there. -/
theorem Standing.stepMove (hat : w.At c done log) (hscan : Scan c (done ++ e :: rest))
    (h : Standing c done (e :: rest) log w b) (hn : b.count = w.pending.length)
    (hcws : b.currentWritingShard = some j) (hj : c.intervals.Mem j w.curvid)
    (hk : c.intervals.Mem k e.src) (hne : k ≠ c.shard)
    (hleave : ¬(k = c.shard + 1 ∧ w.willout = true)) (hsrc : e.src ≠ w.curvid)
    (hstep : w.step c e = some w') :
    Stands c (done ++ [e]) rest w' (b.settle c c.shard) := by
  have hmove := Walk.step_inMove hscan.here.stopper (hat.advance hscan hk) hne hleave hsrc
  obtain rfl := Option.some.inj (hstep.symm.trans hmove)
  have hat' := hat.inMove hscan hk hne hleave
  have hsame : (b.settle c c.shard).wslUniqEdges = b.wslUniqEdges :=
    wslUniqEdges_book_self
  cases h with
  | off beyond hcond hwrong =>
    exact stands_off hat hscan hk hne beyond hcond hwrong hat'
      ⟨⟨k, rfl, (beyond.next hat hscan hk).1⟩, rfl⟩ hsame
  | good hmode hcounted =>
    rcases hmode with hsound | hheld
    · by_cases hcms : w.currentMemoryShard = c.shard ∨ w.pending = []
      · have hpendS : ∀ a ∈ w.pending, c.intervals.Mem c.shard a.dst := by
          intro a ha
          rcases hcms with hcms | hnil
          · exact hcms ▸ hsound.placed.pendDst a ha
          · exact absurd ha (by rw [hnil]; exact List.not_mem_nil)
        have hsettled := (hcounted.book_self hcws
          (fun a ha => by rw [hsound.placed.pendSrc a ha]; exact hj) hpendS).settle hn
        obtain ⟨log', hat'', hmode'⟩ := mode_step hat hscan (.sound hsound) hstep
        refine good_of_mode hat'' hmode' (hsettled.keep e) ?_
        rintro ⟨-, hzero | hjump⟩
        · exact not_zeroHead_of_new hat hscan hsrc hsound.noZeroHead hzero
        · exact hsound.not_jump hat hscan hk hne hpendS hjump
      · push Not at hcms
        obtain ⟨a, -, -, hpend, hgt, hjump⟩ :=
          hsound.jump hat hscan hk hne hleave hcms.1 hcms.2
        have hdst := hsound.placed.pendDst a hpend
        refine ⟨_, hat', .off ⟨⟨k, rfl, by omega⟩, rfl⟩ (Or.inr hjump)
          ⟨w.currentMemoryShard, hdst.1, hcms.1, ?_⟩⟩
        have hfile := hcounted.file _ hcms.1
        have hpos : 0 < w.pending.countP (toFile c w.currentMemoryShard) :=
          List.countP_pos_iff.mpr ⟨a, hpend, decide_eq_true
            ⟨(pending_legal hat hscan a hpend).src_of_dst hdst hcms.1, hdst⟩⟩
        rw [hsame, countP_toFile_append hk hne]
        omega
    · have hpend := hheld.pending_eq hat
      by_cases hout : ∃ a ∈ done, c.intervals.Mem c.shard a.src
      · -- the out-edges among the pending ones are booked on a block
        obtain ⟨a, ha, hs⟩ := hout
        have hgt : c.shard < k := by
          have := hs.mono hk (EdgeWithValue.src_le_of_sortKey_le (hscan.le ha))
          omega
        have hdst : c.intervals.Mem 0 a.dst := by
          rcases hheld.others a ha with hzero | ⟨-, -, hdst⟩
          · exact absurd (shard_of_zero hs hzero) hheld.shard
          · exact hdst
        refine ⟨_, hat', .off ⟨⟨k, rfl, hgt⟩, rfl⟩ (Or.inl (hheld.zeroHead
          ((hs.2.1.trans hs.2.2).trans (second_lt_src hk hgt).le)
          ⟨a, List.mem_append_left _ ha, hs⟩)) ⟨0, hdst.1, hheld.shard.symm, ?_⟩⟩
        have hfile := hcounted.file 0 hheld.shard.symm
        have hpos : 0 < done.countP (toFile c 0) :=
          List.countP_pos_iff.mpr ⟨a, ha, decide_eq_true ⟨hs, hdst⟩⟩
        rw [hpend] at hfile
        rw [hsame, countP_toFile_append hk hne]
        omega
      · have hall : ∀ a ∈ done, a.src = 0 := fun a ha =>
          (hheld.others a ha).resolve_right fun ha' => hout ⟨a, ha, ha'.1⟩
        have hcur : w.curvid = 0 := by
          rcases hat.init_or_last with ⟨-, rfl, -⟩ | ⟨a, -, -, ha, hcur, -⟩
          · rfl
          · exact hcur.trans (hall a ha)
        have hsettled := (hcounted.book_self hcws
          (fun a ha => by rw [hall a (hpend ▸ ha), ← hcur]; exact hj)
          fun a ha => hheld.dst_of_zero hscan (hpend ▸ ha) (hall a (hpend ▸ ha))).settle hn
        exact ⟨_, hat', .good (Or.inl (hheld.moved hat hscan hk hne hsrc hout))
          (hsettled.keep e)⟩

/-- **Every step** keeps the case distinction: the counters are right, or one of
the slips has happened and one of them is wrong for good. -/
theorem Standing.step (hat : w.At c done log) (hscan : Scan c (done ++ e :: rest))
    (h : Standing c done (e :: rest) log w b) (hn : b.count = w.pending.length)
    (hcws : b.currentWritingShard = some j) (hj : c.intervals.Mem j w.curvid)
    (hk : c.intervals.Mem k e.src) (hd : c.intervals.Mem d e.dst)
    (hstep : w.step c e = some w') :
    Stands c (done ++ [e]) rest w' (stepBooks c k d e.src w b) := by
  by_cases hne : k = c.shard
  · subst hne
    exact h.stepOut hat hscan hn hcws hj hk hd hstep
  · unfold stepBooks
    rw [if_neg hne]
    by_cases hleave : k = c.shard + 1 ∧ w.willout = true
    · obtain ⟨rfl, hw⟩ := hleave
      rw [if_pos ⟨rfl, hw⟩]
      exact h.stepLeave hat hscan hn hcws hj hk hw hstep
    · rw [if_neg hleave]
      by_cases hsrc : e.src = w.curvid
      · rw [if_neg (not_not.mpr hsrc)]
        exact h.stepStay hat hscan hk hne hleave hsrc hstep
      · rw [if_pos hsrc]
        exact h.stepMove hat hscan hn hcws hj hk hne hleave hsrc hstep

end Step

end DynamicReshard
