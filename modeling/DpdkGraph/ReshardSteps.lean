import Mathlib
import DpdkGraph.AdjacencyFile

/-!
# What one step of the walk can do

A step of the walk over the sorted edges does one of six things, decided by
the shard of the source, the file of the destination and the state:

* an in-edge with the source of the previous edge *stays* in the row;
* an in-edge with a new source *moves* the main file on;
* the first in-edge after the own interval *leaves* the out-edges' file;
* an out-edge of the row under construction *stays* in it;
* any other out-edge *switches* to its own file – or the assertion of the
  switch fails.

The lemmas below say what each of them does to the whole state, so that the
stages of a step are not unfolded again.
-/

namespace Reshard.Walk

variable {V : Type} {c : Params} {w : Walk V} {e : EdgeWithValue V} {k j : ℕ}

/-! ## In-edges -/

/-- A step on an in-edge runs the last two stages only. -/
theorem step_of_ne (hstop : e.stopper = false)
    (hadv : c.intervals.advance w.currentSlidingShard e.src = some k)
    (hk : k ≠ c.shard) :
    w.step c e = some (((leaveOut c { w with currentSlidingShard := some k }).changeVid
      c e.src).keep e) := by
  unfold step slide
  rw [hstop, hadv]
  simp [hk]

/-- An in-edge of the row under construction stays in it. -/
theorem step_inStay (hstop : e.stopper = false)
    (hadv : c.intervals.advance w.currentSlidingShard e.src = some k)
    (hk : k ≠ c.shard) (hleave : ¬(k = c.shard + 1 ∧ w.willout = true))
    (hsrc : e.src = w.curvid) :
    w.step c e = some
      { w with
        currentSlidingShard := some k
        pending := w.pending ++ [e]
        i := w.i + 1 } := by
  rw [step_of_ne hstop hadv hk]
  unfold leaveOut changeVid keep
  simp only [Option.some.injEq]
  rw [if_neg hleave]
  simp [hsrc]

/-- An in-edge with a new source writes the pending edges to the main file
and moves it on. -/
theorem step_inMove (hstop : e.stopper = false)
    (hadv : c.intervals.advance w.currentSlidingShard e.src = some k)
    (hk : k ≠ c.shard) (hleave : ¬(k = c.shard + 1 ∧ w.willout = true))
    (hsrc : e.src ≠ w.curvid) :
    w.step c e = some
      { w with
        wsl := Function.update w.wsl c.shard
          (((w.wsl c.shard).writePending c.compressedBlockSize w.pending).moveTo
            c.compressedBlockSize e.src)
        currentSlidingShard := some k
        currentMemoryShard := c.shard
        curvid := e.src
        pending := [e]
        i := w.i + 1 } := by
  rw [step_of_ne hstop hadv hk]
  unfold leaveOut changeVid keep
  simp only [Option.some.injEq]
  rw [if_neg hleave, if_pos hsrc]
  simp [flushTo, onFile]

/-- The first in-edge after the own interval writes the pending edges to
the current file, and moves the main file on. -/
theorem step_inLeave (hstop : e.stopper = false)
    (hadv : c.intervals.advance w.currentSlidingShard e.src = some (c.shard + 1))
    (hwillout : w.willout = true) (hsrc : e.src ≠ w.curvid) :
    w.step c e = some
      { w with
        wsl :=
          let wsl := Function.update w.wsl w.currentMemoryShard
            ((w.wsl w.currentMemoryShard).writePending c.compressedBlockSize w.pending)
          Function.update wsl c.shard
            ((wsl c.shard).moveTo c.compressedBlockSize e.src)
        currentSlidingShard := some (c.shard + 1)
        currentMemoryShard := c.shard
        curvid := e.src
        willout := false
        pending := [e]
        i := w.i + 1 } := by
  rw [step_of_ne hstop hadv (Nat.succ_ne_self _)]
  unfold leaveOut changeVid keep
  simp [flushTo, onFile, hwillout, hsrc, WriteSliding.writePending_nil]

/-! ## Out-edges -/

/-- The variables after the sliding shard has moved to the own shard and
the destination's shard, `j`, has been found. -/
def seen (c : Params) (j : ℕ) (w : Walk V) : Walk V :=
  { w with currentSlidingShard := some c.shard, willout := true, index := j }

theorem inPlace_seen {src : ℕ} :
    (w.seen c j).inPlace src = true
      ↔ w.currentMemoryShard = j ∧ src = (w.wsl j).curvid := by
  unfold inPlace
  rw [Bool.and_eq_true, decide_eq_true_iff, decide_eq_true_iff]
  show w.currentMemoryShard = j ∧ src = (w.wsl w.currentMemoryShard).curvid ↔ _
  constructor
  · rintro ⟨rfl, hsrc⟩
    exact ⟨rfl, hsrc⟩
  · rintro ⟨rfl, hsrc⟩
    exact ⟨rfl, hsrc⟩

/-- A round with nothing pending only moves the cursor. -/
theorem switchStep_nil {src : ℕ} (hpending : w.pending = []) :
    w.switchStep c src = some
      { w.onFile w.currentMemoryShard (.switchTo c.compressedBlockSize src w.i) with
        currentMemoryShard := w.index } := by
  unfold switchStep
  rw [if_pos (by simp [pendingInInterval, hpending])]
  simp [flushTo, onFile, hpending, WriteSliding.writePending_nil]

/-- A step on an out-edge runs the inner loop. -/
theorem step_of_eq (hstop : e.stopper = false)
    (hadv : c.intervals.advance w.currentSlidingShard e.src = some c.shard)
    (hj : c.intervals.shardOf e.dst = some j) :
    w.step c e = (switchLoop c e.src 2 (w.seen c j)).map fun w =>
      ((leaveOut c { w with curvid := e.src }).changeVid c e.src).keep e := by
  unfold step slide seen
  rw [hstop, hadv]
  simp [hj, Function.comp_def]

/-- An out-edge of the row under construction stays in it. -/
theorem step_outStay (hstop : e.stopper = false)
    (hadv : c.intervals.advance w.currentSlidingShard e.src = some c.shard)
    (hj : c.intervals.shardOf e.dst = some j)
    (hcms : w.currentMemoryShard = j) (hsrc : e.src = (w.wsl j).curvid) :
    w.step c e = some
      { w with
        currentSlidingShard := some c.shard
        curvid := e.src
        willout := true
        index := j
        pending := w.pending ++ [e]
        i := w.i + 1 } := by
  rw [step_of_eq hstop hadv hj, switchLoop, if_pos (inPlace_seen.mpr ⟨hcms, hsrc⟩)]
  simp [seen, leaveOut, changeVid, keep]

/-- The adjacency files after a switch from the current file to that of
`j`, for the source `src`. -/
def switched (c : Params) (w : Walk V) (j src : ℕ) : ℕ → WriteSliding :=
  let wsl := Function.update w.wsl w.currentMemoryShard
    (((w.wsl w.currentMemoryShard).writePending c.compressedBlockSize w.pending).switchTo
      c.compressedBlockSize src w.i)
  if src = (wsl j).curvid then wsl
  else Function.update wsl j ((wsl j).switchTo c.compressedBlockSize src w.i)

/-- Any other out-edge writes the pending edges to the current file and
moves on to its own, if the assertion holds. -/
theorem step_outSwitch (hstop : e.stopper = false)
    (hadv : c.intervals.advance w.currentSlidingShard e.src = some c.shard)
    (hj : c.intervals.shardOf e.dst = some j)
    (hplace : ¬(w.currentMemoryShard = j ∧ e.src = (w.wsl j).curvid))
    (hassert : w.pendingInInterval c = true) :
    w.step c e = some
      { w with
        wsl := w.switched c j e.src
        currentSlidingShard := some c.shard
        currentMemoryShard := j
        curvid := e.src
        willout := true
        index := j
        pending := [e]
        i := w.i + 1 } := by
  have hassert' : (w.seen c j).pendingInInterval c = true := hassert
  have hround : (w.seen c j).switchStep c e.src = some
      { w.seen c j with
        wsl := Function.update w.wsl w.currentMemoryShard
          (((w.wsl w.currentMemoryShard).writePending c.compressedBlockSize
            w.pending).switchTo c.compressedBlockSize e.src w.i)
        currentMemoryShard := j
        pending := [] } := by
    unfold switchStep
    rw [if_pos hassert']
    simp [flushTo, onFile, seen]
  rw [step_of_eq hstop hadv hj, switchLoop, if_neg (inPlace_seen.not.mpr hplace), hround,
    Option.bind_some, switchLoop]
  unfold switched
  dsimp only
  split
  · next hin =>
    -- the file of `j` is the one just left, or its cursor is there already
    rw [if_pos]
    · simp [seen, leaveOut, changeVid, keep]
    · simpa [inPlace, seen] using hin
  · next hin =>
    rw [if_neg, switchStep_nil rfl, Option.bind_some, switchLoop, if_pos]
    · simp [seen, onFile, leaveOut, changeVid, keep]
    · simp [inPlace, seen, onFile]
    · simpa [inPlace, seen] using hin

/-- Otherwise the step fails. -/
theorem step_outFail (hstop : e.stopper = false)
    (hadv : c.intervals.advance w.currentSlidingShard e.src = some c.shard)
    (hj : c.intervals.shardOf e.dst = some j)
    (hplace : ¬(w.currentMemoryShard = j ∧ e.src = (w.wsl j).curvid))
    (hassert : ¬w.pendingInInterval c = true) :
    w.step c e = none := by
  have hassert' : ¬(w.seen c j).pendingInInterval c = true := hassert
  rw [step_of_eq hstop hadv hj, switchLoop, if_neg (inPlace_seen.not.mpr hplace),
    switchStep, if_neg hassert']
  rfl

end Reshard.Walk
