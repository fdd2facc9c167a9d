import Mathlib
import DpdkGraph.LongRuns

/-!
# A walk that keeps its rows right

While a walk goes well, the rows written so far are in their files, the
pending edges share a source and belong to the current file, and the cursor
of that file is on their source: that is `Walk.Placed`. `Walk.Rows` adds what
the bytes say – each file stands for its rows under their sources, as long
as none comes behind a run that is too long, and no file's cursor has passed
an edge that is still to come.

Each kind of step keeps both, when the pending edges go to the current file.
-/

namespace Reshard.Walk

open WriteSliding

variable {V : Type}

/-- **The rows are in their files, and the pending edges are one row of the
current file.** -/
structure Placed (c : Params) (log : Log V) (w : Walk V) : Prop where
  /-- Written edges are in the file of their destination's shard. -/
  right : ∀ x ∈ log, c.intervals.Mem x.1 x.2.dst
  /-- The pending edges share the source the walk is at. -/
  pendSrc : ∀ a ∈ w.pending, a.src = w.curvid
  /-- They belong to the current file. -/
  pendDst : ∀ a ∈ w.pending, c.intervals.Mem w.currentMemoryShard a.dst
  /-- The current file's cursor is on their source. -/
  cursor : w.pending ≠ [] → (w.wsl w.currentMemoryShard).curvid = w.curvid

/-- The file `k` stands for the rows that the log gives it. -/
def HoldsRows (c : Params) (L : List (EdgeWithValue V)) (log : Log V) (k : ℕ)
    (x : WriteSliding) : Prop :=
  x.Wrote (startOf c k) (Passed c L k) ((log.rowsOf k).map EdgeWithValue.ends)

/-- The vertex that the file `k` has been taken up to, with its pending
edges. -/
def reached (w : Walk V) (k : ℕ) : ℕ :=
  if k = w.currentMemoryShard ∧ w.pending ≠ [] then (w.wsl k).curvid + 1
  else (w.wsl k).curvid + (w.wsl k).written

/-- **The bytes of the files**, between the edges `done` and `rest` of
`L`. -/
structure Rows (c : Params) (L done rest : List (EdgeWithValue V)) (log : Log V)
    (w : Walk V) : Prop where
  /-- The row under construction has not been written. -/
  unwritten : (w.wsl w.currentMemoryShard).written = 0
  /-- Each file stands for its rows. -/
  wrote : ∀ k, HoldsRows c L log k (w.wsl k)
  /-- No other file's cursor has passed a later edge of that file. -/
  ready : ∀ k, (k ≠ w.currentMemoryShard ∨ w.pending = []) →
    ∀ a ∈ rest, c.intervals.Mem k a.dst →
      (w.wsl k).curvid + (w.wsl k).written ≤ a.src
  /-- Each file has been taken up to a place where its runs end. -/
  place : ∀ k, Place c L done k (w.reached k)

section Steps

variable {c : Params} {L done rest : List (EdgeWithValue V)} {log : Log V} {w : Walk V}
  {e : EdgeWithValue V} {k j : ℕ}

/-- The walk has not passed the next source. -/
theorem At.curvid_le (h : At c done log w) (hscan : Scan c (done ++ e :: rest)) :
    w.curvid ≤ e.src := by
  rcases h.init_or_last with ⟨-, rfl, -⟩ | ⟨a, -, -, ha, hcur, -⟩
  · exact Nat.zero_le _
  · rw [hcur]
    exact EdgeWithValue.src_le_of_sortKey_le (hscan.le ha)

/-- An edge to another shard is not to come after an in-edge beyond the own
interval. -/
theorem no_out_after (hscan : Scan c (done ++ e :: rest))
    (hk : c.intervals.Mem k e.src) (hlt : c.shard < k) {a : EdgeWithValue V}
    (ha : a ∈ rest) : ¬c.intervals.Mem c.shard a.src := by
  intro hs
  have hle := EdgeWithValue.src_le_of_sortKey_le (hscan.ge ha)
  exact absurd (hk.mono hs hle) (not_le.mpr hlt)

/-- Before the first edge. -/
theorem Placed.init : Placed c [] (Walk.init c : Walk V) where
  right x hx := by simp at hx
  pendSrc a ha := by simp [Walk.init] at ha
  pendDst a ha := by simp [Walk.init] at ha
  cursor h := absurd rfl h

/-- A file starts before its edges. -/
theorem startOf_le (hlegal : Legal c e) (hdst : c.intervals.Mem k e.dst) :
    startOf c k ≤ e.src := by
  unfold startOf
  split
  · exact Nat.zero_le _
  · next hks => exact (hlegal.src_of_dst hdst hks).2.1

theorem Rows.init (hscan : Scan c rest) (L : List (EdgeWithValue V)) :
    Rows c L [] rest [] (Walk.init c : Walk V) where
  unwritten := rfl
  wrote k := wrote_empty not_passed_start
  ready k _ a ha hdst := startOf_le (hscan.legal a ha) hdst
  place k := by
    have hreached : (Walk.init c : Walk V).reached k = startOf c k := by
      unfold reached
      rw [if_neg fun h => h.2 rfl]
      rfl
    rw [hreached]
    exact ⟨le_rfl, Or.inl rfl, fun a ha => absurd ha List.not_mem_nil,
      fun a ha => absurd ha List.not_mem_nil⟩

/-! ## The places of the files -/

/-- A file other than the current one, and any file with nothing pending, is
where its cursor is. -/
theorem reached_of_other (h : k ≠ w.currentMemoryShard ∨ w.pending = []) :
    w.reached k = (w.wsl k).curvid + (w.wsl k).written := by
  unfold reached
  rw [if_neg]
  rintro ⟨hk, hne⟩
  exact h.elim (fun hn => hn hk) fun hnil => hne hnil

/-- The current file is where its cursor is once the pending edges have been
written. -/
theorem reached_current (cap : ℕ) (w : Walk V) :
    w.reached w.currentMemoryShard
      = ((w.wsl w.currentMemoryShard).writePending cap w.pending).curvid
        + ((w.wsl w.currentMemoryShard).writePending cap w.pending).written := by
  by_cases hnil : w.pending = []
  · rw [reached_of_other (Or.inr hnil), hnil, writePending_nil]
  · unfold reached
    rw [if_pos ⟨rfl, hnil⟩, curvid_writePending, written_writePending _ hnil]

/-- A file with one edge pending under its cursor. -/
theorem reached_single (hk : k = w.currentMemoryShard) (hpend : w.pending = [e])
    (hcur : (w.wsl k).curvid = e.src) : w.reached k = e.src + 1 := by
  unfold reached
  rw [if_pos ⟨hk, by rw [hpend]; exact List.cons_ne_nil _ _⟩, hcur]

/-- The last edge taken goes to the current file. -/
theorem Placed.last_dst (hat : At c done log w) (hp : Placed c log w)
    {a : EdgeWithValue V} (hlast : done.getLast? = some a) :
    c.intervals.Mem w.currentMemoryShard a.dst :=
  hp.pendDst a (hat.last a hlast).1

/-- **An edge leaves the places of other files as they are**: of those it
does not go to, only the current one can be left. -/
theorem Rows.place_other (hat : At c done log w) (hscan : Scan c (done ++ e :: rest))
    (hL : L = done ++ e :: rest) (hp : Placed c log w)
    (h : Rows c L done (e :: rest) log w) (hdst : ¬c.intervals.Mem k e.dst)
    (hk : k ≠ w.currentMemoryShard ∨ ¬c.intervals.Mem c.shard e.src) :
    Place c L (done ++ [e]) k (w.reached k) := by
  refine (h.place k).other hscan hL hdst (fun hnil hout => ?_) fun a ha hout hadst => ?_
  · obtain ⟨rfl, -⟩ := hat.fresh hnil
    exact hk.resolve_right fun hn => hn hout
  · exact (hk.resolve_right fun hn => hn hout) (hadst.unique (hp.last_dst hat ha))

/-- An in-edge goes to the main file only. -/
theorem Rows.place_in (hat : At c done log w) (hscan : Scan c (done ++ e :: rest))
    (hL : L = done ++ e :: rest) (hp : Placed c log w)
    (h : Rows c L done (e :: rest) log w) {t : ℕ} (ht : c.intervals.Mem t e.src)
    (hne : t ≠ c.shard) (hk : k ≠ c.shard) :
    Place c L (done ++ [e]) k (w.reached k) :=
  h.place_other hat hscan hL hp
    (fun hdst => hk (hdst.unique (hscan.here.dst_of_src ht hne)))
    (Or.inr fun hs => hne (ht.unique hs))

/-! ## Staying -/

/-- An edge of the row under construction joins it. -/
theorem Placed.stay (h : Placed c log w) {w' : Walk V} (hwsl : w'.wsl = w.wsl)
    (hcms : w'.currentMemoryShard = w.currentMemoryShard)
    (hpend : w'.pending = w.pending ++ [e]) (hcur : w'.curvid = e.src)
    (hsrc : w.pending ≠ [] → e.src = w.curvid)
    (hdst : c.intervals.Mem w.currentMemoryShard e.dst)
    (hcursor : (w.wsl w.currentMemoryShard).curvid = e.src) : Placed c log w' where
  right := h.right
  pendSrc a ha := by
    rw [hpend] at ha
    rw [hcur]
    rcases List.mem_append.mp ha with ha | ha
    · rw [h.pendSrc a ha, hsrc (List.ne_nil_of_mem ha)]
    · rw [List.mem_singleton.mp ha]
  pendDst a ha := by
    rw [hpend] at ha
    rw [hcms]
    rcases List.mem_append.mp ha with ha | ha
    · exact h.pendDst a ha
    · rw [List.mem_singleton.mp ha]
      exact hdst
  cursor _ := by rw [hwsl, hcms, hcur, hcursor]

theorem Rows.stay (hat : At c done log w) (hscan : Scan c (done ++ e :: rest))
    (hL : L = done ++ e :: rest) (hp : Placed c log w)
    (h : Rows c L done (e :: rest) log w) {w' : Walk V} (hwsl : w'.wsl = w.wsl)
    (hcms : w'.currentMemoryShard = w.currentMemoryShard)
    (hpend : w'.pending = w.pending ++ [e])
    (hdst : c.intervals.Mem w.currentMemoryShard e.dst)
    (hcursor : (w.wsl w.currentMemoryShard).curvid = e.src) :
    Rows c L (done ++ [e]) rest log w' where
  unwritten := by rw [hwsl, hcms, h.unwritten]
  wrote k := by rw [hwsl]; exact h.wrote k
  ready k hk a ha hdst := by
    rw [hwsl]
    refine h.ready k ?_ a (List.mem_cons_of_mem _ ha) hdst
    rw [hcms, hpend] at hk
    exact hk.imp_right fun hnil => absurd hnil (by simp)
  place k := by
    by_cases hk : k = w.currentMemoryShard
    · subst hk
      have hreached : w'.reached w.currentMemoryShard = e.src + 1 := by
        unfold reached
        rw [if_pos ⟨hcms.symm, by rw [hpend]; simp⟩, hwsl, hcursor]
      rw [hreached]
      exact place_row hscan hL hdst (startOf_le hscan.here hdst)
    · have hreached : w'.reached k = w.reached k := by
        rw [reached_of_other (Or.inl hk), reached_of_other (Or.inl (by rwa [hcms])), hwsl]
      rw [hreached]
      exact h.place_other hat hscan hL hp (fun hn => hk (hn.unique hdst)) (Or.inl hk)

/-! ## Writing the pending edges to the current file -/

/-- The log after the pending edges have gone to the current file. -/
theorem Placed.right_flush (h : Placed c log w) :
    ∀ x ∈ log ++ Log.writes w.currentMemoryShard w.pending,
      c.intervals.Mem x.1 x.2.dst := by
  intro x hx
  rcases List.mem_append.mp hx with hx | hx
  · exact h.right x hx
  · obtain ⟨hfst, hsnd⟩ := Log.mem_writes.mp hx
    rw [hfst]
    exact h.pendDst _ hsnd

/-- A row of one edge under the cursor is placed. -/
theorem Placed.single {log' : Log V} {w' : Walk V}
    (hright : ∀ x ∈ log', c.intervals.Mem x.1 x.2.dst) (hpend : w'.pending = [e])
    (hcur : w'.curvid = e.src) (hdst : c.intervals.Mem w'.currentMemoryShard e.dst)
    (hcursor : (w'.wsl w'.currentMemoryShard).curvid = e.src) : Placed c log' w' where
  right := hright
  pendSrc a ha := by
    rw [hpend, List.mem_singleton] at ha
    rw [ha, hcur]
  pendDst a ha := by
    rw [hpend, List.mem_singleton] at ha
    rw [ha]
    exact hdst
  cursor _ := by rw [hcursor, hcur]

/-- The current file after the pending edges have been written to it. -/
theorem Rows.flushed (hat : At c done log w) (hscan : Scan c (done ++ rest))
    (hL : L = done ++ rest) (hp : Placed c log w) (h : Rows c L done rest log w) :
    HoldsRows c L (log ++ Log.writes w.currentMemoryShard w.pending) w.currentMemoryShard
      ((w.wsl w.currentMemoryShard).writePending c.compressedBlockSize w.pending) := by
  unfold HoldsRows
  rw [Log.rowsOf_append_writes_self, List.map_append]
  refine (h.wrote _).writePending (hat.fits hscan) fun hne => ?_
  have hsrc : ∀ a ∈ w.pending, a.src = (w.wsl w.currentMemoryShard).curvid := by
    intro a ha
    rw [hp.pendSrc a ha, hp.cursor hne]
  -- the row itself lies at the cursor, so no run passes it
  obtain ⟨a, ha⟩ := List.exists_mem_of_ne_nil _ hne
  have haL : a ∈ L := by
    rw [hL]
    exact List.mem_append_left _ (hat.mem_done_of_pending ha)
  obtain ⟨t, ht⟩ := (hscan.legal a (hL ▸ haL)).src
  refine ⟨h.unwritten, ?_, hsrc, ?_⟩
  · rw [← hsrc a ha]
    exact ht.lt
  · rw [← hsrc a ha]
    exact passed_succ_iff haL (hp.pendDst a ha)

/-- The other files after that. -/
theorem Rows.unflushed (h : Rows c L done rest log w) (hk : k ≠ w.currentMemoryShard) :
    HoldsRows c L (log ++ Log.writes w.currentMemoryShard w.pending) k (w.wsl k) := by
  unfold HoldsRows
  rw [Log.rowsOf_append_writes_of_ne hk]
  exact h.wrote k

/-- The cursor of the current file, once its row is written, is not past a
new source. -/
theorem Rows.flushed_le (hat : At c done log w) (hscan : Scan c (done ++ e :: rest))
    (hp : Placed c log w) (h : Rows c L done (e :: rest) log w) (hsrc : e.src ≠ w.curvid)
    (hfresh : w.pending = [] → c.intervals.Mem w.currentMemoryShard e.dst) :
    ((w.wsl w.currentMemoryShard).writePending c.compressedBlockSize w.pending).curvid
      + ((w.wsl w.currentMemoryShard).writePending c.compressedBlockSize
        w.pending).written ≤ e.src := by
  have hle := hat.curvid_le hscan
  by_cases hnil : w.pending = []
  · rw [hnil, writePending_nil]
    exact h.ready _ (Or.inr hnil) e List.mem_cons_self (hfresh hnil)
  · rw [curvid_writePending, written_writePending _ hnil, hp.cursor hnil]
    omega

/-- Taking the current file on, once its row is written. -/
theorem Rows.cut_current (hscan : Scan c (done ++ e :: rest))
    (hL : L = done ++ e :: rest) (h : Rows c L done (e :: rest) log w)
    (hle : ((w.wsl w.currentMemoryShard).writePending c.compressedBlockSize
        w.pending).curvid
      + ((w.wsl w.currentMemoryShard).writePending c.compressedBlockSize
        w.pending).written ≤ e.src) :
    Passed c L w.currentMemoryShard e.src
      ↔ Passed c L w.currentMemoryShard
          (((w.wsl w.currentMemoryShard).writePending c.compressedBlockSize
              w.pending).curvid
            + ((w.wsl w.currentMemoryShard).writePending c.compressedBlockSize
              w.pending).written)
        ∨ 2 ^ 31 ≤ e.src
          - (((w.wsl w.currentMemoryShard).writePending c.compressedBlockSize
              w.pending).curvid
            + ((w.wsl w.currentMemoryShard).writePending c.compressedBlockSize
              w.pending).written) := by
  have hplace := h.place w.currentMemoryShard
  rw [reached_current c.compressedBlockSize] at hplace
  exact hplace.cut_iff hscan hL hle

/-- Taking another file on. -/
theorem Rows.cut_other (hscan : Scan c (done ++ e :: rest))
    (hL : L = done ++ e :: rest) (h : Rows c L done (e :: rest) log w)
    (hk : k ≠ w.currentMemoryShard ∨ w.pending = [])
    (hle : (w.wsl k).curvid + (w.wsl k).written ≤ e.src) :
    Passed c L k e.src
      ↔ Passed c L k ((w.wsl k).curvid + (w.wsl k).written)
        ∨ 2 ^ 31 ≤ e.src - ((w.wsl k).curvid + (w.wsl k).written) := by
  have hplace := h.place k
  rw [reached_of_other hk] at hplace
  exact hplace.cut_iff hscan hL hle

/-! ## In-edges -/

/-- Moving the main file on, when it is the current one or nothing is
pending. -/
theorem Rows.inMove (hat : At c done log w) (hscan : Scan c (done ++ e :: rest))
    (hL : L = done ++ e :: rest) (hp : Placed c log w)
    (h : Rows c L done (e :: rest) log w) (hk : c.intervals.Mem k e.src)
    (hne : k ≠ c.shard) (hcms : w.currentMemoryShard = c.shard ∨ w.pending = [])
    (hsrc : e.src ≠ w.curvid) :
    Rows c L (done ++ [e]) rest (log ++ Log.writes c.shard w.pending)
      { w with
        wsl := Function.update w.wsl c.shard
          (((w.wsl c.shard).writePending c.compressedBlockSize w.pending).moveTo
            c.compressedBlockSize e.src)
        currentSlidingShard := some k
        currentMemoryShard := c.shard
        curvid := e.src
        pending := [e]
        i := w.i + 1 } where
  unwritten := by simp
  wrote := by
    have hdst := hscan.here.dst_of_src hk hne
    -- the main file is behind the vertex: as what is pending is flushed, or by the
    -- invariant
    rcases hcms with hcms | hnil
    · have hflushed := h.flushed hat hscan hL hp
      have hle := h.flushed_le hat hscan hp hsrc (fun _ => hcms ▸ hdst)
      have hcut := h.cut_current hscan hL hle
      rw [hcms] at hflushed hle hcut
      refine At.forall_update (P := HoldsRows c L _)
        (hflushed.moveTo hk.lt hle hcut) fun k hk => ?_
      have := h.unflushed (hcms ▸ hk)
      rwa [hcms] at this
    · have hle := h.ready c.shard (Or.inr hnil) e List.mem_cons_self hdst
      rw [hnil, Log.writes_nil, List.append_nil, writePending_nil]
      exact At.forall_update (P := HoldsRows c L _) ((h.wrote c.shard).moveTo hk.lt hle
        (h.cut_other hscan hL (Or.inr hnil) hle)) fun k _ => h.wrote k
  ready k hk a ha hdst' := by
    have hk' : k ≠ c.shard := by simpa using hk
    show (Function.update w.wsl c.shard _ k).curvid
      + (Function.update w.wsl c.shard _ k).written ≤ a.src
    rw [Function.update_of_ne hk']
    refine h.ready k ?_ a (List.mem_cons_of_mem _ ha) hdst'
    rcases hcms with hcms | hnil
    · exact Or.inl (hcms ▸ hk')
    · exact Or.inr hnil
  place t := by
    have hdst := hscan.here.dst_of_src hk hne
    -- the row of the main file begins now; the others are where they were
    by_cases ht : t = c.shard
    · subst ht
      rw [reached_single rfl rfl (by simp)]
      exact place_row hscan hL hdst (startOf_le hscan.here hdst)
    · have hplace := h.place_in hat hscan hL hp hk hne ht
      rw [reached_of_other (hcms.imp_left fun hs => hs ▸ ht)] at hplace
      rw [reached_of_other (Or.inl ht)]
      show Place c L _ t ((Function.update w.wsl c.shard _ t).curvid
        + (Function.update w.wsl c.shard _ t).written)
      rwa [Function.update_of_ne ht]

/-- Leaving the out-edges' file for the main one. -/
theorem Rows.inLeave (hat : At c done log w) (hscan : Scan c (done ++ e :: rest))
    (hL : L = done ++ e :: rest) (hp : Placed c log w)
    (h : Rows c L done (e :: rest) log w)
    (hk : c.intervals.Mem (c.shard + 1) e.src) (hpend : w.pending ≠ [])
    (hsrc : e.src ≠ w.curvid) :
    Rows c L (done ++ [e]) rest (log ++ Log.writes w.currentMemoryShard w.pending)
      { w with
        wsl :=
          let wsl := Function.update w.wsl w.currentMemoryShard
            ((w.wsl w.currentMemoryShard).writePending c.compressedBlockSize w.pending)
          Function.update wsl c.shard
            ((wsl c.shard).moveTo c.compressedBlockSize e.src)
        currentSlidingShard := some (c.shard + 1)
        currentMemoryShard := c.shard
        curvid := e.src
        willout := false
        pending := [e]
        i := w.i + 1 } where
  unwritten := by simp
  wrote := by
    have hdst := hscan.here.dst_of_src hk (Nat.succ_ne_self _)
    have hflushed : ∀ k, HoldsRows c L (log ++ Log.writes w.currentMemoryShard w.pending) k
        (Function.update w.wsl w.currentMemoryShard ((w.wsl
          w.currentMemoryShard).writePending c.compressedBlockSize w.pending) k) :=
      At.forall_update (P := HoldsRows c L _) (h.flushed hat hscan hL hp)
        fun k hk => h.unflushed hk
    refine At.forall_update (P := HoldsRows c L _) ?_ fun k _ => hflushed k
    have hmain := hflushed c.shard
    -- the pending row may be one of the main file itself
    by_cases hcms : c.shard = w.currentMemoryShard
    · have hle := h.flushed_le hat hscan hp hsrc fun hnil => absurd hnil hpend
      have hcut := h.cut_current hscan hL hle
      rw [hcms, Function.update_self] at hmain ⊢
      exact hmain.moveTo hk.lt hle hcut
    · have hle := h.ready _ (Or.inl hcms) e List.mem_cons_self hdst
      rw [Function.update_of_ne hcms] at hmain ⊢
      exact hmain.moveTo hk.lt hle (h.cut_other hscan hL (Or.inl hcms) hle)
  ready k hk' a ha hdst' := by
    have hks : k ≠ c.shard := by simpa using hk'
    -- beyond the own interval no out-edge comes any more
    have hlegal := hscan.legal a (List.mem_append_right _ (List.mem_cons_of_mem _ ha))
    exact absurd (hlegal.src_of_dst hdst' hks)
      (no_out_after hscan hk (Nat.lt_succ_self _) ha)
  place t := by
    have hdst := hscan.here.dst_of_src hk (Nat.succ_ne_self _)
    by_cases ht : t = c.shard
    · subst ht
      rw [reached_single rfl rfl (by simp)]
      exact place_row hscan hL hdst (startOf_le hscan.here hdst)
    · have hplace := h.place_in hat hscan hL hp hk (Nat.succ_ne_self _) ht
      rw [reached_of_other (Or.inl ht)]
      dsimp only
      rw [Function.update_of_ne ht]
      by_cases htc : t = w.currentMemoryShard
      · subst htc
        rwa [Function.update_self, ← reached_current]
      · rwa [Function.update_of_ne htc, ← reached_of_other (Or.inl htc)]

/-! ## Out-edges -/

/-- The file that a switch leaves. -/
def leftFile (c : Params) (w : Walk V) (src : ℕ) : WriteSliding :=
  ((w.wsl w.currentMemoryShard).writePending c.compressedBlockSize w.pending).switchTo
    c.compressedBlockSize src w.i

/-- A switch within the current file. -/
theorem switched_self (c : Params) (w : Walk V) (src : ℕ) :
    w.switched c w.currentMemoryShard src
      = Function.update w.wsl w.currentMemoryShard (leftFile c w src) := by
  unfold switched
  rw [if_pos]
  · rfl
  · rw [Function.update_self, curvid_switchTo]

/-- A switch to another file moves the cursor of that file too, unless it
is there. -/
theorem switched_of_ne (hj : j ≠ w.currentMemoryShard) (src : ℕ) :
    w.switched c j src
      = Function.update (Function.update w.wsl w.currentMemoryShard (leftFile c w src)) j
          (if src = (w.wsl j).curvid then w.wsl j
            else (w.wsl j).switchTo c.compressedBlockSize src w.i) := by
  unfold switched
  dsimp only
  rw [Function.update_of_ne hj]
  split
  · rw [← Function.update_of_ne hj (leftFile c w src) w.wsl, Function.update_eq_self]
    rfl
  · rfl

/-- A switch leaves the new file's cursor on the source. -/
theorem curvid_switched (c : Params) (w : Walk V) (j src : ℕ) :
    (w.switched c j src j).curvid = src := by
  by_cases hj : j = w.currentMemoryShard
  · subst hj
    rw [switched_self, Function.update_self]
    rfl
  · rw [switched_of_ne hj, Function.update_self]
    split
    · next h => exact h.symm
    · rfl

/-- An out-edge is not before the place of the current file, whose row, if
any, is written: the file has it, or moves on to the edge's source. -/
theorem Rows.flushed_cases (hat : At c done log w) (hscan : Scan c (done ++ e :: rest))
    (hp : Placed c log w) (h : Rows c L done (e :: rest) log w)
    (hk : c.intervals.Mem c.shard e.src) :
    (w.pending ≠ [] ∧ e.src = w.curvid)
      ∨ ((w.wsl w.currentMemoryShard).writePending c.compressedBlockSize
            w.pending).curvid
          + ((w.wsl w.currentMemoryShard).writePending c.compressedBlockSize
            w.pending).written ≤ e.src
        ∧ (w.i = 0 ∨ ((w.wsl w.currentMemoryShard).writePending c.compressedBlockSize
            w.pending).curvid ≠ e.src) := by
  rcases hat.init_or_last with ⟨rfl, rfl, rfl⟩ | ⟨a, -, hpend, -, -, -⟩
  · -- nothing is pending: the first edge moves the cursor from its start
    refine Or.inr ⟨?_, Or.inl rfl⟩
    have hstart : startOf c 0 ≤ e.src := by
      unfold startOf
      split
      · exact Nat.zero_le _
      · exact hk.2.1
    exact hstart
  · have hne : w.pending ≠ [] := List.ne_nil_of_mem hpend
    by_cases hsrc : e.src = w.curvid
    · exact Or.inl ⟨hne, hsrc⟩
    · refine Or.inr ⟨h.flushed_le hat hscan hp hsrc fun hnil => absurd hnil hne, Or.inr ?_⟩
      rw [curvid_writePending, hp.cursor hne]
      exact fun hcur => hsrc hcur.symm

/-- Leaving the current file: its rows stay right, and the row under its
cursor counts as written only if the source stays the same. -/
theorem Rows.leftFile (hat : At c done log w) (hscan : Scan c (done ++ e :: rest))
    (hL : L = done ++ e :: rest) (hp : Placed c log w)
    (h : Rows c L done (e :: rest) log w) (hk : c.intervals.Mem c.shard e.src) :
    HoldsRows c L (log ++ Log.writes w.currentMemoryShard w.pending) w.currentMemoryShard
        (leftFile c w e.src)
      ∧ ((leftFile c w e.src).written = 0 ∧ w.reached w.currentMemoryShard ≤ e.src
        ∨ (leftFile c w e.src).written = 1 ∧ w.pending ≠ [] ∧ e.src = w.curvid) := by
  have hflushed := h.flushed hat hscan hL hp
  rcases h.flushed_cases hat hscan hp hk with ⟨hne, hsrc⟩ | ⟨hle, hcur⟩
  · have hi : w.i ≠ 0 := by
      rw [hat.pos]
      obtain ⟨a, ha⟩ := List.exists_mem_of_ne_nil _ hne
      exact (List.length_pos_of_mem (hat.mem_done_of_pending ha)).ne'
    have hcur : ((w.wsl w.currentMemoryShard).writePending c.compressedBlockSize
        w.pending).curvid = w.curvid := by
      rw [curvid_writePending, hp.cursor hne]
    have hwritten := written_writePending c.compressedBlockSize hne
      (w.wsl w.currentMemoryShard)
    have hleft := hflushed.switchTo_of_eq c.compressedBlockSize
      (hcur.trans hsrc.symm) hwritten hi
    exact ⟨hleft.1, Or.inr ⟨hleft.2, hne, hsrc⟩⟩
  · have hleft := hflushed.switchTo_of_ne c.compressedBlockSize hk.lt hle
      (h.cut_current hscan hL hle) hcur
    refine ⟨hleft.1, Or.inl ⟨hleft.2, ?_⟩⟩
    rwa [reached_current c.compressedBlockSize]

/-- An out-edge to another file than the current one leaves the latter. -/
theorem Placed.leaving (hat : At c done log w) (hscan : Scan c (done ++ e :: rest))
    (hL : L = done ++ e :: rest) (hp : Placed c log w)
    (hk : c.intervals.Mem c.shard e.src)
    (hdst : ¬c.intervals.Mem w.currentMemoryShard e.dst) :
    Leaving c L w.currentMemoryShard e := by
  rcases hat.init_or_last with ⟨rfl, rfl, rfl⟩ | ⟨a, hlast, -⟩
  · exact leaving_of_first hscan hL hk hdst
  · exact leaving_of_last hscan hL hk hdst hlast (hp.last_dst hat hlast)

/-- The place of the file that a switch leaves. -/
theorem Rows.place_left (hat : At c done log w) (hscan : Scan c (done ++ e :: rest))
    (hL : L = done ++ e :: rest) (hp : Placed c log w)
    (h : Rows c L done (e :: rest) log w) (hk : c.intervals.Mem c.shard e.src)
    (hdst : ¬c.intervals.Mem w.currentMemoryShard e.dst) :
    Place c L (done ++ [e]) w.currentMemoryShard
      ((Walk.leftFile c w e.src).curvid + (Walk.leftFile c w e.src).written) := by
  have hplace := h.place w.currentMemoryShard
  show Place c L _ _ (e.src + (Walk.leftFile c w e.src).written)
  rcases (h.leftFile hat hscan hL hp hk).2 with ⟨hw, hle⟩ | ⟨hw, hne, hsrc⟩
  · rw [hw]
    exact hplace.leave hscan hL (hp.leaving hat hscan hL hk hdst) hle
  · have hreached : w.reached w.currentMemoryShard = e.src + 1 := by
      unfold reached
      rw [if_pos ⟨rfl, hne⟩, hp.cursor hne, hsrc]
    rw [hreached] at hplace
    rw [hw]
    exact hplace.stay hdst (Nat.le_succ _)

/-- Among sorted edges of one source, a file is not met again after
another. -/
theorem no_return (hscan : Scan c (done ++ e :: rest)) {a b : EdgeWithValue V} {t : ℕ}
    (ha : a ∈ done) (hb : b ∈ rest) (hta : c.intervals.Mem t a.dst)
    (hj : c.intervals.Mem j e.dst) (htb : c.intervals.Mem t b.dst)
    (hae : a.src = e.src) (heb : e.src = b.src) : j = t := by
  have h1 := EdgeWithValue.dst_le_of_sortKey_le (hscan.le ha) hae
  have h2 := EdgeWithValue.dst_le_of_sortKey_le (hscan.ge hb) heb
  exact le_antisymm (hj.mono htb h2) (hta.mono hj h1)

/-- The file that a switch goes to, with its cursor on the source. -/
theorem Rows.enteredFile (hscan : Scan c (done ++ e :: rest))
    (hL : L = done ++ e :: rest) (h : Rows c L done (e :: rest) log w)
    (hk : c.intervals.Mem c.shard e.src) (hj : c.intervals.Mem j e.dst)
    (hjc : j ≠ w.currentMemoryShard) :
    HoldsRows c L (log ++ Log.writes w.currentMemoryShard w.pending) j
        (if e.src = (w.wsl j).curvid then w.wsl j
          else (w.wsl j).switchTo c.compressedBlockSize e.src w.i)
      ∧ (if e.src = (w.wsl j).curvid then w.wsl j
          else (w.wsl j).switchTo c.compressedBlockSize e.src w.i).written = 0 := by
  have hready := h.ready j (Or.inl hjc) e List.mem_cons_self hj
  split
  · next hsrc => exact ⟨h.unflushed hjc, by omega⟩
  · next hsrc =>
    exact (h.unflushed hjc).switchTo_of_ne _ hk.lt hready
      (h.cut_other hscan hL (Or.inl hjc) hready) (Or.inr fun h => hsrc h.symm)

/-- **Switching files keeps the bytes right**: the pending row is written to its
file, and the file that becomes current is moved on to the vertex. -/
theorem Rows.outSwitch (hat : At c done log w) (hscan : Scan c (done ++ e :: rest))
    (hL : L = done ++ e :: rest) (hp : Placed c log w)
    (h : Rows c L done (e :: rest) log w)
    (hk : c.intervals.Mem c.shard e.src) (hj : c.intervals.Mem j e.dst)
    (hplace : ¬(w.currentMemoryShard = j ∧ e.src = (w.wsl j).curvid)) :
    Rows c L (done ++ [e]) rest (log ++ Log.writes w.currentMemoryShard w.pending)
      { w with
        wsl := w.switched c j e.src
        currentSlidingShard := some c.shard
        currentMemoryShard := j
        curvid := e.src
        willout := true
        index := j
        pending := [e]
        i := w.i + 1 } := by
  obtain ⟨hleft, hwritten⟩ := h.leftFile hat hscan hL hp hk
  have hleftAll : ∀ k, HoldsRows c L (log ++ Log.writes w.currentMemoryShard w.pending) k
      (Function.update w.wsl w.currentMemoryShard (Walk.leftFile c w e.src) k) :=
    At.forall_update (P := HoldsRows c L _) hleft fun k hk => h.unflushed hk
  have hplaceJ : Place c L (done ++ [e]) j (e.src + 1) :=
    place_row hscan hL hj (startOf_le hscan.here hj)
  by_cases hjc : j = w.currentMemoryShard
  · subst hjc
    have hzero : (Walk.leftFile c w e.src).written = 0 := by
      rcases hwritten with ⟨hw, -⟩ | ⟨-, hne, hsrc⟩
      · exact hw
      · exact absurd ⟨rfl, hsrc.trans (hp.cursor hne).symm⟩ hplace
    constructor
    · show (w.switched c w.currentMemoryShard e.src w.currentMemoryShard).written = 0
      rw [switched_self, Function.update_self, hzero]
    · rw [switched_self]
      exact hleftAll
    · intro k hk' a ha hdst
      have hkc : k ≠ w.currentMemoryShard := by simpa using hk'
      show (w.switched c w.currentMemoryShard e.src k).curvid
        + (w.switched c w.currentMemoryShard e.src k).written ≤ a.src
      rw [switched_self, Function.update_of_ne hkc]
      exact h.ready k (Or.inl hkc) a (List.mem_cons_of_mem _ ha) hdst
    · intro k
      by_cases hkc : k = w.currentMemoryShard
      · subst hkc
        rwa [reached_single rfl rfl (curvid_switched c w _ _)]
      · have hother := h.place_other hat hscan hL hp
          (fun hdst => hkc (hdst.unique hj)) (Or.inl hkc)
        rw [reached_of_other (Or.inl hkc)] at hother
        rw [reached_of_other]
        · dsimp only
          rwa [switched_self, Function.update_of_ne hkc]
        · exact Or.inl hkc
  · have hfile := h.enteredFile hscan hL hk hj hjc
    constructor
    · show (w.switched c j e.src j).written = 0
      rw [switched_of_ne hjc, Function.update_self, hfile.2]
    · rw [switched_of_ne hjc]
      exact At.forall_update (P := HoldsRows c L _) hfile.1 fun k _ => hleftAll k
    · intro k hk' a ha hdst
      have hkj : k ≠ j := by simpa using hk'
      have hsrc := EdgeWithValue.src_le_of_sortKey_le (hscan.ge ha)
      show (w.switched c j e.src k).curvid + (w.switched c j e.src k).written ≤ a.src
      rw [switched_of_ne hjc, Function.update_of_ne hkj]
      by_cases hkc : k = w.currentMemoryShard
      · rw [hkc, Function.update_self]
        show e.src + _ ≤ a.src
        rcases hwritten with ⟨hw, -⟩ | ⟨hw, hne, hcur⟩
        · rw [hw]
          exact hsrc
        · -- the row of the left file is written, and its edges do not come again
          rw [hw]
          obtain ⟨b, hb⟩ := List.exists_mem_of_ne_nil _ hne
          by_contra hlt'
          exact hjc (no_return hscan (hat.mem_done_of_pending hb) ha (hp.pendDst b hb) hj
            (hkc ▸ hdst) ((hp.pendSrc b hb).trans hcur.symm) (by omega))
      · rw [Function.update_of_ne hkc]
        exact h.ready k (Or.inl hkc) a (List.mem_cons_of_mem _ ha) hdst
    · intro k
      by_cases hkj : k = j
      · subst hkj
        rwa [reached_single rfl rfl (curvid_switched c w _ _)]
      · have hdst : ¬c.intervals.Mem k e.dst := fun hdst => hkj (hdst.unique hj)
        rw [reached_of_other (Or.inl hkj)]
        dsimp only
        rw [switched_of_ne hjc, Function.update_of_ne hkj]
        by_cases hkc : k = w.currentMemoryShard
        · subst hkc
          rw [Function.update_self]
          exact h.place_left hat hscan hL hp hk hdst
        · have hother := h.place_other hat hscan hL hp hdst (Or.inl hkc)
          rw [reached_of_other (Or.inl hkc)] at hother
          rwa [Function.update_of_ne hkc]

end Steps

end Reshard.Walk
