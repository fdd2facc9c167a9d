import Mathlib
import DpdkGraph.ReshardOutcome

/-!
# The files of a shard

What the stopper does to a walk in each mode gives an `Ending`: what the
adjacency files stand for once all buffers are flushed. The value files are
simpler. They follow the sliding shard and the shard of the destination
only, so in every run that completes, the `.in` file of a source shard has
the values of its in-edges, and the `.out` file of a destination shard those
of its out-edges, in the order of the sorted edges.

`reshard_ending` puts the parts together for the whole call.
-/

namespace Reshard

open SparseRows

variable {V : Type}

/-! ## The stopper -/

/-- Bytes that stand for the pairs `l`, counted from `start`. -/
def Reads (start : ℕ) (l : List (ℕ × ℕ)) (bytes : List UInt8) : Prop :=
  ∃ its : List Item, (∀ it ∈ its, it.Valid) ∧ bytes = encode its ∧ expand start its = l

/-- Bytes that stand for the pairs `l` up to the runs that are cut. -/
def ReadsUpTo (cut : ℕ → Prop) (start : ℕ) (l : List (ℕ × ℕ)) (bytes : List UInt8) : Prop :=
  ∃ its : List Item, (∀ it ∈ its, it.Valid) ∧ bytes = encode its
    ∧ ReadAs cut (expand start its) l

theorem WriteSliding.Wrote.reads {x : WriteSliding} {start : ℕ} {cut : ℕ → Prop}
    {l : List (ℕ × ℕ)} (h : x.Wrote start cut l) :
    ReadsUpTo cut start l x.s.contents := by
  obtain ⟨its, hv, hbytes, hread, -⟩ := h
  exact ⟨its, hv, hbytes, hread⟩

/-- Without a cut in front of a row, they stand for `l`. -/
theorem ReadsUpTo.reads {cut : ℕ → Prop} {start : ℕ} {l : List (ℕ × ℕ)}
    {bytes : List UInt8} (h : ReadsUpTo cut start l bytes) (hcut : ∀ q ∈ l, ¬cut q.1) :
    Reads start l bytes := by
  obtain ⟨its, hv, hbytes, hread⟩ := h
  exact ⟨its, hv, hbytes, hread.same hcut⟩

/-- **What the adjacency files stand for at the end**, with the log of all
rows. -/
inductive Ending (c : Params) (L : List (EdgeWithValue V)) (log : Log V)
    (wsl : ℕ → WriteSliding) : Prop
  /-- Every edge is in its file. -/
  | right (noZeroHead : ¬ZeroHead c L) (noJump : ¬Jump c L)
      (right : ∀ x ∈ log, c.intervals.Mem x.1 x.2.dst)
      (reads : ∀ k, ReadsUpTo (Passed c L k) (startOf c k)
        ((log.rowsOf k).map EdgeWithValue.ends) (wsl k).s.contents)
  /-- The edges from vertex 0, or edges to shard 0, are not. -/
  | spoiled (zeroHead : ZeroHead c L) (noOther : ¬OtherOut c L)
      (wrong : (∃ x ∈ log, x.1 = 0 ∧ c.intervals.Mem c.shard x.2.dst) ∧ HeldRow c (wsl 0)
        ∨ ∃ x ∈ log, x.1 = c.shard ∧ c.intervals.Mem 0 x.2.dst)
      (files : ∀ x ∈ log, x.1 = 0 ∨ x.1 = c.shard)
      (empty : ∀ k, k ≠ 0 → k ≠ c.shard → (wsl k).s.contents = [])
  /-- The last out-edges are not. -/
  | jumped (noZeroHead : ¬ZeroHead c L) (jump : Jump c L)
      (wrong : ∃ l, LastOut c L l ∧ ¬c.intervals.Mem c.shard l.dst ∧ (c.shard, l) ∈ log
        ∧ ∀ x ∈ log, c.intervals.Mem x.1 x.2.dst
          ∨ x.1 = c.shard ∧ ∀ k, c.intervals.Mem k x.2.dst → c.intervals.Mem k l.dst)
      (reads : ∀ k, k ≠ c.shard → ReadsUpTo (Passed c L k) (startOf c k)
        ((log.rowsOf k).map EdgeWithValue.ends) (wsl k).s.contents)

section Stop

variable {c : Params} {L : List (EdgeWithValue V)} {log : Log V} {w : Walk V}

/-- The stopper writes the pending edges to the current file. -/
theorem Walk.contents_stop (c : Params) (w : Walk V) (k : ℕ) :
    ((w.stop c).wsl k).s.contents
      = (Function.update w.wsl w.currentMemoryShard
          ((w.wsl w.currentMemoryShard).writePending c.compressedBlockSize
            w.pending) k).s.contents := by
  unfold stop
  split
  · next hnil =>
    rw [hnil, WriteSliding.writePending_nil, Function.update_eq_self]
  · next hne =>
    unfold onFile WriteSliding.writePending
    rw [if_neg hne]
    by_cases hk : k = w.currentMemoryShard
    · subst hk
      simp only [Function.update_self]
    · simp only [Function.update_of_ne hk]

theorem Walk.contents_stop_of_ne {k : ℕ} (hk : k ≠ w.currentMemoryShard) :
    ((w.stop c).wsl k).s.contents = (w.wsl k).s.contents := by
  rw [Walk.contents_stop, Function.update_of_ne hk]

/-- **The end of a walk**: what is pending is flushed, and the files are right,
or one of the two slips shows in them. -/
theorem Mode.ending (hscan : Scan c L) (hat : w.At c L log) (h : Mode c L [] log w) :
    ∃ log', log'.map Prod.snd = L
      ∧ (∀ k, ((w.stop c).wsl k).Carries ((log'.rowsOf k).map EdgeWithValue.dst))
      ∧ Ending c L log' (w.stop c).wsl := by
  have hscan' : Scan c (L ++ []) := by rwa [List.append_nil]
  refine ⟨log ++ Log.writes w.currentMemoryShard w.pending, ?_, fun k => ?_, ?_⟩
  · rw [List.map_append, Log.map_snd_writes, hat.split]
  · have hflush := hat.carries_flush hscan' w.currentMemoryShard (f := id)
      (fun x ds hx => hx) k
    unfold WriteSliding.Carries at hflush ⊢
    rw [Walk.contents_stop]
    exact hflush
  · -- what is pending goes out now, and everything has been in order
    cases h with
    | sound h =>
      refine .right h.noZeroHead h.noJump h.placed.right_flush fun k => ?_
      have hall := Walk.At.forall_update (P := Walk.HoldsRows c (L ++ []) _)
        (h.rows.flushed hat hscan' rfl h.placed) (fun k hk => h.rows.unflushed hk) k
      rw [List.append_nil] at hall
      rw [Walk.contents_stop]
      exact hall.reads
    -- nothing is written yet: the edges from vertex 0 go to a wrong place now
    | held h =>
      have hpendEq := h.pending_eq hat
      obtain ⟨a, ha, hzero⟩ := h.zero
      rw [h.log, List.nil_append, hpendEq, h.current]
      refine .spoiled ⟨h.shard, h.zero, h.bounds, ?_⟩ h.not_otherOut
        (Or.inl ⟨⟨(0, a), Log.mem_writes.mpr ⟨rfl, ha⟩, rfl,
          h.dst_of_zero hscan' ha hzero⟩, ?_⟩)
        (fun x hx => Or.inl (Log.mem_writes.mp hx).1) fun k hk0 _ => ?_
      · by_cases hout : ∃ e ∈ L, c.intervals.Mem c.shard e.src
        · exact Or.inl hout
        · exact Or.inr fun b hb => (h.others b hb).resolve_right fun hs => hout ⟨b, hb, hs.1⟩
      · have hrow := h.row hat hscan'
        unfold HeldRow at hrow ⊢
        rw [Walk.contents_stop, h.current, Function.update_self]
        exact hrow
      · rw [Walk.contents_stop_of_ne (by rw [h.current]; exact hk0), h.wsl]
        rfl
    -- something is misplaced already, and stays so
    | spoiled h =>
      refine .spoiled h.zeroHead h.noOther ?_ ?_ fun k hk0 hks => ?_
      · refine h.wrong.imp ?_ fun ⟨x, hx, hbad⟩ => ⟨x, List.mem_append_left _ hx, hbad⟩
        rintro ⟨⟨x, hx, hbad⟩, hrow⟩
        refine ⟨⟨x, List.mem_append_left _ hx, hbad⟩, ?_⟩
        unfold HeldRow at hrow ⊢
        rw [Walk.contents_stop_of_ne (by rw [h.beyond.current]; exact h.zeroHead.1.symm)]
        exact hrow
      · intro x hx
        rcases List.mem_append.mp hx with hx | hx
        · exact h.files x hx
        · exact Or.inr ((Log.mem_writes.mp hx).1.trans h.beyond.current)
      · rw [Walk.contents_stop_of_ne (by rw [h.beyond.current]; exact hks), h.wsl k hk0 hks]
        rfl
    -- the last out-edges are misplaced already, and stay so
    | jumped h =>
      obtain ⟨l, hl, hbad, hmem, hothers⟩ := h.wrong
      refine .jumped h.noZeroHead h.jump
        ⟨l, hl, hbad, List.mem_append_left _ hmem, fun x hx => ?_⟩ fun k hk => ?_
      · rcases List.mem_append.mp hx with hx | hx
        · exact hothers x hx
        · obtain ⟨hfst, hsnd⟩ := Log.mem_writes.mp hx
          rw [hfst, h.beyond.current]
          exact Or.inl (h.pendDst _ hsnd)
      · have hk' : k ≠ w.currentMemoryShard := by rwa [h.beyond.current]
        rw [Walk.contents_stop_of_ne hk', Log.rowsOf_append_writes_of_ne hk']
        have hwrote := h.wrote k hk
        rw [List.append_nil] at hwrote
        exact hwrote.reads

end Stop

/-! ## The value files -/

/-- The values of the edges that satisfy `P`, in order. -/
def valuesOf (P : EdgeWithValue V → Prop) [DecidablePred P]
    (L : List (EdgeWithValue V)) : List V :=
  (L.filter fun e => decide (P e)).map EdgeWithValue.value

theorem valuesOf_append_singleton (P : EdgeWithValue V → Prop) [DecidablePred P]
    (L : List (EdgeWithValue V)) (e : EdgeWithValue V) :
    valuesOf P (L ++ [e]) = valuesOf P L ++ if P e then [e.value] else [] := by
  unfold valuesOf
  rw [List.filter_append, List.map_append]
  by_cases h : P e
  · simp [h]
  · simp [h]

/-- **The value files after the edges `done`.** They are written edge by edge,
without regard to the rows, so that none of the slips touches them. -/
structure Values.Follow (c : Params) (done : List (EdgeWithValue V))
    (vals : Values V) : Prop where
  /-- The values of the in-edges, by the shard of their source. -/
  incoming : ∀ k, k ≠ c.shard →
    (vals.eBuff0 k).contents = valuesOf (fun e => c.intervals.Mem k e.src) done
  /-- The values of the out-edges, by the shard of their destination. -/
  outgoing : ∀ k, (vals.eBuff1 k).contents = valuesOf (fun e =>
    c.intervals.Mem c.shard e.src ∧ c.intervals.Mem k e.dst) done

section ValueFiles

variable {c : Params} {done rest : List (EdgeWithValue V)} {log log' : Log V}
  {w w' : Walk V} {e : EdgeWithValue V}

theorem Values.Follow.init : Values.Follow c [] (Values.init : Values V) where
  incoming _ _ := rfl
  outgoing _ := rfl

/-- Each edge adds its value to one file. -/
theorem Values.Follow.put {vals : Values V} (h : vals.Follow c done)
    (hat : w'.At c (done ++ [e]) log') :
    (vals.put c w' e.value).Follow c (done ++ [e]) := by
  have hlast : (done ++ [e]).getLast? = some e := by simp
  obtain ⟨-, -, k, hk, hmem⟩ := hat.last e hlast
  unfold Values.put
  rw [hk]
  dsimp only
  -- an out-edge: to the block of the interval it goes to
  by_cases hks : k = c.shard
  · subst hks
    have haim := hat.aim e hlast hk
    rw [if_neg (fun hn => hn rfl)]
    constructor
    · intro j hj
      rw [valuesOf_append_singleton, if_neg (fun hj' => hj (hj'.unique hmem)),
        List.append_nil]
      exact h.incoming j hj
    · intro j
      rw [valuesOf_append_singleton]
      show (Function.update vals.eBuff1 w'.index _ j).contents = _
      by_cases hj : j = w'.index
      · subst hj
        rw [Function.update_self, if_pos ⟨hmem, haim⟩, ← h.outgoing]
        exact BufferedFile.contents_put _ _ _ _ _
      · rw [Function.update_of_ne hj, if_neg (fun hj' => hj (hj'.2.unique haim)),
          List.append_nil, h.outgoing]
  · -- an in-edge: to the block of the interval it comes from
    rw [if_pos hks]
    constructor
    · intro j hj
      rw [valuesOf_append_singleton]
      show (Function.update vals.eBuff0 k _ j).contents = _
      by_cases hjk : j = k
      · subst hjk
        rw [Function.update_self, if_pos hmem, ← h.incoming j hj]
        exact BufferedFile.contents_put _ _ _ _ _
      · rw [Function.update_of_ne hjk, if_neg (fun hj' => hjk (hj'.unique hmem)),
          List.append_nil, h.incoming j hj]
    · intro j
      rw [valuesOf_append_singleton, if_neg (fun hj => hks (hmem.unique hj.1)),
        List.append_nil]
      exact h.outgoing j

/-- The walk of a run is the run of the walk. -/
theorem State.run_toWalk (st : State V) (es : List (EdgeWithValue V)) :
    (st.run c es).map State.toWalk = st.toWalk.run c es := by
  induction es generalizing st with
  | nil => rfl
  | cons e es ih =>
    rw [State.run, Walk.run, State.step]
    rcases st.toWalk.step c e with _ | w
    · rfl
    · exact ih _

/-- A run that completes leaves the value files as the edges have it. -/
theorem State.run_follow {st st' : State V} (hscan : Scan c (done ++ rest))
    (hat : st.toWalk.At c done log) (hmode : Mode c done rest log st.toWalk)
    (h : st.toValues.Follow c done) (hrun : st.run c rest = some st') :
    st'.toValues.Follow c (done ++ rest) := by
  induction rest generalizing done log st with
  | nil =>
    obtain rfl : st = st' := Option.some.inj hrun
    rwa [List.append_nil]
  | cons e rest ih =>
    have happend : done ++ e :: rest = (done ++ [e]) ++ rest := by simp
    rcases hmode.step hat hscan with ⟨w', log', hstep, hat', hmode'⟩ | ⟨hstep, -⟩
    · rw [State.run, State.step, hstep, Option.map_some, Option.bind_some] at hrun
      rw [happend]
      refine ih (by rw [← happend]; exact hscan) hat' hmode' ?_ hrun
      rw [hscan.here.stopper]
      exact h.put hat'
    · rw [State.run, State.step, hstep] at hrun
      simp at hrun

/-- A run from the start. -/
theorem State.run_init {L : List (EdgeWithValue V)} (hscan : Scan c L) {st : State V}
    (hrun : (State.init c).run c L = some st) : st.toValues.Follow c L := by
  have hscan' : Scan c ([] ++ L) := hscan
  exact State.run_follow hscan' .init (.sound (.init hscan)) .init hrun

end ValueFiles

/-! ## The whole call -/

/-- The edges that the sharder hands to a shard. -/
structure ShardEdges (c : Params) (V : Type) where
  /-- The edges. -/
  edges : List (EdgeWithValue V)
  /-- Each of them reaches the shard. -/
  legal : ∀ e ∈ edges, Legal c e

/-- Edges that the sort counts with an `int`. -/
def FewEdges (L : List (EdgeWithValue V)) : Prop := L.length < 2 ^ 31

section Whole

variable {c : Params}

/-- A short list is sorted as a whole. -/
theorem sortEdges_eq (rand : ℕ → ℕ) {edges : List (EdgeWithValue V)}
    (hfew : FewEdges edges) : sortEdges rand edges
      = (Qsort.quickSort EdgeWithValue.edgeTSrcLess rand edges.length 0 edges).1 := by
  unfold FewEdges at hfew
  have hn : (toInt32 edges.length).toNat = edges.length := by
    rw [Reshard.toInt32_natCast (by omega)]
    rfl
  unfold sortEdges
  simp only [hn, List.take_length, List.drop_length, List.append_nil]

theorem sortEdges_spec (rand : ℕ → ℕ) {edges : List (EdgeWithValue V)}
    (hfew : FewEdges edges) :
    (sortEdges rand edges).Perm edges
      ∧ (sortEdges rand edges).Pairwise fun a b => a.sortKey ≤ b.sortKey := by
  rw [sortEdges_eq rand hfew]
  exact Qsort.quickSort_spec EdgeWithValue.edgeTSrcLess_iff rand edges.length 0 edges le_rfl

/-- The sorted edges of a shard are a scan. -/
theorem ShardEdges.scan (E : ShardEdges c V) (rand : ℕ → ℕ) (hfew : FewEdges E.edges) :
    Scan c (sortEdges rand E.edges) := by
  obtain ⟨hperm, hsorted⟩ := sortEdges_spec rand hfew
  refine ⟨hsorted, fun e he => E.legal e (hperm.mem_iff.mp he), ?_⟩
  rw [hperm.length_eq]
  exact hfew

/-! The conditions do not depend on the order of the edges. -/

theorem ZeroHead.perm {L L' : List (EdgeWithValue V)} (hperm : L.Perm L') :
    ZeroHead c L ↔ ZeroHead c L' := by
  unfold ZeroHead
  simp only [hperm.mem_iff]

theorem OtherOut.perm {L L' : List (EdgeWithValue V)} (hperm : L.Perm L') :
    OtherOut c L ↔ OtherOut c L' := by
  unfold OtherOut
  simp only [hperm.mem_iff]

theorem LastOut.perm {L L' : List (EdgeWithValue V)} (hperm : L.Perm L')
    {l : EdgeWithValue V} : LastOut c L l ↔ LastOut c L' l := by
  unfold LastOut
  simp only [hperm.mem_iff]

theorem Jump.perm {L L' : List (EdgeWithValue V)} (hperm : L.Perm L') :
    Jump c L ↔ Jump c L' := by
  unfold Jump
  simp only [hperm.mem_iff, LastOut.perm hperm]

/-- **The files that the call leaves**, from a walk and the values: each
adjacency file carries the rows that the log has for it. -/
structure Leaves (c : Params) (rand : ℕ → ℕ) (edges : List (EdgeWithValue V))
    (files : ShardFiles V) : Prop where
  /-- The adjacency files, with the log of their rows. -/
  adjacency : ∃ (log : Log V) (wsl : ℕ → WriteSliding), log.map Prod.snd = sortEdges rand edges
    ∧ (∀ k, files.adj k = (wsl k).s.contents)
    ∧ (∀ k, (wsl k).Carries ((log.rowsOf k).map EdgeWithValue.dst))
    ∧ Ending c (sortEdges rand edges) log wsl
  /-- The `.in` files. -/
  inData : ∀ k, k ≠ c.shard → files.inData k
    = valuesOf (fun e => c.intervals.Mem k e.src) (sortEdges rand edges)
  /-- The `.out` files. -/
  outData : ∀ k, files.outData k = valuesOf (fun e =>
    c.intervals.Mem c.shard e.src ∧ c.intervals.Mem k e.dst) (sortEdges rand edges)
  /-- The main `.in` file is the own `.out` file. -/
  mainData : files.inData c.shard = files.outData c.shard

/-- **The call**: either it leaves its files, or it fails as `ZeroHead` and
another out-edge make it. -/
theorem reshard_ending (E : ShardEdges c V) (rand : ℕ → ℕ) (hfew : FewEdges E.edges) :
    (∃ files, reshard c rand E.edges = some files ∧ Leaves c rand E.edges files)
      ∨ reshard c rand E.edges = none ∧ ZeroHead c E.edges ∧ OtherOut c E.edges := by
  obtain ⟨hperm, -⟩ := sortEdges_spec rand hfew
  have hscan := E.scan rand hfew
  have hwalk := State.run_toWalk (c := c) (State.init c) (sortEdges rand E.edges)
  unfold reshard
  rcases run_init hscan with ⟨w, log, hrun, hat, hmode⟩ | ⟨hrun, hz, ho⟩
  · rcases hst : (State.init c).run c (sortEdges rand E.edges) with _ | st
    · rw [hst] at hwalk
      exact absurd (hwalk.trans hrun) (by simp)
    · have hw : st.toWalk = w := by
        rw [hst] at hwalk
        exact Option.some.inj (hwalk.trans hrun)
      have hvals := State.run_init hscan hst
      obtain ⟨log', hsplit, hcarries, hend⟩ := hmode.ending hscan hat
      refine Or.inl ⟨_, rfl, ⟨log', (w.stop c).wsl, hsplit, fun k => ?_, hcarries, hend⟩,
        fun k hk => ?_, fun k => ?_, ?_⟩
      · subst hw
        rfl
      · rw [← hvals.incoming k hk]
        exact if_neg hk
      · rw [← hvals.outgoing k]
        rfl
      · exact if_pos rfl
  · refine Or.inr ⟨?_, (ZeroHead.perm hperm).mp hz, (OtherOut.perm hperm).mp ho⟩
    rcases hst : (State.init c).run c (sortEdges rand E.edges) with _ | st
    · rfl
    · rw [hst] at hwalk
      exact absurd (hwalk.trans hrun) (by simp)

end Whole

end Reshard
