import Mathlib
import DpdkGraph.ReshardSound

/-!
# How a walk ends

Two kinds of edge lists lead the walk astray. Before the first edge the
current file is that of shard 0, so in-edges from vertex 0 – the source
the walk starts at – are pending for that file until the source changes. If
the next source is in the own interval, or there is none, they go there
(`ZeroHead`); most continuations then fail an assertion. And when the
sources pass over the whole interval after the own one, the last out-edges
are still pending and go to the main file (`Jump`).

`Mode` is the case distinction on where a walk stands: its rows are right
(`Sound`), it holds the edges from vertex 0 back (`Held`), it has misplaced
those (`Spoiled`), or the last out-edges (`Jumped`). `Mode.step` shows that
a step from one of them leads to one of them or fails, and `run_outcome`
draws the conclusion for whole runs.
-/

namespace Reshard

variable {V : Type}

/-! ## The conditions -/

/-- The edges from vertex 0 are pending for the file of shard 0 when the
first out-edge comes, or when the edges end. -/
def ZeroHead (c : Params) (L : List (EdgeWithValue V)) : Prop :=
  c.shard ≠ 0 ∧ (∃ e ∈ L, e.src = 0)
    ∧ (∀ e ∈ L, e.src = 0 ∨ c.intervals.first c.shard ≤ e.src)
    ∧ ((∃ e ∈ L, c.intervals.Mem c.shard e.src) ∨ ∀ e ∈ L, e.src = 0)

/-- Some out-edge is not one from the first vertex of the interval to
shard 0. -/
def OtherOut (c : Params) (L : List (EdgeWithValue V)) : Prop :=
  ∃ e ∈ L, c.intervals.Mem c.shard e.src
    ∧ ¬(e.src = c.intervals.first c.shard ∧ c.intervals.Mem 0 e.dst)

/-- `ℓ` is the last of the sorted out-edges. -/
def LastOut (c : Params) (L : List (EdgeWithValue V)) (l : EdgeWithValue V) : Prop :=
  l ∈ L ∧ c.intervals.Mem c.shard l.src
    ∧ ∀ e ∈ L, c.intervals.Mem c.shard e.src → e.sortKey ≤ l.sortKey

/-- The last out-edge goes to another shard, there are in-edges from beyond
the own interval, and none of them comes from the next one. -/
def Jump (c : Params) (L : List (EdgeWithValue V)) : Prop :=
  (∃ l, LastOut c L l ∧ ¬c.intervals.Mem c.shard l.dst)
    ∧ (∃ e ∈ L, c.intervals.second c.shard < e.src)
    ∧ ∀ e ∈ L, ¬c.intervals.Mem (c.shard + 1) e.src

section Conditions

variable {c : Params} {done rest : List (EdgeWithValue V)} {e : EdgeWithValue V} {k : ℕ}

/-- Below the own interval. -/
theorem src_lt_first (hs : c.shard < c.intervals.nshards) (hk : c.intervals.Mem k e.src)
    (hlt : k < c.shard) : e.src < c.intervals.first c.shard :=
  lt_of_le_of_lt hk.2.2 (IntervalPartition.second_lt_first hlt hs)

/-- Beyond the own interval. -/
theorem second_lt_src (hk : c.intervals.Mem k e.src) (hlt : c.shard < k) :
    c.intervals.second c.shard < e.src :=
  lt_of_lt_of_le (IntervalPartition.second_lt_first hlt hk.1) hk.2.1

/-- An edge from vertex 0 is an in-edge of any other shard. -/
theorem shard_of_zero (hk : c.intervals.Mem k e.src) (hzero : e.src = 0) : k = 0 := by
  rw [hzero] at hk
  have hn : 0 < c.intervals.nshards := lt_of_le_of_lt (Nat.zero_le _) hk.1
  exact hk.unique (IntervalPartition.mem_zero hn)

/-- Once some edge has been taken, the next one does not bring `ZeroHead`
about. -/
theorem ZeroHead.of_append (hscan : Scan c (done ++ e :: rest)) (hne : done ≠ [])
    (h : ZeroHead c (done ++ [e])) : ZeroHead c done := by
  obtain ⟨hs, ⟨a, ha, hzero⟩, hfirst, hout⟩ := h
  have hle : ∀ b ∈ done, b.src ≤ e.src := fun b hb =>
    EdgeWithValue.src_le_of_sortKey_le (hscan.le hb)
  have hdone : ∀ b ∈ done, b ∈ done ++ [e] := fun b hb => List.mem_append_left _ hb
  obtain ⟨b, hb⟩ := List.exists_mem_of_ne_nil _ hne
  have hzeroDone : ∃ e ∈ done, e.src = 0 := by
    rcases List.mem_append.mp ha with ha | ha
    · exact ⟨a, ha, hzero⟩
    · rw [List.mem_singleton.mp ha] at hzero
      exact ⟨b, hb, by have := hle b hb; omega⟩
  refine ⟨hs, hzeroDone, fun b hb => hfirst b (hdone b hb), ?_⟩
  rcases hout with ⟨o, ho, hmem⟩ | hall
  · rcases List.mem_append.mp ho with ho | ho
    · exact Or.inl ⟨o, ho, hmem⟩
    · obtain rfl := List.mem_singleton.mp ho
      -- the next edge is the first out-edge, or an earlier one is
      by_cases hallz : ∀ b ∈ done, b.src = 0
      · exact Or.inr hallz
      · push Not at hallz
        obtain ⟨b, hb, hbz⟩ := hallz
        have hbf := (hfirst b (hdone b hb)).resolve_left hbz
        exact Or.inl ⟨b, hb, hmem.1, hbf, (hle b hb).trans hmem.2.2⟩
  · exact Or.inr fun b hb => hall b (hdone b hb)

/-- `Jump` is not brought about by an edge that is not beyond the own
interval. -/
theorem not_jump_of_le (hscan : Scan c (done ++ e :: rest))
    (hle : e.src ≤ c.intervals.second c.shard) : ¬Jump c (done ++ [e]) := by
  rintro ⟨-, ⟨a, ha, hlt⟩, -⟩
  have hae : a.src ≤ e.src := by
    rcases List.mem_append.mp ha with ha | ha
    · exact EdgeWithValue.src_le_of_sortKey_le (hscan.le ha)
    · rw [List.mem_singleton.mp ha]
  omega

/-- Nor by one from the next interval. -/
theorem not_jump_of_next (hk : c.intervals.Mem (c.shard + 1) e.src) :
    ¬Jump c (done ++ [e]) :=
  fun h => h.2.2 e (by simp) hk

/-- An in-edge does not change which out-edge is the last. -/
theorem LastOut.of_append {l : EdgeWithValue V} (hk : c.intervals.Mem k e.src)
    (hne : k ≠ c.shard) (h : LastOut c (done ++ [e]) l) : LastOut c done l := by
  obtain ⟨hmem, hsrc, hmax⟩ := h
  refine ⟨?_, hsrc, fun a ha => hmax a (List.mem_append_left _ ha)⟩
  rcases List.mem_append.mp hmem with hmem | hmem
  · exact hmem
  · rw [List.mem_singleton.mp hmem] at hsrc
    exact absurd (hk.unique hsrc) hne

theorem LastOut.append {l : EdgeWithValue V} (hk : c.intervals.Mem k e.src)
    (hne : k ≠ c.shard) (h : LastOut c done l) : LastOut c (done ++ [e]) l := by
  obtain ⟨hmem, hsrc, hmax⟩ := h
  refine ⟨List.mem_append_left _ hmem, hsrc, fun a ha hs => ?_⟩
  rcases List.mem_append.mp ha with ha | ha
  · exact hmax a ha hs
  · rw [List.mem_singleton.mp ha] at hs
    exact absurd (hk.unique hs) hne

/-- Beyond the next interval, `Jump` has come about before, unless the edge
is the first one there. -/
theorem Jump.of_append (hk : c.intervals.Mem k e.src) (hlt : c.shard + 1 < k)
    (hbeyond : ∃ a ∈ done, c.intervals.second c.shard < a.src)
    (h : Jump c (done ++ [e])) : Jump c done := by
  obtain ⟨⟨l, hl, hdst⟩, -, hnext⟩ := h
  exact ⟨⟨l, hl.of_append hk (by omega), hdst⟩, hbeyond,
    fun a ha => hnext a (List.mem_append_left _ ha)⟩

theorem Jump.append (hk : c.intervals.Mem k e.src) (hlt : c.shard + 1 < k)
    (h : Jump c done) : Jump c (done ++ [e]) := by
  obtain ⟨⟨l, hl, hdst⟩, ⟨a, ha, hbeyond⟩, hnext⟩ := h
  refine ⟨⟨l, hl.append hk (by omega), hdst⟩, ⟨a, List.mem_append_left _ ha, hbeyond⟩, ?_⟩
  intro b hb hs
  rcases List.mem_append.mp hb with hb | hb
  · exact hnext b hb hs
  · rw [List.mem_singleton.mp hb] at hs
    have := hk.unique hs
    omega

end Conditions

/-! ## The modes -/

/-- **The rows are right.** -/
structure Sound (c : Params) (done rest : List (EdgeWithValue V)) (log : Log V)
    (w : Walk V) : Prop where
  /-- Every row is in the file of its destinations. -/
  placed : w.Placed c log
  /-- The files stand for the rows that have been written. -/
  rows : w.Rows c (done ++ rest) done rest log
  /-- No edge from vertex 0 has been held too long. -/
  noZeroHead : ¬ZeroHead c done
  /-- The last out-edge has not been passed over. -/
  noJump : ¬Jump c done

/-- **The edges from vertex 0 are held** for the file of shard 0, where
`current_memory_shard` begins; nothing has been written yet. -/
structure Held (c : Params) (done : List (EdgeWithValue V)) (log : Log V)
    (w : Walk V) : Prop where
  shard : c.shard ≠ 0
  /-- An edge from vertex 0 has come … -/
  zero : ∃ a ∈ done, a.src = 0
  /-- … and nothing that would have made the walk write. -/
  others : ∀ a ∈ done, a.src = 0
    ∨ c.intervals.Mem c.shard a.src ∧ a.src = c.intervals.first c.shard
      ∧ c.intervals.Mem 0 a.dst
  /-- So nothing is written. -/
  log : log = []
  wsl : w.wsl = (Walk.init c : Walk V).wsl
  /-- What is pending would go to the file of shard 0. -/
  current : w.currentMemoryShard = 0

/-- What is so once the walk is beyond the own interval. -/
structure Beyond (c : Params) (w : Walk V) : Prop where
  /-- The sources are beyond the interval. -/
  sliding : ∃ k, w.currentSlidingShard = some k ∧ c.shard < k
  /-- What is pending goes to the main file. -/
  current : w.currentMemoryShard = c.shard

/-- A file of one row, with a destination in the own interval in it. -/
def HeldRow (c : Params) (x : WriteSliding) : Prop :=
  ∃ ts, (SparseRows.Item.row ts).Valid ∧ ts.length < 2 ^ 31
    ∧ x.s.contents = SparseRows.encodeItem (.row ts) ∧ ∃ t ∈ ts, c.intervals.Mem c.shard t

/-- **The edges from vertex 0 are misplaced**, or edges to shard 0 are: the held
row has gone to the wrong one of the two files. -/
structure Spoiled (c : Params) (done : List (EdgeWithValue V)) (log : Log V)
    (w : Walk V) : Prop where
  beyond : Beyond c w
  zeroHead : ZeroHead c done
  /-- With any other out-edge the call would have failed. -/
  noOther : ¬OtherOut c done
  /-- The held row is in the file of shard 0, with an in-edge, or in the main
  file, with an edge to shard 0. -/
  wrong : (∃ x ∈ log, x.1 = 0 ∧ c.intervals.Mem c.shard x.2.dst) ∧ HeldRow c (w.wsl 0)
    ∨ ∃ x ∈ log, x.1 = c.shard ∧ c.intervals.Mem 0 x.2.dst
  /-- No other file has a row. -/
  files : ∀ x ∈ log, x.1 = 0 ∨ x.1 = c.shard
  wsl : ∀ k, k ≠ 0 → k ≠ c.shard → w.wsl k = (Walk.init c : Walk V).wsl k

/-- **The last out-edges are misplaced**: the walk has gone from the interval to
one beyond the next without the flush that the next one has, and the main file
has their row. -/
structure Jumped (c : Params) (done rest : List (EdgeWithValue V)) (log : Log V)
    (w : Walk V) : Prop where
  beyond : Beyond c w
  /-- What is pending belongs to the main file. -/
  pendDst : ∀ a ∈ w.pending, c.intervals.Mem c.shard a.dst
  noZeroHead : ¬ZeroHead c done
  jump : Jump c done
  /-- The main file has the last out-edge and others to the same shard, and
  nothing else is misplaced. -/
  wrong : ∃ l, LastOut c done l ∧ ¬c.intervals.Mem c.shard l.dst ∧ (c.shard, l) ∈ log
    ∧ ∀ x ∈ log, c.intervals.Mem x.1 x.2.dst
      ∨ x.1 = c.shard ∧ ∀ k, c.intervals.Mem k x.2.dst → c.intervals.Mem k l.dst
  /-- The other files stand for their rows. -/
  wrote : ∀ k, k ≠ c.shard → Walk.HoldsRows c (done ++ rest) log k (w.wsl k)

/-- **Where a walk stands.** -/
inductive Mode (c : Params) (done rest : List (EdgeWithValue V)) (log : Log V)
    (w : Walk V) : Prop
  | sound (h : Sound c done rest log w)
  | held (h : Held c done log w)
  | spoiled (h : Spoiled c done log w)
  | jumped (h : Jumped c done rest log w)

/-! ## One step -/

/-- What a step from a mode comes to: another mode, or a failure that the
edges account for. -/
def Steps (c : Params) (done rest : List (EdgeWithValue V)) (w : Walk V)
    (e : EdgeWithValue V) : Prop :=
  (∃ w' log', w.step c e = some w' ∧ w'.At c (done ++ [e]) log'
      ∧ Mode c (done ++ [e]) rest log' w')
    ∨ w.step c e = none ∧ c.intervals.Mem c.shard e.src
      ∧ ZeroHead c (done ++ [e]) ∧ OtherOut c (done ++ [e])

section Step

variable {c : Params} {done rest : List (EdgeWithValue V)} {log : Log V} {w : Walk V}
  {e : EdgeWithValue V} {k : ℕ}

/-- On leaving the out-edges the source is new. -/
theorem Walk.At.src_ne (h : w.At c done log) (hk : c.intervals.Mem (c.shard + 1) e.src)
    (hw : w.willout = true) : e.src ≠ w.curvid := by
  intro heq
  obtain ⟨k', hk', hcase⟩ := h.past hw
  rcases h.init_or_last with ⟨-, rfl, -⟩ | ⟨a, -, -, -, hcur, k'', hk'', hmem⟩
  · simp [Walk.init] at hw
  · obtain rfl : k' = k'' := Option.some.inj (hk'.symm.trans hk'')
    rw [heq, hcur] at hk
    have := hk.unique hmem
    omega

/-- An out-edge does not bring `ZeroHead` about. -/
theorem not_zeroHead_of_out (hscan : Scan c (done ++ e :: rest))
    (hk : c.intervals.Mem c.shard e.src) (h : ¬ZeroHead c done) :
    ¬ZeroHead c (done ++ [e]) := by
  intro hz
  by_cases hnil : done = []
  · subst hnil
    obtain ⟨hs, ⟨a, ha, hzero⟩, -⟩ := hz
    rw [List.mem_singleton.mp ha] at hzero
    exact hs (shard_of_zero hk hzero)
  · exact h (hz.of_append hscan hnil)

/-- Nor does an edge with a new source. -/
theorem not_zeroHead_of_new (hat : w.At c done log) (hscan : Scan c (done ++ e :: rest))
    (hsrc : e.src ≠ w.curvid) (h : ¬ZeroHead c done) : ¬ZeroHead c (done ++ [e]) := by
  intro hz
  by_cases hnil : done = []
  · obtain ⟨rfl, -⟩ := hat.fresh hnil
    subst hnil
    obtain ⟨-, ⟨a, ha, hzero⟩, -⟩ := hz
    rw [List.mem_singleton.mp ha] at hzero
    exact hsrc hzero
  · exact h (hz.of_append hscan hnil)

/-- **An out-edge, when the rows are right**: it joins the pending row, or the
row is written and the file of its destination becomes the current one. -/
theorem Sound.stepOut (hat : w.At c done log) (hscan : Scan c (done ++ e :: rest))
    (h : Sound c done (e :: rest) log w) (hk : c.intervals.Mem c.shard e.src) :
    Steps c done rest w e := by
  have hstop := hscan.here.stopper
  have hadv := hat.advance hscan hk
  obtain ⟨j, hj⟩ := hscan.here.dst
  have hfind := IntervalPartition.shardOf_eq_some hj
  have hnoZero := not_zeroHead_of_out hscan hk h.noZeroHead
  have hnoJump := not_jump_of_le hscan hk.2.2
  by_cases hplace : w.currentMemoryShard = j ∧ e.src = (w.wsl j).curvid
  · obtain ⟨rfl, hcur⟩ := hplace
    refine Or.inl ⟨_, log, Walk.step_outStay hstop hadv hfind rfl hcur,
      hat.outStay hk hj, .sound ⟨?_, ?_, hnoZero, hnoJump⟩⟩
    · exact h.placed.stay rfl rfl rfl rfl
        (fun hne => hcur.trans (h.placed.cursor hne)) hj hcur.symm
    · rw [← List.append_cons]
      exact h.rows.stay hat hscan rfl h.placed rfl rfl rfl hj hcur.symm
  · have hassert : w.pendingInInterval c = true := by
      unfold Walk.pendingInInterval
      rw [List.all_eq_true]
      exact fun a ha => decide_eq_true (h.placed.pendDst a ha).2
    refine Or.inl ⟨_, _, Walk.step_outSwitch hstop hadv hfind hplace hassert,
      hat.outSwitch hscan hk hj, .sound ⟨?_, ?_, hnoZero, hnoJump⟩⟩
    · exact .single h.placed.right_flush rfl rfl hj (Walk.curvid_switched c w j e.src)
    · rw [← List.append_cons]
      exact h.rows.outSwitch hat hscan rfl h.placed hk hj hplace

/-- **The first in-edge after the own interval, when the rows are right.** -/
theorem Sound.stepLeave (hat : w.At c done log) (hscan : Scan c (done ++ e :: rest))
    (h : Sound c done (e :: rest) log w) (hk : c.intervals.Mem (c.shard + 1) e.src)
    (hw : w.willout = true) : Steps c done rest w e := by
  have hstop := hscan.here.stopper
  have hadv := hat.advance hscan hk
  have hdst := hscan.here.dst_of_src hk (Nat.succ_ne_self _)
  have hsrc := hat.src_ne hk hw
  have hpend : w.pending ≠ [] := by
    rcases hat.init_or_last with ⟨-, rfl, -⟩ | ⟨a, -, ha, -⟩
    · simp [Walk.init] at hw
    · exact List.ne_nil_of_mem ha
  refine Or.inl ⟨_, _, Walk.step_inLeave hstop hadv hw hsrc, hat.inLeave hscan hk,
    .sound ⟨?_, ?_, not_zeroHead_of_new hat hscan hsrc h.noZeroHead,
      not_jump_of_next hk⟩⟩
  · exact .single h.placed.right_flush rfl rfl hdst (by simp)
  · rw [← List.append_cons]
    exact h.rows.inLeave hat hscan rfl h.placed hk hpend hsrc

/-- The last edge taken, if it went to another shard, was an out-edge. -/
theorem Walk.At.last_out (hat : w.At c done log) (hscan : Scan c (done ++ e :: rest))
    {a : EdgeWithValue V} (hlast : done.getLast? = some a)
    (hdst : ¬c.intervals.Mem c.shard a.dst) :
    LastOut c done a ∧ w.willout = true
      ∧ ∀ b ∈ done, b.src ≤ c.intervals.second c.shard := by
  have hmem := List.mem_of_getLast? hlast
  have hsrc : c.intervals.Mem c.shard a.src :=
    (hscan.legal a (List.mem_append_left _ hmem)).touches.resolve_right hdst
  obtain ⟨-, -, k, hk, hmemk⟩ := hat.last a hlast
  obtain rfl := hmemk.unique hsrc
  refine ⟨⟨hmem, hsrc, fun b hb _ => le_getLast hscan.sorted_done hlast hb⟩,
    hat.outward hk, fun b hb => ?_⟩
  exact (EdgeWithValue.src_le_of_sortKey_le (le_getLast hscan.sorted_done hlast hb)).trans
    hsrc.2.2

/-- An in-edge with a new source, when the main file is current, does not
bring `Jump` about. -/
theorem Sound.not_jump (hat : w.At c done log) (hscan : Scan c (done ++ e :: rest))
    (h : Sound c done (e :: rest) log w) (hk : c.intervals.Mem k e.src)
    (hne : k ≠ c.shard) (hcms : ∀ a ∈ w.pending, c.intervals.Mem c.shard a.dst) :
    ¬Jump c (done ++ [e]) := by
  have hs : c.shard < c.intervals.nshards := by
    rcases hscan.here.touches with h | h <;> exact h.1
  rcases Nat.lt_trichotomy k (c.shard + 1) with hlt | rfl | hgt
  · refine not_jump_of_le hscan ?_
    have := src_lt_first hs hk (by omega)
    have := IntervalPartition.first_le hs
    omega
  · exact not_jump_of_next hk
  · intro hj
    by_cases hbeyond : ∃ a ∈ done, c.intervals.second c.shard < a.src
    · exact h.noJump (hj.of_append hk hgt hbeyond)
    · -- the last out-edge is the last edge taken, and still pending
      obtain ⟨⟨l, hl, hdst⟩, -, -⟩ := hj
      have hl' := hl.of_append hk hne
      rcases hlast : done.getLast? with _ | a
      · rw [List.getLast?_eq_none_iff.mp hlast] at hl'
        exact absurd hl'.1 List.not_mem_nil
      · have ha := List.mem_of_getLast? hlast
        have hla := le_getLast hscan.sorted_done hlast hl'.1
        have hasrc : c.intervals.Mem c.shard a.src := by
          refine ⟨hs, hl'.2.1.2.1.trans (EdgeWithValue.src_le_of_sortKey_le hla), ?_⟩
          by_contra hlt
          exact hbeyond ⟨a, ha, not_le.mp hlt⟩
        have heq : l.sortKey = a.sortKey := le_antisymm hla (hl'.2.2 a ha hasrc)
        have heq' : l.dst = a.dst := congrArg Prod.snd (toLex.injective heq)
        exact hdst (heq' ▸ hcms a (hat.last a hlast).1)

/-- The last out-edge is pending for another file when an in-edge comes that
does not leave the out-edges: it brings `Jump` about. -/
theorem Sound.jump (hat : w.At c done log) (hscan : Scan c (done ++ e :: rest))
    (h : Sound c done (e :: rest) log w) (hk : c.intervals.Mem k e.src)
    (hne : k ≠ c.shard) (hleave : ¬(k = c.shard + 1 ∧ w.willout = true))
    (hcms : w.currentMemoryShard ≠ c.shard) (hpend : w.pending ≠ []) :
    ∃ a, LastOut c done a ∧ ¬c.intervals.Mem c.shard a.dst ∧ a ∈ w.pending
      ∧ c.shard + 1 < k ∧ Jump c (done ++ [e]) := by
  obtain ⟨a, hlast, hpend, ha, -, -⟩ :=
    hat.init_or_last.resolve_left fun hinit => hpend (by rw [hinit.2.1]; rfl)
  have hadst : ¬c.intervals.Mem c.shard a.dst := fun hs =>
    hcms ((h.placed.pendDst a hpend).unique hs)
  obtain ⟨hout, hw, hle⟩ := hat.last_out hscan hlast hadst
  have hgt := hat.beyond hscan hk hne hleave hw
  have hbeyond := second_lt_src hk (show c.shard < k by omega)
  refine ⟨a, hout, hadst, hpend, hgt, ⟨a, hout.append hk hne, hadst⟩,
    ⟨e, by simp, hbeyond⟩, ?_⟩
  intro b hb hs
  rcases List.mem_append.mp hb with hb | hb
  · have hs' := hs.2.1
    rw [IntervalPartition.first_succ hs.1] at hs'
    have := hle b hb
    omega
  · rw [List.mem_singleton.mp hb] at hs
    have := hk.unique hs
    omega

/-- **Any other in-edge, when the rows are right.** It stays, it moves the
main file on, it is the first edge and from vertex 0, or the sources have
passed over the next interval. -/
theorem Sound.stepIn (hat : w.At c done log) (hscan : Scan c (done ++ e :: rest))
    (h : Sound c done (e :: rest) log w) (hk : c.intervals.Mem k e.src)
    (hne : k ≠ c.shard) (hleave : ¬(k = c.shard + 1 ∧ w.willout = true)) :
    Steps c done rest w e := by
  have hstop := hscan.here.stopper
  have hadv := hat.advance hscan hk
  have hdst := hscan.here.dst_of_src hk hne
  by_cases hsrc : e.src = w.curvid
  · refine Or.inl ⟨_, log, Walk.step_inStay hstop hadv hne hleave hsrc,
      hat.inStay hscan hk hne hleave hsrc, ?_⟩
    rcases hat.init_or_last with ⟨rfl, rfl, rfl⟩ | ⟨a, hlast, hpend, ha, hcur, -⟩
    · -- the first edge, from vertex 0: it is held for the file of shard 0
      have hzero : e.src = 0 := hsrc
      have hk0 := shard_of_zero hk hzero
      exact .held ⟨fun hs => hne (hk0.trans hs.symm), ⟨e, by simp, hzero⟩,
        fun b hb => Or.inl (by rw [List.mem_singleton.mp hb]; exact hzero), rfl, rfl, rfl⟩
    · have hnil : w.pending ≠ [] := List.ne_nil_of_mem hpend
      have hasrc : c.intervals.Mem k a.src := by rw [← hcur, ← hsrc]; exact hk
      have hadst := (hscan.legal a (List.mem_append_left _ ha)).dst_of_src hasrc hne
      have hcms : w.currentMemoryShard = c.shard := (h.placed.pendDst a hpend).unique hadst
      have hpendS : ∀ b ∈ w.pending, c.intervals.Mem c.shard b.dst := fun b hb =>
        hcms ▸ h.placed.pendDst b hb
      have hcursor := (h.placed.cursor hnil).trans hsrc.symm
      refine .sound ⟨?_, ?_, fun hz => h.noZeroHead
        (hz.of_append hscan (List.ne_nil_of_mem ha)), h.not_jump hat hscan hk hne hpendS⟩
      · exact h.placed.stay rfl rfl rfl hsrc.symm (fun _ => hsrc) (hcms ▸ hdst) hcursor
      · rw [← List.append_cons]
        exact h.rows.stay hat hscan rfl h.placed rfl rfl rfl (hcms ▸ hdst) hcursor
  · refine Or.inl ⟨_, _, Walk.step_inMove hstop hadv hne hleave hsrc,
      hat.inMove hscan hk hne hleave, ?_⟩
    have hnoZero := not_zeroHead_of_new hat hscan hsrc h.noZeroHead
    by_cases hcms : w.currentMemoryShard = c.shard ∨ w.pending = []
    · have hpendS : ∀ b ∈ w.pending, c.intervals.Mem c.shard b.dst := by
        intro b hb
        rcases hcms with hcms | hnil
        · exact hcms ▸ h.placed.pendDst b hb
        · exact absurd hb (by rw [hnil]; exact List.not_mem_nil)
      refine .sound ⟨.single ?_ rfl rfl hdst (by simp), ?_, hnoZero,
        h.not_jump hat hscan hk hne hpendS⟩
      · intro x hx
        rcases List.mem_append.mp hx with hx | hx
        · exact h.placed.right x hx
        · obtain ⟨hfst, hsnd⟩ := Log.mem_writes.mp hx
          rw [hfst]
          exact hpendS _ hsnd
      · rw [← List.append_cons]
        exact h.rows.inMove hat hscan rfl h.placed hk hne hcms hsrc
    · -- the last out-edges are pending, and the next interval is passed over
      push Not at hcms
      obtain ⟨a, hout, hadst, hpend, hgt, hjump⟩ :=
        h.jump hat hscan hk hne hleave hcms.1 hcms.2
      have hout' := hout.append hk hne
      refine .jumped ⟨⟨⟨k, rfl, by omega⟩, rfl⟩, ?_, hnoZero, hjump,
        ⟨a, hout', hadst, ?_, ?_⟩, fun k' hk' => ?_⟩
      · intro b hb
        rw [List.mem_singleton.mp hb]
        exact hdst
      · exact List.mem_append_right _ (Log.mem_writes.mpr ⟨rfl, hpend⟩)
      · intro x hx
        rcases List.mem_append.mp hx with hx | hx
        · exact Or.inl (h.placed.right x hx)
        · obtain ⟨hfst, hsnd⟩ := Log.mem_writes.mp hx
          refine Or.inr ⟨hfst, fun j hj => ?_⟩
          rw [hj.unique (h.placed.pendDst _ hsnd)]
          exact h.placed.pendDst a hpend
      · rw [← List.append_cons]
        show Walk.HoldsRows c _ _ k' (Function.update w.wsl c.shard _ k')
        rw [Function.update_of_ne hk']
        unfold Walk.HoldsRows
        rw [Log.rowsOf_append_writes_of_ne hk']
        exact h.rows.wrote k'

/-! ### The edges from vertex 0 are held -/

/-- While they are held, every edge taken is pending. -/
theorem Held.pending_eq (hat : w.At c done log) (h : Held c done log w) :
    w.pending = done := by
  have hsplit := hat.split
  rw [h.log] at hsplit
  exact hsplit

/-- The edges held are not misplaced out-edges. -/
theorem Held.not_otherOut (h : Held c done log w) : ¬OtherOut c done := by
  rintro ⟨a, ha, hs, hbad⟩
  rcases h.others a ha with hzero | ⟨-, hgood⟩
  · exact h.shard (shard_of_zero hs hzero)
  · exact hbad hgood

theorem not_otherOut_append (hk : c.intervals.Mem k e.src) (hne : k ≠ c.shard)
    (h : ¬OtherOut c done) : ¬OtherOut c (done ++ [e]) := by
  rintro ⟨a, ha, hs, hbad⟩
  rcases List.mem_append.mp ha with ha | ha
  · exact h ⟨a, ha, hs, hbad⟩
  · rw [List.mem_singleton.mp ha] at hs
    exact hne (hk.unique hs)

/-- The sources held are 0 or not below the own interval. -/
theorem Held.bounds (h : Held c done log w) :
    ∀ a ∈ done, a.src = 0 ∨ c.intervals.first c.shard ≤ a.src := by
  intro a ha
  rcases h.others a ha with hzero | ⟨-, hfirst, -⟩
  · exact Or.inl hzero
  · exact Or.inr hfirst.ge

/-- An edge from vertex 0 that is held goes to the own shard. -/
theorem Held.dst_of_zero (hscan : Scan c (done ++ rest)) (h : Held c done log w)
    {a : EdgeWithValue V} (ha : a ∈ done) (hzero : a.src = 0) :
    c.intervals.Mem c.shard a.dst := by
  have hlegal := hscan.legal a (List.mem_append_left _ ha)
  obtain ⟨k, hk⟩ := hlegal.src
  exact hlegal.dst_of_src hk fun hks => h.shard (hks ▸ shard_of_zero hk hzero)

/-- `ZeroHead` holds once an out-edge has been taken. -/
theorem Held.zeroHead (h : Held c done log w)
    (hlow : c.intervals.first c.shard ≤ e.src)
    (hout : ∃ a ∈ done ++ [e], c.intervals.Mem c.shard a.src) :
    ZeroHead c (done ++ [e]) := by
  obtain ⟨a, ha, hzero⟩ := h.zero
  refine ⟨h.shard, ⟨a, List.mem_append_left _ ha, hzero⟩, fun b hb => ?_, Or.inl hout⟩
  rcases List.mem_append.mp hb with hb | hb
  · exact h.bounds b hb
  · rw [List.mem_singleton.mp hb]
    exact Or.inr hlow

/-- Held edges do not belong to the file they are held for. -/
theorem Held.not_pendingInInterval (hat : w.At c done log) (hscan : Scan c (done ++ rest))
    (h : Held c done log w) : ¬w.pendingInInterval c = true := by
  obtain ⟨a, ha, hzero⟩ := h.zero
  intro hall
  unfold Walk.pendingInInterval at hall
  rw [List.all_eq_true, h.pending_eq hat] at hall
  have hmem := of_decide_eq_true (hall a ha)
  rw [h.current] at hmem
  have hdst := h.dst_of_zero hscan ha hzero
  have hn : 0 < c.intervals.nshards := lt_of_le_of_lt (Nat.zero_le _) hdst.1
  exact h.shard (hdst.unique ⟨hn, hmem⟩)

/-- **An out-edge after held edges**: it joins them if it goes from the
first vertex to shard 0, and fails otherwise. -/
theorem Held.stepOut (hat : w.At c done log) (hscan : Scan c (done ++ e :: rest))
    (h : Held c done log w) (hk : c.intervals.Mem c.shard e.src) :
    Steps c done rest w e := by
  have hstop := hscan.here.stopper
  have hadv := hat.advance hscan hk
  obtain ⟨j, hj⟩ := hscan.here.dst
  have hfind := IntervalPartition.shardOf_eq_some hj
  have hcur0 : (w.wsl 0).curvid = c.intervals.first c.shard := by
    rw [h.wsl]
    exact if_neg h.shard.symm
  by_cases hplace : w.currentMemoryShard = j ∧ e.src = (w.wsl j).curvid
  · obtain ⟨hcms, hcur⟩ := hplace
    rw [h.current] at hcms
    subst hcms
    refine Or.inl ⟨_, log, Walk.step_outStay hstop hadv hfind h.current hcur,
      hat.outStay hk hj, .held ⟨h.shard, ?_, ?_, h.log, h.wsl, h.current⟩⟩
    · obtain ⟨a, ha, hzero⟩ := h.zero
      exact ⟨a, List.mem_append_left _ ha, hzero⟩
    · intro a ha
      rcases List.mem_append.mp ha with ha | ha
      · exact h.others a ha
      · rw [List.mem_singleton.mp ha]
        exact Or.inr ⟨hk, hcur.trans hcur0, hj⟩
  · have hassert := h.not_pendingInInterval hat hscan
    refine Or.inr ⟨Walk.step_outFail hstop hadv hfind hplace hassert, hk,
      h.zeroHead hk.2.1 ⟨e, by simp, hk⟩, e, by simp, hk, ?_⟩
    rintro ⟨hfirst, hzero⟩
    obtain rfl := hzero.unique hj
    exact hplace ⟨h.current, hfirst.trans hcur0.symm⟩

/-- Held edges make one row of the file of shard 0. -/
theorem Held.row (hat : w.At c done log) (hscan : Scan c (done ++ rest))
    (h : Held c done log w) :
    HeldRow c ((w.wsl 0).writePending c.compressedBlockSize w.pending) := by
  have hfits := hat.fits hscan
  obtain ⟨a, ha, hzero⟩ := h.zero
  have hpend : a ∈ w.pending := by rwa [h.pending_eq hat]
  have hne : w.pending ≠ [] := List.ne_nil_of_mem hpend
  refine ⟨w.pending.map EdgeWithValue.dst, hfits.valid hne, ?_, ?_, a.dst,
    List.mem_map_of_mem hpend, h.dst_of_zero hscan ha hzero⟩
  · have hshort := hscan.short
    rw [List.length_append] at hshort
    rw [List.length_map, h.pending_eq hat]
    omega
  · unfold WriteSliding.writePending
    rw [if_neg hne]
    show ((w.wsl 0).writeRow _ _).s.contents = _
    rw [WriteSliding.contents_writeRow, h.wsl]
    rfl

/-- After held edges with an out-edge among them, the walk beyond the own
interval is spoiled, wherever they go. -/
theorem Held.spoiled (hscan : Scan c (done ++ e :: rest))
    (h : Held c done log w) (hk : c.intervals.Mem k e.src) (hgt : c.shard < k)
    (hout : ∃ a ∈ done, c.intervals.Mem c.shard a.src) {t : ℕ}
    {w' : Walk V} (ht : t = 0 ∧ HeldRow c (w'.wsl 0) ∨ t = c.shard)
    (hcss : w'.currentSlidingShard = some k) (hcms : w'.currentMemoryShard = c.shard)
    (hwsl : ∀ k, k ≠ 0 → k ≠ c.shard → w'.wsl k = w.wsl k) :
    Spoiled c (done ++ [e]) (Log.writes t done) w' where
  beyond := ⟨⟨k, hcss, hgt⟩, hcms⟩
  zeroHead := by
    obtain ⟨a, ha, hs⟩ := hout
    have hbeyond := second_lt_src hk hgt
    exact h.zeroHead (hs.2.1.trans (hs.2.2.trans hbeyond.le))
      ⟨a, List.mem_append_left _ ha, hs⟩
  noOther := not_otherOut_append hk (by omega) h.not_otherOut
  wrong := by
    rcases ht with ⟨rfl, hrow⟩ | rfl
    · obtain ⟨a, ha, hzero⟩ := h.zero
      exact Or.inl ⟨⟨(0, a), Log.mem_writes.mpr ⟨rfl, ha⟩, rfl,
        h.dst_of_zero hscan ha hzero⟩, hrow⟩
    · obtain ⟨a, ha, hs⟩ := hout
      refine Or.inr ⟨(c.shard, a), Log.mem_writes.mpr ⟨rfl, ha⟩, rfl, ?_⟩
      rcases h.others a ha with hzero | ⟨-, -, hdst⟩
      · exact absurd (shard_of_zero hs hzero) h.shard
      · exact hdst
  files x hx := by
    rw [(Log.mem_writes.mp hx).1]
    exact ht.imp_left And.left
  wsl k hk0 hks := by rw [hwsl k hk0 hks, h.wsl]

/-- With in-edges from vertex 0 only, the main file has a row there, and no
other file has moved. -/
theorem Held.place_moved (hat : w.At c done log) (hscan : Scan c (done ++ rest))
    (h : Held c done log w) (hall : ∀ a ∈ done, a.src = 0) (k : ℕ) :
    Place c (done ++ rest) done k
      (Walk.reached { w with currentMemoryShard := c.shard } k) := by
  obtain ⟨a, ha, hzero⟩ := h.zero
  have hin : ∀ b ∈ done, ¬c.intervals.Mem c.shard b.src := fun b hb hs =>
    h.shard (shard_of_zero hs (hall b hb))
  have hdst : ∀ b ∈ done, c.intervals.Mem c.shard b.dst := fun b hb =>
    h.dst_of_zero hscan hb (hall b hb)
  have hcurvid : (w.wsl k).curvid = startOf c k := by
    rw [h.wsl]
    rfl
  by_cases hk : k = c.shard
  · subst hk
    have hreached : Walk.reached { w with currentMemoryShard := c.shard } c.shard = 1 := by
      unfold Walk.reached
      rw [if_pos ⟨rfl, by rw [h.pending_eq hat]; exact List.ne_nil_of_mem ha⟩, hcurvid]
      exact congrArg (· + 1) (if_pos rfl)
    have hstart : startOf c c.shard = 0 := if_pos rfl
    rw [hreached]
    refine ⟨by rw [hstart]; exact Nat.zero_le _, Or.inr (Or.inl
      ⟨a, List.mem_append_left _ ha, hdst a ha, Or.inr (by rw [hzero])⟩),
      fun b hb _ => by rw [hall b hb]; exact Nat.one_pos,
      fun b hb _ => by rw [hall b hb]; exact Nat.zero_le _⟩
  · have hreached : Walk.reached { w with currentMemoryShard := c.shard } k
        = startOf c k := by
      rw [Walk.reached_of_other]
      · show (w.wsl k).curvid + (w.wsl k).written = _
        rw [hcurvid, h.wsl]
        rfl
      · exact Or.inl hk
    rw [hreached]
    exact ⟨le_rfl, Or.inl rfl, fun b hb hb' => absurd (hb'.unique (hdst b hb)) hk,
      fun b hb hleave => absurd hleave.1 (hin b hb)⟩

/-- Held edges that move the main file on before any out-edge are right:
they go to the main file, where they belong. -/
theorem Held.moved (hat : w.At c done log) (hscan : Scan c (done ++ e :: rest))
    (h : Held c done log w) (hk : c.intervals.Mem k e.src) (hne : k ≠ c.shard)
    (hsrc : e.src ≠ w.curvid) (hout : ¬∃ a ∈ done, c.intervals.Mem c.shard a.src) :
    Sound c (done ++ [e]) rest (log ++ Log.writes c.shard w.pending)
      { w with
        wsl := Function.update w.wsl c.shard
          (((w.wsl c.shard).writePending c.compressedBlockSize w.pending).moveTo
            c.compressedBlockSize e.src)
        currentSlidingShard := some k
        currentMemoryShard := c.shard
        curvid := e.src
        pending := [e]
        i := w.i + 1 } := by
  have hdst := hscan.here.dst_of_src hk hne
  have hpendEq := h.pending_eq hat
  have hall : ∀ b ∈ done, b.src = 0 := fun b hb =>
    (h.others b hb).resolve_right fun hb' => hout ⟨b, hb, hb'.1⟩
  have hpendS : ∀ b ∈ w.pending, c.intervals.Mem c.shard b.dst := fun b hb =>
    h.dst_of_zero hscan (hpendEq ▸ hb) (hall b (hpendEq ▸ hb))
  have hcur : w.curvid = 0 := by
    rcases hat.init_or_last with ⟨-, rfl, -⟩ | ⟨a, -, -, ha, hcur, -⟩
    · rfl
    · exact hcur.trans (hall a ha)
  rw [h.log]
  refine ⟨.single ?_ rfl rfl hdst (by simp), ?_, ?_, ?_⟩
  · intro x hx
    obtain ⟨hfst, hsnd⟩ := Log.mem_writes.mp hx
    rw [hfst]
    exact hpendS _ hsnd
  · -- the step is the one that the main file would make as the current one
    have hat' : Walk.At c done [] { w with currentMemoryShard := c.shard } := by
      rw [h.log] at hat
      refine { hat with fresh := fun hnil => ?_ }
      obtain ⟨a, ha, -⟩ := h.zero
      rw [hnil] at ha
      exact absurd ha List.not_mem_nil
    have hp : Walk.Placed c [] { w with currentMemoryShard := c.shard } := by
      refine ⟨by simp, fun b hb => ?_, hpendS, fun _ => ?_⟩
      · exact (hall b (hpendEq ▸ hb)).trans hcur.symm
      · show (w.wsl c.shard).curvid = w.curvid
        rw [h.wsl, hcur]
        exact if_pos rfl
    have hrows : Walk.Rows c (done ++ e :: rest) done (e :: rest) []
        { w with currentMemoryShard := c.shard } := by
      have hinit := Walk.Rows.init hscan (done ++ e :: rest)
      refine ⟨?_, fun k' => ?_, fun k' _ b hb hdst' => ?_, fun k' => ?_⟩
      · show (w.wsl c.shard).written = 0
        rw [h.wsl]
        rfl
      · show Walk.HoldsRows c _ [] k' (w.wsl k')
        rw [h.wsl]
        exact hinit.wrote k'
      · show (w.wsl k').curvid + (w.wsl k').written ≤ b.src
        rw [h.wsl]
        exact hinit.ready k' (Or.inr rfl) b (List.mem_append_right _ hb) hdst'
      · exact h.place_moved hat hscan hall k'
    have hmoved := hrows.inMove hat' hscan rfl hp hk hne (Or.inl rfl) hsrc
    rw [← List.append_cons]
    exact hmoved
  · rintro ⟨-, -, hfirst, hcase⟩
    have hs : c.shard < c.intervals.nshards := hdst.1
    have hnew : e.src ≠ 0 := fun h0 => hsrc (h0.trans hcur.symm)
    rcases Nat.lt_or_gt_of_ne hne with hlt | hgt
    · have := src_lt_first hs hk hlt
      rcases hfirst e (by simp) with h0 | h0 <;> omega
    · rcases hcase with ⟨b, hb, hs'⟩ | hz
      · rcases List.mem_append.mp hb with hb | hb
        · exact hout ⟨b, hb, hs'⟩
        · rw [List.mem_singleton.mp hb] at hs'
          exact hne (hk.unique hs')
      · exact hnew (hz e (by simp))
  · rintro ⟨⟨l, hl, -⟩, -⟩
    have hl' := hl.of_append hk hne
    exact hout ⟨l, hl'.1, hl'.2.1⟩

/-- **An in-edge after held edges.** Those of its own row are held on with it.
Otherwise they are written now: to the file of shard 0, or to the main file,
which is right as long as there is no out-edge among them. -/
theorem Held.stepIn (hat : w.At c done log) (hscan : Scan c (done ++ e :: rest))
    (h : Held c done log w) (hk : c.intervals.Mem k e.src) (hne : k ≠ c.shard) :
    Steps c done rest w e := by
  have hstop := hscan.here.stopper
  have hadv := hat.advance hscan hk
  have hdst := hscan.here.dst_of_src hk hne
  have hs : c.shard < c.intervals.nshards := hdst.1
  have hpendEq := h.pending_eq hat
  obtain ⟨a, hlast, hpend, ha, hcur, k', hk', hmem⟩ :=
    hat.init_or_last.resolve_left fun hinit => by
      obtain ⟨b, hb, -⟩ := h.zero
      rw [hinit.1] at hb
      exact List.not_mem_nil hb
  by_cases hleave : k = c.shard + 1 ∧ w.willout = true
  · -- the pending edges go to the file of shard 0
    obtain ⟨rfl, hw⟩ := hleave
    have hsrc := hat.src_ne hk hw
    have hout : ∃ a ∈ done, c.intervals.Mem c.shard a.src := by
      refine ⟨a, ha, ?_⟩
      obtain ⟨k'', hk'', hcase⟩ := hat.past hw
      obtain rfl : k'' = k' := Option.some.inj (hk''.symm.trans hk')
      have hle := hmem.mono hk (EdgeWithValue.src_le_of_sortKey_le (hscan.le ha))
      obtain rfl : k'' = c.shard := by omega
      exact hmem
    refine Or.inl ⟨_, _, Walk.step_inLeave hstop hadv hw hsrc, hat.inLeave hscan hk, ?_⟩
    have hrow := h.row hat hscan
    rw [h.log, List.nil_append, hpendEq, h.current]
    rw [hpendEq] at hrow
    refine .spoiled (h.spoiled hscan hk (Nat.lt_succ_self _) hout (Or.inl ⟨rfl, ?_⟩) rfl
      rfl ?_)
    · show HeldRow c (Function.update (Function.update w.wsl 0 _) c.shard _ 0)
      rw [Function.update_of_ne h.shard.symm, Function.update_self]
      exact hrow
    intro j hj0 hjs
    show Function.update (Function.update w.wsl 0 _) c.shard _ j = w.wsl j
    rw [Function.update_of_ne hjs, Function.update_of_ne hj0]
  · by_cases hsrc : e.src = w.curvid
    · refine Or.inl ⟨_, log, Walk.step_inStay hstop hadv hne hleave hsrc,
        hat.inStay hscan hk hne hleave hsrc, .held ⟨h.shard, ?_, ?_, h.log, h.wsl, h.current⟩⟩
      · obtain ⟨b, hb, hzero⟩ := h.zero
        exact ⟨b, List.mem_append_left _ hb, hzero⟩
      · intro b hb
        rcases List.mem_append.mp hb with hb | hb
        · exact h.others b hb
        · rw [List.mem_singleton.mp hb]
          rcases h.others a ha with hzero | ⟨hs', -⟩
          · exact Or.inl (by rw [hsrc, hcur, hzero])
          · rw [hsrc, hcur] at hk
            exact absurd (hk.unique hs') hne
    · refine Or.inl ⟨_, _, Walk.step_inMove hstop hadv hne hleave hsrc,
        hat.inMove hscan hk hne hleave, ?_⟩
      by_cases hout : ∃ a ∈ done, c.intervals.Mem c.shard a.src
      · -- the pending edges, some of them out-edges, go to the main file
        have hgt : c.shard < k := by
          obtain ⟨b, hb, hs'⟩ := hout
          have := hs'.mono hk (EdgeWithValue.src_le_of_sortKey_le (hscan.le hb))
          omega
        rw [h.log, List.nil_append, hpendEq]
        refine .spoiled (h.spoiled hscan hk hgt hout (Or.inr rfl) rfl rfl ?_)
        intro j _ hjs
        exact Function.update_of_ne hjs _ _
      · exact .sound (h.moved hat hscan hk hne hsrc hout)

/-! ### Beyond the own interval -/

/-- An edge after one beyond the own interval is beyond it as well, and
does not leave the out-edges. -/
theorem Beyond.next (hat : w.At c done log) (hscan : Scan c (done ++ e :: rest))
    (h : Beyond c w) (hk : c.intervals.Mem k e.src) :
    c.shard < k ∧ ¬(k = c.shard + 1 ∧ w.willout = true) := by
  obtain ⟨k', hk', hgt⟩ := h.sliding
  rcases hat.init_or_last with ⟨-, rfl, -⟩ | ⟨a, -, -, ha, -, k'', hk'', hmem⟩
  · simp [Walk.init] at hk'
  · obtain rfl : k' = k'' := Option.some.inj (hk'.symm.trans hk'')
    have hle := hmem.mono hk (EdgeWithValue.src_le_of_sortKey_le (hscan.le ha))
    refine ⟨by omega, fun hleave => ?_⟩
    obtain ⟨k₁, hk₁, hcase⟩ := hat.past hleave.2
    obtain rfl : k₁ = k' := Option.some.inj (hk₁.symm.trans hk')
    omega

/-- Beyond the own interval `ZeroHead` stays. -/
theorem Beyond.zeroHead (hat : w.At c done log) (hscan : Scan c (done ++ e :: rest))
    (h : Beyond c w) (hk : c.intervals.Mem k e.src) (hz : ZeroHead c done) :
    ZeroHead c (done ++ [e]) := by
  obtain ⟨hgt, -⟩ := h.next hat hscan hk
  obtain ⟨hs, ⟨a, ha, hzero⟩, hfirst, hcase⟩ := hz
  refine ⟨hs, ⟨a, List.mem_append_left _ ha, hzero⟩, fun b hb => ?_, Or.inl ?_⟩
  · rcases List.mem_append.mp hb with hb | hb
    · exact hfirst b hb
    · rw [List.mem_singleton.mp hb]
      have hs : c.shard < c.intervals.nshards := lt_trans hgt hk.1
      have := second_lt_src hk hgt
      have := IntervalPartition.first_le hs
      omega
  · rcases hcase with ⟨o, ho, hmem⟩ | hz
    · exact ⟨o, List.mem_append_left _ ho, hmem⟩
    · -- the walk is beyond the own interval, so not all sources are 0
      obtain ⟨k', hk', hgt'⟩ := h.sliding
      obtain ⟨b, -, -, hb, -, k'', hk'', hmem⟩ :=
        hat.init_or_last.resolve_left fun hinit => by
          rw [hinit.1] at ha
          exact List.not_mem_nil ha
      obtain rfl : k' = k'' := Option.some.inj (hk'.symm.trans hk'')
      have := shard_of_zero hmem (hz b hb)
      omega

/-- And so does `Jump`. -/
theorem Beyond.jump (hat : w.At c done log) (hscan : Scan c (done ++ e :: rest))
    (h : Beyond c w) (hk : c.intervals.Mem k e.src) (hj : Jump c done) :
    Jump c (done ++ [e]) := by
  obtain ⟨hgt, -⟩ := h.next hat hscan hk
  refine hj.append hk ?_
  obtain ⟨-, ⟨b, hb, -⟩, hnext⟩ := hj
  obtain ⟨k', hk', hgt'⟩ := h.sliding
  obtain ⟨a, -, -, ha, -, k'', hk'', hmem⟩ := hat.init_or_last.resolve_left
    fun hinit => List.ne_nil_of_mem hb hinit.1
  obtain rfl : k' = k'' := Option.some.inj (hk'.symm.trans hk'')
  have hle := hmem.mono hk (EdgeWithValue.src_le_of_sortKey_le (hscan.le ha))
  have : k' ≠ c.shard + 1 := fun hs => hnext a ha (hs ▸ hmem)
  omega

/-- **A step of a spoiled walk** leaves it spoiled: the sources are beyond the
interval, and nothing goes to the wrong file any more, nor out of it. -/
theorem Spoiled.step (hat : w.At c done log) (hscan : Scan c (done ++ e :: rest))
    (h : Spoiled c done log w) (hk : c.intervals.Mem k e.src) : Steps c done rest w e := by
  have hstop := hscan.here.stopper
  have hadv := hat.advance hscan hk
  obtain ⟨hgt, hleave⟩ := h.beyond.next hat hscan hk
  have hne : k ≠ c.shard := by omega
  have hzeroHead := h.beyond.zeroHead hat hscan hk h.zeroHead
  have hnoOther := not_otherOut_append hk hne h.noOther
  by_cases hsrc : e.src = w.curvid
  · exact Or.inl ⟨_, log, Walk.step_inStay hstop hadv hne hleave hsrc,
      hat.inStay hscan hk hne hleave hsrc, .spoiled ⟨⟨⟨k, rfl, hgt⟩, h.beyond.current⟩,
        hzeroHead, hnoOther, h.wrong, h.files, h.wsl⟩⟩
  · refine Or.inl ⟨_, _, Walk.step_inMove hstop hadv hne hleave hsrc,
      hat.inMove hscan hk hne hleave, .spoiled ⟨⟨⟨k, rfl, hgt⟩, rfl⟩, hzeroHead, hnoOther,
        ?_, ?_, ?_⟩⟩
    · refine h.wrong.imp ?_ fun ⟨x, hx, hbad⟩ => ⟨x, List.mem_append_left _ hx, hbad⟩
      rintro ⟨⟨x, hx, hbad⟩, hrow⟩
      refine ⟨⟨x, List.mem_append_left _ hx, hbad⟩, ?_⟩
      show HeldRow c (Function.update w.wsl c.shard _ 0)
      rw [Function.update_of_ne h.zeroHead.1.symm]
      exact hrow
    · intro x hx
      rcases List.mem_append.mp hx with hx | hx
      · exact h.files x hx
      · exact Or.inr (Log.mem_writes.mp hx).1
    · intro j hj0 hjs
      show Function.update w.wsl c.shard _ j = _
      rw [Function.update_of_ne hjs]
      exact h.wsl j hj0 hjs

/-- **A step of a walk that has jumped** leaves it so: there are no out-edges
any more, and the rows that follow belong to the main file. -/
theorem Jumped.step (hat : w.At c done log) (hscan : Scan c (done ++ e :: rest))
    (h : Jumped c done (e :: rest) log w) (hk : c.intervals.Mem k e.src) :
    Steps c done rest w e := by
  have hstop := hscan.here.stopper
  have hadv := hat.advance hscan hk
  obtain ⟨hgt, hleave⟩ := h.beyond.next hat hscan hk
  have hne : k ≠ c.shard := by omega
  have hdst := hscan.here.dst_of_src hk hne
  obtain ⟨-, ⟨b, hb, -⟩, -⟩ := h.jump
  -- the edge at the head is the one it was
  have hnoZero : ¬ZeroHead c (done ++ [e]) := fun hz =>
    h.noZeroHead (hz.of_append hscan (List.ne_nil_of_mem hb))
  have hjump := h.beyond.jump hat hscan hk h.jump
  obtain ⟨l, hl, hlbad, hmem, hothers⟩ := h.wrong
  -- another edge of the row, or the first of the next
  by_cases hsrc : e.src = w.curvid
  · refine Or.inl ⟨_, log, Walk.step_inStay hstop hadv hne hleave hsrc,
      hat.inStay hscan hk hne hleave hsrc, .jumped ⟨⟨⟨k, rfl, hgt⟩, h.beyond.current⟩, ?_,
        hnoZero, hjump, ⟨l, hl.append hk hne, hlbad, hmem, hothers⟩, ?_⟩⟩
    rotate_left
    · rw [← List.append_cons]
      exact h.wrote
    intro a ha
    rcases List.mem_append.mp ha with ha | ha
    · exact h.pendDst a ha
    · rw [List.mem_singleton.mp ha]
      exact hdst
  · refine Or.inl ⟨_, _, Walk.step_inMove hstop hadv hne hleave hsrc,
      hat.inMove hscan hk hne hleave, .jumped ⟨⟨⟨k, rfl, hgt⟩, rfl⟩, ?_, hnoZero, hjump,
        ⟨l, hl.append hk hne, hlbad, List.mem_append_left _ hmem, ?_⟩, fun j hj => ?_⟩⟩
    · intro a ha
      rw [List.mem_singleton.mp ha]
      exact hdst
    · intro x hx
      rcases List.mem_append.mp hx with hx | hx
      · exact hothers x hx
      · obtain ⟨hfst, hsnd⟩ := Log.mem_writes.mp hx
        rw [hfst]
        exact Or.inl (h.pendDst _ hsnd)
    · rw [← List.append_cons]
      show Walk.HoldsRows c _ _ j (Function.update w.wsl c.shard _ j)
      rw [Function.update_of_ne hj]
      unfold Walk.HoldsRows
      rw [Log.rowsOf_append_writes_of_ne hj]
      exact h.wrote j hj

/-- **Every step** from a mode leads to a mode, or fails as `ZeroHead` and
another out-edge make it. -/
theorem Mode.step (hat : w.At c done log) (hscan : Scan c (done ++ e :: rest))
    (h : Mode c done (e :: rest) log w) : Steps c done rest w e := by
  obtain ⟨k, hk⟩ := hscan.here.src
  by_cases hne : k = c.shard
  · subst hne
    cases h with
    | sound h => exact h.stepOut hat hscan hk
    | held h => exact h.stepOut hat hscan hk
    | spoiled h => exact h.step hat hscan hk
    | jumped h => exact h.step hat hscan hk
  · cases h with
    | sound h =>
      by_cases hleave : k = c.shard + 1 ∧ w.willout = true
      · obtain ⟨rfl, hw⟩ := hleave
        exact h.stepLeave hat hscan hk hw
      · exact h.stepIn hat hscan hk hne hleave
    | held h => exact h.stepIn hat hscan hk hne
    | spoiled h => exact h.step hat hscan hk
    | jumped h => exact h.step hat hscan hk

end Step

/-! ## Whole runs -/

/-- Before the first edge the rows are right. -/
theorem Sound.init {c : Params} {L : List (EdgeWithValue V)} (hscan : Scan c L) :
    Sound c [] L [] (Walk.init c : Walk V) where
  placed := .init
  rows := .init hscan L
  noZeroHead h := by
    obtain ⟨-, ⟨a, ha, -⟩, -⟩ := h
    exact absurd ha List.not_mem_nil
  noJump h := by
    obtain ⟨-, ⟨a, ha, -⟩, -⟩ := h
    exact absurd ha List.not_mem_nil

/-- A failure at a prefix accounts for the whole list. -/
theorem ZeroHead.extend {c : Params} {done rest : List (EdgeWithValue V)}
    {e : EdgeWithValue V} (hscan : Scan c (done ++ e :: rest))
    (hk : c.intervals.Mem c.shard e.src) (h : ZeroHead c (done ++ [e])) :
    ZeroHead c (done ++ e :: rest) := by
  obtain ⟨hs, ⟨a, ha, hzero⟩, hfirst, -⟩ := h
  have hsub : ∀ b ∈ done ++ [e], b ∈ done ++ e :: rest := by
    intro b hb
    rcases List.mem_append.mp hb with hb | hb
    · exact List.mem_append_left _ hb
    · rw [List.mem_singleton.mp hb]
      simp
  refine ⟨hs, ⟨a, hsub a ha, hzero⟩, fun b hb => ?_, Or.inl ⟨e, by simp, hk⟩⟩
  rcases List.mem_append.mp hb with hb | hb
  · exact hfirst b (List.mem_append_left _ hb)
  · rcases List.mem_cons.mp hb with rfl | hb
    · exact hfirst b (by simp)
    · exact Or.inr (hk.2.1.trans (EdgeWithValue.src_le_of_sortKey_le (hscan.ge hb)))

/-- **Every run** over sorted edges ends in a mode, or fails as `ZeroHead`
and another out-edge make it. -/
theorem run_mode {c : Params} {done rest : List (EdgeWithValue V)} {log : Log V}
    {w : Walk V} (hscan : Scan c (done ++ rest)) (hat : w.At c done log)
    (h : Mode c done rest log w) :
    (∃ w' log', w.run c rest = some w' ∧ w'.At c (done ++ rest) log'
        ∧ Mode c (done ++ rest) [] log' w')
      ∨ w.run c rest = none ∧ ZeroHead c (done ++ rest) ∧ OtherOut c (done ++ rest) := by
  induction rest generalizing done log w with
  | nil => exact Or.inl ⟨w, log, rfl, by simpa using hat, by simpa using h⟩
  | cons e rest ih =>
    have happend : done ++ e :: rest = (done ++ [e]) ++ rest := by simp
    rcases h.step hat hscan with ⟨w', log', hstep, hat', h'⟩ | ⟨hstep, hk, hz, ho⟩
    · rw [Walk.run, hstep, Option.bind_some, happend]
      exact ih (by rw [← happend]; exact hscan) hat' h'
    · refine Or.inr ⟨by rw [Walk.run, hstep, Option.bind_none], hz.extend hscan hk, ?_⟩
      obtain ⟨a, ha, hs, hbad⟩ := ho
      rw [happend]
      exact ⟨a, List.mem_append_left _ ha, hs, hbad⟩


/-- A run from the start. -/
theorem run_init {c : Params} {L : List (EdgeWithValue V)} (hscan : Scan c L) :
    (∃ (w : Walk V) (log : Log V), (Walk.init c).run c L = some w ∧ w.At c L log
        ∧ Mode c L [] log w)
      ∨ (Walk.init c : Walk V).run c L = none ∧ ZeroHead c L ∧ OtherOut c L := by
  have hscan' : Scan c ([] ++ L) := hscan
  exact run_mode hscan' .init (.sound (.init hscan))

end Reshard
