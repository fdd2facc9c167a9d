import Mathlib
import DpdkGraph.DampedSums
import DpdkGraph.SsspRuns

/-!
# Ranks

In iteration 0 a vertex gets the value 0.15, and each of its out-edges an
equal share of 1. From then on it adds what its in-edges have, damps the sum,
and gives each of its out-edges an equal share of what comes out. The program
is taken over any arithmetic, as that of the machine rounds and depends on
the order of the summands.

The workers of a job compute the same ranks in any order of their requests,
and the partition does not show in them, to the last bit (`rank`): the
in-edges are added in the order of the graph. With exact arithmetic they come
closer and closer to the only solution of the equations of the ranks.
-/

namespace VertexProgram

namespace Update

variable {V E α β : Type}

theorem bind_done (u : Update V E α) : u.bind done = u := by
  induction u with
  | done a => rfl
  | getData next ih => exact congrArg getData (funext ih)
  | setData d next ih => exact congrArg (setData d) ih
  | getEdge side i next ih => exact congrArg (getEdge side i) (funext ih)
  | setEdge side i y next ih => exact congrArg (setEdge side i y) ih

theorem bind_assoc {γ : Type} (u : Update V E α) (f : α → Update V E β)
    (g : β → Update V E γ) :
    (u.bind f).bind g = u.bind fun a => (f a).bind g := by
  induction u with
  | done a => rfl
  | getData next ih => exact congrArg getData (funext ih)
  | setData d next ih => exact congrArg (setData d) ih
  | getEdge side i next ih => exact congrArg (getEdge side i) (funext ih)
  | setEdge side i y next ih => exact congrArg (setEdge side i y) ih

instance : LawfulMonad (Update V E) :=
  LawfulMonad.mk' (Update V E) bind_done (fun _ _ => rfl) bind_assoc

/-! ## Loops over the edges of a vertex -/

/-- A loop that reads the in-edges. -/
theorem outcome_foldlM_inedge {f : β → E → β} (d : V) (outs new : List E)
    (ins : List E) : ∀ (m : ℕ) (b : β), m ≤ ins.length →
      ((List.range m).foldlM (fun b i =>
        (getEdge .inedge i fun y => done (f b y) : Update V E β)) b).outcome d
          ins outs new = some ((ins.take m).foldl f b, d, new) := by
  intro m
  induction m with
  | zero => intro b _; rfl
  | succ m ih =>
    intro b hm
    have hlt : m < ins.length := hm
    rw [List.range_succ, List.foldlM_append]
    show (Update.bind _ _).outcome _ _ _ _ = _
    rw [outcome_bind, ih b hlt.le, Option.bind_some]
    show (ins[m]?.bind _) = _
    rw [List.getElem?_eq_getElem hlt, List.take_succ_eq_append_getElem hlt,
      List.foldl_append]
    rfl

/-- A loop that sets all out-edges to the same value. -/
theorem outcome_forM_outedge (y : E) (d : V) (ins outs new : List E) :
    ((List.range new.length).forM fun i =>
      (setEdge .outedge i y (done ()) : Update V E Unit)).outcome d ins outs
        new = some ((), d, List.replicate new.length y) := by
  -- the places before `m` are set
  have hloop : ∀ m ≤ new.length, ((List.range m).forM fun i =>
      (setEdge .outedge i y (done ()) : Update V E Unit)).outcome d ins outs
        new = some ((), d, List.replicate m y ++ new.drop m) := by
    intro m
    induction m with
    | zero => intro _; rfl
    | succ m ih =>
      intro hm
      have hlt : m < new.length := hm
      rw [List.range_succ, List.forM_eq_forM, List.forM_append]
      show (Update.bind _ _).outcome _ _ _ _ = _
      rw [outcome_bind, ← List.forM_eq_forM, ih hlt.le, Option.bind_some]
      show (if m < (List.replicate m y ++ new.drop m).length then _ else _) = _
      have hdrop : new.drop m = new[m] :: new.drop (m + 1) :=
        List.drop_eq_getElem_cons hlt
      rw [if_pos (by simp; omega), List.set_append_right _ _ (by simp),
        List.length_replicate, Nat.sub_self, hdrop, List.set_cons_zero,
        List.replicate_succ', List.append_assoc]
      rfl
  rw [hloop _ le_rfl, List.drop_length, List.append_nil]

end Update

namespace PageRank

open Update

/-! ## The program -/

/-- The arithmetic that the program uses, with its constants. -/
structure Arithmetic (F : Type) where
  /-- `float sum=0`. -/
  zero : F
  /-- `sum += val`. -/
  add : F → F → F
  /-- `RANDOMRESETPROB`. -/
  reset : F
  /-- `RANDOMRESETPROB + (1 - RANDOMRESETPROB) * sum`. -/
  damped : F → F
  /-- `1.0 / v.num_outedges()`. -/
  inverse : ℕ → F
  /-- `pagerank / v.num_outedges()`. -/
  divide : F → ℕ → F

variable {F : Type} (A : Arithmetic F)

/-- Sets all out-edges to `y`. -/
def writeOut (vertex : Vertex) (y : F) : Update F F Unit :=
  (List.range vertex.outedges.length).forM fun i =>
    setEdge .outedge i y (done ())

/-- Adds what the in-edges have. -/
def sumIn (vertex : Vertex) : Update F F F :=
  (List.range vertex.inedges.length).foldlM
    (fun sum i => getEdge .inedge i fun val => done (A.add sum val)) A.zero

/-- **`update` of `pagerank.cpp`.** The bits that tell which vertices have
converged change no value and are left out. -/
def update (iteration : ℕ) (vertex : Vertex) : Update F F Unit :=
  if iteration = 0 then do
    writeOut vertex (A.inverse vertex.outedges.length)
    setData A.reset (done ())
  else do
    let sum ← sumIn A vertex
    let pagerank := A.damped sum
    if vertex.outedges.length > 0 then
      writeOut vertex (A.divide pagerank vertex.outedges.length)
    setData pagerank (done ())

/-- The value that an update gives to its vertex. -/
def ranked (iteration : ℕ) (ins : List F) : F :=
  if iteration = 0 then A.reset else A.damped (ins.foldl A.add A.zero)

/-- The value that an update gives to its `n` out-edges. -/
def passed (iteration : ℕ) (rank : F) (n : ℕ) : F :=
  if iteration = 0 then A.inverse n else A.divide rank n

/-- **What an update comes to** that is let alone: the rank from the in-edges,
and a share of it for each out-edge. -/
theorem outcome_update (iteration : ℕ) (vertex : Vertex) (d : F)
    {ins outs new : List F} (hins : vertex.inedges.length = ins.length)
    (hnew : vertex.outedges.length = new.length) :
    (update A iteration vertex).outcome d ins outs new =
      some ((), ranked A iteration ins, List.replicate new.length
        (passed A iteration (ranked A iteration ins) new.length)) := by
  have hwrite : ∀ (y d : F), (writeOut vertex y).outcome d ins outs new =
      some ((), d, List.replicate new.length y) := by
    intro y d
    unfold writeOut
    rw [hnew]
    exact outcome_forM_outedge y d ins outs new
  have hsum : (sumIn A vertex).outcome d ins outs new =
      some (ins.foldl A.add A.zero, d, new) := by
    unfold sumIn
    rw [hins, outcome_foldlM_inedge d outs new ins _ _ le_rfl, List.take_length]
  unfold update ranked passed
  split
  · show (Update.bind _ _).outcome _ _ _ _ = _
    rw [outcome_bind, hwrite, hnew]
    rfl
  · show (Update.bind _ _).outcome _ _ _ _ = _
    rw [outcome_bind, hsum, Option.bind_some]
    dsimp only
    split
    · show (Update.bind _ _).outcome _ _ _ _ = _
      rw [outcome_bind, hwrite, hnew]
      rfl
    · next hnone =>
      obtain rfl : new = [] := List.eq_nil_of_length_eq_zero (by omega)
      rfl

theorem writeOut_oneWay (vertex : Vertex) (y : F) :
    (writeOut vertex y).OneWay := by
  unfold writeOut
  refine OneWay.forM (fun i => ?_) _
  exact ⟨rfl, trivial⟩

theorem update_oneWay (iteration : ℕ) (vertex : Vertex) :
    (update A iteration vertex).OneWay := by
  unfold update
  split
  · exact OneWay.bind (writeOut_oneWay vertex _) fun _ => trivial
  · refine OneWay.bind ?_ fun sum => ?_
    · unfold sumIn
      refine OneWay.foldlM (fun sum i => ?_) _ _
      exact ⟨rfl, fun _ => trivial⟩
    · dsimp only
      split
      · exact OneWay.bind (writeOut_oneWay vertex _) fun _ => trivial
      · trivial

theorem update_orderFree : OrderFree (update A) := by
  intro iteration id d ins outs outs' hperm _ d₁ new h
  rw [outcome_update _ _ _ _ (by simp) (by simp)] at h
  obtain ⟨rfl, rfl⟩ := Prod.mk.inj (Prod.mk.inj (Option.some.inj h)).2
  refine ⟨_, outcome_update _ _ _ _ (by simp) (by simp), ?_⟩
  have hzip : ∀ (l : List (ℕ × ℕ × F)) (y : F),
      (l.map Prod.fst).zip (List.replicate (l.map fun o => o.2.2).length y) =
        l.map fun o => (o.1, y) := by
    intro l y
    have hconst : List.replicate (l.map fun o => o.2.2).length y =
        l.map fun _ => y := by rw [List.map_const', List.length_map]
    rw [hconst, List.zip_map']
  rw [hzip, hzip, List.length_map, List.length_map, hperm.length_eq]
  exact hperm.map _

end PageRank

end VertexProgram

namespace Engine

open VertexProgram VertexProgram.PageRank
open Transition (Run exists_run)

theorem transparent_pageRank {F : Type} (A : Arithmetic F) :
    Transparent (PageRank.update A) where
  outOnly i vertex := (update_oneWay A i vertex).outOnly
  readsFirst i vertex := (update_oneWay A i vertex).readsFirst _
  orderFree := update_orderFree A

/-! ## The ranks of a graph -/

namespace Input

variable {F : Type}

/-- The number of out-edges of a vertex. -/
def outDegree (x : Input F F) (u : ℕ) : ℕ := (x.edgesAt .outedge u).length

/-- **The ranks after `i` iterations**, one iteration after the other. -/
def rank (A : Arithmetic F) (x : Input F F) : ℕ → ℕ → F
  | 0, v => x.value v
  | 1, _ => A.reset
  | i + 2, v => A.damped (((x.edgesAt .inedge v).map fun n =>
      passed A i (rank A x (i + 1) n.1.src) (x.outDegree n.1.src)).foldl
        A.add A.zero)

end Input

section

variable {F : Type} {A : Arithmetic F} {x : Input F F}

/-- An iteration, for one vertex and its out-edges. -/
theorem next_pageRank (hprogram : x.program = PageRank.update A) (i : ℕ)
    (l : Values F F) (v : ℕ) :
    (x.next i l).value v =
        ranked A i ((x.edgesAt .inedge v).map l.edge) ∧
      ∀ n ∈ x.edgesAt .outedge v, (x.next i l).edge n =
        passed A i ((x.next i l).value v) (x.outDegree v) := by
  have hfree : OrderFree x.program := by
    rw [hprogram]
    exact update_orderFree A
  have hins : (x.insAt l v).map Prod.snd = (x.edgesAt .inedge v).map l.edge := by
    unfold Input.insAt
    rw [List.map_map]
    rfl
  have hlen : ((Input.outsAt l (x.edgesAt .outedge v)).map
      fun o => o.2.2).length = x.outDegree v := by
    simp [Input.outsAt, Input.outDegree]
  have hout : x.updateOf i l v (x.edgesAt .outedge v) =
      some ((), ranked A i ((x.edgesAt .inedge v).map l.edge),
        List.replicate (x.outDegree v) (passed A i
          (ranked A i ((x.edgesAt .inedge v).map l.edge)) (x.outDegree v))) := by
    unfold Input.updateOf
    rw [hprogram, outcome_update _ _ _ _ (by simp) (by simp), hlen, hins]
  have hreplicate : ∀ y : F, (List.replicate (x.outDegree v) y).length =
      (x.edgesAt .outedge v).length := fun y => List.length_replicate
  obtain ⟨hvalue, hedge⟩ := next_of_updateOf hfree (List.Perm.refl _)
    (hreplicate _) hout
  refine ⟨hvalue, fun n hn => ?_⟩
  obtain ⟨j, hj⟩ := List.mem_iff_getElem?.mp hn
  have hlt : j < x.outDegree v := (List.getElem?_eq_some_iff.mp hj).1
  have hnew := hedge j n hj
  rw [List.getElem?_replicate_of_lt hlt] at hnew
  rw [hvalue]
  exact (Option.some.inj hnew).symm

/-- What an edge has after an iteration. -/
theorem edge_pageRank (hprogram : x.program = PageRank.update A) {i : ℕ}
    (hvalue : ∀ v, (x.after (i + 1)).value v = x.rank A (i + 1) v)
    {n : EdgeWithValue F × ℕ} (hn : n ∈ x.numbered) :
    (x.after (i + 1)).edge n =
      passed A i (x.rank A (i + 1) n.1.src) (x.outDegree n.1.src) := by
  rw [← hvalue]
  exact (next_pageRank hprogram i (x.after i) n.1.src).2 n
    (mem_edgesAt.mpr ⟨hn, rfl⟩)

/-- **The meaning of the program are the ranks.** -/
theorem value_after_pageRank (hprogram : x.program = PageRank.update A) (i : ℕ) :
    ∀ v, (x.after i).value v = x.rank A i v := by
  induction i with
  | zero => exact fun _ => rfl
  | succ i ih =>
    intro v
    refine (next_pageRank hprogram i (x.after i) v).1.trans ?_
    cases i with
    | zero => rfl
    | succ i =>
      have hin : (x.edgesAt .inedge v).map (x.after (i + 1)).edge =
          (x.edgesAt .inedge v).map fun n =>
            passed A i (x.rank A (i + 1) n.1.src) (x.outDegree n.1.src) :=
        List.map_congr_left fun n hn =>
          edge_pageRank hprogram ih (mem_edgesAt.mp hn).1
      rw [hin]
      rfl

/-- What the workers compute is what the program means. -/
theorem value_eq_after {job : Job x} {s : State F F} {as : List Action}
    (hprogram : x.program = PageRank.update A) (hgaps : NoGaps x job.part)
    (hcopied : Copied job)
    (hrun : Run (step job) AfterCompute (init job) as s) {w v : ℕ}
    (hv : job.part.Mem w v) (hphase : (s.worker w).phase ≠ .computing) :
    (s.worker w).value v = (x.after (s.worker w).computed).value v := by
  have htransparent : Transparent x.program := by
    rw [hprogram]
    exact transparent_pageRank A
  exact (follows_of_run htransparent hgaps hcopied hrun).2.value w v hv hphase

/-- **The workers compute the ranks**, with any arithmetic, in any partition
and any order of their requests. -/
theorem value_eq_rank {job : Job x} {s : State F F} {as : List Action}
    (hprogram : x.program = PageRank.update A) (hgaps : NoGaps x job.part)
    (hcopied : Copied job)
    (hrun : Run (step job) AfterCompute (init job) as s) {w v : ℕ}
    (hv : job.part.Mem w v) (hphase : (s.worker w).phase ≠ .computing) :
    (s.worker w).value v = x.rank A (s.worker w).computed v :=
  (value_eq_after hprogram hgaps hcopied hrun hv hphase).trans
    (value_after_pageRank hprogram _ v)

end

/-! ## Exact arithmetic -/

/-- The arithmetic of a field. -/
def exactArithmetic (K : Type) [Field K] : Arithmetic K where
  zero := 0
  add := (· + ·)
  reset := 15 / 100
  damped sum := 15 / 100 + (1 - 15 / 100) * sum
  inverse n := 1 / n
  divide rank n := rank / n

/-- **The equations of the ranks** of the vertices below `n`: a vertex has
what is left to every vertex, and what comes in along its in-edges from
vertices that divide what they have among their out-edges. -/
def SolvesRanks (x : Input ℝ ℝ) (n : ℕ) (r : ℕ → ℝ) : Prop :=
  ∀ v < n, r v = 15 / 100 + (1 - 15 / 100) *
    ((x.edgesAt .inedge v).map fun e => r e.1.src / x.outDegree e.1.src).sum

section

variable {x : Input ℝ ℝ} {n : ℕ}

/-- The equations of the ranks are those of a step of damped sums. -/
theorem solvesRanks_iff (r : ℕ → ℝ) :
    SolvesRanks x n r ↔ DampedSums.Fixed (fun e => e.1.src) (fun e => e.1.dst)
      x.numbered (1 - 15 / 100) (15 / 100) (Finset.range n) r := by
  unfold SolvesRanks DampedSums.Fixed
  refine forall_congr' fun v => ?_
  rw [Finset.mem_range]
  rfl

/-- The ranks after iteration `i + 1` are damped sums, where everyone begins
with 1. -/
theorem rank_exactArithmetic (i : ℕ) :
    x.rank (exactArithmetic ℝ) (i + 2) =
      DampedSums.iterate (fun e => e.1.src) (fun e => e.1.dst) x.numbered
        (1 - 15 / 100) (15 / 100) (fun _ => 1) (i + 1) := by
  induction i with
  | zero =>
    funext v
    show 15 / 100 + (1 - 15 / 100) * List.foldl (· + ·) 0 _ =
      15 / 100 + (1 - 15 / 100) * List.sum _
    rw [List.sum_eq_foldl]
    rfl
  | succ i ih =>
    funext v
    have hstep : x.rank (exactArithmetic ℝ) (i + 1 + 2) v =
        DampedSums.step (fun e => e.1.src) (fun e => e.1.dst) x.numbered
          (1 - 15 / 100) (15 / 100) (x.rank (exactArithmetic ℝ) (i + 2)) v := by
      show 15 / 100 + (1 - 15 / 100) * List.foldl (· + ·) 0 _ =
        15 / 100 + (1 - 15 / 100) * List.sum _
      rw [List.sum_eq_foldl]
      rfl
    rw [hstep, ih]
    rfl

/-- A solution is no farther from 1, in the sum, than twice the number of the
vertices. -/
theorem SolvesRanks.sum_abs_le (hbound : ∀ e ∈ x.edges, e.src < n ∧ e.dst < n)
    {r : ℕ → ℝ} (hr : SolvesRanks x n r) :
    ∑ v ∈ Finset.range n, |1 - r v| ≤ 2 * n := by
  have hmem : ∀ e ∈ x.numbered, e.1.src ∈ Finset.range n ∧
      e.1.dst ∈ Finset.range n := fun e he => by
    rw [Finset.mem_range, Finset.mem_range]
    exact hbound e.1 (mem_of_numbered he)
  have hsum := ((solvesRanks_iff r).mp hr).sum_abs_le
    (fun e he => (hmem e he).1) (fun e he => (hmem e he).2) (by norm_num)
  have habs : |(15 / 100 : ℝ)| = 15 / 100 := abs_of_nonneg (by norm_num)
  rw [Finset.card_range, habs] at hsum
  calc ∑ v ∈ Finset.range n, |1 - r v|
      ≤ ∑ v ∈ Finset.range n, (1 + |r v|) := by
        refine Finset.sum_le_sum fun v _ => ?_
        exact (abs_sub _ _).trans (by rw [abs_one])
    _ = n + ∑ v ∈ Finset.range n, |r v| := by
        rw [Finset.sum_add_distrib, Finset.sum_const, Finset.card_range,
          nsmul_eq_mul, mul_one]
    _ ≤ 2 * n := by linarith

/-- **The workers come closer and closer to the only solution** of the
equations of the ranks, by the factor 0.85 in each iteration, in any partition
and any order of their requests. -/
theorem abs_value_sub_le (hprogram : x.program =
      PageRank.update (exactArithmetic ℝ))
    (hbound : ∀ e ∈ x.edges, e.src < n ∧ e.dst < n) :
    ∃ r, SolvesRanks x n r ∧
      (∀ z, SolvesRanks x n z → ∀ v < n, z v = r v) ∧
      ∀ (job : Job x) (as : List Action) (s : State ℝ ℝ), NoGaps x job.part →
        Copied job → Run (step job) AfterCompute (init job) as s →
          ∀ w, ∀ v < n, ∀ i, job.part.Mem w v →
            (s.worker w).phase ≠ .computing → (s.worker w).computed = i + 2 →
              |(s.worker w).value v - r v| ≤ (1 - 15 / 100) ^ (i + 1) * (2 * n) := by
  have hmem : ∀ e ∈ x.numbered, e.1.src ∈ Finset.range n ∧
      e.1.dst ∈ Finset.range n := fun e he => by
    rw [Finset.mem_range, Finset.mem_range]
    exact hbound e.1 (mem_of_numbered he)
  have hsrc := fun e he => (hmem e he).1
  have hdst := fun e he => (hmem e he).2
  obtain ⟨r, hr⟩ := DampedSums.exists_fixed (q := 1 - 15 / 100) (a := 15 / 100)
    hsrc hdst (by norm_num) (by norm_num)
  refine ⟨r, (solvesRanks_iff r).mpr hr, fun z hz v hv => ?_,
    fun job as s hgaps hcopied hrun w v hv i hvw hphase hcomputed => ?_⟩
  · exact ((solvesRanks_iff z).mp hz).unique hsrc hdst (by norm_num)
      (by norm_num) hr v (Finset.mem_range.mpr hv)
  · rw [value_eq_after hprogram hgaps hcopied hrun hvw hphase, hcomputed,
      value_after_pageRank hprogram, rank_exactArithmetic]
    have hclose := DampedSums.sum_abs_iterate_sub_le (y := fun _ => 1) hsrc hdst
      (by norm_num) hr (i + 1)
    have hone := Finset.single_le_sum (f := fun v =>
      |DampedSums.iterate (fun e => e.1.src) (fun e => e.1.dst) x.numbered
        (1 - 15 / 100) (15 / 100) (fun _ => 1) (i + 1) v - r v|)
      (fun u _ => abs_nonneg _) (Finset.mem_range.mpr hv)
    refine (hone.trans hclose).trans (mul_le_mul_of_nonneg_left ?_ (by positivity))
    exact ((solvesRanks_iff r).mpr hr).sum_abs_le hbound

end

/-! ## A cycle -/

/-- The cycle of four vertices. -/
noncomputable def fourCycle : Input ℝ ℝ where
  edges := [⟨0, 1, 0⟩, ⟨1, 2, 0⟩, ⟨2, 3, 0⟩, ⟨3, 0, 0⟩]
  sorted := by simp
  noloop := by simp
  program := PageRank.update (exactArithmetic ℝ)
  value := fun _ => 0

noncomputable def fourCycleApart : Job fourCycle where
  part := separate
  covered e he := by
    have h0 : separate.Mem 0 0 := by decide
    have h1 : separate.Mem 0 1 := by decide
    have h2 : separate.Mem 1 2 := by decide
    have h3 : separate.Mem 1 3 := by decide
    simp only [fourCycle, List.mem_cons, List.not_mem_nil, or_false] at he
    rcases he with rfl | rfl | rfl | rfl
    · exact ⟨⟨0, h0⟩, 0, h1⟩
    · exact ⟨⟨0, h1⟩, 1, h2⟩
    · exact ⟨⟨1, h2⟩, 1, h3⟩
    · exact ⟨⟨1, h3⟩, 0, h0⟩
  outedges w v := (loadBeforeUpdates fourCycle separate w).edges .outedge v
  added _ _ := List.Perm.refl _
  copied _ _ := true
  blank _ _ := 0

/-- Two iterations, which end with the exchange. -/
def twoRounds : List Action :=
  [.begin 0, .begin 1] ++ requests 1 2 2 ++ requests 0 0 2 ++ requests 0 1 2 ++
    requests 1 3 2 ++ exchange ++ [.begin 1, .begin 0] ++ requests 0 1 2 ++
    requests 1 2 3 ++ requests 0 0 3 ++ requests 1 3 3 ++ requests 0 1 1 ++ exchange

theorem loadable_fourCycle : Loadable fourCycle separate := by
  unfold Loadable
  decide +kernel

theorem exists_twoRounds :
    ∃ s, Run (step fourCycleApart) AfterCompute (init fourCycleApart)
        twoRounds s ∧
      ∀ w < 2, (s.worker w).phase = .waiting ∧ (s.worker w).iter = 2 :=
  exists_run (step fourCycleApart) AfterCompute (init fourCycleApart)
    twoRounds
    (fun s => ∀ w < 2, (s.worker w).phase = .waiting ∧ (s.worker w).iter = 2)
    (by decide +kernel)

/-- The rank of vertex 2 after two iterations. -/
theorem value_eq_rank_fourCycle :
    ∃ s, Run (step fourCycleApart) AfterCompute (init fourCycleApart)
        twoRounds s ∧
      (s.worker 1).value 2 = fourCycle.rank (exactArithmetic ℝ)
        (s.worker 1).computed 2 := by
  obtain ⟨s, hrun, hend⟩ := exists_twoRounds
  have hmem : separate.Mem 1 2 := by decide
  exact ⟨s, hrun, value_eq_rank rfl loadable_fourCycle.noGaps (fun _ _ => rfl) hrun hmem
    (by rw [(hend 1 (by omega)).1]; simp)⟩

/-- How far the rank of vertex 2 may be off after two iterations. -/
theorem abs_value_sub_le_fourCycle :
    ∃ s r, Run (step fourCycleApart) AfterCompute (init fourCycleApart)
        twoRounds s ∧ SolvesRanks fourCycle 4 r ∧
      |(s.worker 1).value 2 - r 2| ≤
        (1 - 15 / 100) ^ 1 * (2 * ((4 : ℕ) : ℝ)) := by
  obtain ⟨s, hrun, hend⟩ := exists_twoRounds
  have hbound : ∀ e ∈ fourCycle.edges, e.src < 4 ∧ e.dst < 4 := by
    simp [fourCycle]
  obtain ⟨r, hr, -, hclose⟩ := abs_value_sub_le (x := fourCycle) rfl hbound
  obtain ⟨hphase, hiter⟩ := hend 1 (by omega)
  have hmem : separate.Mem 1 2 := by decide
  refine ⟨s, r, hrun, hr, hclose fourCycleApart twoRounds s loadable_fourCycle.noGaps
    (fun _ _ => rfl) hrun 1 2 (by omega) 0 hmem (by rw [hphase]; simp) ?_⟩
  rw [computed_of_computing (by rw [hphase]; simp), hiter]

end Engine
