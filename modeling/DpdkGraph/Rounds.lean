import Mathlib
import DpdkGraph.CallHistory

/-!
# The iterations go on

Where the calls ask only for edges that the vertices have, an iteration can
always be taken to its end: all workers begin, the calls return, every worker
sends its blocks to all the others, and when all blocks are stored the
iteration ends everywhere. So there are runs without an end (`Rounds`), which
is where one can ask what the labels settle at.

A worker may end its iteration before another one has got its block, which
then waits for good; the runs here store all blocks first.
-/

namespace Engine

open VertexProgram Update
open Transition (Run)

variable {V E : Type} {x : Input V E} {job : Job x} {s s' : State V E} {w i : ℕ}

/-- All workers wait for iteration `i`. -/
def Awaits (job : Job x) (s : State V E) (i : ℕ) : Prop :=
  ∀ w < job.workers, (s.worker w).phase = .waiting ∧ (s.worker w).iter = i

/-- **The states at the beginnings of the iterations of a run** that goes on
without an end. -/
structure Rounds (job : Job x) (t : ℕ → State V E) : Prop where
  start : t 0 = init job
  /-- From one state to the next the workers take steps. -/
  round : ∀ i, ∃ as, Run (step job) AfterCompute (t i) as (t (i + 1))
  /-- In state `i` they wait for iteration `i`. -/
  awaits : ∀ i, Awaits job (t i) i

theorem Rounds.history {t : ℕ → State V E} (h : Rounds job t) (hgaps : NoGaps x job.part)
    (hfresh : FreshProgram x.program) (i : ℕ) : History job (t i) := by
  induction i with
  | zero =>
    rw [h.start]
    exact .init
  | succ i ih =>
    obtain ⟨as, hrun⟩ := h.round i
    exact ih.run hgaps hfresh hrun

/-! ## What a step leaves -/

/-- The iterations do not go back. -/
theorem iter_le_of_step {a : Action} (hstep : step job s a = some s') (w : ℕ) :
    (s.worker w).iter ≤ (s'.worker w).iter := by
  cases a with
  | begin u =>
    have hstep : beginStep job s u = some s' := hstep
    unfold beginStep at hstep
    dsimp only at hstep
    split at hstep
    case isFalse => cases hstep
    case isTrue =>
      obtain rfl := Option.some.inj hstep
      exact (field_eq (s := s) (w := u) (y := { s.worker u with
        todo := fun v => x.program (s.worker u).iter (job.vertex u v)
        phase := .computing }) Worker.iter rfl w).ge
  | request u v =>
    obtain ⟨y, hworker, hiter, -⟩ := request_frame hstep
    rw [hworker]
    exact (field_eq Worker.iter hiter w).ge
  | finish u =>
    have hstep : finishStep job s u = some s' := hstep
    unfold finishStep at hstep
    split at hstep
    case isFalse => cases hstep
    case isTrue =>
      obtain rfl := Option.some.inj hstep
      exact (field_eq (s := s) (w := u) (y := { s.worker u with phase := .exchanging })
        Worker.iter rfl w).ge
  | deliver p u =>
    have hstep : deliverStep job s p u = some s' := hstep
    unfold deliverStep at hstep
    split at hstep
    case isFalse => cases hstep
    case isTrue =>
      obtain rfl := Option.some.inj hstep
      exact (field_eq (s := s) (w := u) (y := { s.worker u with
        memory := job.stored p u (s.worker p).memory (s.worker u).memory
        got := Function.update (s.worker u).got p true }) Worker.iter rfl w).ge
  | sync u =>
    have hstep : syncStep job s u = some s' := hstep
    unfold syncStep at hstep
    split at hstep
    case isFalse => cases hstep
    case isTrue =>
      obtain rfl := Option.some.inj hstep
      by_cases hwu : w = u
      · rw [hwu, setWorker_self]
        exact Nat.le_succ _
      · rw [setWorker_of_ne _ hwu]

/-- **The past stays**: a step does not change what the values have been,
because a write that is made now belongs to the iteration that is computed. -/
theorem History.dataAt_step (h : History job s) (hgaps : NoGaps x job.part) {a : Action}
    (hstep : Engine.step job s a = some s') {v : ℕ} (hv : job.part.Mem w v)
    (hi : i ≤ (s.worker w).iter) :
    dataAt job s'.writes w v i = dataAt job s.writes w v i := by
  cases a with
  | begin u =>
    have hstep : beginStep job s u = some s' := hstep
    unfold beginStep at hstep
    dsimp only at hstep
    split at hstep
    case isFalse => cases hstep
    case isTrue =>
      obtain rfl := Option.some.inj hstep
      rfl
  | request u v' =>
    obtain ⟨hv', hphase, -⟩ := request_cases hstep
    obtain ⟨y, -, -, -, -, hwrites | ⟨side, k, d, e, he, hwrites⟩⟩ := request_frame hstep
    · rw [hwrites]
    · -- the one step that writes: to an edge of a vertex that computes
      obtain ⟨n', hn', rfl⟩ := exists_object hgaps hv' (List.mem_of_getElem? he)
      rw [object_edge] at hwrites
      rw [hwrites]
      refine dataAt_congr (fun side' n hn j hj => ?_) le_rfl
      exact h.edges.edgeAt_cons hgaps hv hv' hn' hphase hn (hj.trans hi)
  | finish u =>
    have hstep : finishStep job s u = some s' := hstep
    unfold finishStep at hstep
    split at hstep
    case isFalse => cases hstep
    case isTrue =>
      obtain rfl := Option.some.inj hstep
      rfl
  | deliver p u =>
    have hstep : deliverStep job s p u = some s' := hstep
    unfold deliverStep at hstep
    split at hstep
    case isFalse => cases hstep
    case isTrue =>
      obtain rfl := Option.some.inj hstep
      rfl
  | sync u =>
    have hstep : syncStep job s u = some s' := hstep
    unfold syncStep at hstep
    split at hstep
    case isFalse => cases hstep
    case isTrue =>
      obtain rfl := Option.some.inj hstep
      rfl

theorem History.dataAt_run (h : History job s) (hgaps : NoGaps x job.part)
    (hfresh : FreshProgram x.program) {as : List Action}
    (hrun : Run (Engine.step job) AfterCompute s as s') {v : ℕ} (hv : job.part.Mem w v)
    (hi : i ≤ (s.worker w).iter) :
    dataAt job s'.writes w v i = dataAt job s.writes w v i := by
  have hall := hrun.invariant (I := fun s' => History job s' ∧ i ≤ (s'.worker w).iter ∧
    dataAt job s'.writes w v i = dataAt job s.writes w v i)
    (fun _ _ _ ⟨h, hi, hdata⟩ hok hstep => ⟨h.step hgaps hfresh hok hstep,
      hi.trans (iter_le_of_step hstep w), (h.dataAt_step hgaps hstep hv hi).trans hdata⟩)
    ⟨h, hi, rfl⟩
  exact hall.2.2

namespace Rounds

variable {t : ℕ → State V E} (h : Rounds job t)
include h

theorem run_le {i j : ℕ} (hij : i ≤ j) :
    ∃ as, Run (step job) AfterCompute (t i) as (t j) := by
  induction j, hij using Nat.le_induction with
  | base => exact ⟨[], Run.nil _⟩
  | succ j _ ih =>
    obtain ⟨as, hrun⟩ := ih
    obtain ⟨bs, hmore⟩ := h.round j
    exact ⟨as ++ bs, hrun.append hmore⟩

/-- **The values when an iteration begins** are those that the history of any
later state has. -/
theorem value_eq (hgaps : NoGaps x job.part) (hfresh : FreshProgram x.program) {v i j : ℕ}
    (hv : job.part.Mem w v) (hij : i ≤ j) :
    ((t i).worker w).value v = dataAt job (t j).writes w v i := by
  have hhistory := h.history hgaps hfresh i
  obtain ⟨hphase, hiter⟩ := h.awaits i w hv.1
  obtain ⟨as, hrun⟩ := h.run_le hij
  rw [hhistory.dataAt_run hgaps hfresh hrun hv hiter.ge]
  have hvalue := (hhistory.called w v hv).waiting hphase
  rw [hiter] at hvalue
  exact hvalue

end Rounds

/-! ## Single steps -/

theorem exists_begin (hw : w < job.workers) (hphase : (s.worker w).phase = .waiting)
    (hiter : ∀ u < job.workers, (s.worker w).iter ≤ (s.worker u).iter) :
    ∃ s' y, step job s (.begin w) = some s' ∧ s'.worker = Function.update s.worker w y ∧
      y.phase = .computing ∧ y.iter = (s.worker w).iter :=
  ⟨_, _, if_pos ⟨hw, hphase, hiter⟩, rfl, rfl, rfl⟩

theorem exists_finish (hw : w < job.workers) (hphase : (s.worker w).phase = .computing)
    (hdone : ∀ v, job.part.Mem w v → ((s.worker w).todo v).isDone = true) :
    ∃ s' y, step job s (.finish w) = some s' ∧ s'.worker = Function.update s.worker w y ∧
      y.phase = .exchanging ∧ y.iter = (s.worker w).iter :=
  ⟨_, _, if_pos ⟨hw, hphase, fun v hv hfirst => hdone v ⟨hw, hfirst, Nat.lt_succ_iff.mp hv⟩⟩,
    rfl, rfl, rfl⟩

theorem exists_deliver {p : ℕ} (hp : p < job.workers) (hw : w < job.workers) (hne : p ≠ w)
    (hphase : (s.worker p).phase = .exchanging) (hiter : (s.worker p).iter = (s.worker w).iter)
    (hgot : (s.worker w).got p = false) :
    ∃ s' y, step job s (.deliver p w) = some s' ∧ s'.worker = Function.update s.worker w y ∧
      y.phase = (s.worker w).phase ∧ y.iter = (s.worker w).iter ∧
      y.got = Function.update (s.worker w).got p true :=
  ⟨_, _, if_pos ⟨hp, hw, hne, hphase, hiter, hgot⟩, rfl, rfl, rfl, rfl⟩

theorem exists_sync (hw : w < job.workers) (hphase : (s.worker w).phase = .exchanging)
    (hgot : ∀ p < job.workers, p ≠ w → (s.worker w).got p = true) :
    ∃ s' y, step job s (.sync w) = some s' ∧ s'.worker = Function.update s.worker w y ∧
      y.phase = .waiting ∧ y.iter = (s.worker w).iter + 1 :=
  ⟨_, _, if_pos ⟨hw, hphase, hgot⟩, rfl, rfl, rfl⟩

/-! ## A call returns -/

/-- What the steps of one call leave as it was. -/
structure OnlyCall (s s' : State V E) (w v : ℕ) : Prop where
  others : ∀ u, u ≠ w → s'.worker u = s.worker u
  iter : (s'.worker w).iter = (s.worker w).iter
  phase : (s'.worker w).phase = (s.worker w).phase
  todo : ∀ u, u ≠ v → (s'.worker w).todo u = (s.worker w).todo u

theorem OnlyCall.refl (s : State V E) (w v : ℕ) : OnlyCall s s w v :=
  ⟨fun _ _ => rfl, rfl, rfl, fun _ _ => rfl⟩

theorem OnlyCall.trans {s'' : State V E} {v : ℕ} (h : OnlyCall s s' w v)
    (h' : OnlyCall s' s'' w v) : OnlyCall s s'' w v where
  others u hu := (h'.others u hu).trans (h.others u hu)
  iter := h'.iter.trans h.iter
  phase := h'.phase.trans h.phase
  todo u hu := (h'.todo u hu).trans (h.todo u hu)

theorem onlyCall_of_request {v : ℕ} (hstep : requestStep job s w v = some s') :
    OnlyCall s s' w v := by
  obtain ⟨y, hworker, hiter, hphase, hothers, -⟩ := request_frame hstep
  have hself : s'.worker w = y := by
    rw [hworker]
    exact Function.update_self _ _ _
  refine ⟨fun u hu => ?_, ?_, ?_, fun u hu => ?_⟩
  · rw [hworker]
    exact Function.update_of_ne hu _ _
  · rw [hself, hiter]
  · rw [hself, hphase]
  · rw [hself]
    exact (hothers u hu).2

section Calls

variable (hgaps : NoGaps x job.part) (hfresh : FreshProgram x.program)
include hgaps hfresh

/-- **A call returns.** The induction is on what is left of it: each request can
be answered, since the indices a call uses are those of edges the vertex has. -/
theorem exists_return {v : ℕ} (hv : job.part.Mem w v) (u : Update V E Unit) :
    ∀ s, History job s → (s.worker w).phase = .computing → (s.worker w).todo v = u →
      ∃ as s', Run (step job) AfterCompute s as s' ∧ History job s' ∧ OnlyCall s s' w v ∧
        ((s'.worker w).todo v).isDone = true := by
  -- one request, and then the rest of the call
  have hgo : ∀ {s s' : State V E} {next : Update V E Unit}, History job s →
      (s.worker w).phase = .computing → answer job s w v ((s.worker w).todo v) = some s' →
      (s'.worker w).todo v = next →
      (∀ s, History job s → (s.worker w).phase = .computing → (s.worker w).todo v = next →
        ∃ as s', Run (step job) AfterCompute s as s' ∧ History job s' ∧ OnlyCall s s' w v ∧
          ((s'.worker w).todo v).isDone = true) →
      ∃ as s', Run (step job) AfterCompute s as s' ∧ History job s' ∧ OnlyCall s s' w v ∧
        ((s'.worker w).todo v).isDone = true := by
    intro s s' next h hphase hanswer htodo hrest
    have hstep : requestStep job s w v = some s' := by
      unfold requestStep
      rw [if_pos ⟨hv, hphase⟩]
      exact hanswer
    have hok : AfterCompute s (.request w v) := trivial
    have hfirst := onlyCall_of_request hstep
    obtain ⟨as, s'', hrun, hhistory, honly, hdone⟩ :=
      hrest s' (h.step hgaps hfresh hok hstep) (hfirst.phase.trans hphase) htodo
    exact ⟨_, s'', Run.cons hok hstep hrun, hhistory, hfirst.trans honly, hdone⟩
  induction u with
  | done a =>
    intro s h hphase htodo
    exact ⟨[], s, Run.nil s, h, .refl s w v, by rw [htodo]; rfl⟩
  | getData next ih =>
    intro s h hphase htodo
    refine hgo h hphase (by rw [htodo]; rfl) ?_ (ih ((s.worker w).value v))
    rw [setWorker_self]
    exact Function.update_self _ _ _
  | setData d next ih =>
    intro s h hphase htodo
    refine hgo h hphase (by rw [htodo]; rfl) ?_ ih
    rw [setWorker_self]
    exact Function.update_self _ _ _
  | getEdge side k next ih =>
    intro s h hphase htodo
    -- the index is one of an edge there is
    obtain ⟨ws, -, hthere, -⟩ := (h.called w v hv).underWay (by rw [hphase]; simp)
    rw [htodo] at hthere
    have he := List.getElem?_eq_getElem hthere.1.1
    refine hgo h hphase (by rw [htodo, answer, he]; rfl) ?_
      (ih (((job.edges w side v).get ⟨k, hthere.1.1⟩).getData (s.worker w).memory))
    rw [setWorker_self]
    exact Function.update_self _ _ _
  | setEdge side k d next ih =>
    intro s h hphase htodo
    obtain ⟨ws, -, hthere, -⟩ := (h.called w v hv).underWay (by rw [hphase]; simp)
    rw [htodo] at hthere
    have he := List.getElem?_eq_getElem hthere.1
    refine hgo h hphase (by rw [htodo, answer, he]; rfl) ?_ ih
    dsimp only
    rw [setWorker_self]
    exact Function.update_self _ _ _

/-! ## The parts of an iteration -/

/-- **One worker after the other** takes a step, which changes nothing for those
that have yet to take theirs. -/
theorem exists_each {P Q : ℕ → Worker V E → Prop} {a : ℕ → Action}
    (hone : ∀ s, (∀ u < job.workers, P u (s.worker u) ∨ Q u (s.worker u)) →
      ∀ w < job.workers, P w (s.worker w) → AfterCompute s (a w) ∧
        ∃ s' y, step job s (a w) = some s' ∧ s'.worker = Function.update s.worker w y ∧ Q w y)
    (h : History job s) (hall : ∀ w < job.workers, P w (s.worker w)) :
    ∃ as s', Run (step job) AfterCompute s as s' ∧ History job s' ∧
      ∀ w < job.workers, Q w (s'.worker w) := by
  have heach : ∀ w ∈ List.range job.workers, ∀ s,
      (History job s ∧ ∀ u < job.workers, P u (s.worker u) ∨ Q u (s.worker u)) →
      ∃ as s', Run (step job) AfterCompute s as s' ∧
        (History job s' ∧ ∀ u < job.workers, P u (s'.worker u) ∨ Q u (s'.worker u)) ∧
        Q w (s'.worker w) ∧ ∀ u, Q u (s.worker u) → Q u (s'.worker u) := by
    rintro w hw s ⟨h, hall⟩
    have hw := List.mem_range.mp hw
    rcases hall w hw with hP | hQ
    · obtain ⟨hok, s', y, hstep, hworker, hy⟩ := hone s hall w hw hP
      refine ⟨[a w], s', Run.cons hok hstep (Run.nil s'),
        ⟨h.step hgaps hfresh hok hstep, fun u hu => ?_⟩, ?_, fun u hu => ?_⟩
      · rw [hworker]
        by_cases huw : u = w
        · rw [huw, Function.update_self]
          exact Or.inr hy
        · rw [Function.update_of_ne huw]
          exact hall u hu
      · rw [hworker, Function.update_self]
        exact hy
      · rw [hworker]
        by_cases huw : u = w
        · rw [huw, Function.update_self]
          exact hy
        · rw [Function.update_of_ne huw]
          exact hu
    · exact ⟨[], s, Run.nil s, ⟨h, hall⟩, hQ, fun _ hu => hu⟩
  obtain ⟨as, s', hrun, ⟨hhistory, -⟩, hdone⟩ :=
    Run.exists_forall heach ⟨h, fun w hw => Or.inl (hall w hw)⟩
  exact ⟨as, s', hrun, hhistory, fun w hw => hdone w (List.mem_range.mpr hw)⟩

/-- All workers begin. -/
theorem exists_begins (h : History job s) (hawaits : Awaits job s i) :
    ∃ as s', Run (step job) AfterCompute s as s' ∧ History job s' ∧
      ∀ w < job.workers, (s'.worker w).phase = .computing ∧ (s'.worker w).iter = i := by
  refine exists_each hgaps hfresh (a := .begin)
    (P := fun _ y => y.phase = .waiting ∧ y.iter = i)
    (Q := fun _ y => y.phase = .computing ∧ y.iter = i) (fun s hall w hw hP => ?_) h hawaits
  obtain ⟨s', y, hstep, hworker, hphase, hiter⟩ := exists_begin hw hP.1 fun u hu => by
    rw [hP.2]
    exact ((hall u hu).elim And.right And.right).ge
  exact ⟨trivial, s', y, hstep, hworker, hphase, hiter.trans hP.2⟩

/-- All calls return: one vertex after the other is brought to its end, which
leaves the calls of the others as they are. -/
theorem exists_calls (h : History job s)
    (hcomputing : ∀ w < job.workers, (s.worker w).phase = .computing ∧ (s.worker w).iter = i) :
    ∃ as s', Run (step job) AfterCompute s as s' ∧ History job s' ∧
      ∀ w < job.workers, ((s'.worker w).phase = .computing ∧ (s'.worker w).iter = i) ∧
        ∀ v, job.part.Mem w v → ((s'.worker w).todo v).isDone = true := by
  have heach : ∀ c ∈ (List.range job.workers).flatMap (fun w =>
        (List.range (job.part.second w + 1)).map fun v => (w, v)), ∀ s,
      (History job s ∧ ∀ w < job.workers,
        (s.worker w).phase = .computing ∧ (s.worker w).iter = i) →
      ∃ as s', Run (step job) AfterCompute s as s' ∧
        (History job s' ∧ ∀ w < job.workers,
          (s'.worker w).phase = .computing ∧ (s'.worker w).iter = i) ∧
        (job.part.Mem c.1 c.2 → ((s'.worker c.1).todo c.2).isDone = true) ∧
        ∀ c : ℕ × ℕ, (job.part.Mem c.1 c.2 → ((s.worker c.1).todo c.2).isDone = true) →
          job.part.Mem c.1 c.2 → ((s'.worker c.1).todo c.2).isDone = true := by
    rintro ⟨w, v⟩ - s ⟨h, hcomputing⟩
    by_cases hv : job.part.Mem w v
    · obtain ⟨as, s', hrun, hhistory, honly, hdone⟩ :=
        exists_return hgaps hfresh hv _ s h (hcomputing w hv.1).1 rfl
      refine ⟨as, s', hrun, ⟨hhistory, fun u hu => ?_⟩, fun _ => hdone, fun c hc hmem => ?_⟩
      · by_cases huw : u = w
        · rw [huw, honly.phase, honly.iter]
          exact hcomputing w hv.1
        · rw [honly.others u huw]
          exact hcomputing u hu
      · -- a call that has returned stays so
        by_cases hcw : c.1 = w
        · by_cases hcv : c.2 = v
          · rw [hcw, hcv]
            exact hdone
          · rw [hcw, honly.todo _ hcv, ← hcw]
            exact hc hmem
        · rw [honly.others _ hcw]
          exact hc hmem
    · exact ⟨[], s, Run.nil s, ⟨h, hcomputing⟩, fun hmem => absurd hmem hv, fun _ hc => hc⟩
  -- for all pairs of a worker and a vertex, one after the other
  obtain ⟨as, s', hrun, ⟨hhistory, hcomputing'⟩, hall⟩ :=
    Run.exists_forall (D := fun (c : ℕ × ℕ) (s : State V E) => job.part.Mem c.1 c.2 →
      ((s.worker c.1).todo c.2).isDone = true) heach ⟨h, hcomputing⟩
  refine ⟨as, s', hrun, hhistory, fun w hw => ⟨hcomputing' w hw, fun v hv =>
    hall (w, v) ?_ hv⟩⟩
  exact List.mem_flatMap.mpr ⟨w, List.mem_range.mpr hw, List.mem_map.mpr
    ⟨v, List.mem_range.mpr (Nat.lt_succ_of_le hv.2.2), rfl⟩⟩

/-- All workers have computed. -/
theorem exists_finishes (h : History job s)
    (hdone : ∀ w < job.workers, ((s.worker w).phase = .computing ∧ (s.worker w).iter = i) ∧
      ∀ v, job.part.Mem w v → ((s.worker w).todo v).isDone = true) :
    ∃ as s', Run (step job) AfterCompute s as s' ∧ History job s' ∧
      ∀ w < job.workers, (s'.worker w).phase = .exchanging ∧ (s'.worker w).iter = i := by
  refine exists_each hgaps hfresh (a := .finish)
    (P := fun w y => (y.phase = .computing ∧ y.iter = i) ∧
      ∀ v, job.part.Mem w v → (y.todo v).isDone = true)
    (Q := fun _ y => y.phase = .exchanging ∧ y.iter = i) (fun s _ w hw hP => ?_) h hdone
  obtain ⟨s', y, hstep, hworker, hphase, hiter⟩ := exists_finish hw hP.1.1 hP.2
  exact ⟨trivial, s', y, hstep, hworker, hphase, hiter.trans hP.1.2⟩

/-- All blocks are stored: one pair of workers after the other, while nobody
goes on to the next iteration. -/
theorem exists_deliveries (h : History job s)
    (hexchanging : ∀ w < job.workers, (s.worker w).phase = .exchanging ∧
      (s.worker w).iter = i) :
    ∃ as s', Run (step job) AfterCompute s as s' ∧ History job s' ∧
      ∀ w < job.workers, ((s'.worker w).phase = .exchanging ∧ (s'.worker w).iter = i) ∧
        ∀ p < job.workers, p ≠ w → (s'.worker w).got p = true := by
  have heach : ∀ c ∈ List.range job.workers ×ˢ List.range job.workers, ∀ s,
      (History job s ∧ ∀ w < job.workers,
        (s.worker w).phase = .exchanging ∧ (s.worker w).iter = i) →
      ∃ as s', Run (step job) AfterCompute s as s' ∧
        (History job s' ∧ ∀ w < job.workers,
          (s'.worker w).phase = .exchanging ∧ (s'.worker w).iter = i) ∧
        (c.1 ≠ c.2 → (s'.worker c.2).got c.1 = true) ∧
        ∀ c : ℕ × ℕ, (c.1 ≠ c.2 → (s.worker c.2).got c.1 = true) →
          c.1 ≠ c.2 → (s'.worker c.2).got c.1 = true := by
    rintro ⟨p, w⟩ hc s ⟨h, hexchanging⟩
    obtain ⟨hp, hw⟩ := List.mem_product.mp hc
    have hp := List.mem_range.mp hp
    have hw := List.mem_range.mp hw
    by_cases hgot : p ≠ w ∧ (s.worker w).got p = false
    · obtain ⟨hne, hgot⟩ := hgot
      obtain ⟨s', y, hstep, hworker, hphase, hiter, hygot⟩ := exists_deliver hp hw hne
        (hexchanging p hp).1 ((hexchanging p hp).2.trans (hexchanging w hw).2.symm) hgot
      have hok : AfterCompute s (.deliver p w) := (hexchanging w hw).1
      refine ⟨[.deliver p w], s', Run.cons hok hstep (Run.nil s'),
        ⟨h.step hgaps hfresh hok hstep, fun u hu => ?_⟩, fun _ => ?_, fun c hc hne' => ?_⟩
      · rw [hworker]
        by_cases huw : u = w
        · rw [huw, Function.update_self, hphase, hiter]
          exact hexchanging w hw
        · rw [Function.update_of_ne huw]
          exact hexchanging u hu
      · rw [hworker, Function.update_self, hygot, Function.update_self]
      · rw [hworker]
        by_cases hcw : c.2 = w
        · rw [hcw, Function.update_self, hygot]
          by_cases hcp : c.1 = p
          · rw [hcp, Function.update_self]
          · rw [Function.update_of_ne hcp, ← hcw]
            exact hc hne'
        · rw [Function.update_of_ne hcw]
          exact hc hne'
    · -- the block has been stored before
      refine ⟨[], s, Run.nil s, ⟨h, hexchanging⟩, fun hne => ?_, fun _ hc => hc⟩
      exact Bool.eq_true_of_not_eq_false fun hfalse => hgot ⟨hne, hfalse⟩
  obtain ⟨as, s', hrun, ⟨hhistory, hexchanging'⟩, hall⟩ :=
    Run.exists_forall (D := fun (c : ℕ × ℕ) (s : State V E) =>
      c.1 ≠ c.2 → (s.worker c.2).got c.1 = true) heach ⟨h, hexchanging⟩
  refine ⟨as, s', hrun, hhistory, fun w hw => ⟨hexchanging' w hw, fun p hp hne =>
    hall (p, w) ?_ hne⟩⟩
  exact List.mem_product.mpr ⟨List.mem_range.mpr hp, List.mem_range.mpr hw⟩

/-- All workers have the values of the next iteration. -/
theorem exists_syncs (h : History job s)
    (hall : ∀ w < job.workers, ((s.worker w).phase = .exchanging ∧ (s.worker w).iter = i) ∧
      ∀ p < job.workers, p ≠ w → (s.worker w).got p = true) :
    ∃ as s', Run (step job) AfterCompute s as s' ∧ History job s' ∧ Awaits job s' (i + 1) := by
  refine exists_each hgaps hfresh (a := .sync)
    (P := fun w y => (y.phase = .exchanging ∧ y.iter = i) ∧
      ∀ p < job.workers, p ≠ w → y.got p = true)
    (Q := fun _ y => y.phase = .waiting ∧ y.iter = i + 1) (fun s _ w hw hP => ?_) h hall
  obtain ⟨s', y, hstep, hworker, hphase, hiter⟩ := exists_sync hw hP.1.1 hP.2
  exact ⟨trivial, s', y, hstep, hworker, hphase, hiter.trans (congrArg (· + 1) hP.1.2)⟩

/-- **An iteration can be taken to its end.** -/
theorem exists_round (h : History job s) (hawaits : Awaits job s i) :
    ∃ as s', Run (step job) AfterCompute s as s' ∧ History job s' ∧ Awaits job s' (i + 1) := by
  obtain ⟨begins, s₁, hbegins, h₁, hcomputing⟩ := exists_begins hgaps hfresh h hawaits
  obtain ⟨calls, s₂, hcalls, h₂, hdone⟩ := exists_calls hgaps hfresh h₁ hcomputing
  obtain ⟨finishes, s₃, hfinishes, h₃, hexchanging⟩ := exists_finishes hgaps hfresh h₂ hdone
  obtain ⟨deliveries, s₄, hdeliveries, h₄, hall⟩ :=
    exists_deliveries hgaps hfresh h₃ hexchanging
  obtain ⟨syncs, s₅, hsyncs, h₅, hnext⟩ := exists_syncs hgaps hfresh h₄ hall
  exact ⟨_, s₅, hbegins.append (hcalls.append (hfinishes.append (hdeliveries.append hsyncs))),
    h₅, hnext⟩

/-- **There is a run without an end.** -/
theorem exists_rounds : ∃ t, Rounds job t := by
  obtain ⟨t, hstart, hall⟩ := Transition.exists_stages
    (I := fun i s => History job s ∧ Awaits job s i)
    (R := fun s s' => ∃ as, Run (step job) AfterCompute s as s') (s := init job)
    ⟨.init, fun _ _ => ⟨rfl, rfl⟩⟩ fun i s ⟨h, hawaits⟩ => by
      obtain ⟨as, s', hrun, hnext⟩ := exists_round hgaps hfresh h hawaits
      exact ⟨s', ⟨as, hrun⟩, hnext⟩
  exact ⟨t, hstart, fun i => (hall i).2, fun i => (hall i).1.2⟩

end Calls

end Engine
