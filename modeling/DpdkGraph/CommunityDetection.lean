import Mathlib
import DpdkGraph.InnerEdges

/-!
# The labels of community detection

An edge carries the labels of both of its endpoints, "to ensure that
neighbors do not overwrite each others values". An endpoint reads the pair,
changes its own half and writes the pair back. On an edge inside an interval
the pair that it reads is the one of the iteration before, from the main
block, and the one it writes goes to `main_to_main_buf`: the half of the
other endpoint is the old one there, and whoever writes last takes the new
half of the other back.

So both new halves are found in the next iteration where the endpoint that
wrote first has not changed its half. With this as a condition on the
requests the law holds in every run.
-/

namespace VertexProgram

open Update

variable {V E α β : Type}

/-- `vertex.inedge(i)->vertex_id()`, or `outedge`. -/
def Vertex.endpoint (vertex : Vertex) : Side → ℕ → ℕ
  | .inedge, i => vertex.inedges.getD i 0
  | .outedge, i => vertex.outedges.getD i 0

theorem Vertex.neighbor_eq (vertex : Vertex) (i : ℕ) :
    vertex.neighbor i = vertex.endpoint (vertex.edge i).1 (vertex.edge i).2 := by
  unfold neighbor edge
  split
  · next h => exact List.getD_append _ _ _ _ h
  · next h => exact List.getD_append_right _ _ _ _ (not_lt.mp h)

namespace Update

/-- The edge that the call asks to write to. -/
def write : Update V E α → Option (Side × ℕ)
  | setEdge side i _ _ => some (side, i)
  | _ => none

/-- **The calls that leave a part of the edges as they have read it.** The
part is `part`, and `fixed` is what is read of an edge, where that is known
in advance. -/
def Keeps (part : Side → ℕ → E → ℕ) (fixed : Side → ℕ → Option E) :
    Update V E α → Prop
  | done _ => True
  | getData next => ∀ d, (next d).Keeps part fixed
  | setData _ next => next.Keeps part fixed
  | getEdge side i next =>
    ∀ y, (∀ z ∈ fixed side i, y = z) → (next y).Keeps part fixed
  | setEdge side i d next =>
    (∀ z ∈ fixed side i, part side i d = part side i z) ∧
      next.Keeps part fixed

variable {part : Side → ℕ → E → ℕ} {fixed : Side → ℕ → Option E}

theorem Keeps.bind {u : Update V E α} {f : α → Update V E β}
    (hu : u.Keeps part fixed) (hf : ∀ a, (f a).Keeps part fixed) :
    (u.bind f).Keeps part fixed := by
  induction u with
  | done a => exact hf a
  | getData next ih => exact fun d => ih d (hu d)
  | setData d next ih => exact ih hu
  | getEdge side i next ih => exact fun y hy => ih y (hu y hy)
  | setEdge side i d next ih => exact ⟨hu.1, ih hu.2⟩

theorem Keeps.foldlM {ι : Type} {f : α → ι → Update V E α}
    (hf : ∀ a i, (f a i).Keeps part fixed) (l : List ι) :
    ∀ a, (l.foldlM f a).Keeps part fixed := by
  induction l with
  | nil => exact fun _ => trivial
  | cons i l ih =>
    intro a
    rw [List.foldlM_cons]
    exact (hf a i).bind ih

theorem Keeps.forM {ι : Type} {f : ι → Update V E Unit}
    (hf : ∀ i, (f i).Keeps part fixed) (l : List ι) :
    (l.forM f).Keeps part fixed := by
  induction l with
  | nil => trivial
  | cons i l ih =>
    exact (hf i).bind fun _ => ih

end Update

/-! ## Community detection -/

namespace CommunityDetection

/-- `bidirectional_label`: the label of the endpoint that has the smaller id,
and that of the other one. -/
structure BidirectionalLabel where
  smallerOne : ℕ
  largerOne : ℕ
deriving DecidableEq, Repr

/-- `neighbor_label`. -/
def neighborLabel (bidir : BidirectionalLabel) (myid nbid : ℕ) : ℕ :=
  if myid < nbid then bidir.largerOne else bidir.smallerOne

/-- `my_label`. -/
def myLabel (bidir : BidirectionalLabel) (myid nbid : ℕ) : ℕ :=
  if myid < nbid then bidir.smallerOne else bidir.largerOne

/-- `my_label(bidir, myid, nbid) = label`. -/
def setMyLabel (bidir : BidirectionalLabel) (myid nbid label : ℕ) :
    BidirectionalLabel :=
  if myid < nbid then { bidir with smallerOne := label }
  else { bidir with largerOne := label }

theorem neighborLabel_setMyLabel (bidir : BidirectionalLabel)
    (myid nbid label : ℕ) :
    neighborLabel (setMyLabel bidir myid nbid label) myid nbid =
      neighborLabel bidir myid nbid := by
  unfold neighborLabel setMyLabel
  split <;> rfl

/-- The label of the neighbour is what the neighbour calls its own. -/
theorem neighborLabel_eq {a b : ℕ} (h : a ≠ b) (bidir : BidirectionalLabel) :
    neighborLabel bidir a b = myLabel bidir b a := by
  unfold neighborLabel myLabel
  rcases lt_or_gt_of_ne h with hlt | hlt
  · rw [if_pos hlt, if_neg (by omega)]
  · rw [if_neg (by omega), if_pos hlt]

/-- The labels counted so far: `counts`, `maxcount` and `maxlabel`. -/
structure Tally where
  counts : ℕ → ℕ
  maxcount : ℕ
  maxlabel : ℕ

/-- One more label. -/
def Tally.add (t : Tally) (nblabel : ℕ) : Tally :=
  let newcount := t.counts nblabel + 1
  let counts := Function.update t.counts nblabel newcount
  if newcount > t.maxcount ∨ t.maxcount = newcount ∧ nblabel > t.maxlabel then
    ⟨counts, newcount, nblabel⟩
  else ⟨counts, t.maxcount, t.maxlabel⟩

/-- `vertex.edge(i)->get_data()`. -/
def readEdge (vertex : Vertex) (i : ℕ) :
    Update ℕ BidirectionalLabel BidirectionalLabel :=
  getEdge (vertex.edge i).1 (vertex.edge i).2 done

/-- `vertex.edge(i)->set_data(x)`. -/
def writeEdge (vertex : Vertex) (i : ℕ) (x : BidirectionalLabel) :
    Update ℕ BidirectionalLabel Unit :=
  setEdge (vertex.edge i).1 (vertex.edge i).2 x (done ())

/-- The label that is most popular among the neighbours. -/
def popular (vertex : Vertex) : Update ℕ BidirectionalLabel Tally :=
  (List.range vertex.numEdges).foldlM (fun tally i => do
    let edgelabel ← readEdge vertex i
    pure (tally.add
      (neighborLabel edgelabel vertex.id (vertex.neighbor i))))
    ⟨fun _ => 0, 0, 0⟩

/-- Changes the own half of an edge. -/
def writeLabel (vertex : Vertex) (newlabel i : ℕ) :
    Update ℕ BidirectionalLabel Unit := do
  let labelsOnEdge ← readEdge vertex i
  writeEdge vertex i
    (setMyLabel labelsOnEdge vertex.id (vertex.neighbor i) newlabel)

/-- Writes the new label to the neighbours. -/
def writeLabels (iteration : ℕ) (vertex : Vertex) (newlabel : ℕ) :
    Update ℕ BidirectionalLabel Unit := do
  let label ← getData done
  if newlabel ≠ label ∨ iteration = 0 then
    setData newlabel (done ())
    (List.range vertex.numEdges).forM (writeLabel vertex newlabel)

/-- **`update` of `communitydetection.cpp`.** What it tells the scheduler is
left out: every vertex is updated in every iteration. -/
def update (iteration : ℕ) (vertex : Vertex) :
    Update ℕ BidirectionalLabel Unit :=
  if iteration = 0 then do
    setData vertex.id (done ())
    writeLabels iteration vertex vertex.id
  else if vertex.numEdges = 0 then done ()
  else do
    let tally ← popular vertex
    writeLabels iteration vertex tally.maxlabel

/-- The half of the other endpoint. -/
def otherHalf (vertex : Vertex) (side : Side) (i : ℕ)
    (bidir : BidirectionalLabel) : ℕ :=
  neighborLabel bidir vertex.id (vertex.endpoint side i)

section Keeps

variable (vertex : Vertex) (fixed : Side → ℕ → Option BidirectionalLabel)

theorem writeLabel_keeps (newlabel i : ℕ) :
    (writeLabel vertex newlabel i).Keeps (otherHalf vertex) fixed := by
  intro y hy
  refine ⟨fun z hz => ?_, trivial⟩
  rw [← hy z hz]
  unfold otherHalf
  rw [vertex.neighbor_eq, neighborLabel_setMyLabel]

theorem writeLabels_keeps (iteration newlabel : ℕ) :
    (writeLabels iteration vertex newlabel).Keeps (otherHalf vertex) fixed := by
  intro label
  show Keeps _ _ (ite _ _ _)
  split
  · exact Keeps.forM (fun i => writeLabel_keeps vertex fixed newlabel i) _
  · trivial

/-- **A call leaves the halves of its neighbours** as it has read them. -/
theorem update_keeps (iteration : ℕ) :
    (update iteration vertex).Keeps (otherHalf vertex) fixed := by
  unfold update
  split
  · exact writeLabels_keeps vertex fixed iteration vertex.id
  · split
    · trivial
    · have hpopular : (popular vertex).Keeps (otherHalf vertex) fixed := by
        unfold popular
        refine Keeps.foldlM (fun tally i => ?_) _ _
        intro y hy
        trivial
      exact hpopular.bind fun tally =>
        writeLabels_keeps vertex fixed iteration tally.maxlabel

end Keeps

end CommunityDetection

end VertexProgram

namespace Engine

open VertexProgram VertexProgram.CommunityDetection
open Transition (Run exec exists_run)

variable {x : Input ℕ BidirectionalLabel} {job : Job x}
  {s s' : State ℕ BidirectionalLabel}

/-! ## The law and the condition -/

/-- The half of an edge that belongs to its source, or its destination. -/
def half (e : EdgeWithValue BidirectionalLabel) :
    Side → BidirectionalLabel → ℕ
  | .outedge, bidir => myLabel bidir e.src e.dst
  | .inedge, bidir => myLabel bidir e.dst e.src

/-- **Neither endpoint overwrites the label of the other**: where both have
written to an edge inside an interval, what is found in the next iteration
has both of the new halves. -/
def BothHalves (job : Job x) (s : State ℕ BidirectionalLabel) : Prop :=
  ∀ n ∈ x.numbered, home job.part n.1.src = home job.part n.1.dst →
    ∀ i y z, wrote s.writes .outedge i n.2 = some y →
      wrote s.writes .inedge i n.2 = some z →
      ∀ r ∈ s.found, r.edge = n.2 → r.iteration = i + 1 →
        half n.1 .outedge r.value = half n.1 .outedge y ∧
          half n.1 .inedge r.value = half n.1 .inedge z

/-- **The endpoint that has written first has not changed its half**: when a
vertex writes to an edge inside the interval, the label that the other
endpoint has written there in this iteration, if any, is the one of the main
block. -/
def SameHalf (job : Job x) (s : State ℕ BidirectionalLabel) : Action → Prop
  | .request w v =>
    ∀ o ∈ ((s.worker w).todo v).write, ∀ e ∈ (job.edges w o.1 v)[o.2]?,
      e.dataPtrSyn.isSome = true →
        ∀ y ∈ wrote s.writes o.1.other (s.worker w).iter e.edge,
          neighborLabel y v e.vertexid =
            neighborLabel (e.getData (s.worker w).memory) v e.vertexid
  | _ => True

instance (job : Job x) (s : State ℕ BidirectionalLabel) :
    DecidablePred (SameHalf job s)
  | .request w v =>
    inferInstanceAs (Decidable (∀ o ∈ ((s.worker w).todo v).write,
      ∀ e ∈ (job.edges w o.1 v)[o.2]?, e.dataPtrSyn.isSome = true →
        ∀ y ∈ wrote s.writes o.1.other (s.worker w).iter e.edge,
          neighborLabel y v e.vertexid =
            neighborLabel (e.getData (s.worker w).memory) v e.vertexid))
  | .begin _ | .finish _ | .deliver _ _ | .sync _ =>
    inferInstanceAs (Decidable True)

/-! ## The invariant -/

/-- What a vertex reads of its edges inside the interval. -/
def fixedLabels (job : Job x) (w v : ℕ) (m : Memory BidirectionalLabel)
    (side : Side) (i : ℕ) : Option BidirectionalLabel :=
  ((job.edges w side v)[i]?.filter fun e => e.dataPtrSyn.isSome).map
    fun e => e.getData m

/-- **The labels of the edges inside the intervals.** Both endpoints write the
whole pair, so that either may undo what the other has done; the labels are
right as long as the second one finds the half of the first. -/
structure Labels (job : Job x) (s : State ℕ BidirectionalLabel) : Prop where
  /-- The calls leave the halves of the neighbours as they have read them. -/
  calls : ∀ w v, job.part.Mem w v → (s.worker w).phase = .computing →
    ((s.worker w).todo v).Keeps (otherHalf (job.vertex w v))
      (fixedLabels job w v (s.worker w).memory)
  /-- What was written last has the last half of either endpoint. -/
  halves : ∀ n ∈ x.numbered, home job.part n.1.src = home job.part n.1.dst →
    ∀ i y side z, lastWrite s.writes i n.2 = some y →
      wrote s.writes side i n.2 = some z → half n.1 side z = half n.1 side y

/-- An object of an inner edge has a second pointer. -/
theorem object_isSome {part : IntervalPartition}
    {n : EdgeWithValue BidirectionalLabel × ℕ} (side : Side) :
    (object x part side n).dataPtrSyn.isSome = true ↔
      home part n.1.src = home part n.1.dst := by
  cases side with
  | inedge =>
    show (inObject x part n).dataPtrSyn.isSome = true ↔ _
    unfold inObject
    dsimp only
    split <;> simp [*]
  | outedge =>
    show (outObject x part n).dataPtrSyn.isSome = true ↔ _
    unfold outObject
    split <;> simp [*]

/-- The half of the other endpoint. -/
theorem neighborLabel_object {part : IntervalPartition}
    {n : EdgeWithValue BidirectionalLabel × ℕ} {side : Side} {v : ℕ}
    (hn : n ∈ x.edgesAt side v) (y : BidirectionalLabel) :
    neighborLabel y v (object x part side n).vertexid = half n.1 side.other y := by
  obtain ⟨hmem, hend⟩ := mem_edgesAt.mp hn
  have hne := x.noloop _ (mem_of_numbered hmem)
  cases side with
  | inedge =>
    have hend : n.1.dst = v := hend
    rw [← hend]
    exact neighborLabel_eq hne.symm y
  | outedge =>
    have hend : n.1.src = v := hend
    have hid : (object x part .outedge n).vertexid = n.1.dst := by
      show (outObject x part n).vertexid = _
      unfold outObject
      split <;> rfl
    rw [← hend, hid]
    exact neighborLabel_eq hne y

/-- The other endpoint of an edge of a vertex. -/
theorem endpoint_eq {w v i : ℕ} {side : Side} {e : Edge}
    (he : (job.edges w side v)[i]? = some e) :
    (job.vertex w v).endpoint side i = e.vertexid := by
  cases side with
  | inedge =>
    show (((job.edges w .inedge v).map Edge.vertexid).getD i 0) = _
    rw [List.getD_eq_getElem?_getD, List.getElem?_map, he]
    rfl
  | outedge =>
    show (((job.edges w .outedge v).map Edge.vertexid).getD i 0) = _
    rw [List.getD_eq_getElem?_getD, List.getElem?_map, he]
    rfl

/-- The labels that are known in advance are in the main block. -/
theorem fixedLabels_congr (hgaps : NoGaps x job.part) {w v : ℕ}
    (hv : job.part.Mem w v) {m m' : Memory BidirectionalLabel}
    (h : ∀ i, m (.inbuf w i) = m' (.inbuf w i)) :
    fixedLabels job w v m = fixedLabels job w v m' := by
  funext side i
  unfold fixedLabels
  cases he : (job.edges w side v)[i]? with
  | none => rfl
  | some e =>
    by_cases hsyn : e.dataPtrSyn.isSome = true
    · obtain ⟨n, hn, hobj⟩ := exists_object hgaps hv (List.mem_of_getElem? he)
      have hinner := (object_isSome (x := x) side).mp (hobj ▸ hsyn)
      have hboth := homes_eq hn hv hinner
      rw [Option.filter_some, if_pos hsyn]
      show some (m e.dataPtr) = some (m' e.dataPtr)
      rw [← hobj, object_dataPtr hboth.1 hboth.2, h]
    · rw [Option.filter_some, if_neg hsyn]
      rfl

theorem lastWrite_cons (r : Record BidirectionalLabel)
    (writes : List (Record BidirectionalLabel)) (i k : ℕ) :
    lastWrite (r :: writes) i k =
      if r.iteration = i ∧ r.edge = k then some r.value
      else lastWrite writes i k := by
  unfold lastWrite
  rw [List.find?_cons]
  split
  · next h => rw [if_pos (of_decide_eq_true h), Option.map_some]
  · next h => rw [if_neg (of_decide_eq_false h)]

theorem Labels.init (job : Job x) : Labels job (init job) where
  calls w v _ hphase := by cases hphase
  halves n _ _ i y side z hy := by cases hy

/-- A step of a worker that writes nothing, and begins no call. -/
theorem Labels.setWorker (h : Labels job s) (hgaps : NoGaps x job.part) {u : ℕ}
    {y : Worker ℕ BidirectionalLabel}
    (hcalls : y.phase = .computing → (s.worker u).phase = .computing ∧
      y.todo = (s.worker u).todo ∧
      ∀ i, y.memory (.inbuf u i) = (s.worker u).memory (.inbuf u i)) :
    Labels job (s.setWorker u y) where
  calls w v hv hphase := by
    by_cases huw : w = u
    · subst huw
      rw [setWorker_self] at hphase ⊢
      obtain ⟨hold, htodo, hmemory⟩ := hcalls hphase
      rw [htodo, fixedLabels_congr hgaps hv hmemory]
      exact h.calls w v hv hold
    · rw [setWorker_of_ne _ huw] at hphase ⊢
      exact h.calls w v hv hphase
  halves := h.halves

theorem Labels.begin (h : Labels job s) (hprogram : x.program = update) {u : ℕ}
    (hstep : beginStep job s u = some s') : Labels job s' := by
  unfold beginStep at hstep
  dsimp only at hstep
  split at hstep
  case isFalse => cases hstep
  case isTrue hguard =>
    obtain rfl := Option.some.inj hstep
    refine ⟨fun w v hv hphase => ?_, h.halves⟩
    by_cases huw : w = u
    · subst huw
      dsimp only
      rw [setWorker_self]
      dsimp only
      rw [hprogram]
      exact update_keeps _ _ _
    · dsimp only at hphase ⊢
      rw [setWorker_of_ne _ huw] at hphase ⊢
      exact h.calls w v hv hphase

/-- The call of a vertex goes on, and the main block stays. -/
theorem Labels.goOn (h : Labels job s) (hgaps : NoGaps x job.part) {u v : ℕ}
    {y : Worker ℕ BidirectionalLabel} {next : Update ℕ BidirectionalLabel Unit}
    (hphase : (s.worker u).phase = .computing)
    (htodo : y.todo = Function.update (s.worker u).todo v next)
    (hmemory : ∀ i, y.memory (.inbuf u i) = (s.worker u).memory (.inbuf u i))
    (hnext : next.Keeps (otherHalf (job.vertex u v))
      (fixedLabels job u v (s.worker u).memory)) (w v' : ℕ)
    (hv' : job.part.Mem w v')
    (hphase' : ((s.setWorker u y).worker w).phase = .computing) :
    (((s.setWorker u y).worker w).todo v').Keeps (otherHalf (job.vertex w v'))
      (fixedLabels job w v' ((s.setWorker u y).worker w).memory) := by
  by_cases huw : w = u
  · subst huw
    rw [setWorker_self, htodo, fixedLabels_congr hgaps hv' hmemory]
    by_cases hvv : v' = v
    · subst hvv
      rw [Function.update_self]
      exact hnext
    · rw [Function.update_of_ne hvv]
      exact h.calls w v' hv' hphase
  · rw [setWorker_of_ne _ huw] at hphase' ⊢
    exact h.calls w v' hv' hphase'

/-- **A request.** A write to an inner edge has the half of the other
endpoint as it was read in the main block, and this is the one that the other
endpoint has written, if it has. -/
theorem Labels.request (h : Labels job s) (hgaps : NoGaps x job.part)
    {u v : ℕ} (hsame : SameHalf job s (.request u v))
    (hstep : requestStep job s u v = some s') : Labels job s' := by
  unfold requestStep at hstep
  split at hstep
  case isFalse => cases hstep
  case isTrue hguard =>
    obtain ⟨hv, hphase⟩ := hguard
    have hcall := h.calls u v hv hphase
    cases htodo : (s.worker u).todo v with
    | done a =>
      rw [htodo] at hstep
      cases hstep
    | getData next =>
      rw [htodo] at hstep hcall
      obtain rfl := Option.some.inj hstep
      exact ⟨h.goOn hgaps hphase rfl (fun _ => rfl) (hcall _), h.halves⟩
    | setData d next =>
      rw [htodo] at hstep hcall
      obtain rfl := Option.some.inj hstep
      exact ⟨h.goOn hgaps hphase rfl (fun _ => rfl) hcall, h.halves⟩
    | getEdge side i next =>
      rw [htodo] at hstep hcall
      obtain ⟨e, he, rfl⟩ := Option.map_eq_some_iff.mp hstep
      refine ⟨h.goOn hgaps hphase rfl (fun _ => rfl) (hcall _ ?_), h.halves⟩
      intro z hz
      unfold fixedLabels at hz
      rw [he, Option.filter_some] at hz
      split at hz
      · exact Option.some.inj hz
      · cases hz
    | setEdge side i d next =>
      rw [htodo] at hstep hcall
      obtain ⟨e, he, rfl⟩ := Option.map_eq_some_iff.mp hstep
      obtain ⟨n', hn', hobj⟩ := exists_object hgaps hv (List.mem_of_getElem? he)
      have hmem := (mem_edgesAt.mp hn').1
      constructor
      · refine h.goOn hgaps hphase rfl (fun j => ?_) hcall.2
        rw [← hobj]
        exact Function.update_of_ne (object_target_ne hn' hv j).symm _ _
      · intro n hn hinner j y side' z hy hz
        dsimp only at hy hz
        rw [lastWrite_cons] at hy
        rw [wrote_cons] at hz
        have hnumber : e.edge = n'.2 := by
          rw [← hobj, object_edge]
        by_cases hthis : (s.worker u).iter = j ∧ e.edge = n.2
        · obtain ⟨hj, hk⟩ := hthis
          obtain rfl := eq_of_number hn hmem (hnumber.symm.trans hk)
          rw [if_pos ⟨hj, hk⟩] at hy
          obtain rfl : d = y := Option.some.inj hy
          by_cases hside : side = side'
          · rw [if_pos ⟨hj, hside, hk⟩] at hz
            obtain rfl : d = z := Option.some.inj hz
            rfl
          · -- the other endpoint has written before
            rw [if_neg fun hc => hside hc.2.1] at hz
            obtain rfl : side' = side.other := by
              cases side <;> cases side' <;> first | rfl | exact absurd rfl hside
            have hsyn : e.dataPtrSyn.isSome = true := by
              rw [← hobj]
              exact (object_isSome side).mpr hinner
            have hread : fixedLabels job u v (s.worker u).memory side i =
                some (e.getData (s.worker u).memory) := by
              unfold fixedLabels
              rw [he, Option.filter_some, if_pos hsyn]
              rfl
            have hkept := hcall.1 _ hread
            unfold otherHalf at hkept
            rw [endpoint_eq he] at hkept
            have hnew := hsame (side, i) (by rw [htodo]; rfl) e he hsyn z
              (by rw [hj, hk]; exact hz)
            have hboth : neighborLabel z v e.vertexid =
                neighborLabel d v e.vertexid := hnew.trans hkept.symm
            rw [← hobj] at hboth
            rw [neighborLabel_object hn', neighborLabel_object hn'] at hboth
            exact hboth
        · rw [if_neg hthis] at hy
          rw [if_neg fun hc => hthis ⟨hc.1, hc.2.2⟩] at hz
          exact h.halves n hn hinner j y side' z hy hz

/-- **The steps keep the labels**, if a write to an edge whose other endpoint
has written leaves that endpoint's half as it is. -/
theorem Labels.step (h : Labels job s) (hgaps : NoGaps x job.part)
    (hprogram : x.program = update) {a : Action} (hsame : SameHalf job s a)
    (hstep : step job s a = some s') : Labels job s' := by
  cases a with
  | begin u => exact h.begin hprogram hstep
  | request u v => exact h.request hgaps hsame hstep
  | finish u =>
    simp only [Engine.step, finishStep] at hstep
    split at hstep
    · obtain rfl := Option.some.inj hstep
      exact h.setWorker hgaps fun hphase => by cases hphase
    · cases hstep
  | deliver p u =>
    simp only [Engine.step, deliverStep] at hstep
    split at hstep
    · next hguard =>
      obtain rfl := Option.some.inj hstep
      refine h.setWorker hgaps fun hphase => ⟨hphase, rfl, fun i => ?_⟩
      show (if u = p ∧ _ then _ else _) = _
      rw [if_neg fun hc => hguard.2.2.1 hc.1.symm]
    · cases hstep
  | sync u =>
    simp only [Engine.step, syncStep] at hstep
    split at hstep
    · obtain rfl := Option.some.inj hstep
      exact h.setWorker hgaps fun hphase => by cases hphase
    · cases hstep

/-! ## The law holds -/

/-- What is found after an iteration in which both endpoints have written. -/
theorem Labels.bothHalves (h : Labels job s)
    (hinner : ∀ n ∈ x.numbered, home job.part n.1.src = home job.part n.1.dst →
      Inner job s n (home job.part n.1.src)) : BothHalves job s := by
  intro n hn hsame i y z hy hz r hr hk hi
  obtain ⟨hval, -⟩ := (hinner n hn hsame).known r hr hk
  cases hlast : lastWrite s.writes i n.2 with
  | none =>
    unfold lastWrite at hlast
    rw [Option.map_eq_none_iff, List.find?_eq_none] at hlast
    obtain ⟨r', hr', -⟩ := Option.map_eq_some_iff.mp hy
    have hmatch := List.find?_some hr'
    rw [decide_eq_true_eq] at hmatch
    exact absurd (decide_eq_true ⟨hmatch.1, hmatch.2.2⟩)
      (hlast r' (List.mem_of_find?_eq_some hr'))
  | some l =>
    have hfound : r.value = l := by
      rw [hval, hi]
      unfold Job.heldAt
      rw [held, hlast, Option.getD_some]
    rw [hfound, h.halves n hn hsame i l .outedge y hlast hy,
      h.halves n hn hsame i l .inedge z hlast hz]
    exact ⟨rfl, rfl⟩

/-- **Both new halves are found in the next iteration**, in every run of
community detection in which no vertex writes to an edge inside its interval
whose other endpoint has changed its half before in the same iteration, where
no empty in-block comes before one that has edges. -/
theorem bothHalves_of_sameHalf (hprogram : x.program = update)
    (hgaps : NoGaps x job.part) {as : List Action}
    (hrun : Run (step job) (SameHalf job) (init job) as s) :
    BothHalves job s := by
  have hlabels : Labels job s := hrun.invariant (I := Labels job)
    (fun _ _ _ h hok hstep => h.step hgaps hprogram hok hstep)
    (Labels.init job)
  exact hlabels.bothHalves fun n hn hinner =>
    inner_of_run hgaps hn rfl hinner.symm hrun

/-- Two vertices with an edge between them, whose labels are `a` and `b` in
the file. -/
def oneEdge (a b : ℕ) : Input ℕ BidirectionalLabel where
  edges := [⟨5, 6, ⟨a, b⟩⟩]
  sorted := List.pairwise_singleton _ _
  noloop e he := by
    rw [List.mem_singleton.mp he]
    exact (by decide : 5 ≠ 6)
  program := update
  value := fun _ => 0

/-- They are in one interval. -/
def oneInterval : IntervalPartition where
  intervals := [(0, 6)]
  start := rfl
  contiguous := by decide
  ordered := by decide
  vid := by decide

def oneEdgeJob (a b : ℕ) : Job (oneEdge a b) where
  part := oneInterval
  covered e he := by
    rw [List.mem_singleton.mp he]
    exact ⟨⟨0, (by decide : oneInterval.Mem 0 5)⟩,
      0, (by decide : oneInterval.Mem 0 6)⟩
  outedges w v := (loadBeforeUpdates (oneEdge a b) oneInterval w).edges .outedge v
  added _ _ := List.Perm.refl _
  copied _ _ := true
  blank _ _ := ⟨0, 0⟩

/-- The first iteration. The five vertices without an edge write their own
label only. -/
def oneIteration : List Action :=
  [.begin 0] ++ (List.range 5).flatMap (fun v => requests 0 v 3) ++
    requests 0 5 5 ++ requests 0 6 5 ++ [.finish 0, .sync 0, .begin 0]

/-- When the file has the ids as labels, nothing is lost in the first
iteration. -/
theorem bothHalves_of_sameHalf_oneEdge :
    ∃ s, Run (step (oneEdgeJob 5 6)) (SameHalf (oneEdgeJob 5 6))
        (init (oneEdgeJob 5 6)) oneIteration s ∧
      BothHalves (oneEdgeJob 5 6) s := by
  obtain ⟨s, hrun, -⟩ := exists_run (step (oneEdgeJob 5 6))
    (SameHalf (oneEdgeJob 5 6)) (init (oneEdgeJob 5 6)) oneIteration
    (fun _ => True) (by decide +kernel)
  exact ⟨s, hrun, bothHalves_of_sameHalf rfl
    (by unfold NoGaps; decide +kernel) hrun⟩

/-- Otherwise vertex 6, which writes last, takes the label of vertex 5 back
to what the file has. -/
theorem not_bothHalves_oneEdge :
    ¬∀ (x : Input ℕ BidirectionalLabel) (job : Job x) (as : List Action)
      (s : State ℕ BidirectionalLabel), x.program = update →
        Run (step job) (fun _ _ => True) (init job) as s → BothHalves job s := by
  intro h
  obtain ⟨s, hrun, hfound, hout, hin⟩ := exists_run (step (oneEdgeJob 0 0))
    (fun _ _ => True) (init (oneEdgeJob 0 0)) oneIteration
    (fun s => ⟨1, .outedge, 0, ⟨0, 6⟩⟩ ∈ s.found ∧
      wrote s.writes .outedge 0 0 = some ⟨5, 0⟩ ∧
      wrote s.writes .inedge 0 0 = some ⟨0, 6⟩)
    (by decide +kernel)
  have hboth := h _ _ _ s rfl hrun (⟨5, 6, ⟨0, 0⟩⟩, 0) List.mem_cons_self
    (by decide +kernel) 0 _ _ hout hin _ hfound rfl rfl
  exact absurd hboth.1 (by decide)

end Engine
