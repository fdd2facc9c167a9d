import Mathlib
import DpdkGraph.CallHistory
import DpdkGraph.LabelRules

/-!
# The labels of connected components

`update` of `connectedcomponents.cpp` gives every vertex the least label it
finds. Inside an interval both endpoints of an edge write to it, and labels
go both ways. Between two workers they go from the source to the destination
only, as what the destination writes to its `inbuf` is not sent and is lost
with the next block. The rounds are those of `LabelRules`, with the edges inside
the intervals going both ways.

So the labels that the iterations settle at are the least ones that get to
the vertices, and not those of the weak components: a component that is spread
over several workers may keep different labels for good.
-/

namespace Engine

open VertexProgram ConnectedComponents Update
open LabelRules (Network Labeling Starts Advances Sound SameValues)
open Transition (Run exists_run)

variable {x : Input ℕ ℕ} {job : Job x} {s s' : State ℕ ℕ}

/-- The vertices of a job, and where the labels go. -/
def Job.network (job : Job x) : Network ℕ (EdgeWithValue ℕ × ℕ) where
  vertices := {v | ∃ w, job.part.Mem w v}
  edges := {n | n ∈ x.numbered}
  src n := n.1.src
  dst n := n.1.dst
  twoWay n := home job.part n.1.src = home job.part n.1.dst
  src_mem _ hn := ⟨_, mem_src job.covered (mem_of_numbered hn)⟩
  dst_mem _ hn := ⟨_, mem_dst job.covered (mem_of_numbered hn)⟩

/-- **The labels when an iteration begins.** -/
def labelsAt (job : Job x) (writes : List (Record ℕ)) (i : ℕ) :
    Labeling ℕ (EdgeWithValue ℕ × ℕ) where
  value v := dataAt job writes (home job.part v) v i
  edge n := edgeAt job writes n i

theorem freshProgram_update : FreshProgram ConnectedComponents.update := fresh_update

/-! ## The call of a vertex -/

/-- The other end of an edge. -/
def otherEnd (n : EdgeWithValue ℕ × ℕ) : Side → ℕ
  | .inedge => n.1.src
  | .outedge => n.1.dst

section Call

variable {writes : List (Record ℕ)} {w v i : ℕ} (hgaps : NoGaps x job.part)
  (hv : job.part.Mem w v)
include hgaps hv

theorem count_vertex (side : Side) :
    (job.vertex w v).count side = (job.listed w side v).length := by
  have hlength : (job.listed w side v).length = (job.edges w side v).length := by
    rw [← Job.map_listed hgaps hv side, List.length_map]
  rw [hlength]
  cases side with
  | inedge => exact List.length_map _
  | outedge => exact List.length_map _

/-- The neighbours of a vertex are the other ends of its edges. -/
theorem getD_vertex {side : Side} {k : ℕ} {n : EdgeWithValue ℕ × ℕ}
    (hn : (job.listed w side v)[k]? = some n) :
    ((job.vertex w v).neighbors side).getD k 0 = otherEnd n side := by
  have hobject : (job.edges w side v)[k]? = some (object x job.part side n) := by
    rw [← Job.map_listed hgaps hv side, List.getElem?_map, hn]
    rfl
  cases side with
  | inedge =>
    show ((job.edges w .inedge v).map Edge.vertexid).getD k 0 = n.1.src
    rw [List.getD_eq_getElem?_getD, List.getElem?_map, hobject]
    exact (object_vertexid job.part n).1
  | outedge =>
    show ((job.edges w .outedge v).map Edge.vertexid).getD k 0 = n.1.dst
    rw [List.getD_eq_getElem?_getD, List.getElem?_map, hobject]
    exact (object_vertexid job.part n).2

/-- What a vertex takes an edge for. -/
theorem offer_eq {side : Side} {j k : ℕ} {n : EdgeWithValue ℕ × ℕ}
    (hn : (job.listed w side v)[k]? = some n) (hj : (job.vertex w v).edge j = (side, k)) :
    offer (foundAt job writes w v i) i (job.vertex w v) j =
      if i = 0 then otherEnd n side else edgeAt job writes n i := by
  unfold offer
  rw [neighbor_eq hj, getD_vertex hgaps hv hn, hj]
  unfold foundAt
  rw [hn]
  rfl

/-- The places of the edges in the lists of a vertex. -/
theorem exists_place {side : Side} {n : EdgeWithValue ℕ × ℕ} (hn : n ∈ x.edgesAt side v) :
    ∃ j k, (job.listed w side v)[k]? = some n ∧ j < (job.vertex w v).numEdges ∧
      (job.vertex w v).edge j = (side, k) := by
  obtain ⟨k, hk⟩ := List.getElem?_of_mem ((Job.listed_perm hgaps hv side).mem_iff.mpr hn)
  have hlt : k < (job.vertex w v).count side := by
    rw [count_vertex hgaps hv]
    exact (List.getElem?_eq_some_iff.mp hk).1
  obtain ⟨j, hj, hedge⟩ := exists_edge hlt
  exact ⟨j, k, hk, hj, hedge⟩

theorem exists_listed {j : ℕ} (hj : j < (job.vertex w v).numEdges) :
    ∃ side k n, (job.listed w side v)[k]? = some n ∧ n ∈ x.edgesAt side v ∧
      (job.vertex w v).edge j = (side, k) := by
  have hlt := edge_lt hj
  rw [count_vertex hgaps hv] at hlt
  refine ⟨_, _, _, List.getElem?_eq_getElem hlt, ?_, rfl⟩
  exact mem_edgesAt_of_listed hgaps hv (List.getElem_mem hlt)

/-- The label that a vertex gets in iteration `i`. -/
def labelOf (job : Job x) (writes : List (Record ℕ)) (w v i : ℕ) : ℕ :=
  newLabel (foundAt job writes w v i) i (job.vertex w v) (dataAt job writes w v i)

omit hgaps hv in
theorem outcomeAt_eq (hprogram : x.program = ConnectedComponents.update) :
    outcomeAt job writes w v i = ((), labelOf job writes w v i,
      marks (labelOf job writes w v i) []
        (marked (foundAt job writes w v i) i (job.vertex w v) (dataAt job writes w v i))) := by
  unfold outcomeAt outcomeFrom
  rw [hprogram]
  exact play_update _ _ _ _

omit hgaps hv in
theorem dataAt_succ (hprogram : x.program = ConnectedComponents.update) :
    dataAt job writes w v (i + 1) = labelOf job writes w v i := by
  rw [dataAt]
  show (outcomeAt job writes w v i).2.1 = _
  rw [outcomeAt_eq hprogram]

/-- **The label of the first iteration** is the least id around the vertex. -/
theorem labelOf_zero :
    IsLeast {u | u = v ∨ ∃ side, ∃ n ∈ x.edgesAt side v, u = otherEnd n side}
      (labelOf job writes w v 0) := by
  have hstart : labelOf job writes w v 0 ≤ v := newLabel_le_start.trans (le_of_eq (if_pos rfl))
  have hcases : (labelOf job writes w v 0 = if 0 = 0 then v else dataAt job writes w v 0) ∨
      ∃ j, j < (job.vertex w v).numEdges ∧ labelOf job writes w v 0 =
        offer (foundAt job writes w v 0) 0 (job.vertex w v) j := newLabel_cases
  refine ⟨?_, ?_⟩
  · rcases hcases with h | ⟨j, hj, h⟩
    · exact Or.inl (h.trans (if_pos rfl))
    · obtain ⟨side, k, n, hk, hn, hedge⟩ := exists_listed hgaps hv hj
      refine Or.inr ⟨side, n, hn, h.trans ?_⟩
      rw [offer_eq hgaps hv hk hedge, if_pos rfl]
  · rintro u (rfl | ⟨side, n, hn, rfl⟩)
    · exact hstart
    · obtain ⟨j, k, hk, hj, hedge⟩ := exists_place hgaps hv hn
      have hle : labelOf job writes w v 0 ≤
        offer (foundAt job writes w v 0) 0 (job.vertex w v) j := newLabel_le_offer hj
      rw [offer_eq hgaps hv hk hedge, if_pos rfl] at hle
      exact hle

section Later

variable (hi : i ≠ 0)
include hi

omit hgaps hv in
theorem labelOf_le : labelOf job writes w v i ≤ dataAt job writes w v i :=
  newLabel_le_start.trans (le_of_eq (if_neg hi))

theorem labelOf_le_edge {side : Side} {n : EdgeWithValue ℕ × ℕ} (hn : n ∈ x.edgesAt side v) :
    labelOf job writes w v i ≤ edgeAt job writes n i := by
  obtain ⟨j, k, hk, hj, hedge⟩ := exists_place hgaps hv hn
  have hle : labelOf job writes w v i ≤
    offer (foundAt job writes w v i) i (job.vertex w v) j := newLabel_le_offer hj
  rw [offer_eq hgaps hv hk hedge, if_neg hi] at hle
  exact hle

theorem labelOf_cases : labelOf job writes w v i = dataAt job writes w v i ∨
    ∃ side, ∃ n ∈ x.edgesAt side v, labelOf job writes w v i = edgeAt job writes n i := by
  have hcases : (labelOf job writes w v i = if i = 0 then v else dataAt job writes w v i) ∨
      ∃ j, j < (job.vertex w v).numEdges ∧ labelOf job writes w v i =
        offer (foundAt job writes w v i) i (job.vertex w v) j := newLabel_cases
  rcases hcases with h | ⟨j, hj, h⟩
  · exact Or.inl (h.trans (if_neg hi))
  · obtain ⟨side, k, n, hk, hn, hedge⟩ := exists_listed hgaps hv hj
    refine Or.inr ⟨side, n, hn, h.trans ?_⟩
    rw [offer_eq hgaps hv hk hedge, if_neg hi]

/-- **What a vertex writes to an edge**: its label, where the edge has a
greater one. -/
theorem wrote_of_told (hprogram : x.program = ConnectedComponents.update)
    (htold : Told job writes w v i (outcomeAt job writes w v i).2.2) {side : Side}
    {n : EdgeWithValue ℕ × ℕ} (hn : n ∈ x.edgesAt side v) :
    wrote writes side i n.2 = if labelOf job writes w v i < edgeAt job writes n i then
      some (labelOf job writes w v i) else none := by
  obtain ⟨j, k, hk, hj, hedge⟩ := exists_place hgaps hv hn
  have hfound : foundAt job writes w v i side k = edgeAt job writes n i := by
    unfold foundAt
    rw [hk]
    rfl
  rw [htold side k n hk, outcomeAt_eq hprogram, look_marks]
  unfold marked
  rw [if_neg hi]
  refine if_congr ?_ rfl rfl
  rw [List.mem_filter, decide_eq_true_eq, hfound]
  refine ⟨fun h => h.2, fun h => ⟨?_, h⟩⟩
  exact List.mem_map.mpr ⟨j, List.mem_range.mpr hj, hedge⟩

end Later

/-- In the first iteration it writes its label to all out-edges. -/
theorem wrote_of_told_zero (hprogram : x.program = ConnectedComponents.update)
    (htold : Told job writes w v 0 (outcomeAt job writes w v 0).2.2) {side : Side}
    {n : EdgeWithValue ℕ × ℕ} (hn : n ∈ x.edgesAt side v) :
    wrote writes side 0 n.2 = if side = .outedge then some (labelOf job writes w v 0)
      else none := by
  obtain ⟨j, k, hk, hj, hedge⟩ := exists_place hgaps hv hn
  rw [htold side k n hk, outcomeAt_eq hprogram, look_marks]
  unfold marked
  rw [if_pos rfl]
  refine if_congr ?_ rfl rfl
  rw [List.mem_map]
  constructor
  · rintro ⟨k', -, heq⟩
    exact (congrArg Prod.fst heq).symm
  · rintro rfl
    have hlt := (List.getElem?_eq_some_iff.mp hk).1
    rw [← count_vertex hgaps hv] at hlt
    exact ⟨k, List.mem_range.mpr hlt, rfl⟩

end Call

/-! ## The next iteration -/

/-- The last write to an edge is that of one of its endpoints. -/
theorem wrote_of_lastWrite {writes : List (Record ℕ)} {i k y : ℕ}
    (h : lastWrite writes i k = some y) : ∃ side, wrote writes side i k = some y := by
  induction writes with
  | nil => cases h
  | cons r writes ih =>
    by_cases hr : r.iteration = i ∧ r.edge = k
    · unfold lastWrite at h
      rw [List.find?_cons_of_pos (by simpa using hr)] at h
      refine ⟨r.side, ?_⟩
      rw [wrote_cons, if_pos ⟨hr.1, rfl, hr.2⟩]
      exact h
    · rw [lastWrite_cons_of_ne (not_and_or.mp hr)] at h
      obtain ⟨side, hside⟩ := ih h
      refine ⟨side, ?_⟩
      rw [wrote_cons, if_neg fun hr' => hr ⟨hr'.1, hr'.2.2⟩]
      exact hside

theorem wrote_eq_none_of_lastWrite {writes : List (Record ℕ)} {i k : ℕ}
    (h : lastWrite writes i k = none) (side : Side) : wrote writes side i k = none := by
  unfold lastWrite at h
  rw [Option.map_eq_none_iff, List.find?_eq_none] at h
  refine wrote_eq_none fun r hr hk _ hi => ?_
  exact h r hr (decide_eq_true ⟨hi, hk⟩)

/-- The neighbours are the other ends of the edges. -/
theorem adjacent_iff {v u : ℕ} :
    job.network.Adjacent v u ↔ ∃ side, ∃ n ∈ x.edgesAt side v, u = otherEnd n side := by
  constructor
  · rintro ⟨n, hn, ⟨hsrc, hdst⟩ | ⟨hsrc, hdst⟩⟩
    · exact ⟨.outedge, n, mem_edgesAt.mpr ⟨hn, hsrc⟩, hdst.symm⟩
    · exact ⟨.inedge, n, mem_edgesAt.mpr ⟨hn, hdst⟩, hsrc.symm⟩
  · rintro ⟨side, n, hn, rfl⟩
    obtain ⟨hmem, hend⟩ := mem_edgesAt.mp hn
    cases side with
    | inedge => exact ⟨n, hmem, Or.inr ⟨rfl, hend⟩⟩
    | outedge => exact ⟨n, hmem, Or.inl ⟨hend, rfl⟩⟩

/-- An edge is an out-edge of its source and an in-edge of its destination. -/
theorem mem_edgesAt_src {n : EdgeWithValue ℕ × ℕ} (hn : n ∈ x.numbered) :
    n ∈ x.edgesAt .outedge n.1.src := mem_edgesAt.mpr ⟨hn, rfl⟩

theorem mem_edgesAt_dst {n : EdgeWithValue ℕ × ℕ} (hn : n ∈ x.numbered) :
    n ∈ x.edgesAt .inedge n.1.dst := mem_edgesAt.mpr ⟨hn, rfl⟩

section Rounds

variable (hprogram : x.program = ConnectedComponents.update) (hgaps : NoGaps x job.part)
  (h : History job s) {i : ℕ} (hlate : ∀ w < job.workers, i < (s.worker w).iter)
include hprogram

/-- The label of a vertex when the next iteration begins. -/
theorem value_succ {w v : ℕ} (hv : job.part.Mem w v) (i : ℕ) :
    (labelsAt job s.writes (i + 1)).value v = labelOf job s.writes w v i := by
  show dataAt job s.writes (home job.part v) v (i + 1) = _
  rw [home_eq hv, dataAt_succ hprogram]

include hgaps h hlate

/-- What the two endpoints have written to an edge in an iteration, the first
one excepted. -/
theorem wrote_endpoint (hi : i ≠ 0) {n : EdgeWithValue ℕ × ℕ} {w v : ℕ} {side : Side}
    (hv : job.part.Mem w v) (hn : n ∈ x.edgesAt side v) :
    wrote s.writes side i n.2 =
      if labelOf job s.writes w v i < edgeAt job s.writes n i then
        some (labelOf job s.writes w v i) else none :=
  wrote_of_told hgaps hv hi hprogram ((h.called w v hv).past i (hlate w hv.1)) hn

/-- **The first iteration is a first round**: it looks at the ids of a vertex
and its neighbours, and not at what the edges hold. -/
theorem starts_of_history (hi : i = 0) : Starts job.network (labelsAt job s.writes 1) where
  value v hv := by
    obtain ⟨w, hv⟩ := hv
    rw [value_succ hprogram hv 0]
    have hleast : IsLeast _ (labelOf job s.writes w v 0) := labelOf_zero hgaps hv
    have hset : {u | u = v ∨ job.network.Adjacent v u} =
        {u | u = v ∨ ∃ side, ∃ n ∈ x.edgesAt side v, u = otherEnd n side} := by
      ext u
      exact or_congr Iff.rfl adjacent_iff
    rw [hset]
    exact hleast
  edge n hn := by
    subst hi
    have hsrc := mem_src job.covered (mem_of_numbered hn)
    have hdst := mem_dst job.covered (mem_of_numbered hn)
    have hout := wrote_of_told_zero hgaps hsrc hprogram
      ((h.called _ _ hsrc).past 0 (hlate _ hsrc.1)) (mem_edgesAt_src hn)
    have hin := wrote_of_told_zero hgaps hdst hprogram
      ((h.called _ _ hdst).past 0 (hlate _ hdst.1)) (mem_edgesAt_dst hn)
    rw [if_pos rfl] at hout
    rw [if_neg (by simp)] at hin
    refine Eq.trans ?_ (value_succ hprogram hsrc 0).symm
    show edgeAt job s.writes n 1 = _
    unfold edgeAt
    split
    · unfold Job.heldAt
      rw [held, lastWrite_of_wrote hin]
      show (wrote s.writes .outedge 0 n.2).getD _ = _
      rw [hout]
      rfl
    · rw [sentAt, hout]
      rfl

/-- **An iteration is a round.** Each vertex takes the least label that it sees,
and writes it where it is less. On an edge between two workers only the source's
write counts; on one inside an interval either endpoint may be the last to
write. -/
theorem advances_of_history (hi : i ≠ 0) :
    Advances job.network (labelsAt job s.writes i) (labelsAt job s.writes (i + 1)) where
  value_le v hv := by
    obtain ⟨w, hv⟩ := hv
    rw [value_succ hprogram hv]
    refine (labelOf_le hi).trans (le_of_eq ?_)
    show _ = dataAt job s.writes (home job.part v) v i
    rw [home_eq hv]
  le_edge n hn := by
    have hsrc := mem_src job.covered (mem_of_numbered hn)
    have hdst := mem_dst job.covered (mem_of_numbered hn)
    refine ⟨?_, ?_⟩
    · exact (le_of_eq (value_succ hprogram hsrc i)).trans
        (labelOf_le_edge hgaps hsrc hi (mem_edgesAt_src hn))
    · exact (le_of_eq (value_succ hprogram hdst i)).trans
        (labelOf_le_edge hgaps hdst hi (mem_edgesAt_dst hn))
  value_mem v hv := by
    obtain ⟨w, hv⟩ := hv
    rw [value_succ hprogram hv]
    -- the new label is the old one or comes over an edge, whose other end is then a
    -- neighbour
    have hcases : labelOf job s.writes w v i = dataAt job s.writes w v i ∨ _ :=
      labelOf_cases hgaps hv hi
    rcases hcases with heq | ⟨side, n, hn, heq⟩
    · refine Or.inl (heq.trans ?_)
      show _ = dataAt job s.writes (home job.part v) v i
      rw [home_eq hv]
    · obtain ⟨hmem, hend⟩ := mem_edgesAt.mp hn
      refine Or.inr ⟨n, hmem, ?_, heq⟩
      cases side with
      | inedge => exact Or.inr hend
      | outedge => exact Or.inl hend
  oneWay n hn htwo := by
    have hsrc := mem_src job.covered (mem_of_numbered hn)
    have hmem := mem_edgesAt_src hn
    refine Eq.trans ?_ (value_succ hprogram hsrc i).symm
    -- the source alone changes what is sent, to its new label where that is less
    have hwrote := wrote_endpoint hprogram hgaps h hlate hi hsrc hmem
    have hle : labelOf job s.writes _ _ i ≤ edgeAt job s.writes n i :=
      labelOf_le_edge hgaps hsrc hi hmem
    have htwo : ¬home job.part n.1.src = home job.part n.1.dst := htwo
    show edgeAt job s.writes n (i + 1) = _
    have hold : edgeAt job s.writes n i = sentAt n.1.value s.writes n.2 i := if_neg htwo
    unfold edgeAt
    rw [if_neg htwo, sentAt, hwrote, ← hold]
    split
    · rfl
    · next hlt => exact le_antisymm (not_lt.mp hlt) hle
  twoWay n hn htwo := by
    have hsrc := mem_src job.covered (mem_of_numbered hn)
    have hdst := mem_dst job.covered (mem_of_numbered hn)
    have hmems := mem_edgesAt_src hn
    have hmemd := mem_edgesAt_dst hn
    have hout := wrote_endpoint hprogram hgaps h hlate hi hsrc hmems
    have hin := wrote_endpoint hprogram hgaps h hlate hi hdst hmemd
    have hles : labelOf job s.writes _ _ i ≤ edgeAt job s.writes n i :=
      labelOf_le_edge hgaps hsrc hi hmems
    have hled : labelOf job s.writes _ _ i ≤ edgeAt job s.writes n i :=
      labelOf_le_edge hgaps hdst hi hmemd
    have htwo : home job.part n.1.src = home job.part n.1.dst := htwo
    -- the last of the two writes of the iteration remains
    have hnext : edgeAt job s.writes n (i + 1) =
        (lastWrite s.writes i n.2).getD (edgeAt job s.writes n i) := by
      unfold edgeAt Job.heldAt
      rw [if_pos htwo, if_pos htwo, held, if_neg hi]
    show (edgeAt job s.writes n (i + 1) = (labelsAt job s.writes (i + 1)).value n.1.src ∨
        edgeAt job s.writes n (i + 1) = (labelsAt job s.writes (i + 1)).value n.1.dst) ∧
      (edgeAt job s.writes n (i + 1) < edgeAt job s.writes n i ∨
        (labelsAt job s.writes (i + 1)).value n.1.src = edgeAt job s.writes n i ∧
          (labelsAt job s.writes (i + 1)).value n.1.dst = edgeAt job s.writes n i)
    rw [value_succ hprogram hsrc, value_succ hprogram hdst, hnext]
    cases hlast : lastWrite s.writes i n.2 with
    | none =>
      -- neither has written, so that neither has a label below the edge's
      have hsrc_eq := wrote_eq_none_of_lastWrite hlast .outedge
      have hdst_eq := wrote_eq_none_of_lastWrite hlast .inedge
      rw [hout, ite_eq_right_iff] at hsrc_eq
      rw [hin, ite_eq_right_iff] at hdst_eq
      have hs := le_antisymm hles (not_lt.mp fun hlt => by cases hsrc_eq hlt)
      have hd := le_antisymm hled (not_lt.mp fun hlt => by cases hdst_eq hlt)
      exact ⟨Or.inl hs.symm, Or.inr ⟨hs, hd⟩⟩
    | some y =>
      -- whoever was last has left its own label, and it was below the edge's
      obtain ⟨side, hside⟩ := wrote_of_lastWrite hlast
      cases side with
      | inedge =>
        rw [hin, Option.ite_none_right_eq_some] at hside
        obtain ⟨hlt, heq⟩ := hside
        obtain rfl := Option.some.inj heq
        exact ⟨Or.inr rfl, Or.inl hlt⟩
      | outedge =>
        rw [hout, Option.ite_none_right_eq_some] at hside
        obtain ⟨hlt, heq⟩ := hside
        obtain rfl := Option.some.inj heq
        exact ⟨Or.inl rfl, Or.inl hlt⟩

end Rounds

end Engine
