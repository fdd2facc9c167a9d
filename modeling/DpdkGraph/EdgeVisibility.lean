import Mathlib
import DpdkGraph.EngineLoad

/-!
# Who sees what is written to an edge

In an iteration both endpoints of an edge may read and write its value. For
an edge inside an interval the writes go to `main_to_main_buf` and the reads
to the main block, so that both endpoints find in the next iteration what
has been written. For an edge between two workers the writes of the source
go to an `obuf`, which is sent; those of the destination go to the `inbuf`
itself, which the source never sees and the next block of the source
overwrites.

The invariant says what every slot of an edge holds, in terms of the history
of the writes (`valueAt`).
-/

namespace Engine

open VertexProgram
open Transition (Run exec exists_run)

variable {V E : Type} {x : Input V E} {job : Job x} {s s' : State V E}

/-! ## The law -/

/-- What has been written last to edge `k` in iteration `i` by the endpoint
at `side`. -/
def wrote (writes : List (Record E)) (side : Side) (i k : ℕ) : Option E :=
  (writes.find? fun r => decide (r.iteration = i ∧ r.side = side ∧
    r.edge = k)).map Record.value

/-- **Visibility of the writes**, by the records of what was written and of what
each call found. It speaks of both endpoints in the same way, though the two
have different cells. -/
structure Visible (job : Job x) (s : State V E) : Prop where
  /-- Until an endpoint writes to an edge it reads what it found there when
  the iteration began. -/
  steady : ∀ w v side, job.part.Mem w v → (s.worker w).phase = .computing →
    ∀ e ∈ job.edges w side v,
      wrote s.writes side (s.worker w).iter e.edge = none →
        ⟨(s.worker w).iter, side, e.edge, e.getData (s.worker w).memory⟩ ∈
          s.found
  /-- What the other endpoint alone has written, it finds. -/
  written : ∀ r ∈ s.found, ∀ i, r.iteration = i + 1 → ∀ y,
    wrote s.writes r.side.other i r.edge = some y →
      wrote s.writes r.side i r.edge = none → r.value = y
  /-- What nobody has written is as it was. -/
  unwritten : ∀ r ∈ s.found, ∀ i, r.iteration = i + 1 →
    (∀ side, wrote s.writes side i r.edge = none) →
      ∀ r' ∈ s.found, r'.iteration = i → r'.edge = r.edge →
        r.value = r'.value

/-! ## The conditions -/

/-- No vertex writes to an in-edge from another worker. -/
def KeepsInEdges (job : Job x) (s : State V E) : Action → Prop
  | .request w v =>
    ∀ i ∈ ((s.worker w).todo v).inWrite,
      ∀ e ∈ (job.edges w .inedge v)[i]?, job.part.Mem w e.vertexid
  | _ => True

/-- A block is stored when its receiver has computed. -/
def AfterCompute (s : State V E) : Action → Prop
  | .deliver _ w => (s.worker w).phase = .exchanging
  | _ => True

/-- The main block was read before it was copied. -/
def Copied (job : Job x) : Prop := ∀ w slot, job.copied w slot = true

instance (job : Job x) (s : State V E) : DecidablePred (KeepsInEdges job s)
  | .request w v =>
    inferInstanceAs (Decidable (∀ i ∈ ((s.worker w).todo v).inWrite,
      ∀ e ∈ (job.edges w .inedge v)[i]?, job.part.Mem w e.vertexid))
  | .begin _ | .finish _ | .deliver _ _ | .sync _ =>
    inferInstanceAs (Decidable True)

instance (s : State V E) : DecidablePred (AfterCompute s)
  | .deliver _ _ => inferInstanceAs (Decidable (_ = _))
  | .begin _ | .request _ _ | .finish _ | .sync _ =>
    inferInstanceAs (Decidable True)

/-! ## The value of an edge -/

/-- What has been written last to edge `k` in iteration `i`. -/
def lastWrite (writes : List (Record E)) (i k : ℕ) : Option E :=
  (writes.find? fun r => decide (r.iteration = i ∧ r.edge = k)).map
    Record.value

/-- **The value of edge `k` in iteration `i`**, as the history has it. -/
def valueAt (x : Input V E) (writes : List (Record E)) : ℕ → ℕ → Option E
  | 0, k => x.edges[k]?.map EdgeWithValue.value
  | i + 1, k => (lastWrite writes i k).or (valueAt x writes i k)

theorem lastWrite_cons_of_ne {writes : List (Record E)} {r : Record E}
    {i k : ℕ} (h : r.iteration ≠ i ∨ r.edge ≠ k) :
    lastWrite (r :: writes) i k = lastWrite writes i k := by
  unfold lastWrite
  rw [List.find?_cons_of_neg]
  rw [decide_eq_true_eq, not_and_or]
  exact h

/-- A write, on record. -/
theorem wrote_cons (r : Record E) (writes : List (Record E)) (side : Side) (i k : ℕ) :
    wrote (r :: writes) side i k =
      if r.iteration = i ∧ r.side = side ∧ r.edge = k then some r.value
      else wrote writes side i k := by
  unfold wrote
  by_cases h : r.iteration = i ∧ r.side = side ∧ r.edge = k
  · rw [if_pos h, List.find?_cons_of_pos (by simpa using h)]
    rfl
  · rw [if_neg h, List.find?_cons_of_neg (by simpa using h)]

theorem lastWrite_eq_none {writes : List (Record E)} {i k : ℕ}
    (h : ∀ r ∈ writes, r.edge = k → r.iteration ≠ i) :
    lastWrite writes i k = none := by
  unfold lastWrite
  rw [Option.map_eq_none_iff, List.find?_eq_none]
  intro r hr
  simpa using fun hi hk => h r hr hk hi

/-- A write in an iteration changes the values of the later ones. -/
theorem valueAt_cons_of_le {writes : List (Record E)} {r : Record E}
    {i : ℕ} (hi : i ≤ r.iteration) (k : ℕ) :
    valueAt x (r :: writes) i k = valueAt x writes i k := by
  induction i with
  | zero => rfl
  | succ i ih =>
    rw [valueAt, valueAt, ih (by omega),
      lastWrite_cons_of_ne (Or.inl (by omega))]

/-- A write to an edge changes the values of that edge. -/
theorem valueAt_cons_of_ne {writes : List (Record E)} {r : Record E} {k : ℕ}
    (hk : r.edge ≠ k) (i : ℕ) :
    valueAt x (r :: writes) i k = valueAt x writes i k := by
  induction i with
  | zero => rfl
  | succ i ih => rw [valueAt, valueAt, ih, lastWrite_cons_of_ne (Or.inr hk)]

theorem valueAt_cons_self (writes : List (Record E)) (r : Record E) :
    valueAt x (r :: writes) (r.iteration + 1) r.edge = some r.value := by
  rw [valueAt]
  unfold lastWrite
  rw [List.find?_cons_of_pos (by simp)]
  rfl

/-- Where nothing is written in an iteration, the value stays. -/
theorem valueAt_succ {writes : List (Record E)} {i k : ℕ}
    (h : ∀ r ∈ writes, r.edge = k → r.iteration ≠ i) :
    valueAt x writes (i + 1) k = valueAt x writes i k := by
  rw [valueAt, lastWrite_eq_none h, Option.none_or]

/-- The writes of the two endpoints. -/
theorem lastWrite_of_wrote {writes : List (Record E)} {side : Side} {i k : ℕ}
    (h : wrote writes side i k = none) :
    lastWrite writes i k = wrote writes side.other i k := by
  unfold wrote at h
  rw [Option.map_eq_none_iff, List.find?_eq_none] at h
  unfold lastWrite wrote
  refine congrArg (Option.map _) ?_
  induction writes with
  | nil => rfl
  | cons r writes ih =>
    have hr := h r List.mem_cons_self
    have ih := ih fun r' hr' => h r' (List.mem_cons_of_mem _ hr')
    have hside : (r.iteration = i ∧ r.edge = k) ↔
        (r.iteration = i ∧ r.side = side.other ∧ r.edge = k) := by
      have hor : r.side = side ∨ r.side = side.other := by
        cases r.side <;> cases side <;> simp [Side.other]
      rw [decide_eq_true_eq] at hr
      constructor
      · rintro ⟨h1, h2⟩
        exact ⟨h1, hor.resolve_left fun hs => hr ⟨h1, hs, h2⟩, h2⟩
      · rintro ⟨h1, -, h2⟩
        exact ⟨h1, h2⟩
    rw [List.find?_cons, List.find?_cons, decide_eq_decide.mpr hside, ih]

/-! ## The slots of the edges -/

/-- The edge of a number. -/
theorem eq_of_number {n n' : EdgeWithValue E × ℕ} (hn : n ∈ x.numbered)
    (hn' : n' ∈ x.numbered) (h : n'.2 = n.2) : n' = n := by
  have h₁ := List.mem_zipIdx_iff_getElem?.mp hn'
  have h₂ := List.mem_zipIdx_iff_getElem?.mp hn
  rw [h, h₂] at h₁
  exact Prod.ext (Option.some.inj h₁).symm h

/-- The edges of the same block have different slots. -/
theorem slot_injective (hcov : Covered x job.part)
    {n n' : EdgeWithValue E × ℕ} (hn : n ∈ x.numbered)
    (hn' : n' ∈ x.numbered) (hsrc : home job.part n.1.src = home job.part n'.1.src)
    (hdst : home job.part n.1.dst = home job.part n'.1.dst)
    (hslot : slot x job.part n = slot x job.part n') : n = n' := by
  obtain ⟨e, k⟩ := n
  obtain ⟨e', k'⟩ := n'
  have hk := List.mem_zipIdx_iff_getElem?.mp hn
  have hk' := List.mem_zipIdx_iff_getElem?.mp hn'
  have key : ∀ {e e' : EdgeWithValue E} {j j' : ℕ}, x.edges[j]? = some e →
      e ∈ x.edges → home job.part e.src = home job.part e'.src →
      home job.part e.dst = home job.part e'.dst → j < j' →
      slot x job.part (e, j) < slot x job.part (e', j') := by
    intro e e' j j' hj he hsrc hdst hlt
    have hin : InBlock job.part (home job.part e'.src) (home job.part e'.dst) e :=
      ⟨by rw [← hsrc]; exact mem_src hcov he, by rw [← hdst]; exact mem_dst hcov he⟩
    have hsplit : x.edges.take (j + 1) = x.edges.take j ++ [e] := by
      rw [List.take_add_one, hj]
      rfl
    have hpre : (x.edges.take (j + 1)).Sublist (x.edges.take j') :=
      List.take_sublist_take_left hlt
    unfold slot slotOf
    dsimp only
    rw [hsrc, hdst]
    refine lt_of_lt_of_le ?_ (hpre.countP_le)
    rw [hsplit, List.countP_append, List.countP_singleton,
      if_pos (decide_eq_true hin)]
    omega
  have he := mem_of_numbered hn
  have he' := mem_of_numbered hn'
  rcases lt_trichotomy k k' with hlt | rfl | hlt
  · exact absurd hslot (key hk he hsrc hdst hlt).ne
  · exact congrArg (·, k) (Option.some.inj (hk.symm.trans hk'))
  · exact absurd hslot (key hk' he' hsrc.symm hdst.symm hlt).ne'

/-- The item that a filter leaves at the place of the item `k`. -/
theorem getElem?_filter_take {α : Type*} {P : α → Bool} {l : List α} {k : ℕ}
    {a : α} (hk : l[k]? = some a) (ha : P a = true) :
    (l.filter P)[(l.take k).countP P]? = some a := by
  have hlt : k < l.length := (List.getElem?_eq_some_iff.mp hk).1
  have hsplit : l = l.take k ++ a :: l.drop (k + 1) := by
    conv_lhs => rw [← List.take_append_drop k l]
    rw [List.drop_eq_getElem_cons hlt]
    rw [List.getElem?_eq_getElem hlt] at hk
    rw [Option.some.inj hk]
  conv_lhs => rw [hsplit]
  rw [List.take_left' (by rw [List.length_take]; omega), List.filter_append,
    List.countP_eq_length_filter, List.getElem?_append_right le_rfl,
    Nat.sub_self, List.filter_cons, if_pos ha]
  rfl

/-- **The value of an edge in its block.** -/
theorem block_slot (hcov : Covered x job.part) {n : EdgeWithValue E × ℕ}
    (hn : n ∈ x.numbered) :
    (x.block job.part (home job.part n.1.src) (home job.part n.1.dst))[slot x
      job.part n]? = some n.1.value := by
  have hk := List.mem_zipIdx_iff_getElem?.mp hn
  have he := mem_of_numbered hn
  unfold Input.block slot slotOf
  rw [List.getElem?_map, getElem?_filter_take hk
    (decide_eq_true ⟨mem_src hcov he, mem_dst hcov he⟩)]
  rfl

/-! ## The invariant -/

/-- How many iterations a worker has computed. -/
def Worker.computed (y : Worker V E) : ℕ :=
  y.iter + if y.phase = .exchanging then 1 else 0

/-- How many blocks of `p` a worker has stored. -/
def Worker.received (y : Worker V E) (p : ℕ) : ℕ :=
  y.iter + if y.got p = true then 1 else 0

theorem Worker.received_eq {y y' : Worker V E} {p : ℕ} (hiter : y'.iter = y.iter)
    (hgot : y'.got p = y.got p) : y'.received p = y.received p := by
  unfold Worker.received
  rw [hiter, hgot]

theorem Worker.received_of_got {y : Worker V E} {p : ℕ} (h : y.got p = true) :
    y.received p = y.iter + 1 := by
  unfold Worker.received
  rw [if_pos h]

/-- What the slots of an edge hold: `a` and `b` are the workers of its
source and of its destination. -/
structure Kept (x : Input V E) (part : IntervalPartition) (s : State V E)
    (n : EdgeWithValue E × ℕ) (a b : ℕ) : Prop where
  /-- An edge inside an interval: the main block and the copy. -/
  inner : a = b →
    valueAt x s.writes (s.worker a).iter n.2 =
        some ((s.worker a).memory (.inbuf a (slot x part n))) ∧
      valueAt x s.writes ((s.worker a).iter + 1) n.2 =
        some ((s.worker a).memory (.mainToMain (slot x part n)))
  /-- An edge between two workers: the `obuf` of the source's worker. -/
  sent : a ≠ b → valueAt x s.writes ((s.worker a).iter + 1) n.2 =
    some ((s.worker a).memory (.obuf b (slot x part n)))
  /-- The `inbuf` of the destination's worker. -/
  received : a ≠ b → valueAt x s.writes ((s.worker b).received a) n.2 =
    some ((s.worker b).memory (.inbuf a (slot x part n)))
  /-- The writes are not later than the iteration of the source's worker. -/
  early : ∀ r ∈ s.writes, r.edge = n.2 → r.iteration ≤ (s.worker a).iter ∧
    ((s.worker a).phase = .waiting → r.iteration < (s.worker a).iter)
  /-- An edge between two workers is written by its source. -/
  sides : a ≠ b → ∀ r ∈ s.writes, r.edge = n.2 → r.side = .outedge
  /-- What has been found is the value of the iteration. -/
  known : ∀ r ∈ s.found, r.edge = n.2 →
    valueAt x s.writes r.iteration n.2 = some r.value ∧
      r.iteration ≤ (s.worker a).computed

/-- **The invariant of the edges.** For each edge it says what its cells hold,
inside a worker or between two; the rest is about the pace of the workers and
about the records. -/
structure Inv (job : Job x) (s : State V E) : Prop where
  kept : ∀ n ∈ x.numbered,
    Kept x job.part s n (home job.part n.1.src) (home job.part n.1.dst)
  /-- A block is stored when it has been computed. -/
  counts : ∀ a b, a < job.workers → b < job.workers → a ≠ b →
    (s.worker b).received a ≤ (s.worker a).computed
  /-- Blocks are stored between computing and the next iteration. -/
  idle : ∀ b, (s.worker b).phase ≠ .exchanging →
    ∀ p, (s.worker b).got p = false
  /-- What an iteration began with is on record. -/
  recorded : ∀ w v side, job.part.Mem w v →
    (s.worker w).phase = .computing → ∀ e ∈ job.edges w side v,
      ∃ r ∈ s.found, r.iteration = (s.worker w).iter ∧ r.side = side ∧
        r.edge = e.edge
  /-- The records are about the edges. -/
  numbered : ∀ r ∈ s.found, ∃ n ∈ x.numbered, r.edge = n.2

/-- A step that changes neither the history nor the buffers. -/
theorem Kept.congr {part : IntervalPartition} {n : EdgeWithValue E × ℕ}
    {a b : ℕ} (h : Kept x part s n a b) (hwrites : s'.writes = s.writes)
    (hfound : ∀ r ∈ s'.found, r.edge = n.2 → r ∈ s.found ∨
      valueAt x s.writes r.iteration n.2 = some r.value ∧
        r.iteration ≤ (s.worker a).computed)
    (hmemory : ∀ u, (s'.worker u).memory = (s.worker u).memory)
    (hiter : ∀ u, (s'.worker u).iter = (s.worker u).iter)
    (hgot : ∀ u, (s'.worker u).got = (s.worker u).got)
    (hphase : (s'.worker a).phase = .waiting → (s.worker a).phase = .waiting)
    (hcomputed : (s.worker a).computed ≤ (s'.worker a).computed) :
    Kept x part s' n a b where
  inner := by rw [hwrites, hmemory, hiter]; exact h.inner
  sent := by rw [hwrites, hmemory, hiter]; exact h.sent
  received := by
    unfold Worker.received
    rw [hwrites, hmemory, hiter, hgot]
    exact h.received
  early r hr hk := by
    rw [hwrites] at hr
    rw [hiter]
    exact ⟨(h.early r hr hk).1, fun hp => (h.early r hr hk).2 (hphase hp)⟩
  sides := by rw [hwrites]; exact h.sides
  known r hr hk := by
    rw [hwrites]
    rcases hfound r hr hk with hr | ⟨hval, hle⟩
    · exact ⟨(h.known r hr hk).1, (h.known r hr hk).2.trans hcomputed⟩
    · exact ⟨hval, hle.trans hcomputed⟩

theorem setWorker_self (w : ℕ) (y : Worker V E) :
    (s.setWorker w y).worker w = y := Function.update_self _ _ _

theorem setWorker_of_ne {u w : ℕ} (y : Worker V E) (h : u ≠ w) :
    (s.setWorker w y).worker u = s.worker u := Function.update_of_ne h _ _

/-- A field of the workers that an update leaves as it was. -/
theorem field_eq {β : Type*} (f : Worker V E → β) {w : ℕ} {y : Worker V E}
    (h : f y = f (s.worker w)) (u : ℕ) :
    f ((s.setWorker w y).worker u) = f (s.worker u) := by
  by_cases hu : u = w
  · rw [hu, setWorker_self, h]
  · rw [setWorker_of_ne _ hu]

theorem mem_edgesAt {side : Side} {v : ℕ} {n : EdgeWithValue E × ℕ} :
    n ∈ x.edgesAt side v ↔ n ∈ x.numbered ∧
      (match side with | .inedge => n.1.dst | .outedge => n.1.src) = v := by
  cases side <;> simp [Input.edgesAt]

/-- An object of a vertex is the object of one of its edges. -/
theorem exists_object (hgaps : NoGaps x job.part) {w v : ℕ} {side : Side}
    (hv : job.part.Mem w v) {e : Edge} (he : e ∈ job.edges w side v) :
    ∃ n ∈ x.edgesAt side v, object x job.part side n = e := by
  have := (job.edges_perm hgaps hv side).mem_iff.mp he
  obtain ⟨n, hn, hobj⟩ := List.mem_map.mp this
  exact ⟨n, hn, hobj⟩

theorem object_edge (part : IntervalPartition) (side : Side)
    (n : EdgeWithValue E × ℕ) : (object x part side n).edge = n.2 := by
  cases side with
  | inedge => rfl
  | outedge =>
    show (outObject x part n).edge = n.2
    unfold outObject
    split <;> rfl

/-- **What an endpoint reads** that has not written in this iteration is the
value of the iteration. The in-edge object reads what has been received, or the
block of the worker itself; the out-edge object reads `obuf`, which is an
iteration ahead only where the source has written. -/
theorem Inv.read (h : Inv job s) {n : EdgeWithValue E × ℕ} {w v : ℕ}
    {side : Side} (hn : n ∈ x.edgesAt side v) (hv : job.part.Mem w v)
    (hphase : (s.worker w).phase ≠ .exchanging)
    (hwrote : side = .outedge → ∀ r ∈ s.writes, r.edge = n.2 →
      home job.part n.1.src ≠ home job.part n.1.dst →
        r.iteration ≠ (s.worker w).iter) :
    valueAt x s.writes (s.worker w).iter n.2 =
        some ((object x job.part side n).getData (s.worker w).memory) ∧
      (s.worker w).iter ≤ (s.worker (home job.part n.1.src)).computed := by
  obtain ⟨hmem, hend⟩ := mem_edgesAt.mp hn
  have hkept := h.kept n hmem
  have hidle := h.idle w hphase
  cases side with
  | inedge =>
    have hend : n.1.dst = v := hend
    have hb : home job.part n.1.dst = w := home_eq (by rw [hend]; exact hv)
    have ha := (mem_src job.covered (mem_of_numbered hmem)).1
    rw [hb] at hkept
    by_cases hab : home job.part n.1.src = w
    · rw [hab] at hkept ⊢
      have hcell := (hkept.inner rfl).1
      refine ⟨?_, Nat.le_add_right _ _⟩
      show _ = some ((s.worker w).memory
        (.inbuf (home job.part n.1.src) (slot x job.part n)))
      rw [hab]
      exact hcell
    · -- between two iterations the destination has the block that the source computed
      -- last
      have hcell := hkept.received hab
      have hcount := h.counts _ w ha hv.1 hab
      unfold Worker.received at hcell hcount
      rw [hidle, if_neg (by simp), Nat.add_zero] at hcell hcount
      exact ⟨hcell, hcount⟩
  | outedge =>
    have hend : n.1.src = v := hend
    have ha : home job.part n.1.src = w := home_eq (by rw [hend]; exact hv)
    rw [ha] at hkept hwrote ⊢
    refine ⟨?_, Nat.le_add_right _ _⟩
    show _ = some ((outObject x job.part n).getData _)
    unfold outObject Edge.getData
    rw [ha]
    split
    · next hab => exact (hkept.inner hab).1
    · next hab =>
      -- as the source has not written, the last value is the one of this iteration
      -- too
      have hcell := hkept.sent hab
      rw [valueAt_succ fun r hr hk => hwrote rfl r hr hk hab] at hcell
      exact hcell

/-! ## The steps keep the invariant -/

/-- After loading, all slots of an edge hold its value. -/
theorem Inv.init (hcopied : Copied job) : Inv job (init job) where
  kept n hn := by
    have hslot := block_slot job.covered hn
    have hval : valueAt x [] 0 n.2 = some n.1.value := by
      rw [valueAt, List.mem_zipIdx_iff_getElem?.mp hn]
      rfl
    have hnext : valueAt x [] 1 n.2 = some n.1.value := by
      rw [valueAt_succ fun r hr => absurd hr List.not_mem_nil]
      exact hval
    refine ⟨fun hab => ⟨hval.trans ?_, hnext.trans ?_⟩, fun _ => hnext.trans ?_,
      fun _ => hval.trans ?_, fun r hr => absurd hr List.not_mem_nil,
      fun _ r hr => absurd hr List.not_mem_nil,
      fun r hr => absurd hr List.not_mem_nil⟩
    · rw [← hab] at hslot
      show _ = some (List.getD _ _ _)
      rw [List.getD_eq_getElem?_getD, hslot]
      rfl
    · rw [← hab] at hslot
      show _ = some (if job.copied _ _ = true then List.getD _ _ _ else _)
      rw [if_pos (hcopied _ _), List.getD_eq_getElem?_getD, hslot]
      rfl
    · show _ = some (List.getD _ _ _)
      rw [List.getD_eq_getElem?_getD, hslot]
      rfl
    · show _ = some (List.getD _ _ _)
      rw [List.getD_eq_getElem?_getD, hslot]
      rfl
  counts a b _ _ _ := le_rfl
  idle b _ p := rfl
  recorded w v side _ hphase := by cases hphase
  numbered r hr := by cases hr

/-- What is recorded when an iteration begins. -/
theorem mem_objects {w v : ℕ} {side : Side} {e : Edge} (hv : job.part.Mem w v)
    (he : e ∈ job.edges w side v) : (side, e) ∈ job.objects w := by
  refine List.mem_flatMap.mpr ⟨v, List.mem_range'_1.mpr ⟨hv.2.1, ?_⟩, ?_⟩
  · have := hv.2.2
    omega
  · rw [List.mem_append]
    cases side with
    | inedge => exact Or.inl (List.mem_map_of_mem he)
    | outedge => exact Or.inr (List.mem_map_of_mem he)

theorem exists_of_mem_objects {w : ℕ} (hw : w < job.workers) {side : Side}
    {e : Edge} (h : (side, e) ∈ job.objects w) :
    ∃ v, job.part.Mem w v ∧ e ∈ job.edges w side v := by
  obtain ⟨v, hv, he⟩ := List.mem_flatMap.mp h
  obtain ⟨hlo, hhi⟩ := List.mem_range'_1.mp hv
  refine ⟨v, ⟨hw, hlo, by omega⟩, ?_⟩
  rcases List.mem_append.mp he with he | he
  · obtain ⟨e', he', heq⟩ := List.mem_map.mp he
    cases heq
    exact he'
  · obtain ⟨e', he', heq⟩ := List.mem_map.mp he
    cases heq
    exact he'

/-- **What a worker finds when it begins** is what it has to read: it is
before its updates, so that no write to the edges that it reads is one of
this iteration. -/
theorem Inv.read_begin (h : Inv job s) (hgaps : NoGaps x job.part) {w : ℕ}
    (hw : w < job.workers) (hphase : (s.worker w).phase = .waiting)
    {n : EdgeWithValue E × ℕ} (hn : n ∈ x.numbered) {o : Side × Edge}
    (ho : o ∈ job.objects w) (hk : o.2.edge = n.2) :
    valueAt x s.writes (s.worker w).iter n.2 =
        some (o.2.getData (s.worker w).memory) ∧
      (s.worker w).iter ≤ (s.worker (home job.part n.1.src)).computed := by
  have hne : (s.worker w).phase ≠ .exchanging := by rw [hphase]; simp
  obtain ⟨v, hv, he⟩ := exists_of_mem_objects hw ho
  obtain ⟨n', hn', hobj⟩ := exists_object hgaps hv he
  obtain ⟨hmem, hend⟩ := mem_edgesAt.mp hn'
  obtain rfl := eq_of_number hn hmem (by
    rw [← object_edge job.part o.1 n', hobj]
    exact hk)
  have hread := h.read hn' hv hne fun hside r hr hk hab => by
    have ha : home job.part n'.1.src = w := by
      rw [hside] at hend
      exact home_eq (show job.part.Mem w n'.1.src by
        rw [show n'.1.src = v from hend]; exact hv)
    have hearly := ((h.kept n' hmem).early r hr hk).2
    rw [ha] at hearly
    exact (hearly hphase).ne
  rw [hobj] at hread
  exact hread

/-- A worker begins: it computes nothing yet, and finds what it reads. -/
theorem Inv.begin (h : Inv job s) (hgaps : NoGaps x job.part) {w : ℕ}
    (hstep : beginStep job s w = some s') : Inv job s' := by
  unfold beginStep at hstep
  dsimp only at hstep
  split at hstep
  case isFalse => cases hstep
  case isTrue hguard =>
    obtain ⟨hw, hphase, -⟩ := hguard
    generalize hy : ({ s.worker w with
      todo := fun v => x.program (s.worker w).iter (job.vertex w v)
      phase := .computing } : Worker V E) = y at hstep
    have hy := hy.symm
    obtain rfl := Option.some.inj hstep
    have hself : (s.setWorker w y).worker w = y := setWorker_self _ _
    have hother := fun u => setWorker_of_ne (s := s) (u := u) (w := w) y
    have hiters := field_eq (s := s) (w := w) (y := y) Worker.iter (by rw [hy])
    have hgots := field_eq (s := s) (w := w) (y := y) Worker.got (by rw [hy])
    have hcomputed := field_eq (s := s) (w := w) (y := y) Worker.computed (by
      rw [hy]
      unfold Worker.computed
      rw [hphase]
      rfl)
    refine ⟨fun n hn => ?_, fun a b ha hb hab => ?_, fun b hb p => ?_, ?_,
      fun r hr => ?_⟩
    · refine (h.kept n hn).congr rfl (fun r hr hk => ?_)
        (field_eq Worker.memory (by rw [hy])) hiters hgots (fun hp => ?_)
        (hcomputed _).ge
      · rcases List.mem_append.mp hr with hr | hr
        · obtain ⟨o, ho, rfl⟩ := List.mem_map.mp hr
          exact Or.inr (h.read_begin hgaps hw hphase hn ho hk)
        · exact Or.inl hr
      · by_cases hu : home job.part n.1.src = w
        · rw [hu] at hp
          dsimp only at hp
          rw [hself, hy] at hp
          cases hp
        · rw [← hother _ hu]
          exact hp
    · dsimp only
      rw [hcomputed, field_eq (fun y => y.received a) (by rw [hy]; rfl) b]
      exact h.counts a b ha hb hab
    · dsimp only at hb ⊢
      rw [hgots]
      refine h.idle b ?_ p
      by_cases hu : b = w
      · rw [hu, hphase]
        simp
      · rw [← hother _ hu]
        exact hb
    · intro u v side hv hcomp e he
      dsimp only at hcomp ⊢
      rw [hiters]
      by_cases hu : u = w
      · -- the objects of the worker itself are read, and recorded
        subst hu
        exact ⟨⟨(s.worker u).iter, side, e.edge,
          e.getData (s.worker u).memory⟩, List.mem_append_left _
            (List.mem_map.mpr ⟨(side, e), mem_objects hv he, rfl⟩), rfl, rfl,
          rfl⟩
      · rw [hother _ hu] at hcomp
        obtain ⟨r, hr, hfound⟩ := h.recorded u v side hv hcomp e he
        exact ⟨r, List.mem_append_right _ hr, hfound⟩
    · rcases List.mem_append.mp hr with hr | hr
      · obtain ⟨o, ho, rfl⟩ := List.mem_map.mp hr
        obtain ⟨v, hv, he⟩ := exists_of_mem_objects hw ho
        obtain ⟨n, hn, hobj⟩ := exists_object hgaps hv he
        exact ⟨n, (mem_edgesAt.mp hn).1, by rw [← hobj, object_edge]⟩
      · exact h.numbered r hr

/-- A step of a worker that leaves its buffers, and begins nothing. What is
known of an edge speaks of buffers, iterations and blocks received, and those
are the same; that a worker has computed can only become true. -/
theorem Inv.quiet (h : Inv job s) {w : ℕ} {y : Worker V E}
    (hmemory : y.memory = (s.worker w).memory)
    (hiter : y.iter = (s.worker w).iter) (hgot : y.got = (s.worker w).got)
    (hphase : y.phase = (s.worker w).phase ∨
      (s.worker w).phase = .computing ∧ y.phase = .exchanging) :
    Inv job (s.setWorker w y) := by
  have hle : (s.worker w).computed ≤ y.computed := by
    unfold Worker.computed
    rw [hiter]
    rcases hphase with hp | ⟨hp, -⟩
    · rw [hp]
    · rw [hp]
      exact Nat.le_add_right _ _
  have hcomputed : ∀ u, (s.worker u).computed ≤
      ((s.setWorker w y).worker u).computed := by
    intro u
    by_cases hu : u = w
    · rw [hu, setWorker_self]
      exact hle
    · rw [setWorker_of_ne _ hu]
  have hback : ∀ (u : ℕ) (ph : Phase), ph ≠ .exchanging →
      ((s.setWorker w y).worker u).phase = ph → (s.worker u).phase = ph := by
    intro u ph hph heq
    by_cases hu : u = w
    · rw [hu, setWorker_self] at heq
      rcases hphase with hp | ⟨-, hp⟩
      · rw [hu, ← hp]
        exact heq
      · rw [hp] at heq
        exact absurd heq.symm hph
    · rw [setWorker_of_ne _ hu] at heq
      exact heq
  have hrec : ∀ a u, ((s.setWorker w y).worker u).received a =
      (s.worker u).received a := fun a u =>
    field_eq (fun y => y.received a)
      (Worker.received_eq hiter (by rw [hgot])) u
  refine ⟨fun n hn => ?_, fun a b ha hb hab => ?_, fun b hb p => ?_, ?_,
    h.numbered⟩
  · exact (h.kept n hn).congr rfl (fun r hr _ => Or.inl hr)
      (field_eq Worker.memory hmemory) (field_eq Worker.iter hiter)
      (field_eq Worker.got hgot) (hback _ _ (by simp)) (hcomputed _)
  · rw [hrec]
    exact (h.counts a b ha hb hab).trans (hcomputed a)
  · rw [field_eq Worker.got hgot b]
    refine h.idle b ?_ p
    rw [hback b _ hb rfl]
    exact hb
  · intro u v side hv hcomp e he
    rw [field_eq Worker.iter hiter u]
    exact h.recorded u v side hv (hback u _ (by simp) hcomp) e he

theorem Inv.finish (h : Inv job s) {w : ℕ}
    (hstep : finishStep job s w = some s') : Inv job s' := by
  unfold finishStep at hstep
  split at hstep
  case isFalse => cases hstep
  case isTrue hguard =>
    obtain rfl := Option.some.inj hstep
    exact h.quiet rfl rfl rfl (Or.inr ⟨hguard.2.1, rfl⟩)

/-- Where an object of an edge writes to. -/
theorem object_target (part : IntervalPartition) {side : Side}
    {n : EdgeWithValue E × ℕ}
    (hside : side = .inedge → home part n.1.src = home part n.1.dst) :
    (object x part side n).target =
      if home part n.1.src = home part n.1.dst then
        .mainToMain (slot x part n)
      else .obuf (home part n.1.dst) (slot x part n) := by
  cases side with
  | inedge =>
    show (inObject x part n).target = _
    unfold Edge.target inObject
    rw [if_pos (hside rfl), if_pos (hside rfl)]
    rfl
  | outedge =>
    show (outObject x part n).target = _
    unfold Edge.target outObject
    split <;> rfl

/-- The cells that a write does not reach. -/
theorem memory_of_write {w u : ℕ} {side : Side} {n : EdgeWithValue E × ℕ} {d : E}
    {y : Worker V E}
    (hmemory : y.memory = (object x job.part side n).setData (s.worker u).memory d)
    {p : Ptr} (hp : w = u → (object x job.part side n).target ≠ p) :
    ((s.setWorker u y).worker w).memory p = (s.worker w).memory p := by
  by_cases hwu : w = u
  · subst hwu
    rw [setWorker_self, hmemory]
    exact Function.update_of_ne (hp rfl).symm _ _
  · rw [setWorker_of_ne _ hwu]

section Write

variable {n : EdgeWithValue E × ℕ} {w : ℕ} {side : Side} {d : E} {y : Worker V E}
  (hn : n ∈ x.numbered) (ha : home job.part n.1.src = w)
  (hside : side = .inedge → home job.part n.1.src = home job.part n.1.dst)
  (hphase : (s.worker w).phase = .computing)
  (hmemory : y.memory = (object x job.part side n).setData (s.worker w).memory d)
  (hiter : y.iter = (s.worker w).iter) (hgot : y.got = (s.worker w).got)
  (hyphase : y.phase = (s.worker w).phase)
include hside hmemory

/-- No write reaches an `inbuf`. -/
theorem inbuf_of_write (u p i : ℕ) : ((s.setWorker w y).worker u).memory (.inbuf p i) =
    (s.worker u).memory (.inbuf p i) := by
  refine memory_of_write hmemory fun _ => ?_
  rw [object_target (x := x) job.part hside]
  split <;> simp

include hn ha hphase hiter hgot hyphase in
/-- **What is kept about the edge that is written**: the write is the value of
the next iteration, in the one cell that it goes to, and changes nothing that
belongs to this iteration. -/
theorem Kept.write_self (h : Inv job s) :
    Kept x job.part { s.setWorker w y with
      writes := ⟨(s.worker w).iter, side, n.2, d⟩ :: s.writes } n
      (home job.part n.1.src) (home job.part n.1.dst) := by
  have hiters := field_eq Worker.iter hiter
  have hphases := field_eq Worker.phase hyphase
  have hcw : (s.worker w).computed = (s.worker w).iter := by
    unfold Worker.computed
    rw [hphase]
    rfl
  have hcomputed := field_eq (s := s) (w := w) (y := y) Worker.computed (by
    unfold Worker.computed
    rw [hiter, hyphase])
  have hold := h.kept n hn
  have hself : ((s.setWorker w y).worker w).memory (object x job.part side n).target = d := by
    rw [setWorker_self, hmemory]
    exact Function.update_self _ _ _
  rw [object_target (x := x) job.part hside, ha] at hself
  rw [ha] at hold ⊢
  refine ⟨fun hab => ⟨?_, ?_⟩, fun hab => ?_, fun hab => ?_, ?_, ?_, ?_⟩
  · dsimp only
    rw [hiters, inbuf_of_write hside hmemory, valueAt_cons_of_le le_rfl]
    exact (hold.inner hab).1
  · dsimp only
    rw [hiters, ← hself, if_pos hab]
    rw [if_pos hab] at hself
    rw [hself]
    exact valueAt_cons_self s.writes ⟨(s.worker w).iter, side, n.2, d⟩
  · dsimp only
    rw [if_neg hab] at hself
    rw [hiters, hself]
    exact valueAt_cons_self s.writes ⟨(s.worker w).iter, side, n.2, d⟩
  · -- the destination has not got the block that is computed now
    have hb := (mem_dst job.covered (mem_of_numbered hn)).1
    have hcount := h.counts w _ (by
      rw [← ha]
      exact (mem_src job.covered (mem_of_numbered hn)).1) hb hab
    rw [hcw] at hcount
    dsimp only
    rw [field_eq (fun y => y.received w) (Worker.received_eq hiter (by rw [hgot])),
      inbuf_of_write hside hmemory, valueAt_cons_of_le hcount]
    exact hold.received hab
  · intro r hr hk
    dsimp only
    rw [hiters, hphases]
    rcases List.mem_cons.mp hr with rfl | hr
    · exact ⟨le_rfl, fun hp => by rw [hphase] at hp; cases hp⟩
    · exact hold.early r hr hk
  · intro hab r hr hk
    rcases List.mem_cons.mp hr with rfl | hr
    · cases side with
      | inedge => exact absurd ((ha.symm).trans (hside rfl)) hab
      | outedge => rfl
    · exact hold.sides hab r hr hk
  · intro r hr hk
    obtain ⟨hval, hle⟩ := hold.known r hr hk
    dsimp only
    rw [hcomputed, valueAt_cons_of_le (by rw [hcw] at hle; exact hle)]
    exact ⟨hval, hle⟩

include hn ha hiter hgot hyphase in
/-- **What is kept about another edge**: the write is not one of its values,
and does not reach its cells, as slots are told apart by their edges. -/
theorem Kept.write_of_ne (h : Inv job s) {n' : EdgeWithValue E × ℕ}
    (hn' : n' ∈ x.numbered) (hk : n'.2 ≠ n.2) :
    Kept x job.part { s.setWorker w y with
      writes := ⟨(s.worker w).iter, side, n.2, d⟩ :: s.writes } n'
      (home job.part n'.1.src) (home job.part n'.1.dst) := by
  have hiters := field_eq Worker.iter hiter
  have hphases := field_eq Worker.phase hyphase
  have hinbuf := inbuf_of_write (s := s) hside hmemory
  have htarget := object_target (x := x) job.part hside
  have hold := h.kept n' hn'
  have hval : ∀ i, valueAt x (⟨(s.worker w).iter, side, n.2, d⟩ :: s.writes) i n'.2 =
      valueAt x s.writes i n'.2 := valueAt_cons_of_ne (Ne.symm hk)
  -- another slot of the same block
  have hdiff : home job.part n'.1.src = home job.part n.1.src →
      home job.part n'.1.dst = home job.part n.1.dst →
        slot x job.part n' ≠ slot x job.part n := fun h1 h2 h3 =>
    hk (congrArg Prod.snd (slot_injective job.covered hn' hn h1 h2 h3))
  refine ⟨fun hab => ⟨?_, ?_⟩, fun hab => ?_, fun hab => ?_, ?_, ?_, ?_⟩
  · dsimp only
    rw [hiters, hinbuf, hval]
    exact (hold.inner hab).1
  · dsimp only
    rw [hiters, hval, memory_of_write hmemory fun hu => ?_]
    · exact (hold.inner hab).2
    · rw [htarget]
      split
      · next hin =>
        intro heq
        refine hdiff (hu.trans ha.symm) ?_ (Ptr.mainToMain.inj heq).symm
        rw [← hab, ← hin]
        exact hu.trans ha.symm
      · simp
  · dsimp only
    rw [hiters, hval, memory_of_write hmemory fun hu => ?_]
    · exact hold.sent hab
    · rw [htarget]
      split
      · simp
      · intro heq
        obtain ⟨h1, h2⟩ := Ptr.obuf.inj heq
        exact hdiff (hu.trans ha.symm) h1.symm h2.symm
  · dsimp only
    rw [field_eq (s := s) (w := w) (y := y) (fun y => y.received (home job.part n'.1.src))
      (Worker.received_eq hiter (by rw [hgot])), hval, hinbuf]
    exact hold.received hab
  · intro r hr hkr
    dsimp only
    rw [hiters, hphases]
    rcases List.mem_cons.mp hr with rfl | hr
    · exact absurd hkr.symm hk
    · exact hold.early r hr hkr
  · intro hab r hr hkr
    rcases List.mem_cons.mp hr with rfl | hr
    · exact absurd hkr.symm hk
    · exact hold.sides hab r hr hkr
  · intro r hr hkr
    dsimp only
    rw [field_eq Worker.computed (by unfold Worker.computed; rw [hiter, hyphase]), hval]
    exact hold.known r hr hkr

include hn ha hphase hiter hgot hyphase in
/-- **A write to an edge.** The source's worker, `w`, is where it happens:
only an edge inside an interval is written through an in-edge. -/
theorem Inv.write (h : Inv job s) : Inv job { s.setWorker w y with
    writes := ⟨(s.worker w).iter, side, n.2, d⟩ :: s.writes } where
  kept n' hn' := by
    by_cases hk : n'.2 = n.2
    · obtain rfl := eq_of_number hn hn' hk
      exact Kept.write_self hn ha hside hphase hmemory hiter hgot hyphase h
    · exact Kept.write_of_ne hn ha hside hmemory hiter hgot hyphase h hn' hk
  counts a b hwa hwb hab := by
    dsimp only
    rw [field_eq (fun y => y.received a) (Worker.received_eq hiter (by rw [hgot])),
      field_eq Worker.computed (by unfold Worker.computed; rw [hiter, hyphase])]
    exact h.counts a b hwa hwb hab
  idle b hb p := by
    dsimp only at hb ⊢
    rw [field_eq Worker.phase hyphase] at hb
    rw [field_eq Worker.got hgot]
    exact h.idle b hb p
  recorded u v side hv hcomp e he := by
    dsimp only at hcomp ⊢
    rw [field_eq Worker.phase hyphase] at hcomp
    rw [field_eq Worker.iter hiter]
    exact h.recorded u v side hv hcomp e he
  numbered := h.numbered

end Write

/-- A request of a vertex. -/
theorem Inv.request (h : Inv job s) (hgaps : NoGaps x job.part) {w v : ℕ}
    (hok : KeepsInEdges job s (.request w v))
    (hstep : requestStep job s w v = some s') : Inv job s' := by
  unfold requestStep at hstep
  split at hstep
  case isFalse => cases hstep
  case isTrue hguard =>
    obtain ⟨hv, hphase⟩ := hguard
    cases htodo : (s.worker w).todo v with
    | done a =>
      rw [htodo] at hstep
      cases hstep
    | getData next =>
      rw [htodo] at hstep
      obtain rfl := Option.some.inj hstep
      exact h.quiet rfl rfl rfl (Or.inl rfl)
    | setData d next =>
      rw [htodo] at hstep
      obtain rfl := Option.some.inj hstep
      exact h.quiet rfl rfl rfl (Or.inl rfl)
    | getEdge side i next =>
      rw [htodo] at hstep
      obtain ⟨e, -, rfl⟩ := Option.map_eq_some_iff.mp hstep
      exact h.quiet rfl rfl rfl (Or.inl rfl)
    | setEdge side i d next =>
      rw [htodo] at hstep
      obtain ⟨e, he, rfl⟩ := Option.map_eq_some_iff.mp hstep
      obtain ⟨n, hn, rfl⟩ := exists_object hgaps hv (List.mem_of_getElem? he)
      obtain ⟨hmem, hend⟩ := mem_edgesAt.mp hn
      rw [object_edge]
      -- the write is at the worker of the source: through an in-edge by the rule of
      -- the run
      have hsrc : job.part.Mem w n.1.src := by
        cases side with
        | inedge =>
          refine hok i ?_ _ he
          rw [htodo]
          rfl
        | outedge =>
          rw [show n.1.src = v from hend]
          exact hv
      refine Inv.write (d := d) hmem (home_eq hsrc) (fun hside => ?_) hphase rfl rfl rfl rfl h
      subst hside
      rw [home_eq hsrc, home_eq (show job.part.Mem w n.1.dst by
        rw [show n.1.dst = v from hend]; exact hv)]

section Deliver

variable {p w : ℕ} {y : Worker V E} (hy : y = { s.worker w with
  memory := job.stored p w (s.worker p).memory (s.worker w).memory
  got := Function.update (s.worker w).got p true })
include hy

/-- Of the blocks only the one that is stored is received, -/
theorem received_deliver_of_ne {a b : ℕ} (hab : ¬(a = p ∧ b = w)) :
    ((s.setWorker w y).worker b).received a = (s.worker b).received a := by
  by_cases hb : b = w
  · subst hb
    rw [setWorker_self, hy]
    exact Worker.received_eq rfl
      (Function.update_of_ne (fun ha => hab ⟨ha, rfl⟩) _ _)
  · rw [setWorker_of_ne _ hb]

/-- and of the memory only its `inbuf` is written. -/
theorem memory_deliver_of_ne {u : ℕ} {c : Ptr}
    (hc : u = w → ∀ i, c ≠ .inbuf p i) :
    ((s.setWorker w y).worker u).memory c = (s.worker u).memory c := by
  by_cases hu : u = w
  · subst hu
    rw [setWorker_self, hy]
    cases c with
    | inbuf q i =>
      show (if q = p ∧ _ then _ else _) = _
      rw [if_neg]
      rintro ⟨rfl, -⟩
      exact hc rfl i rfl
    | obuf q i => rfl
    | mainToMain i => rfl
  · rw [setWorker_of_ne _ hu]

/-- The block is the one of the iteration that `p` has computed. -/
theorem received_deliver_self (hiter : (s.worker p).iter = (s.worker w).iter) :
    ((s.setWorker w y).worker w).received p = (s.worker p).iter + 1 := by
  rw [setWorker_self, hiter, hy]
  exact Worker.received_of_got (Function.update_self _ _ _)

/-- **What is kept about an edge when a block is stored**: its cell of the
block, where it has one, is the `obuf` that holds its last value. -/
theorem Kept.deliver {n : EdgeWithValue E × ℕ} (hn : n ∈ x.numbered)
    (hne : p ≠ w) (hiter : (s.worker p).iter = (s.worker w).iter)
    (hold : Kept x job.part s n (home job.part n.1.src)
      (home job.part n.1.dst)) :
    Kept x job.part (s.setWorker w y) n (home job.part n.1.src)
      (home job.part n.1.dst) := by
  have hiters := field_eq (s := s) (w := w) (y := y) Worker.iter (by rw [hy])
  have hphases := field_eq (s := s) (w := w) (y := y) Worker.phase (by rw [hy])
  have hcomputed := field_eq (s := s) (w := w) (y := y) Worker.computed (by
    rw [hy]
    rfl)
  refine ⟨fun hab => ?_, fun hab => ?_, fun hab => ?_, ?_, hold.sides, ?_⟩
  · rw [hiters, memory_deliver_of_ne hy fun hu i hi => ?_,
      memory_deliver_of_ne hy fun _ i hi => ?_]
    · exact hold.inner hab
    · cases hi
    · exact hne ((Ptr.inbuf.inj hi).1.symm.trans hu)
  · rw [hiters, memory_deliver_of_ne hy fun _ i hi => by cases hi]
    exact hold.sent hab
  · by_cases hhit : home job.part n.1.src = p ∧ home job.part n.1.dst = w
    · -- the edge of the block: what `p` had in `obuf` is now received
      obtain ⟨ha, hb⟩ := hhit
      have hslot := block_slot job.covered hn
      have hcell := hold.sent hab
      rw [ha, hb] at hslot hcell ⊢
      rw [received_deliver_self hy hiter, setWorker_self, hy]
      show _ = some (if p = p ∧ _ then _ else _)
      rw [if_pos ⟨rfl, (List.getElem?_eq_some_iff.mp hslot).1⟩]
      exact hcell
    · rw [received_deliver_of_ne hy hhit,
        memory_deliver_of_ne hy fun hu i hi => ?_]
      · exact hold.received hab
      · exact hhit ⟨(Ptr.inbuf.inj hi).1, hu⟩
  · intro r hr hk
    rw [hiters, hphases]
    exact hold.early r hr hk
  · intro r hr hk
    rw [hcomputed]
    exact hold.known r hr hk

end Deliver

/-- A block is stored. -/
theorem Inv.deliver (h : Inv job s) {p w : ℕ}
    (hok : AfterCompute s (.deliver p w))
    (hstep : deliverStep job s p w = some s') : Inv job s' := by
  unfold deliverStep at hstep
  split at hstep
  case isFalse => cases hstep
  case isTrue hguard =>
    obtain ⟨hp, hw, hne, hphase, hiter, hgot⟩ := hguard
    have hwphase : (s.worker w).phase = .exchanging := hok
    have hpcomp : (s.worker p).computed = (s.worker w).iter + 1 := by
      unfold Worker.computed
      rw [hphase, hiter]
      rfl
    generalize hy : ({ s.worker w with
      memory := job.stored p w (s.worker p).memory (s.worker w).memory
      got := Function.update (s.worker w).got p true } : Worker V E) = y
      at hstep
    have hy := hy.symm
    obtain rfl := Option.some.inj hstep
    have hiters := field_eq (s := s) (w := w) (y := y) Worker.iter (by rw [hy])
    have hphases := field_eq (s := s) (w := w) (y := y) Worker.phase
      (by rw [hy])
    have hcomputed := field_eq (s := s) (w := w) (y := y) Worker.computed (by
      rw [hy]
      rfl)
    refine ⟨fun n hn => (h.kept n hn).deliver hy hn hne hiter,
      fun a b ha hb hab => ?_, fun b hb q => ?_, ?_, h.numbered⟩
    · -- what has been stored is the block that its sender has computed
      rw [hcomputed]
      by_cases hhit : a = p ∧ b = w
      · obtain ⟨rfl, rfl⟩ := hhit
        rw [received_deliver_self hy hiter, hpcomp, hiter]
      · rw [received_deliver_of_ne hy hhit]
        exact h.counts a b ha hb hab
    · -- the receiver waits for blocks, as it has computed
      rw [hphases] at hb
      by_cases hbw : b = w
      · rw [hbw] at hb
        exact absurd hwphase hb
      · rw [setWorker_of_ne _ hbw]
        exact h.idle b hb q
    · intro u v side hv hcomp e he
      rw [hphases] at hcomp
      rw [hiters]
      exact h.recorded u v side hv hcomp e he

section Sync

variable {w : ℕ} {y : Worker V E} (hy : y = { s.worker w with
  memory := job.synced w (s.worker w).memory
  iter := (s.worker w).iter + 1
  phase := .waiting
  got := fun _ => false })
include hy

/-- The blocks of an iteration are all there when the main block is copied,
so that the next iteration begins with as many. -/
theorem received_sync
    (hall : ∀ p < job.workers, p ≠ w → (s.worker w).got p = true) {a b : ℕ}
    (ha : a < job.workers) (hab : a ≠ b) :
    ((s.setWorker w y).worker b).received a = (s.worker b).received a := by
  by_cases hb : b = w
  · subst hb
    rw [setWorker_self, hy, Worker.received_of_got (hall a ha hab)]
    rfl
  · rw [setWorker_of_ne _ hb]

/-- **What is kept about an edge when the main block is copied**: the value
that the next iteration reads is the one in the cell that is copied, as no
write is later. -/
theorem Kept.sync {n : EdgeWithValue E × ℕ} (hn : n ∈ x.numbered)
    (hphase : (s.worker w).phase = .exchanging)
    (hall : ∀ p < job.workers, p ≠ w → (s.worker w).got p = true)
    (hold : Kept x job.part s n (home job.part n.1.src)
      (home job.part n.1.dst)) :
    Kept x job.part (s.setWorker w y) n (home job.part n.1.src)
      (home job.part n.1.dst) := by
  have hself : ((s.setWorker w y).worker w) = y := setWorker_self _ _
  have hother := fun u => setWorker_of_ne (s := s) (u := u) (w := w) y
  have hcomputed := field_eq (s := s) (w := w) (y := y) Worker.computed (by
    rw [hy]
    unfold Worker.computed
    rw [hphase]
    rfl)
  have hlate : home job.part n.1.src = w → ∀ r ∈ s.writes, r.edge = n.2 →
      r.iteration ≠ (s.worker w).iter + 1 := by
    intro ha r hr hk
    have := (hold.early r hr hk).1
    rw [ha] at this
    omega
  have hslot := block_slot job.covered hn
  refine ⟨fun hab => ?_, fun hab => ?_, fun hab => ?_, ?_, hold.sides, ?_⟩
  · by_cases ha : home job.part n.1.src = w
    · have hcell := (hold.inner hab).2
      rw [← hab] at hslot
      rw [ha] at hcell hslot ⊢
      rw [hself, hy]
      have hnext := valueAt_succ (x := x) (hlate ha)
      refine ⟨?_, hnext.trans hcell⟩
      show _ = some (if w = w ∧ _ then _ else _)
      rw [if_pos ⟨rfl, (List.getElem?_eq_some_iff.mp hslot).1⟩]
      exact hcell
    · rw [hother _ ha]
      exact hold.inner hab
  · by_cases ha : home job.part n.1.src = w
    · have hcell := hold.sent hab
      rw [ha] at hcell ⊢
      rw [hself, hy]
      exact (valueAt_succ (hlate ha)).trans hcell
    · rw [hother _ ha]
      exact hold.sent hab
  · have ha := (mem_src job.covered (mem_of_numbered hn)).1
    rw [received_sync hy hall ha hab]
    by_cases hb : home job.part n.1.dst = w
    · -- the copy is into the block of the worker itself
      have hcell := hold.received hab
      rw [hb] at hcell hab ⊢
      rw [hself, hy]
      show _ = some (if _ ∧ _ then _ else _)
      rw [if_neg fun hc => hab hc.1]
      exact hcell
    · rw [hother _ hb]
      exact hold.received hab
  · intro r hr hk
    obtain ⟨hle, hlt⟩ := hold.early r hr hk
    by_cases ha : home job.part n.1.src = w
    · rw [ha] at hle ⊢
      rw [hself, hy]
      exact ⟨hle.trans (Nat.le_succ _), fun _ => Nat.lt_succ_of_le hle⟩
    · rw [hother _ ha]
      exact ⟨hle, hlt⟩
  · intro r hr hk
    rw [hcomputed]
    exact hold.known r hr hk

end Sync

/-- The main block is copied. -/
theorem Inv.sync (h : Inv job s) {w : ℕ}
    (hstep : syncStep job s w = some s') : Inv job s' := by
  unfold syncStep at hstep
  split at hstep
  case isFalse => cases hstep
  case isTrue hguard =>
    obtain ⟨hw, hphase, hall⟩ := hguard
    generalize hy : ({ s.worker w with
      memory := job.synced w (s.worker w).memory
      iter := (s.worker w).iter + 1
      phase := .waiting
      got := fun _ => false } : Worker V E) = y at hstep
    have hy := hy.symm
    obtain rfl := Option.some.inj hstep
    have hself : ((s.setWorker w y).worker w) = y := setWorker_self _ _
    have hother := fun u => setWorker_of_ne (s := s) (u := u) (w := w) y
    have hcomputed := field_eq (s := s) (w := w) (y := y) Worker.computed (by
      rw [hy]
      unfold Worker.computed
      rw [hphase]
      rfl)
    refine ⟨fun n hn => (h.kept n hn).sync hy hn hphase hall,
      fun a b ha hb hab => ?_, fun b hb q => ?_, ?_, h.numbered⟩
    · rw [hcomputed, received_sync hy hall ha hab]
      exact h.counts a b ha hb hab
    · by_cases hbw : b = w
      · rw [hbw, hself, hy]
      · rw [hother b hbw] at hb ⊢
        exact h.idle b hb q
    · intro u v side hv hcomp e he
      by_cases hu : u = w
      · rw [hu, hself, hy] at hcomp
        cases hcomp
      · rw [hother u hu] at hcomp ⊢
        exact h.recorded u v side hv hcomp e he

/-- **The steps keep the invariant.** -/
theorem Inv.step (h : Inv job s) (hgaps : NoGaps x job.part) {a : Action}
    (hkeeps : KeepsInEdges job s a) (hafter : AfterCompute s a)
    (hstep : step job s a = some s') : Inv job s' := by
  cases a with
  | begin w => exact h.begin hgaps hstep
  | request w v => exact h.request hgaps hkeeps hstep
  | finish w => exact h.finish hstep
  | deliver p w => exact h.deliver hafter hstep
  | sync w => exact h.sync hstep

/-! ## The law holds -/

/-- A state with the invariant obeys the law. -/
theorem Inv.visible (h : Inv job s) (hgaps : NoGaps x job.part) :
    Visible job s where
  steady w v side hv hphase e he hwrote := by
    obtain ⟨n, hn, rfl⟩ := exists_object hgaps hv he
    obtain ⟨r, hr, hiter, hside, hk⟩ := h.recorded w v side hv hphase _ he
    rw [object_edge] at hwrote hk ⊢
    obtain ⟨hmem, hend⟩ := mem_edgesAt.mp hn
    have hread := (h.read hn hv (by rw [hphase]; simp)
      fun hout r hr hk hab hi => by
        have hrside := (h.kept n hmem).sides hab r hr hk
        unfold wrote at hwrote
        rw [Option.map_eq_none_iff, List.find?_eq_none] at hwrote
        refine hwrote r hr ?_
        rw [decide_eq_true_eq]
        exact ⟨hi, hrside.trans hout.symm, hk⟩).1
    have hval := ((h.kept n hmem).known r hr hk).1
    rw [hiter, hread] at hval
    have : r = ⟨(s.worker w).iter, side, n.2,
        (object x job.part side n).getData (s.worker w).memory⟩ := by
      obtain ⟨ri, rs, rk, rv⟩ := r
      dsimp only at hiter hside hk hval
      rw [hiter, hside, hk, Option.some.inj hval]
    rw [← this]
    exact hr
  written r hr i hi y hother hself := by
    obtain ⟨n, hn, hk⟩ := h.numbered r hr
    have hval := ((h.kept n hn).known r hr hk).1
    rw [hi, ← hk, valueAt, lastWrite_of_wrote hself, hother] at hval
    exact (Option.some.inj hval).symm
  unwritten r hr i hi hnone r' hr' hi' hk' := by
    obtain ⟨n, hn, hk⟩ := h.numbered r hr
    have hval := ((h.kept n hn).known r hr hk).1
    have hval' := ((h.kept n hn).known r' hr' (hk'.trans hk)).1
    rw [hi, ← hk, valueAt, lastWrite_of_wrote (hnone .inedge), hnone,
      Option.none_or] at hval
    rw [hi', ← hk, hval] at hval'
    exact Option.some.inj hval'

/-- In a run whose steps meet the conditions the invariant holds. -/
theorem inv_of_run {as : List Action} (hgaps : NoGaps x job.part)
    (hcopied : Copied job)
    (hrun : Run (step job)
      (fun s a => KeepsInEdges job s a ∧ AfterCompute s a) (init job) as s) :
    Inv job s :=
  hrun.invariant
    (fun _ _ _ h hok hstep => h.step hgaps hok.1 hok.2 hstep)
    (Inv.init hcopied)

/-- **Writes are visible** in every run in which no vertex writes to an
in-edge from another worker and blocks are stored after the receiver has
computed, where no empty in-block comes before one that has edges and the
main block was read before it was copied. -/
theorem visible_of_keepsInEdges {as : List Action}
    (hgaps : NoGaps x job.part) (hcopied : Copied job)
    (hrun : Run (step job)
      (fun s a => KeepsInEdges job s a ∧ AfterCompute s a) (init job) as s) :
    Visible job s :=
  (inv_of_run hgaps hcopied hrun).visible hgaps

/-! ## Two workers -/

/-- The chain `3 → 2 → 0`, and `1 → 4 ← 5`, for connected components. -/
def chain : Input ℕ ℕ where
  edges := [⟨1, 4, 0⟩, ⟨2, 0, 0⟩, ⟨3, 2, 0⟩, ⟨5, 4, 0⟩]
  sorted := by decide
  noloop := by decide
  program := ConnectedComponents.update
  value := fun _ => 0

/-- Two workers for six vertices. -/
def apart : IntervalPartition where
  intervals := [(0, 2), (3, 5)]
  start := rfl
  contiguous := by decide
  ordered := by decide
  vid := by decide

/-- There is an edge in each block. -/
theorem loadable_chain : Loadable chain apart := by decide +kernel

def chainApart : Job chain where
  part := apart
  covered e he := by
    have hall : ∀ e ∈ chain.edges, (∃ k < 2, apart.Mem k e.src) ∧
        ∃ k < 2, apart.Mem k e.dst := by decide
    obtain ⟨⟨k, -, hk⟩, k', -, hk'⟩ := hall e he
    exact ⟨⟨k, hk⟩, k', hk'⟩
  outedges w v := (loadBeforeUpdates chain apart w).edges .outedge v
  added _ _ := List.Perm.refl _
  copied _ _ := true
  blank _ _ := 0

/-- One worker for four vertices. -/
def fourVertices : IntervalPartition where
  intervals := [(0, 3)]
  start := rfl
  contiguous := by decide
  ordered := by decide
  vid := by decide

/-- As many requests of a vertex. -/
def requests (w v n : ℕ) : List Action := List.replicate n (.request w v)

/-- The exchange of two workers. -/
def exchange : List Action :=
  [.finish 0, .finish 1, .deliver 0 1, .deliver 1 0, .sync 0, .sync 1]

/-- The first iteration: every vertex takes the least of the ids it sees. -/
def firstIteration : List Action :=
  [.begin 0, .begin 1] ++ requests 0 0 5 ++ requests 0 1 6 ++ requests 0 2 7 ++
    requests 1 3 6 ++ requests 1 4 6 ++ requests 1 5 6 ++ exchange

/-- The second one. -/
def secondIteration : List Action :=
  [.begin 0, .begin 1] ++ requests 0 0 5 ++ requests 0 1 5 ++ requests 0 2 8 ++
    requests 1 3 5 ++ requests 1 4 8 ++ requests 1 5 5 ++ exchange

/-- In the first iteration of connected components only out-edges are
written. -/
theorem visible_firstIteration :
    ∃ s, Run (step chainApart)
        (fun s a => KeepsInEdges chainApart s a ∧ AfterCompute s a)
        (init chainApart) (firstIteration ++ [.begin 0, .begin 1]) s ∧
      Visible chainApart s := by
  obtain ⟨s, hrun, -⟩ := exists_run (step chainApart)
    (fun s a => KeepsInEdges chainApart s a ∧ AfterCompute s a)
    (init chainApart) (firstIteration ++ [.begin 0, .begin 1])
    (fun _ => True) (by decide +kernel)
  exact ⟨s, hrun, visible_of_keepsInEdges loadable_chain.noGaps
    (fun _ _ => rfl) hrun⟩

/-- In the second iteration vertex 2, whose label is 0, writes it to the edge
from vertex 3, which finds its own label 2 there in the third. -/
theorem not_visible_inEdgeWrite :
    ¬∀ (x : Input ℕ ℕ) (job : Job x) (as : List Action) (s : State ℕ ℕ),
      Loadable x job.part →
        Run (step job) (fun _ _ => True) (init job) as s → Visible job s := by
  intro h
  obtain ⟨s, hrun, hfound, hin, hout⟩ := exists_run (step chainApart)
    (fun _ _ => True) (init chainApart)
    (firstIteration ++ secondIteration ++ [.begin 0, .begin 1])
    (fun s => ⟨2, .outedge, 2, 2⟩ ∈ s.found ∧
      wrote s.writes .inedge 1 2 = some 0 ∧
      wrote s.writes .outedge 1 2 = none)
    (by decide +kernel)
  have hval := (h _ _ _ s loadable_chain hrun).written _ hfound 1 rfl 0 hin hout
  exact absurd hval (by decide)

end Engine
