import Mathlib
import DpdkGraph.EdgeVisibility

/-!
# The partition does not show

The meaning of a vertex program does not mention workers: in every
iteration the vertices compute from the values of the iteration before
(`Input.after`). A job computes the same, with any partition, if the program
writes to nothing but its own vertex and its out-edges, does not read an
out-edge after it has written it, and does not depend on the order in which
the out-edges are listed. The last two show the partition otherwise: what an
update has written to an out-edge it finds there at once when the edge goes
to another worker, and only in the next iteration when it does not; and the
edges to the worker's own vertices are not added in the order of the others.
-/

namespace Engine

open VertexProgram
open Transition (Run exists_run)

variable {V E : Type} {x : Input V E} {job : Job x} {s s' : State V E}

/-! ## The meaning of a program -/

/-- The values of the vertices and of the edges. -/
structure Values (V E : Type) where
  value : ℕ → V
  edge : EdgeWithValue E × ℕ → E

namespace Input

variable (x : Input V E)

/-- The in-edges of a vertex: the sources and the values. -/
def insAt (l : Values V E) (v : ℕ) : List (ℕ × E) :=
  (x.edgesAt .inedge v).map fun n => (n.1.src, l.edge n)

/-- The out-edges of a vertex: the numbers, the destinations and the
values. -/
def outsAt (l : Values V E) (ns : List (EdgeWithValue E × ℕ)) :
    List (ℕ × ℕ × E) :=
  ns.map fun n => (n.2, n.1.dst, l.edge n)

/-- What the update of a vertex comes to whose out-edges are listed as
`ns`. -/
def updateOf (i : ℕ) (l : Values V E) (v : ℕ)
    (ns : List (EdgeWithValue E × ℕ)) : Option (Unit × V × List E) :=
  (x.program i ⟨v, (x.insAt l v).map Prod.fst,
      (outsAt l ns).map fun o => o.2.1⟩).outcome (l.value v)
    ((x.insAt l v).map Prod.snd) ((outsAt l ns).map fun o => o.2.2)
    ((outsAt l ns).map fun o => o.2.2)

/-- The values after iteration `i`. -/
def next (i : ℕ) (l : Values V E) : Values V E where
  value v :=
    match x.updateOf i l v (x.edgesAt .outedge v) with
    | some r => r.2.1
    | none => l.value v
  edge n :=
    match x.updateOf i l n.1.src (x.edgesAt .outedge n.1.src) with
    | some r =>
      ((((outsAt l (x.edgesAt .outedge n.1.src)).map Prod.fst).zip
        r.2.2).lookup n.2).getD (l.edge n)
    | none => l.edge n

/-- **The values after `i` iterations.** -/
def after (x : Input V E) : ℕ → Values V E
  | 0 => ⟨x.value, fun n => n.1.value⟩
  | i + 1 => x.next i (x.after i)

end Input

/-- Two jobs with the same input agree on the vertices of the workers that
have computed the same number of iterations. -/
def SameValues {x : Input V E} (job job' : Job x) (s s' : State V E) : Prop :=
  ∀ v w w', job.part.Mem w v → job'.part.Mem w' v →
    (s.worker w).phase ≠ .computing → (s'.worker w').phase ≠ .computing →
      (s.worker w).computed = (s'.worker w').computed →
        (s.worker w).value v = (s'.worker w').value v

/-- The programs for which the partition does not show. -/
structure Transparent (program : Program V E) : Prop where
  outOnly : ∀ i vertex, (program i vertex).OutOnly
  readsFirst : ∀ i vertex, (program i vertex).ReadsFirst fun _ => False
  orderFree : OrderFree program

/-- A name that occurs once has one value. -/
theorem lookup_eq_some {l : List (ℕ × E)} (hnodup : (l.map Prod.fst).Nodup)
    {k : ℕ} {y : E} (h : (k, y) ∈ l) : l.lookup k = some y := by
  induction l with
  | nil => cases h
  | cons p l ih =>
    obtain ⟨hp, hnodup⟩ := List.nodup_cons.mp hnodup
    rcases List.mem_cons.mp h with rfl | h
    · exact List.lookup_cons_self
    · have hne : (k == p.1) = false := by
        rw [beq_eq_false_iff_ne]
        intro hk
        exact hp (hk ▸ List.mem_map_of_mem h)
      rw [List.lookup_cons, hne]
      exact ih hnodup h

theorem map_fst_zip_sublist (l : List ℕ) :
    ∀ l' : List E, ((l.zip l').map Prod.fst).Sublist l := by
  induction l with
  | nil => intro l'; exact List.Sublist.refl _
  | cons a l ih =>
    intro l'
    cases l' with
    | nil => exact List.nil_sublist _
    | cons b l' => exact (ih l').cons_cons a

theorem edgesAt_nodup (side : Side) (v : ℕ) :
    ((x.edgesAt side v).map Prod.snd).Nodup := by
  have hall : (x.numbered.map Prod.snd).Nodup := by
    unfold Input.numbered
    rw [List.zipIdx_map_snd]
    exact List.nodup_range'
  cases side with
  | inedge => exact hall.sublist (List.filter_sublist.map _)
  | outedge => exact hall.sublist (List.filter_sublist.map _)

/-- **The order of the out-edges does not matter**: what the update comes to
with them listed as `ns` are the values after the iteration. The values are
found under the edges' numbers, of which no two are the same. -/
theorem next_of_updateOf (hprog : OrderFree x.program) {i v : ℕ}
    {l : Values V E} {ns : List (EdgeWithValue E × ℕ)}
    (hns : ns.Perm (x.edgesAt .outedge v)) {d : V} {new : List E}
    (hlen : new.length = ns.length)
    (h : x.updateOf i l v ns = some ((), d, new)) :
    (x.next i l).value v = d ∧
      ∀ (j : ℕ) (n : EdgeWithValue E × ℕ), ns[j]? = some n →
        new[j]? = some ((x.next i l).edge n) := by
  have hnames : ∀ ms : List (EdgeWithValue E × ℕ),
      (Input.outsAt l ms).map Prod.fst = ms.map Prod.snd := fun ms => by
    unfold Input.outsAt
    rw [List.map_map]
    rfl
  have hnodup : ((Input.outsAt l ns).map Prod.fst).Nodup := by
    rw [hnames, (hns.map Prod.snd).nodup_iff]
    exact edgesAt_nodup .outedge v
  -- the order of the input is one that the program may be given as well
  obtain ⟨new', hnew', hperm⟩ := hprog i v (l.value v) (x.insAt l v)
    (Input.outsAt l ns) (Input.outsAt l (x.edgesAt .outedge v)) (hns.map _)
    hnodup d new h
  have hupdate : x.updateOf i l v (x.edgesAt .outedge v) =
      some ((), d, new') := hnew'
  constructor
  · show (match x.updateOf i l v _ with | some r => r.2.1 | none => _) = d
    rw [hupdate]
  · intro j n hj
    have hmem : n ∈ x.edgesAt .outedge v := hns.mem_iff.mp
      (List.mem_of_getElem? hj)
    have hsrc : n.1.src = v := (mem_edgesAt.mp hmem).2
    obtain ⟨hjlt, hget⟩ := List.getElem?_eq_some_iff.mp hj
    have hjnew : j < new.length := by rw [hlen]; exact hjlt
    -- the pair of number and new value is on both lists
    have hpair : (n.2, new[j]) ∈ ((Input.outsAt l ns).map Prod.fst).zip new := by
      rw [hnames]
      refine List.mem_of_getElem? (i := j) ?_
      rw [List.getElem?_zip_eq_some, List.getElem?_map, hj,
        List.getElem?_eq_getElem hjnew]
      exact ⟨rfl, rfl⟩
    have hkeys : ((((Input.outsAt l (x.edgesAt .outedge v)).map Prod.fst).zip
        new').map Prod.fst).Nodup := by
      refine (edgesAt_nodup (x := x) .outedge v).sublist ?_
      rw [← hnames]
      exact map_fst_zip_sublist _ _
    rw [List.getElem?_eq_getElem hjnew]
    refine congrArg some ?_
    show _ = (match x.updateOf i l n.1.src _ with
      | some r => (List.lookup n.2 _).getD (l.edge n)
      | none => l.edge n)
    rw [hsrc, hupdate]
    dsimp only
    rw [lookup_eq_some hkeys (hperm.mem_iff.mp hpair)]
    rfl

/-! ## The out-edges of a vertex in the order of the worker -/

/-- The edges of a vertex as its worker lists them. -/
def Job.listed (job : Job x) (w : ℕ) (side : Side) (v : ℕ) :
    List (EdgeWithValue E × ℕ) :=
  (job.edges w side v).filterMap fun e =>
    x.edges[e.edge]?.map fun edge => (edge, e.edge)

theorem filterMap_object (part : IntervalPartition) (side : Side)
    {ns : List (EdgeWithValue E × ℕ)} (hns : ∀ n ∈ ns, n ∈ x.numbered) :
    (ns.map (object x part side)).filterMap (fun e =>
      x.edges[e.edge]?.map fun edge => (edge, e.edge)) = ns := by
  rw [List.filterMap_map]
  refine (List.filterMap_congr fun n hn => ?_).trans (List.filterMap_some)
  show (x.edges[(object x part side n).edge]?).map _ = some n
  rw [object_edge, List.mem_zipIdx_iff_getElem?.mp (hns n hn)]
  rfl

theorem Job.listed_perm (hgaps : NoGaps x job.part) {w v : ℕ}
    (hv : job.part.Mem w v) (side : Side) :
    (job.listed w side v).Perm (x.edgesAt side v) := by
  have h := (job.edges_perm hgaps hv side).filterMap fun e =>
    x.edges[e.edge]?.map fun edge => (edge, e.edge)
  rw [filterMap_object job.part side fun n hn => (mem_edgesAt.mp hn).1] at h
  exact h

theorem Job.map_listed (hgaps : NoGaps x job.part) {w v : ℕ}
    (hv : job.part.Mem w v) (side : Side) :
    (job.listed w side v).map (object x job.part side) =
      job.edges w side v := by
  unfold Job.listed
  rw [List.map_filterMap]
  refine (List.filterMap_congr fun e he => ?_).trans List.filterMap_some
  obtain ⟨n, hn, rfl⟩ := exists_object hgaps hv he
  rw [object_edge,
    List.mem_zipIdx_iff_getElem?.mp (mem_edgesAt.mp hn).1]
  rfl

/-- The in-edges are listed in the order of the graph. -/
theorem Job.listed_inedge (hgaps : NoGaps x job.part) {w v : ℕ}
    (hv : job.part.Mem w v) :
    job.listed w .inedge v = x.edgesAt .inedge v := by
  unfold Job.listed
  show ((loadBeforeUpdates x job.part w).edges .inedge v).filterMap _ = _
  rw [edges_inedge job.covered hgaps hv]
  exact filterMap_object job.part .inedge fun n hn => (mem_edgesAt.mp hn).1

theorem object_vertexid (part : IntervalPartition) (n : EdgeWithValue E × ℕ) :
    (object x part .inedge n).vertexid = n.1.src ∧
      (object x part .outedge n).vertexid = n.1.dst := by
  refine ⟨rfl, ?_⟩
  show (outObject x part n).vertexid = _
  unfold outObject
  split <;> rfl

/-- What `update` knows of a vertex. -/
theorem Job.vertex_eq (hgaps : NoGaps x job.part) {w v : ℕ}
    (hv : job.part.Mem w v) (l : Values V E) :
    job.vertex w v = ⟨v, (x.insAt l v).map Prod.fst,
      (Input.outsAt l (job.listed w .outedge v)).map fun o => o.2.1⟩ := by
  unfold Job.vertex Input.insAt Input.outsAt
  rw [← Job.map_listed hgaps hv .inedge, ← Job.map_listed hgaps hv .outedge,
    Job.listed_inedge hgaps hv, List.map_map, List.map_map, List.map_map,
    List.map_map]
  refine congrArg₂ (Vertex.mk v) rfl (List.map_congr_left fun n _ => ?_)
  exact (object_vertexid job.part n).2

/-! ## The invariant -/

/-- **A call under way** will come to what the whole call comes to. `new`
are the values of the out-edges for the next iteration, and `written` the
out-edges that have been written. -/
structure Calling (job : Job x) (s : State V E) (w v : ℕ) (new : List E)
    (written : ℕ → Prop) : Prop where
  /-- `new` are the values of the out-edges now. -/
  current : new.map some = (job.listed w .outedge v).map fun n =>
    valueAt x s.writes ((s.worker w).iter + 1) n.2
  /-- What is left of the call comes to what the whole call comes to. -/
  outcome : ((s.worker w).todo v).outcome ((s.worker w).value v)
      ((x.insAt (x.after (s.worker w).iter) v).map Prod.snd)
      ((Input.outsAt (x.after (s.worker w).iter)
        (job.listed w .outedge v)).map fun o => o.2.2) new =
    x.updateOf (s.worker w).iter (x.after (s.worker w).iter) v
      (job.listed w .outedge v)
  outOnly : ((s.worker w).todo v).OutOnly
  readsFirst : ((s.worker w).todo v).ReadsFirst written
  /-- An out-edge that is not written has its old value. -/
  unwritten : ∀ (j : ℕ) (n : EdgeWithValue E × ℕ),
    (job.listed w .outedge v)[j]? = some n → ¬written j →
      new[j]? = some ((x.after (s.worker w).iter).edge n)

/-- **A job follows the meaning of its program**: the edges and the values of
the vertices are those that `after` gives without any workers, and the calls
under way come to those of the next iteration. -/
structure Follows (job : Job x) (s : State V E) : Prop where
  /-- An edge has the value of each iteration that its source has computed. -/
  edge : ∀ n ∈ x.numbered, ∀ i,
    i ≤ (s.worker (home job.part n.1.src)).computed →
      valueAt x s.writes i n.2 = some ((x.after i).edge n)
  /-- Between its calls a vertex has the value of the iteration. -/
  value : ∀ w v, job.part.Mem w v → (s.worker w).phase ≠ .computing →
    (s.worker w).value v = (x.after (s.worker w).computed).value v
  /-- A call under way comes to that of the next one. -/
  calling : ∀ w v, job.part.Mem w v → (s.worker w).phase = .computing →
    ∃ new written, Calling job s w v new written

theorem Follows.init : Follows job (init job) where
  edge n hn i hi := by
    obtain rfl : i = 0 := Nat.le_zero.mp hi
    show Option.map _ x.edges[n.2]? = _
    rw [List.mem_zipIdx_iff_getElem?.mp hn]
    rfl
  value w v _ _ := rfl
  calling w v _ hphase := by cases hphase

/-- A call of a worker whose values, calls and out-edges a step leaves. -/
theorem Calling.congr {w v : ℕ} {new : List E} {written : ℕ → Prop}
    (h : Calling job s w v new written)
    (hiter : (s'.worker w).iter = (s.worker w).iter)
    (htodo : (s'.worker w).todo v = (s.worker w).todo v)
    (hvalue : (s'.worker w).value v = (s.worker w).value v)
    (hwrites : ∀ n ∈ job.listed w .outedge v, ∀ i,
      valueAt x s'.writes i n.2 = valueAt x s.writes i n.2) :
    Calling job s' w v new written where
  current := by
    rw [h.current, hiter]
    exact List.map_congr_left fun n hn => (hwrites n hn _).symm
  outcome := by
    rw [hiter, htodo, hvalue]
    exact h.outcome
  outOnly := by rw [htodo]; exact h.outOnly
  readsFirst := by rw [htodo]; exact h.readsFirst
  unwritten := by rw [hiter]; exact h.unwritten

theorem computed_of_computing {y : Worker V E} (h : y.phase ≠ .exchanging) :
    y.computed = y.iter := by
  unfold Worker.computed
  rw [if_neg h, Nat.add_zero]

/-- The values that a call begins with. -/
theorem Follows.start (h : Follows job s) (hinv : Inv job s)
    (hgaps : NoGaps x job.part) {w v : ℕ} (hv : job.part.Mem w v)
    (hphase : (s.worker w).phase = .waiting) :
    ((job.listed w .outedge v).map (x.after (s.worker w).iter).edge).map some =
      (job.listed w .outedge v).map fun n =>
        valueAt x s.writes ((s.worker w).iter + 1) n.2 := by
  rw [List.map_map]
  refine List.map_congr_left fun n hn => ?_
  obtain ⟨hmem, hend⟩ := mem_edgesAt.mp
    ((Job.listed_perm hgaps hv .outedge).mem_iff.mp hn)
  have ha : home job.part n.1.src = w := home_eq (by
    rw [show n.1.src = v from hend]
    exact hv)
  have hle : (s.worker w).iter ≤ (s.worker w).computed := Nat.le_add_right _ _
  rw [valueAt_succ fun r hr hk => ?_, h.edge n hmem _ (by rw [ha]; exact hle)]
  · rfl
  · have hearly := ((hinv.kept n hmem).early r hr hk).2
    rw [ha] at hearly
    exact (hearly hphase).ne

/-- A worker begins to compute: every call is pending, on the values of the
iteration before, and nothing has been written. -/
theorem Follows.begin (h : Follows job s) (hinv : Inv job s)
    (hprog : Transparent x.program) (hgaps : NoGaps x job.part) {w : ℕ}
    (hstep : beginStep job s w = some s') : Follows job s' := by
  unfold beginStep at hstep
  dsimp only at hstep
  split at hstep
  case isFalse => cases hstep
  case isTrue hguard =>
    obtain ⟨hw, hphase, -⟩ := hguard
    obtain rfl := Option.some.inj hstep
    have hself := setWorker_self (s := s) w { s.worker w with
      todo := fun v => x.program (s.worker w).iter (job.vertex w v)
      phase := .computing }
    have hother := fun u => setWorker_of_ne (s := s) (u := u) (w := w)
      { s.worker w with
        todo := fun v => x.program (s.worker w).iter (job.vertex w v)
        phase := .computing }
    refine ⟨fun n hn i hi => h.edge n hn i ?_, fun u v hv hp => ?_,
      fun u v hv hp => ?_⟩
    · rw [field_eq (s := s) Worker.computed ?_] at hi
      · exact hi
      · unfold Worker.computed
        rw [hphase]
        rfl
    · dsimp only at hp ⊢
      by_cases hu : u = w
      · rw [hu, hself] at hp
        exact absurd rfl hp
      · rw [hother u hu] at hp ⊢
        exact h.value u v hv hp
    · dsimp only at hp
      by_cases hu : u = w
      · -- the calls that begin now
        subst hu
        refine ⟨(job.listed u .outedge v).map
          (x.after (s.worker u).iter).edge, fun _ => False, ?_, ?_, ?_, ?_, ?_⟩
        · dsimp only
          rw [hself]
          exact h.start hinv hgaps hv hphase
        · dsimp only
          rw [hself]
          show (x.program _ (job.vertex u v)).outcome _ _ _ _ = _
          rw [Job.vertex_eq hgaps hv (x.after (s.worker u).iter),
            h.value u v hv (by rw [hphase]; simp),
            computed_of_computing (by rw [hphase]; simp)]
          unfold Input.updateOf
          refine congrArg _ ?_
          unfold Input.outsAt
          rw [List.map_map]
          rfl
        · dsimp only
          rw [hself]
          exact hprog.outOnly _ _
        · dsimp only
          rw [hself]
          exact hprog.readsFirst _ _
        · intro j n hj _
          dsimp only
          rw [hself, List.getElem?_map, hj]
          rfl
      · -- a worker that computes already goes on as it was
        have hp' : (s.worker u).phase = .computing := by
          rw [← hother u hu]
          exact hp
        obtain ⟨new, written, hcall⟩ := h.calling u v hv hp'
        refine ⟨new, written, hcall.congr ?_ ?_ ?_ fun _ _ _ => rfl⟩
        · exact congrArg Worker.iter (hother u hu)
        · exact congrArg (fun y => Worker.todo y v) (hother u hu)
        · exact congrArg (fun y => Worker.value y v) (hother u hu)

/-- A step that changes the calls of vertex `v` of worker `w` at most, which
computes, and writes to no edge or to one of its out-edges. -/
theorem Follows.of_call (h : Follows job s) (hgaps : NoGaps x job.part)
    {w v : ℕ} {y : Worker V E} {writes : List (Record E)}
    (hv : job.part.Mem w v) (hphase : (s.worker w).phase = .computing)
    (hyphase : y.phase = .computing) (hiter : y.iter = (s.worker w).iter)
    (htodo : ∀ u, u ≠ v → y.todo u = (s.worker w).todo u)
    (hvalue : ∀ u, u ≠ v → y.value u = (s.worker w).value u)
    (hwrites : ∀ n ∈ x.numbered, ∀ i,
      n.1.src ≠ v ∨ i ≤ (s.worker w).iter →
        valueAt x writes i n.2 = valueAt x s.writes i n.2)
    (hcall : ∃ new written, Calling job
      { s.setWorker w y with writes := writes } w v new written) :
    Follows job { s.setWorker w y with writes := writes } := by
  have hcomputed := field_eq (s := s) (w := w) (y := y) Worker.computed (by
    unfold Worker.computed
    rw [hiter, hyphase, hphase])
  have hphases := field_eq (s := s) (w := w) (y := y) Worker.phase
    (hyphase.trans hphase.symm)
  refine ⟨fun n hn i hi => ?_, fun u v' hv' hp => ?_, fun u v' hv' hp => ?_⟩
  · dsimp only at hi ⊢
    rw [hcomputed] at hi
    -- what `v` writes now counts from the next iteration on
    rw [hwrites n hn i ?_]
    · exact h.edge n hn i hi
    · by_cases hs : n.1.src = v
      · rw [hs, home_eq hv, computed_of_computing (by rw [hphase]; simp)] at hi
        exact Or.inr hi
      · exact Or.inl hs
  · dsimp only at hp ⊢
    rw [hphases] at hp
    have hu : u ≠ w := fun hu => hp (hu ▸ hphase)
    rw [setWorker_of_ne _ hu]
    exact h.value u v' hv' hp
  · dsimp only at hp
    rw [hphases] at hp
    by_cases hvv : v' = v
    · subst hvv
      rw [hv'.unique hv]
      exact hcall
    · -- another call of the worker, whose out-edges are not those of `v`
      obtain ⟨new, written, hold⟩ := h.calling u v' hv' hp
      refine ⟨new, written, hold.congr
        (field_eq Worker.iter hiter u)
        (field_eq (fun y => y.todo v') (htodo v' hvv) u)
        (field_eq (fun y => y.value v') (hvalue v' hvv) u)
        fun n hn i => ?_⟩
      obtain ⟨hmem, hend⟩ := mem_edgesAt.mp
        ((Job.listed_perm hgaps hv' .outedge).mem_iff.mp hn)
      refine hwrites n hmem i (Or.inl ?_)
      rw [show n.1.src = v' from hend]
      exact hvv

/-- The object at a place of the list is that of the edge there. -/
theorem listed_getElem? (hgaps : NoGaps x job.part) {w v i : ℕ} {side : Side}
    (hv : job.part.Mem w v) {e : Edge} (he : (job.edges w side v)[i]? = some e) :
    ∃ n, (job.listed w side v)[i]? = some n ∧ object x job.part side n = e ∧
      n ∈ x.edgesAt side v := by
  rw [← Job.map_listed hgaps hv side, List.getElem?_map] at he
  obtain ⟨n, hn, hobj⟩ := Option.map_eq_some_iff.mp he
  exact ⟨n, hn, hobj, (Job.listed_perm hgaps hv side).mem_iff.mp
    (List.mem_of_getElem? hn)⟩

/-- **What a call reads.** Of an out-edge it has not written, and of an
in-edge, it reads the value of the iteration. -/
theorem Follows.read (h : Follows job s) (hinv : Inv job s)
    (hgaps : NoGaps x job.part) {w v i : ℕ} {side : Side} {e : Edge}
    {new : List E} {written : ℕ → Prop} (hv : job.part.Mem w v)
    (hphase : (s.worker w).phase = .computing)
    (hcall : Calling job s w v new written)
    (he : (job.edges w side v)[i]? = some e)
    (hfirst : side = .outedge → ¬written i) :
    ∃ n, (job.listed w side v)[i]? = some n ∧
      e.getData (s.worker w).memory = (x.after (s.worker w).iter).edge n := by
  obtain ⟨n, hn, rfl, hat⟩ := listed_getElem? hgaps hv he
  obtain ⟨hmem, hend⟩ := mem_edgesAt.mp hat
  refine ⟨n, hn, ?_⟩
  cases side with
  | inedge =>
    -- an in-edge is up to date by what the engine keeps of all edges
    obtain ⟨hread, hle⟩ := hinv.read hat hv (by rw [hphase]; simp)
      fun hside => by cases hside
    rw [h.edge n hmem _ hle] at hread
    exact (Option.some.inj hread).symm
  | outedge =>
    have ha : home job.part n.1.src = w := home_eq (by
      rw [show n.1.src = v from hend]
      exact hv)
    have hkept := hinv.kept n hmem
    rw [ha] at hkept
    show (outObject x job.part n).getData _ = _
    unfold outObject Edge.getData
    rw [ha]
    split
    · -- inside the worker the cell is the one the write is to
      next hab =>
      have hcell := (hkept.inner hab).1
      rw [h.edge n hmem _ (by rw [ha]; exact Nat.le_add_right _ _)] at hcell
      exact (Option.some.inj hcell).symm
    · -- to another worker it is the cell of the block to be sent
      next hab =>
      have hcell := hkept.sent hab
      have hnew := congrArg (fun l => l[i]?) hcall.current
      rw [List.getElem?_map, List.getElem?_map, hn,
        hcall.unwritten i n hn (hfirst rfl)] at hnew
      have hval : some ((x.after (s.worker w).iter).edge n) =
          valueAt x s.writes ((s.worker w).iter + 1) n.2 :=
        Option.some.inj hnew
      rw [hcell] at hval
      exact (Option.some.inj hval).symm

/-- **A request that writes to no edge** takes the call on: what is left of it
comes to the same. -/
theorem Follows.of_silent (h : Follows job s) (hgaps : NoGaps x job.part) {w v : ℕ}
    {y : Worker V E} {rest : Update V E Unit} {new : List E} {written : ℕ → Prop}
    (hv : job.part.Mem w v) (hphase : (s.worker w).phase = .computing)
    (hcall : Calling job s w v new written)
    (hyphase : y.phase = .computing) (hiter : y.iter = (s.worker w).iter)
    (htodo : y.todo = Function.update (s.worker w).todo v rest)
    (hvalue : ∀ u, u ≠ v → y.value u = (s.worker w).value u)
    (houtcome : rest.outcome (y.value v)
        ((x.insAt (x.after (s.worker w).iter) v).map Prod.snd)
        ((Input.outsAt (x.after (s.worker w).iter)
          (job.listed w .outedge v)).map fun o => o.2.2) new =
      x.updateOf (s.worker w).iter (x.after (s.worker w).iter) v
        (job.listed w .outedge v))
    (honly : rest.OutOnly) (hfirst : rest.ReadsFirst written) :
    Follows job (s.setWorker w y) := by
  have hself : ((s.setWorker w y).worker w) = y := setWorker_self w y
  have hrest : y.todo v = rest := by rw [htodo, Function.update_self]
  refine h.of_call hgaps hv hphase hyphase hiter
    (fun u hu => by rw [htodo, Function.update_of_ne hu]) hvalue (fun _ _ _ _ => rfl)
    ⟨new, written, ?_, ?_, ?_, ?_, ?_⟩
  · dsimp only
    rw [hself, hiter]
    exact hcall.current
  · dsimp only
    rw [hself, hiter, hrest]
    exact houtcome
  · dsimp only
    rw [hself, hrest]
    exact honly
  · dsimp only
    rw [hself, hrest]
    exact hfirst
  · dsimp only
    rw [hself, hiter]
    exact hcall.unwritten

/-- The call reads the value of its vertex. -/
theorem Follows.getData (h : Follows job s) (hgaps : NoGaps x job.part) {w v : ℕ}
    (hv : job.part.Mem w v) (hphase : (s.worker w).phase = .computing)
    {next : V → Update V E Unit} (htodo : (s.worker w).todo v = .getData next)
    (hstep : answer job s w v (.getData next) = some s') : Follows job s' := by
  obtain ⟨new, written, hcall⟩ := h.calling w v hv hphase
  have hout := hcall.outcome
  have honly := hcall.outOnly
  have hfirst := hcall.readsFirst
  rw [htodo] at hout honly hfirst
  obtain rfl := Option.some.inj hstep
  exact h.of_silent hgaps hv hphase hcall hphase rfl rfl (fun _ _ => rfl) hout (honly _)
    (hfirst _)

/-- The call writes the value of its vertex. -/
theorem Follows.setData (h : Follows job s) (hgaps : NoGaps x job.part) {w v : ℕ}
    (hv : job.part.Mem w v) (hphase : (s.worker w).phase = .computing)
    {d : V} {next : Update V E Unit} (htodo : (s.worker w).todo v = .setData d next)
    (hstep : answer job s w v (.setData d next) = some s') : Follows job s' := by
  obtain ⟨new, written, hcall⟩ := h.calling w v hv hphase
  have hout := hcall.outcome
  have honly := hcall.outOnly
  have hfirst := hcall.readsFirst
  rw [htodo] at hout honly hfirst
  obtain rfl := Option.some.inj hstep
  refine h.of_silent hgaps hv hphase hcall hphase rfl rfl
    (fun u hu => Function.update_of_ne hu _ _) ?_ honly hfirst
  dsimp only
  rw [Function.update_self]
  exact hout

/-- The call reads an edge: it finds what the whole call is meant to find, the
value of the iteration. -/
theorem Follows.getEdge (h : Follows job s) (hinv : Inv job s)
    (hgaps : NoGaps x job.part) {w v : ℕ}
    (hv : job.part.Mem w v) (hphase : (s.worker w).phase = .computing)
    {side : Side} {i : ℕ} {next : E → Update V E Unit}
    (htodo : (s.worker w).todo v = .getEdge side i next)
    (hstep : answer job s w v (.getEdge side i next) = some s') : Follows job s' := by
  obtain ⟨new, written, hcall⟩ := h.calling w v hv hphase
  have hout := hcall.outcome
  have honly := hcall.outOnly
  have hfirst := hcall.readsFirst
  rw [htodo] at hout honly hfirst
  obtain ⟨e, he, rfl⟩ := Option.map_eq_some_iff.mp hstep
  obtain ⟨n, hn, hread⟩ := h.read hinv hgaps hv hphase hcall he hfirst.1
  refine h.of_silent hgaps hv hphase hcall hphase rfl rfl (fun _ _ => rfl) ?_ (honly _)
    (hfirst.2 _)
  rw [hread, ← hout]
  cases side with
  | inedge =>
    have hins : ((x.insAt (x.after (s.worker w).iter) v).map Prod.snd)[i]?
        = some ((x.after (s.worker w).iter).edge n) := by
      rw [Job.listed_inedge hgaps hv] at hn
      unfold Input.insAt
      rw [List.map_map, List.getElem?_map, hn]
      rfl
    rw [Update.outcome, hins]
    rfl
  | outedge =>
    have houts : ((Input.outsAt (x.after (s.worker w).iter)
        (job.listed w .outedge v)).map fun o => o.2.2)[i]?
          = some ((x.after (s.worker w).iter).edge n) := by
      unfold Input.outsAt
      rw [List.map_map, List.getElem?_map, hn]
      rfl
    rw [Update.outcome, houts]
    rfl

/-- The values for the next iteration, with one of them written. -/
theorem Calling.current_set {w v i : ℕ} {new : List E} {written : ℕ → Prop}
    (hgaps : NoGaps x job.part) (hv : job.part.Mem w v)
    (hcall : Calling job s w v new written) {n : EdgeWithValue E × ℕ}
    (hn : (job.listed w .outedge v)[i]? = some n) (hi : i < new.length) (d : E) :
    (new.set i d).map some = (job.listed w .outedge v).map fun n' =>
      valueAt x (⟨(s.worker w).iter, .outedge, n.2, d⟩ :: s.writes)
        ((s.worker w).iter + 1) n'.2 := by
  refine List.ext_getElem? fun j => ?_
  have hj := congrArg (fun l => l[j]?) hcall.current
  rw [List.getElem?_map, List.getElem?_map] at hj
  rw [List.map_set, List.getElem?_set, List.getElem?_map, List.getElem?_map]
  by_cases hij : i = j
  · subst hij
    rw [if_pos rfl, if_pos (by rw [List.length_map]; exact hi), hn]
    exact congrArg some
      (valueAt_cons_self s.writes ⟨(s.worker w).iter, .outedge, n.2, d⟩).symm
  · rw [if_neg hij, hj]
    cases hn' : (job.listed w .outedge v)[j]? with
    | none => rfl
    | some n' =>
      -- no edge is listed twice, so that the other values stay
      refine congrArg some (valueAt_cons_of_ne (fun hk => hij ?_) _).symm
      have hnodup := ((Job.listed_perm hgaps hv .outedge).map
        Prod.snd).nodup_iff.mpr (edgesAt_nodup .outedge v)
      refine (List.getElem?_inj ?_ hnodup).mp ?_
      · rw [List.length_map]
        exact (List.getElem?_eq_some_iff.mp hn).1
      · rw [List.getElem?_map, List.getElem?_map, hn, hn']
        exact congrArg some hk

/-- The call writes an edge: an out-edge, as the program is transparent, and
for the next iteration. -/
theorem Follows.setEdge (h : Follows job s) (hgaps : NoGaps x job.part) {w v : ℕ}
    (hv : job.part.Mem w v) (hphase : (s.worker w).phase = .computing)
    {side : Side} {i : ℕ} {d : E} {next : Update V E Unit}
    (htodo : (s.worker w).todo v = .setEdge side i d next)
    (hstep : answer job s w v (.setEdge side i d next) = some s') : Follows job s' := by
  obtain ⟨new, written, hcall⟩ := h.calling w v hv hphase
  have hout := hcall.outcome
  have honly := hcall.outOnly
  have hfirst := hcall.readsFirst
  rw [htodo] at hout honly hfirst
  obtain ⟨rfl, honly⟩ := honly
  obtain ⟨e, he, rfl⟩ := Option.map_eq_some_iff.mp hstep
  obtain ⟨n, hn, rfl, hat⟩ := listed_getElem? hgaps hv he
  obtain ⟨hmem, hend⟩ := mem_edgesAt.mp hat
  have hend : n.1.src = v := hend
  rw [object_edge]
  have hself : ∀ y : Worker V E, (s.setWorker w y).worker w = y := fun y => setWorker_self w y
  have hi : i < new.length := by
    have hlen := congrArg List.length hcall.current
    rw [List.length_map, List.length_map] at hlen
    rw [hlen]
    exact (List.getElem?_eq_some_iff.mp hn).1
  refine h.of_call hgaps hv hphase hphase rfl
    (fun u hu => Function.update_of_ne hu _ _) (fun _ _ => rfl) (fun n' hn' j hj => ?_)
    ⟨new.set i d, fun j => written j ∨ (Side.outedge = .outedge ∧ j = i), ?_, ?_, ?_, ?_,
      fun j n' hj hw => ?_⟩
  · -- the edges of other vertices and the iterations up to this one stay
    rcases hj with hj | hj
    · refine valueAt_cons_of_ne (fun hk => hj ?_) j
      have h1 := List.mem_zipIdx_iff_getElem?.mp hmem
      have h2 := List.mem_zipIdx_iff_getElem?.mp hn'
      rw [show n.2 = n'.2 from hk, h2] at h1
      rw [Option.some.inj h1, hend]
    · exact valueAt_cons_of_le hj _
  · dsimp only
    rw [hself]
    exact hcall.current_set hgaps hv hn hi d
  · dsimp only
    rw [hself]
    dsimp only
    rw [Function.update_self, ← hout, Update.outcome, if_pos hi]
  · dsimp only
    rw [hself]
    dsimp only
    rw [Function.update_self]
    exact honly
  · dsimp only
    rw [hself]
    dsimp only
    rw [Function.update_self]
    exact hfirst
  · dsimp only
    rw [hself]
    have hij : i ≠ j := fun hij => hw (Or.inr ⟨rfl, hij.symm⟩)
    rw [List.getElem?_set_ne hij]
    exact hcall.unwritten j n' hj fun hw' => hw (Or.inl hw')

/-- **The requests of a call.** -/
theorem Follows.request (h : Follows job s) (hinv : Inv job s)
    (hgaps : NoGaps x job.part) {w v : ℕ}
    (hstep : requestStep job s w v = some s') : Follows job s' := by
  unfold requestStep at hstep
  split at hstep
  case isFalse => cases hstep
  case isTrue hguard =>
    obtain ⟨hv, hphase⟩ := hguard
    cases htodo : (s.worker w).todo v with
    | done a =>
      rw [htodo] at hstep
      cases hstep
    | getData next => exact h.getData hgaps hv hphase htodo (htodo ▸ hstep)
    | setData d next => exact h.setData hgaps hv hphase htodo (htodo ▸ hstep)
    | getEdge side i next => exact h.getEdge hinv hgaps hv hphase htodo (htodo ▸ hstep)
    | setEdge side i d next => exact h.setEdge hgaps hv hphase htodo (htodo ▸ hstep)

/-- **The end of an iteration.** What the calls have come to are the values
after it. -/
theorem Follows.finish (h : Follows job s) (hprog : Transparent x.program)
    (hgaps : NoGaps x job.part) {w : ℕ}
    (hstep : finishStep job s w = some s') : Follows job s' := by
  unfold finishStep at hstep
  split at hstep
  case isFalse => cases hstep
  case isTrue hguard =>
    obtain ⟨hw, hphase, hall⟩ := hguard
    obtain rfl := Option.some.inj hstep
    have hself := setWorker_self (s := s) w
      { s.worker w with phase := .exchanging }
    have hother := fun u => setWorker_of_ne (s := s) (u := u) (w := w)
      { s.worker w with phase := .exchanging }
    -- what each call of the worker has come to
    have hend : ∀ v, job.part.Mem w v →
        (s.worker w).value v = (x.after ((s.worker w).iter + 1)).value v ∧
          ∀ n ∈ x.edgesAt .outedge v,
            valueAt x s.writes ((s.worker w).iter + 1) n.2 =
              some ((x.after ((s.worker w).iter + 1)).edge n) := by
      intro v hv
      obtain ⟨new, written, hcall⟩ := h.calling w v hv hphase
      have hdone := hall v (by have := hv.2.2; omega) hv.2.1
      have hout := hcall.outcome
      cases htodo : (s.worker w).todo v with
      | done a =>
        rw [htodo, Update.outcome] at hout
        have hperm := Job.listed_perm hgaps hv .outedge
        have hlen : new.length = (job.listed w .outedge v).length := by
          have := congrArg List.length hcall.current
          rwa [List.length_map, List.length_map] at this
        obtain ⟨hvalue, hedge⟩ := next_of_updateOf hprog.orderFree hperm hlen
          hout.symm
        refine ⟨hvalue.symm, fun n hn => ?_⟩
        obtain ⟨j, hj⟩ := List.mem_iff_getElem?.mp (hperm.mem_iff.mpr hn)
        have hval := congrArg (fun l => l[j]?) hcall.current
        rw [List.getElem?_map, List.getElem?_map, hj, hedge j n hj] at hval
        exact (Option.some.inj hval).symm
      | _ =>
        rw [htodo] at hdone
        cases hdone
    refine ⟨fun n hn i hi => ?_, fun u v hv hp => ?_, fun u v hv hp => ?_⟩
    · by_cases ha : home job.part n.1.src = w
      · rw [ha, hself] at hi
        have hi : i ≤ (s.worker w).iter + 1 := hi
        rcases hi.eq_or_lt with rfl | hi
        · have hsrc := mem_src job.covered (mem_of_numbered hn)
          rw [ha] at hsrc
          exact (hend _ hsrc).2 n (mem_edgesAt.mpr ⟨hn, rfl⟩)
        · refine h.edge n hn i ?_
          rw [ha, computed_of_computing (by rw [hphase]; simp)]
          omega
      · rw [hother _ ha] at hi
        exact h.edge n hn i hi
    · by_cases hu : u = w
      · rw [hu] at hv ⊢
        rw [hself]
        exact (hend v hv).1
      · rw [hother u hu] at hp ⊢
        exact h.value u v hv hp
    · by_cases hu : u = w
      · rw [hu, hself] at hp
        cases hp
      · rw [hother u hu] at hp
        obtain ⟨new, written, hcall⟩ := h.calling u v hv hp
        refine ⟨new, written, hcall.congr ?_ ?_ ?_ fun _ _ _ => rfl⟩
        · exact congrArg Worker.iter (hother u hu)
        · exact congrArg (fun y => Worker.todo y v) (hother u hu)
        · exact congrArg (fun y => Worker.value y v) (hother u hu)

/-- A step of the exchange. -/
theorem Follows.exchange (h : Follows job s) {w : ℕ} {y : Worker V E}
    (hphase : (s.worker w).phase = .computing ↔ y.phase = .computing)
    (hcomputed : y.computed = (s.worker w).computed)
    (hiter : y.phase = .computing → y.iter = (s.worker w).iter)
    (hvalue : y.value = (s.worker w).value)
    (htodo : y.todo = (s.worker w).todo) : Follows job (s.setWorker w y) := by
  have hcomp := field_eq (s := s) Worker.computed hcomputed
  have hvalues := field_eq (s := s) Worker.value hvalue
  have htodos := field_eq (s := s) Worker.todo htodo
  have hphases : ∀ u, ((s.setWorker w y).worker u).phase = .computing ↔
      (s.worker u).phase = .computing := by
    intro u
    by_cases hu : u = w
    · rw [hu, setWorker_self]
      exact hphase.symm
    · rw [setWorker_of_ne _ hu]
  refine ⟨fun n hn i hi => ?_, fun u v hv hp => ?_, fun u v hv hp => ?_⟩
  · rw [hcomp] at hi
    exact h.edge n hn i hi
  · rw [hvalues, hcomp]
    exact h.value u v hv fun hc => hp ((hphases u).mpr hc)
  · obtain ⟨new, written, hcall⟩ := h.calling u v hv ((hphases u).mp hp)
    refine ⟨new, written, hcall.congr ?_ ?_ ?_ fun _ _ _ => rfl⟩
    · by_cases hu : u = w
      · rw [hu, setWorker_self]
        rw [hu, setWorker_self] at hp
        exact hiter hp
      · rw [setWorker_of_ne _ hu]
    · rw [htodos]
    · rw [hvalues]

/-- **The steps keep to the meaning of the program**: requests take the calls
on, and what passes between the workers changes no value. -/
theorem Follows.step (h : Follows job s) (hinv : Inv job s)
    (hprog : Transparent x.program) (hgaps : NoGaps x job.part) {a : Action}
    (hstep : step job s a = some s') : Follows job s' := by
  cases a with
  | begin w => exact h.begin hinv hprog hgaps hstep
  | request w v => exact h.request hinv hgaps hstep
  | finish w => exact h.finish hprog hgaps hstep
  | deliver p w =>
    have hstep : deliverStep job s p w = some s' := hstep
    unfold deliverStep at hstep
    split at hstep
    case isFalse => cases hstep
    case isTrue =>
      obtain rfl := Option.some.inj hstep
      exact h.exchange Iff.rfl rfl (fun _ => rfl) rfl rfl
  | sync w =>
    have hstep : syncStep job s w = some s' := hstep
    unfold syncStep at hstep
    split at hstep
    case isFalse => cases hstep
    case isTrue hguard =>
      obtain rfl := Option.some.inj hstep
      refine h.exchange ?_ ?_ (fun hp => by cases hp) rfl rfl
      · rw [hguard.2.1]
        simp
      · unfold Worker.computed
        rw [hguard.2.1]
        rfl

/-- A program that writes to its out-edges keeps the in-edges. -/
theorem Follows.keepsInEdges (h : Follows job s) {a : Action}
    (hstep : Engine.step job s a = some s') : KeepsInEdges job s a := by
  cases a with
  | request w v =>
    intro i hi
    have hstep : requestStep job s w v = some s' := hstep
    unfold requestStep at hstep
    split at hstep
    case isFalse => cases hstep
    case isTrue hguard =>
      obtain ⟨new, written, hcall⟩ := h.calling w v hguard.1 hguard.2
      have honly := hcall.outOnly
      cases htodo : (s.worker w).todo v with
      | setEdge side j d next =>
        rw [htodo] at honly hi
        obtain ⟨rfl, -⟩ := honly
        cases hi
      | _ =>
        rw [htodo] at hi
        cases hi
  | _ => trivial

/-- In every run the job computes what the program means. -/
theorem follows_of_run {as : List Action} (hprog : Transparent x.program)
    (hgaps : NoGaps x job.part) (hcopied : Copied job)
    (hrun : Run (step job) AfterCompute (init job) as s) :
    Inv job s ∧ Follows job s :=
  hrun.invariant (I := fun s => Inv job s ∧ Follows job s)
    (fun _ _ _ h hok hstep =>
      ⟨h.1.step hgaps (h.2.keepsInEdges hstep) hok hstep,
        h.2.step h.1 hprog hgaps hstep⟩)
    ⟨Inv.init hcopied, Follows.init⟩

/-- **The partition does not show** in the values of the vertices, for
programs that write to their own vertex and its out-edges, read an out-edge
before they write it, and do not depend on the order of the out-edges. -/
theorem sameValues_of_transparent {job' : Job x} {as as' : List Action}
    (hprog : Transparent x.program) (hgaps : NoGaps x job.part)
    (hgaps' : NoGaps x job'.part) (hcopied : Copied job)
    (hcopied' : Copied job')
    (hrun : Run (step job) AfterCompute (init job) as s)
    (hrun' : Run (step job') AfterCompute (init job') as' s') :
    SameValues job job' s s' := by
  intro v w w' hv hv' hphase hphase' hcomputed
  obtain ⟨-, h⟩ := follows_of_run hprog hgaps hcopied hrun
  obtain ⟨-, h'⟩ := follows_of_run hprog hgaps' hcopied' hrun'
  rw [h.value w v hv hphase, h'.value w' v hv' hphase', hcomputed]

/-! ## Two partitions of four vertices -/

/-- Two workers, with two vertices each. -/
def separate : IntervalPartition where
  intervals := [(0, 1), (2, 3)]
  start := rfl
  contiguous := by decide
  ordered := by decide
  vid := by decide

/-- The cycle `0 → 1 → 2 → 0`, and `2 → 3`. -/
def cycleAndTail : List (EdgeWithValue ℕ) :=
  [⟨0, 1, 7⟩, ⟨1, 2, 8⟩, ⟨2, 0, 9⟩, ⟨2, 3, 10⟩]

def fourEdges (program : Program ℕ ℕ) : Input ℕ ℕ where
  edges := cycleAndTail
  sorted := by decide
  noloop := by decide
  program := program
  value := fun _ => 3

theorem loadable_together (program : Program ℕ ℕ) :
    Loadable (fourEdges program) fourVertices := by
  have h : Loadable (fourEdges fun _ _ => .done ()) fourVertices := by decide +kernel
  exact h

theorem loadable_separate (program : Program ℕ ℕ) :
    Loadable (fourEdges program) separate := by
  have h : Loadable (fourEdges fun _ _ => .done ()) separate := by decide +kernel
  exact h

/-- The job of a partition, where the threads that load add one after the
other. -/
def inOrder (x : Input ℕ ℕ) (part : IntervalPartition)
    (hcov : Covered x part) : Job x where
  part := part
  covered := hcov
  outedges w v := (loadBeforeUpdates x part w).edges .outedge v
  added _ _ := List.Perm.refl _
  copied _ _ := true
  blank _ _ := 0

/-- One worker. -/
def jobTogether (program : Program ℕ ℕ) : Job (fourEdges program) :=
  inOrder (fourEdges program) fourVertices fun e he => by
    have hall : ∀ e ∈ cycleAndTail,
        fourVertices.Mem 0 e.src ∧ fourVertices.Mem 0 e.dst := by decide
    exact ⟨⟨0, (hall e he).1⟩, 0, (hall e he).2⟩

/-- Two workers. -/
def jobSeparate (program : Program ℕ ℕ) : Job (fourEdges program) :=
  inOrder (fourEdges program) separate fun e he => by
    have hall : ∀ e ∈ cycleAndTail,
        (∃ k < 2, separate.Mem k e.src) ∧ ∃ k < 2, separate.Mem k e.dst := by decide
    obtain ⟨⟨k, -, hk⟩, k', -, hk'⟩ := hall e he
    exact ⟨⟨k, hk⟩, k', hk'⟩

/-- Takes the value of the first in-edge, and sends the successor over the
only out-edge. -/
def passOn : Program ℕ ℕ := fun _ vertex =>
  let send : Update ℕ ℕ Unit :=
    if vertex.outedges.length = 1 then
      .getData fun d => .setEdge .outedge 0 (d + 1) (.done ())
    else .done ()
  if vertex.inedges.length = 0 then send
  else .getEdge .inedge 0 fun y => .setData y send

/-- With one out-edge there is one order of them, and with any other number none
of them is looked at. -/
theorem transparent_passOn : Transparent passOn where
  outOnly i vertex := by
    unfold passOn
    dsimp only
    split <;> split <;> simp [Update.OutOnly]
  readsFirst i vertex := by
    unfold passOn
    dsimp only
    split <;> split <;> simp [Update.ReadsFirst]
  orderFree := by
    intro iteration id d ins outs outs' hperm hnodup d₁ new h
    by_cases hone : outs.length = 1
    · obtain ⟨o, rfl⟩ := List.length_eq_one_iff.mp hone
      obtain rfl := List.perm_singleton.mp hperm.symm
      exact ⟨new, h, List.Perm.refl _⟩
    · have hone' : outs'.length ≠ 1 := by rwa [← hperm.length_eq]
      have hzip : ∀ l : List (ℕ × ℕ × ℕ),
          (l.map Prod.fst).zip (l.map fun o => o.2.2) =
            l.map fun o => (o.1, o.2.2) := fun l => by
        rw [List.zip_map']
      refine ⟨outs'.map fun o => o.2.2, ?_, ?_⟩
      · unfold passOn at h ⊢
        dsimp only at h ⊢
        rw [List.length_map, List.length_map, if_neg hone] at h
        rw [List.length_map, List.length_map, if_neg hone']
        by_cases hins : ins.length = 0
        · rw [if_pos hins] at h ⊢
          have h := Option.some.inj h
          show some ((), d, _) = some ((), d₁, _)
          rw [(Prod.mk.inj (Prod.mk.inj h).2).1]
        · rw [if_neg hins] at h ⊢
          obtain ⟨y, hy, h⟩ := Option.bind_eq_some_iff.mp h
          rw [Update.outcome, hy]
          have h := Option.some.inj h
          show some ((), y, _) = some ((), d₁, _)
          rw [(Prod.mk.inj (Prod.mk.inj h).2).1]
      · have hnew : new = outs.map fun o => o.2.2 := by
          unfold passOn at h
          dsimp only at h
          rw [List.length_map, List.length_map, if_neg hone] at h
          by_cases hins : ins.length = 0
          · rw [if_pos hins] at h
            have h := Option.some.inj h
            exact (Prod.mk.inj (Prod.mk.inj h).2).2.symm
          · rw [if_neg hins] at h
            obtain ⟨y, hy, h⟩ := Option.bind_eq_some_iff.mp h
            have h := Option.some.inj h
            exact (Prod.mk.inj (Prod.mk.inj h).2).2.symm
        rw [hnew, hzip, hzip]
        exact hperm.map _

/-- An iteration of `passOn` on one worker. -/
def onceTogether : List Action :=
  [.begin 0] ++ requests 0 0 4 ++ requests 0 1 4 ++ requests 0 2 2 ++
    requests 0 3 2 ++ [.finish 0]

/-- The same on two workers. -/
def onceSeparate : List Action :=
  [.begin 0, .begin 1] ++ requests 0 0 4 ++ requests 0 1 4 ++ requests 1 2 2 ++
    requests 1 3 2

/-- The two partitions, after two iterations. -/
theorem sameValues_passOn :
    ∃ s s', Run (step (jobTogether passOn)) AfterCompute
        (init (jobTogether passOn)) (onceTogether ++ [.sync 0] ++ onceTogether) s ∧
      Run (step (jobSeparate passOn)) AfterCompute (init (jobSeparate passOn))
        (onceSeparate ++ exchange ++ onceSeparate ++ [.finish 0, .finish 1]) s' ∧
      SameValues (jobTogether passOn) (jobSeparate passOn) s s' := by
  obtain ⟨s, hrun, -⟩ := exists_run (step (jobTogether passOn)) AfterCompute
    (init (jobTogether passOn)) (onceTogether ++ [.sync 0] ++ onceTogether)
    (fun _ => True) (by decide +kernel)
  obtain ⟨s', hrun', -⟩ := exists_run (step (jobSeparate passOn)) AfterCompute
    (init (jobSeparate passOn))
    (onceSeparate ++ exchange ++ onceSeparate ++ [.finish 0, .finish 1])
    (fun _ => True) (by decide +kernel)
  exact ⟨s, s', hrun, hrun', sameValues_of_transparent transparent_passOn
    (loadable_together passOn).noGaps (loadable_separate passOn).noGaps
    (fun _ _ => rfl) (fun _ _ => rfl) hrun hrun'⟩

/-- **The partition does not show** in the programs of a kind, where both
workers can load their blocks. -/
def NeverShows (Kind : Program ℕ ℕ → Prop) : Prop :=
  ∀ (x : Input ℕ ℕ) (job job' : Job x), Kind x.program →
    Loadable x job.part → Loadable x job'.part →
      ∀ (as as' : List Action) (s s' : State ℕ ℕ),
        Run (step job) AfterCompute (init job) as s →
          Run (step job') AfterCompute (init job') as' s' → SameValues job job' s s'

/-- Writes 5 to its out-edge, where it has one, and takes what it reads
there. -/
def readBack : Program ℕ ℕ := fun _ vertex =>
  if vertex.outedges.length = 1 then
    .setEdge .outedge 0 5 (.getEdge .outedge 0 fun y => .setData y (.done ()))
  else .done ()

theorem orderFree_readBack : OrderFree readBack := by
  intro iteration id d ins outs outs' hperm hnodup d₁ new h
  by_cases hone : outs.length = 1
  · obtain ⟨o, rfl⟩ := List.length_eq_one_iff.mp hone
    obtain rfl := List.perm_singleton.mp hperm.symm
    exact ⟨new, h, List.Perm.refl _⟩
  · have hone' : outs'.length ≠ 1 := by rwa [← hperm.length_eq]
    unfold readBack at h ⊢
    dsimp only at h ⊢
    rw [List.length_map, if_neg hone] at h
    obtain ⟨-, h⟩ := Prod.mk.inj (Option.some.inj h)
    obtain ⟨rfl, rfl⟩ := Prod.mk.inj h
    rw [List.length_map, if_neg hone']
    refine ⟨_, rfl, ?_⟩
    rw [List.zip_map', List.zip_map']
    exact hperm.map _

/-- Takes the value of the out-edge that is listed first. -/
def takeFirst : Program ℕ ℕ := fun _ vertex =>
  if vertex.outedges.length = 0 then .done ()
  else .getEdge .outedge 0 fun y => .setData y (.done ())

/-- **Where the partition shows.** A program that reads back what it has
written to an out-edge finds it there if the edge goes to another worker, and
the old value if not, although it does not look at the order of the edges.
And one that writes nothing, but takes the first of its out-edges, finds the
edges of its own worker first. -/
theorem not_sameValues_readBack :
    (¬NeverShows fun program =>
      (∀ i vertex, (program i vertex).OutOnly) ∧ OrderFree program) ∧
    ¬NeverShows fun program => (∀ i vertex, (program i vertex).OutOnly) ∧
      ∀ i vertex, (program i vertex).ReadsFirst fun _ => False := by
  constructor
  · -- a program that reads an out-edge after it has written it
    intro h
    obtain ⟨s, hrun, hphase, hcomp, hval⟩ := exists_run
      (step (jobTogether readBack)) AfterCompute (init (jobTogether readBack))
      ([.begin 0] ++ requests 0 0 3 ++ requests 0 1 3 ++ [.finish 0])
      (fun s => (s.worker 0).phase ≠ .computing ∧ (s.worker 0).computed = 1 ∧
        (s.worker 0).value 1 = 8) (by decide +kernel)
    obtain ⟨s', hrun', hphase', hcomp', hval'⟩ := exists_run
      (step (jobSeparate readBack)) AfterCompute (init (jobSeparate readBack))
      ([.begin 0, .begin 1] ++ requests 0 0 3 ++ requests 0 1 3 ++ [.finish 0])
      (fun s => (s.worker 0).phase ≠ .computing ∧ (s.worker 0).computed = 1 ∧
        (s.worker 0).value 1 = 5) (by decide +kernel)
    have honly : ∀ i vertex, (readBack i vertex).OutOnly := by
      intro i vertex
      unfold readBack
      split <;> simp [Update.OutOnly]
    have hsame := h _ (jobTogether readBack) (jobSeparate readBack)
      ⟨honly, orderFree_readBack⟩ (loadable_together _) (loadable_separate _) _ _
      s s' hrun hrun' 1 0 0 (by decide) (by decide) hphase hphase'
      (hcomp.trans hcomp'.symm)
    rw [hval, hval'] at hsame
    exact absurd hsame (by decide)
  · -- a program that takes the first of its out-edges
    intro h
    obtain ⟨s, hrun, hphase, hcomp, hval⟩ := exists_run
      (step (jobTogether takeFirst)) AfterCompute (init (jobTogether takeFirst))
      ([.begin 0] ++ requests 0 0 2 ++ requests 0 1 2 ++ requests 0 2 2 ++ [.finish 0])
      (fun s => (s.worker 0).phase ≠ .computing ∧ (s.worker 0).computed = 1 ∧
        (s.worker 0).value 2 = 9) (by decide +kernel)
    obtain ⟨s', hrun', hphase', hcomp', hval'⟩ := exists_run
      (step (jobSeparate takeFirst)) AfterCompute (init (jobSeparate takeFirst))
      ([.begin 0, .begin 1] ++ requests 1 2 2 ++ [.finish 1])
      (fun s => (s.worker 1).phase ≠ .computing ∧ (s.worker 1).computed = 1 ∧
        (s.worker 1).value 2 = 10) (by decide +kernel)
    have honly : ∀ i vertex, (takeFirst i vertex).OutOnly := by
      intro i vertex
      unfold takeFirst
      split <;> simp [Update.OutOnly]
    have hfirst : ∀ i vertex, (takeFirst i vertex).ReadsFirst fun _ => False := by
      intro i vertex
      unfold takeFirst
      split <;> simp [Update.ReadsFirst]
    have hsame := h _ (jobTogether takeFirst) (jobSeparate takeFirst)
      ⟨honly, hfirst⟩ (loadable_together _) (loadable_separate _) _ _
      s s' hrun hrun' 2 0 1 (by decide) (by decide) hphase hphase'
      (hcomp.trans hcomp'.symm)
    rw [hval, hval'] at hsame
    exact absurd hsame (by decide)

end Engine
