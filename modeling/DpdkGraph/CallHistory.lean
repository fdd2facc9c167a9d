import Mathlib
import DpdkGraph.CallPlays
import DpdkGraph.CrossEdges
import DpdkGraph.PartitionTransparency

/-!
# What the calls have done

Programs that write to both kinds of edges depend on the order of the
requests: where both endpoints of an inner edge write to it, the last one
wins. But each call by itself does not: if it reads no edge that it has
written, what comes of it is determined by the values of its edges at the
beginning of the iteration (`outcomeAt`). The invariant says that the calls
under way come to this, and that the history of the edges has exactly their
writes.
-/

namespace Engine

open VertexProgram Update
open Transition (Run)

variable {V E : Type} {x : Input V E} {job : Job x} {s s' : State V E}

/-! ## The values of an iteration -/

/-- The value of an edge when iteration `i` begins. -/
def edgeAt (job : Job x) (writes : List (Record E)) (n : EdgeWithValue E × ℕ) (i : ℕ) : E :=
  if home job.part n.1.src = home job.part n.1.dst then
    job.heldAt (home job.part n.1.src) n writes i
  else sentAt n.1.value writes n.2 i

/-- What a vertex finds in its edges in iteration `i`. -/
def foundAt (job : Job x) (writes : List (Record E)) (w v i : ℕ) (side : Side) (k : ℕ) : E :=
  ((job.listed w side v)[k]?.map fun n => edgeAt job writes n i).getD
    (job.blank w (.inbuf 0 0))

/-- What comes of the call of a vertex in iteration `i`, which begins with a
vertex of value `d`. -/
def outcomeFrom (job : Job x) (writes : List (Record E)) (w v i : ℕ) (d : V) :
    Unit × V × Writes E :=
  (x.program i (job.vertex w v)).play (foundAt job writes w v i) d []

/-- **The value of a vertex when iteration `i` begins.** -/
def dataAt (job : Job x) (writes : List (Record E)) (w v : ℕ) : ℕ → V
  | 0 => x.value v
  | i + 1 => (outcomeFrom job writes w v i (dataAt job writes w v i)).2.1

/-- **What comes of the call of a vertex in iteration `i`.** -/
def outcomeAt (job : Job x) (writes : List (Record E)) (w v i : ℕ) : Unit × V × Writes E :=
  outcomeFrom job writes w v i (dataAt job writes w v i)

section Same

variable {writes writes' : List (Record E)} {w v m : ℕ}
  (h : ∀ side, ∀ n ∈ job.listed w side v, ∀ i ≤ m,
    edgeAt job writes' n i = edgeAt job writes n i)
include h

theorem foundAt_congr {i : ℕ} (hi : i ≤ m) :
    foundAt job writes' w v i = foundAt job writes w v i := by
  funext side k
  unfold foundAt
  refine congrArg (Option.getD · _) ?_
  cases hk : (job.listed w side v)[k]? with
  | none => rfl
  | some n => exact congrArg some (h side n (List.mem_of_getElem? hk) i hi)

theorem dataAt_congr {i : ℕ} (hi : i ≤ m) :
    dataAt job writes' w v i = dataAt job writes w v i := by
  induction i with
  | zero => rfl
  | succ i ih =>
    rw [dataAt, dataAt, ih (by omega)]
    unfold outcomeFrom
    rw [foundAt_congr h (by omega)]

theorem outcomeAt_congr {i : ℕ} (hi : i ≤ m) :
    outcomeAt job writes' w v i = outcomeAt job writes w v i := by
  unfold outcomeAt outcomeFrom
  rw [dataAt_congr h hi, foundAt_congr h hi]

end Same

/-- The history has the writes `ws` of a vertex in iteration `i`. -/
def Told (job : Job x) (writes : List (Record E)) (w v i : ℕ) (ws : Writes E) : Prop :=
  ∀ side k n, (job.listed w side v)[k]? = some n → wrote writes side i n.2 = look ws side k

/-! ## The invariant -/

/-- **The edges of the job**, inside the intervals and between them. -/
structure Edges (job : Job x) (s : State V E) : Prop where
  paced : Paced job s
  /-- The edges inside the intervals. -/
  inner : ∀ n ∈ x.numbered, home job.part n.1.src = home job.part n.1.dst →
    Inner job s n (home job.part n.1.src)
  /-- The edges between two workers. -/
  cross : ∀ n ∈ x.numbered, home job.part n.1.src ≠ home job.part n.1.dst →
    Cross job s n (home job.part n.1.src) (home job.part n.1.dst)

theorem Edges.init : Edges job (init job) where
  paced := .init
  inner n _ _ := .init n _
  cross _ hn _ := .init hn

theorem Edges.step (h : Edges job s) (hgaps : NoGaps x job.part) {a : Action}
    (hok : AfterCompute s a) (hstep : step job s a = some s') : Edges job s' where
  paced := h.paced.step hok hstep
  inner n hn hhomes := (h.inner n hn hhomes).step hgaps hn rfl hhomes.symm hstep
  cross n hn hhomes := (h.cross n hn hhomes).step hn rfl rfl hhomes hgaps h.paced hstep

/-- The call of a vertex, or what it has come to. -/
structure Called (job : Job x) (s : State V E) (w v : ℕ) : Prop where
  /-- Between the iterations the vertex has the value of the iteration. -/
  waiting : (s.worker w).phase = .waiting →
    (s.worker w).value v = dataAt job s.writes w v (s.worker w).iter
  /-- **A call under way** will come to what the whole call comes to. -/
  underWay : (s.worker w).phase ≠ .waiting → ∃ ws,
    ((s.worker w).todo v).play (foundAt job s.writes w v (s.worker w).iter)
        ((s.worker w).value v) ws = outcomeAt job s.writes w v (s.worker w).iter ∧
      ((s.worker w).todo v).Fresh (fun side => (job.edges w side v).length) ws ∧
      Told job s.writes w v (s.worker w).iter ws
  /-- A call is over when the blocks are exchanged. -/
  done : (s.worker w).phase = .exchanging → ((s.worker w).todo v).isDone = true
  /-- What the calls of the past came to has been written. -/
  past : ∀ i < (s.worker w).iter,
    Told job s.writes w v i (outcomeAt job s.writes w v i).2.2

/-- A step that does not reach the call. The value and the requests of the
vertex are kept, its edges show the same values up to the present iteration, and
it has written the same on them; then the call is where it was, and the past
ones ended as they did. -/
theorem Called.congr {w v : ℕ} (h : Called job s w v)
    (hvalue : (s'.worker w).value v = (s.worker w).value v)
    (htodo : (s'.worker w).todo v = (s.worker w).todo v)
    (hiter : (s'.worker w).iter = (s.worker w).iter)
    (hphase : (s'.worker w).phase = (s.worker w).phase ∨
      (s.worker w).phase = .computing ∧ (s'.worker w).phase = .exchanging ∧
        ((s.worker w).todo v).isDone = true)
    (hsame : ∀ side, ∀ n ∈ job.listed w side v, ∀ i ≤ (s.worker w).iter,
      edgeAt job s'.writes n i = edgeAt job s.writes n i)
    (hwrote : ∀ side, ∀ n ∈ job.listed w side v, ∀ i,
      wrote s'.writes side i n.2 = wrote s.writes side i n.2) : Called job s' w v := by
  have htold : ∀ i ws, Told job s.writes w v i ws → Told job s'.writes w v i ws :=
    fun i ws ht side k n hn => by
      rw [hwrote side n (List.mem_of_getElem? hn)]
      exact ht side k n hn
  refine ⟨fun hp => ?_, fun hp => ?_, fun hp => ?_, fun i hi => ?_⟩
  · -- before its call a vertex has the value of the last iteration, which is the same
    rw [hvalue, hiter, dataAt_congr hsame le_rfl]
    refine h.waiting ?_
    rcases hphase with heq | ⟨-, heq, -⟩
    · rw [← heq]
      exact hp
    · rw [heq] at hp
      cases hp
  · -- the call itself goes on from the same value, with the same answers
    obtain ⟨ws, hplay, hfresh, ht⟩ := h.underWay fun hs => by
      rcases hphase with heq | ⟨heq, -⟩
      · exact hp (heq.trans hs)
      · rw [heq] at hs
        cases hs
    refine ⟨ws, ?_, ?_, ?_⟩
    · rw [hvalue, htodo, hiter, foundAt_congr hsame le_rfl, outcomeAt_congr hsame le_rfl]
      exact hplay
    · rw [htodo]
      exact hfresh
    · rw [hiter]
      exact htold _ _ ht
  · rw [htodo]
    rcases hphase with heq | ⟨-, -, hdone⟩
    · exact h.done (heq ▸ hp)
    · exact hdone
  · rw [hiter] at hi
    rw [outcomeAt_congr hsame hi.le]
    exact htold _ _ (h.past i hi)

/-! ## The edges of a vertex -/

section Vertex

variable {w v : ℕ} {side : Side} (hgaps : NoGaps x job.part) (hv : job.part.Mem w v)
include hgaps hv

theorem mem_edgesAt_of_listed {n : EdgeWithValue E × ℕ} (hn : n ∈ job.listed w side v) :
    n ∈ x.edgesAt side v :=
  (Job.listed_perm hgaps hv side).mem_iff.mp hn

theorem nodup_listed : (job.listed w side v).Nodup :=
  (Job.listed_perm hgaps hv side).nodup_iff.mpr (edgesAt_nodup side v).of_map

/-- The numbers of the edges of a vertex are different. -/
theorem listed_inj {i k : ℕ} {n n' : EdgeWithValue E × ℕ}
    (hi : (job.listed w side v)[i]? = some n') (hk : (job.listed w side v)[k]? = some n)
    (heq : n'.2 = n.2) : i = k := by
  have hmem := (mem_edgesAt.mp (mem_edgesAt_of_listed hgaps hv (List.mem_of_getElem? hk))).1
  have hmem' := (mem_edgesAt.mp (mem_edgesAt_of_listed hgaps hv (List.mem_of_getElem? hi))).1
  obtain rfl := eq_of_number hmem hmem' heq
  exact (List.getElem?_inj (List.getElem?_eq_some_iff.mp hi).1 (nodup_listed hgaps hv)).mp
    (hi.trans hk.symm)

omit hgaps in
/-- The worker of an endpoint of an edge is that of the vertex. -/
theorem home_listed {n : EdgeWithValue E × ℕ} (hn : n ∈ x.edgesAt side v) :
    w = home job.part n.1.src ∨ w = home job.part n.1.dst := by
  have hends := home_of_end hn hv
  cases side with
  | inedge => exact Or.inr (hends.2 rfl).symm
  | outedge => exact Or.inl (hends.1 rfl).symm

/-- **What a call reads** of an edge that it has not written: the value that the
edge has in this iteration, by the account of the writes alone. -/
theorem Edges.read (h : Edges job s) (hphase : (s.worker w).phase = .computing)
    {n : EdgeWithValue E × ℕ} (hn : n ∈ job.listed w side v)
    (hwrote : wrote s.writes side (s.worker w).iter n.2 = none) :
    (object x job.part side n).getData (s.worker w).memory =
      edgeAt job s.writes n (s.worker w).iter := by
  have hmem := mem_edgesAt_of_listed hgaps hv hn
  have hnum := (mem_edgesAt.mp hmem).1
  have hends := home_of_end hmem hv
  unfold edgeAt Edge.getData
  by_cases hhomes : home job.part n.1.src = home job.part n.1.dst
  · rw [if_pos hhomes]
    obtain ⟨hsrc, hdst⟩ := homes_eq hmem hv hhomes
    have hinner := h.inner n hnum hhomes
    rw [hsrc] at hinner ⊢
    rw [object_dataPtr hsrc hdst]
    exact hinner.block
  · rw [if_neg hhomes]
    have hcross := h.cross n hnum hhomes
    cases side with
    | inedge =>
      have hdst := hends.2 rfl
      rw [hdst] at hcross hhomes
      have hreceived := hcross.received
      rw [h.paced.idle w (by rw [hphase]; simp), if_neg (by simp), hwrote] at hreceived
      exact hreceived
    | outedge =>
      have hsrc := hends.1 rfl
      have hdata : (object x job.part .outedge n).dataPtr =
          .obuf (home job.part n.1.dst) (slot x job.part n) := by
        show (outObject x job.part n).dataPtr = _
        unfold outObject
        rw [if_neg hhomes]
      rw [hsrc] at hcross
      have hsent := hcross.sent
      rw [sentAt_succ hwrote] at hsent
      rw [hdata]
      exact hsent

/-- Before the iteration a vertex has not written. -/
theorem Edges.unwritten (h : Edges job s) (hphase : (s.worker w).phase = .waiting)
    {n : EdgeWithValue E × ℕ} (hn : n ∈ job.listed w side v) :
    wrote s.writes side (s.worker w).iter n.2 = none := by
  have hmem := mem_edgesAt_of_listed hgaps hv hn
  have hnum := (mem_edgesAt.mp hmem).1
  have hends := home_of_end hmem hv
  refine wrote_eq_none fun r hr hk hside => ?_
  by_cases hhomes : home job.part n.1.src = home job.part n.1.dst
  · have hinner := h.inner n hnum hhomes
    rw [(homes_eq hmem hv hhomes).1] at hinner
    exact ((hinner.early r hr hk).2 hphase).ne
  · have hcross := h.cross n hnum hhomes
    cases side with
    | inedge =>
      rw [hends.2 rfl] at hcross
      exact ((hcross.earlyIn r hr hk hside).2 hphase).ne
    | outedge =>
      rw [hends.1 rfl] at hcross
      exact ((hcross.earlyOut r hr hk hside).2 hphase).ne

/-- **A write shows in the next iteration**, also at the other endpoint: in the
iteration it is made in, and before, every edge has the value that it had. -/
theorem Edges.edgeAt_cons (h : Edges job s) {u v' : ℕ} {side' : Side} {d : E}
    {n n' : EdgeWithValue E × ℕ} (hv' : job.part.Mem u v') (hn' : n' ∈ x.edgesAt side' v')
    (hphase : (s.worker u).phase = .computing) (hn : n ∈ job.listed w side v) {i : ℕ}
    (hi : i ≤ (s.worker w).iter) :
    edgeAt job (⟨(s.worker u).iter, side', n'.2, d⟩ :: s.writes) n i =
      edgeAt job s.writes n i := by
  have hmem := mem_edgesAt_of_listed hgaps hv hn
  have hnum := (mem_edgesAt.mp hmem).1
  unfold edgeAt Job.heldAt
  by_cases hk : n'.2 = n.2
  · obtain rfl := eq_of_number hnum (mem_edgesAt.mp hn').1 hk
    have hw := home_listed hv hmem
    have hu := home_listed hv' hn'
    have hends := home_of_end hn' hv'
    by_cases hhomes : home job.part n'.1.src = home job.part n'.1.dst
    · rw [if_pos hhomes, if_pos hhomes]
      rw [← hhomes, or_self] at hw hu
      obtain rfl : w = u := hw.trans hu.symm
      exact held_cons_of_le hi
    · rw [if_neg hhomes, if_neg hhomes]
      cases side' with
      | inedge => exact sentAt_cons_of_ne (fun hside => by cases hside) i
      | outedge =>
        refine sentAt_cons_of_le (hi.trans ?_)
        have hsrc := hends.1 rfl
        rcases hw with hw | hw
        · rw [hw, hsrc]
        · have hcomputed : (s.worker u).computed = (s.worker u).iter := by
            unfold Worker.computed
            rw [hphase]
            rfl
          rw [← hcomputed]
          exact h.paced.iter_le hv'.1 hv.1 (by rw [hw, ← hsrc]; exact hhomes)
  · rw [held_cons_of_ne hk, sentAt_cons_of_ne fun _ => hk]

omit hgaps hv in
/-- The writes of one vertex are not those of another. -/
theorem wrote_cons_of_ne {writes : List (Record E)} {v' j : ℕ} {side' : Side} {d : E}
    {n n' : EdgeWithValue E × ℕ} (hn' : n' ∈ x.edgesAt side' v') (hne : v' ≠ v)
    (hn : n ∈ x.edgesAt side v) (i : ℕ) :
    wrote (⟨j, side', n'.2, d⟩ :: writes) side i n.2 = wrote writes side i n.2 := by
  rw [wrote_cons, if_neg]
  rintro ⟨-, hside, hk⟩
  have hside : side' = side := hside
  subst hside
  obtain ⟨hnum, hend⟩ := mem_edgesAt.mp hn
  obtain ⟨hnum', hend'⟩ := mem_edgesAt.mp hn'
  obtain rfl := eq_of_number hnum hnum' hk
  exact hne (hend'.symm.trans hend)

end Vertex

/-! ## The steps keep the calls -/

/-- Whether the program asks for the edges of the vertices only, and reads
none that it has written. -/
def FreshProgram (program : Program V E) : Prop :=
  ∀ iteration vertex, (program iteration vertex).Fresh vertex.count []

theorem FreshProgram.vertex (h : FreshProgram x.program) (i w v : ℕ) :
    (x.program i (job.vertex w v)).Fresh (fun side => (job.edges w side v).length) [] := by
  have hcount : (fun side => (job.edges w side v).length) = (job.vertex w v).count := by
    funext side
    cases side with
    | inedge => exact (List.length_map _).symm
    | outedge => exact (List.length_map _).symm
  rw [hcount]
  exact h i (job.vertex w v)

theorem Called.init (w v : ℕ) : Called job (init job) w v where
  waiting _ := rfl
  underWay hp := absurd rfl hp
  done hp := by cases hp
  past i hi := absurd hi (Nat.not_lt_zero i)

section Steps

variable {w v : ℕ}

/-- An iteration begins. At the worker that begins, the value is the one that
the last iteration has left, and the edges of the vertex are unwritten in this
one; elsewhere nothing changes. -/
theorem Called.begin (h : Called job s w v) (hgaps : NoGaps x job.part)
    (hv : job.part.Mem w v) (hedges : Edges job s) (hfresh : FreshProgram x.program) {u : ℕ}
    (hstep : beginStep job s u = some s') : Called job s' w v := by
  unfold beginStep at hstep
  dsimp only at hstep
  split at hstep
  case isFalse => cases hstep
  case isTrue hguard =>
    obtain ⟨-, hphase, -⟩ := hguard
    obtain rfl := Option.some.inj hstep
    by_cases hwu : w = u
    · subst hwu
      have hself := setWorker_self (s := s) w { s.worker w with
        todo := fun v => x.program (s.worker w).iter (job.vertex w v)
        phase := .computing }
      -- the call of the vertex begins: nothing has been written in it, and it is
      -- about to ask for the first thing
      refine ⟨fun hp => ?_, fun _ => ⟨[], ?_, ?_, fun side k n hn => ?_⟩, fun hp => ?_,
        fun i hi => ?_⟩
      · dsimp only at hp
        rw [hself] at hp
        cases hp
      · dsimp only
        rw [hself]
        show outcomeFrom job s.writes w v (s.worker w).iter ((s.worker w).value v) = _
        rw [h.waiting hphase]
        rfl
      · dsimp only
        rw [hself]
        exact hfresh.vertex _ w v
      · dsimp only
        rw [hself]
        exact hedges.unwritten hgaps hv hphase (List.mem_of_getElem? hn)
      · dsimp only at hp
        rw [hself] at hp
        cases hp
      · dsimp only at hi
        rw [hself] at hi
        exact h.past i hi
    · have hother := setWorker_of_ne (s := s) { s.worker u with
        todo := fun v => x.program (s.worker u).iter (job.vertex u v)
        phase := .computing } hwu
      -- another worker begins
      refine h.congr ?_ ?_ ?_ (Or.inl ?_) (fun _ _ _ _ _ => rfl) (fun _ _ _ _ => rfl)
      · exact congrArg (fun y => y.value v) hother
      · exact congrArg (fun y => y.todo v) hother
      · exact congrArg Worker.iter hother
      · exact congrArg Worker.phase hother

/-- What a request leaves as it was. -/
theorem request_frame {u v' : ℕ} (hstep : requestStep job s u v' = some s') :
    ∃ y, (s'.worker = (s.setWorker u y).worker) ∧ y.iter = (s.worker u).iter ∧
      y.phase = (s.worker u).phase ∧
      (∀ v, v ≠ v' → y.value v = (s.worker u).value v ∧ y.todo v = (s.worker u).todo v) ∧
      (s'.writes = s.writes ∨ ∃ (side : Side) (i : ℕ) (d : E) (e : Edge),
        (job.edges u side v')[i]? = some e ∧
        s'.writes = ⟨(s.worker u).iter, side, e.edge, d⟩ :: s.writes) := by
  unfold requestStep at hstep
  split at hstep
  case isFalse => cases hstep
  case isTrue =>
    cases htodo : (s.worker u).todo v' with
    | done a =>
      rw [htodo] at hstep
      cases hstep
    | getData next =>
      rw [htodo] at hstep
      obtain rfl := Option.some.inj hstep
      exact ⟨_, rfl, rfl, rfl, fun v hv => ⟨rfl, Function.update_of_ne hv _ _⟩, Or.inl rfl⟩
    | setData d next =>
      rw [htodo] at hstep
      obtain rfl := Option.some.inj hstep
      exact ⟨_, rfl, rfl, rfl, fun v hv => ⟨Function.update_of_ne hv _ _,
        Function.update_of_ne hv _ _⟩, Or.inl rfl⟩
    | getEdge side i next =>
      rw [htodo] at hstep
      obtain ⟨e, -, rfl⟩ := Option.map_eq_some_iff.mp hstep
      exact ⟨_, rfl, rfl, rfl, fun v hv => ⟨rfl, Function.update_of_ne hv _ _⟩, Or.inl rfl⟩
    | setEdge side i d next =>
      rw [htodo] at hstep
      obtain ⟨e, he, rfl⟩ := Option.map_eq_some_iff.mp hstep
      exact ⟨_, rfl, rfl, rfl, fun v hv => ⟨rfl, Function.update_of_ne hv _ _⟩,
        Or.inr ⟨side, i, d, e, he, rfl⟩⟩

/-- A request of another vertex. -/
theorem Called.request_of_ne (h : Called job s w v) (hgaps : NoGaps x job.part)
    (hv : job.part.Mem w v) (hedges : Edges job s) {u v' : ℕ} (hne : v ≠ v')
    (hv' : job.part.Mem u v') (hphase : (s.worker u).phase = .computing)
    (hstep : requestStep job s u v' = some s') : Called job s' w v := by
  obtain ⟨y, hworker, hiter, hyphase, hothers, hwrites⟩ := request_frame hstep
  have hvalue : (s'.worker w).value v = (s.worker w).value v ∧
      (s'.worker w).todo v = (s.worker w).todo v := by
    rw [hworker]
    by_cases hwu : w = u
    · rw [hwu, setWorker_self]
      exact hothers v hne
    · rw [setWorker_of_ne _ hwu]
      exact ⟨rfl, rfl⟩
  have hiters : (s'.worker w).iter = (s.worker w).iter := by
    rw [hworker]
    exact field_eq Worker.iter hiter w
  have hphases : (s'.worker w).phase = (s.worker w).phase := by
    rw [hworker]
    exact field_eq Worker.phase hyphase w
  rcases hwrites with hwrites | ⟨side', i, d, e, he, hwrites⟩
  · exact h.congr hvalue.1 hvalue.2 hiters (Or.inl hphases)
      (fun _ _ _ _ _ => by rw [hwrites]) (fun _ _ _ _ => by rw [hwrites])
  · obtain ⟨n', hn', rfl⟩ := exists_object hgaps hv' (List.mem_of_getElem? he)
    rw [object_edge] at hwrites
    refine h.congr hvalue.1 hvalue.2 hiters (Or.inl hphases) (fun side n hn i hi => ?_)
      (fun side n hn i => ?_)
    · rw [hwrites]
      exact hedges.edgeAt_cons hgaps hv hv' hn' hphase hn hi
    · rw [hwrites]
      exact wrote_cons_of_ne hn' hne.symm (mem_edgesAt_of_listed hgaps hv hn) i

/-- **A request that writes to no edge** takes the call on: what is left of it,
`rest`, comes to the same. -/
theorem Called.of_silent (h : Called job s w v) {y : Worker V E}
    {rest : Update V E Unit} {ws : Writes E} (hyphase : y.phase = .computing)
    (hiter : y.iter = (s.worker w).iter)
    (htodo : y.todo = Function.update (s.worker w).todo v rest)
    (hplay : rest.play (foundAt job s.writes w v (s.worker w).iter) (y.value v) ws
      = outcomeAt job s.writes w v (s.worker w).iter)
    (hfresh : rest.Fresh (fun side => (job.edges w side v).length) ws)
    (htold : Told job s.writes w v (s.worker w).iter ws) :
    Called job (s.setWorker w y) w v := by
  have hself : ((s.setWorker w y).worker w) = y := setWorker_self w y
  have hrest : y.todo v = rest := by rw [htodo, Function.update_self]
  refine ⟨fun hp => ?_, fun _ => ⟨ws, ?_, ?_, ?_⟩, fun hp => ?_, ?_⟩
  · rw [hself, hyphase] at hp
    cases hp
  · rw [hself, hrest, hiter]
    exact hplay
  · rw [hself, hrest]
    exact hfresh
  · rw [hself, hiter]
    exact htold
  · rw [hself, hyphase] at hp
    cases hp
  · rw [hself, hiter]
    exact h.past

/-- The call reads an edge: it finds the value of the iteration, as it has not
written the edge. -/
theorem Called.getEdge (h : Called job s w v) (hgaps : NoGaps x job.part)
    (hv : job.part.Mem w v) (hedges : Edges job s)
    (hphase : (s.worker w).phase = .computing) {side : Side} {i : ℕ}
    {next : E → Update V E Unit} {ws : Writes E}
    (hplay : (Update.getEdge side i next).play (foundAt job s.writes w v (s.worker w).iter)
      ((s.worker w).value v) ws = outcomeAt job s.writes w v (s.worker w).iter)
    (hfresh : (Update.getEdge side i next).Fresh (fun side => (job.edges w side v).length) ws)
    (htold : Told job s.writes w v (s.worker w).iter ws)
    (hstep : answer job s w v (.getEdge side i next) = some s') : Called job s' w v := by
  obtain ⟨e, he, rfl⟩ := Option.map_eq_some_iff.mp hstep
  obtain ⟨n, hn, rfl, hmem⟩ := listed_getElem? hgaps hv he
  have hlisted := List.mem_of_getElem? hn
  have hread : (object x job.part side n).getData (s.worker w).memory =
      foundAt job s.writes w v (s.worker w).iter side i := by
    rw [hedges.read hgaps hv hphase hlisted ((htold side i n hn).trans hfresh.1.2)]
    unfold foundAt
    rw [hn]
    rfl
  refine h.of_silent hphase rfl rfl ?_ (hfresh.2 _) htold
  rw [hread]
  exact hplay

/-- The call writes an edge: the write is told, and shows in no iteration up to
this one. -/
theorem Called.setEdge (h : Called job s w v) (hgaps : NoGaps x job.part)
    (hv : job.part.Mem w v) (hedges : Edges job s)
    (hphase : (s.worker w).phase = .computing) {side : Side} {i : ℕ} {d : E}
    {next : Update V E Unit} {ws : Writes E}
    (hplay : (Update.setEdge side i d next).play
      (foundAt job s.writes w v (s.worker w).iter) ((s.worker w).value v) ws
        = outcomeAt job s.writes w v (s.worker w).iter)
    (hfresh : (Update.setEdge side i d next).Fresh
      (fun side => (job.edges w side v).length) ws)
    (htold : Told job s.writes w v (s.worker w).iter ws)
    (hstep : answer job s w v (.setEdge side i d next) = some s') : Called job s' w v := by
  obtain ⟨e, he, rfl⟩ := Option.map_eq_some_iff.mp hstep
  obtain ⟨n, hn, rfl, hmem⟩ := listed_getElem? hgaps hv he
  rw [object_edge]
  have hself := setWorker_self (s := s) w { s.worker w with
    memory := (object x job.part side n).setData (s.worker w).memory d
    todo := Function.update (s.worker w).todo v next }
  have hsame : ∀ side', ∀ n' ∈ job.listed w side' v, ∀ j ≤ (s.worker w).iter,
      edgeAt job (⟨(s.worker w).iter, side, n.2, d⟩ :: s.writes) n' j =
        edgeAt job s.writes n' j := fun side' n' hn' j hj =>
    hedges.edgeAt_cons hgaps hv hv hmem hphase hn' hj
  refine ⟨fun hp => ?_, fun _ => ⟨(side, i, d) :: ws, ?_, ?_, fun side' k n' hn' => ?_⟩,
    fun hp => ?_, fun j hj side' k n' hn' => ?_⟩
  · dsimp only at hp
    rw [hself] at hp
    have hp : (s.worker w).phase = .waiting := hp
    rw [hphase] at hp
    cases hp
  · dsimp only
    rw [hself]
    dsimp only
    rw [Function.update_self, foundAt_congr hsame le_rfl, outcomeAt_congr hsame le_rfl]
    exact hplay
  · dsimp only
    rw [hself]
    dsimp only
    rw [Function.update_self]
    exact hfresh.2
  · dsimp only
    rw [hself]
    dsimp only
    rw [wrote_cons]
    -- the list says the same of the edge that is written, and of the others
    by_cases hsame : side = side' ∧ i = k
    · obtain ⟨rfl, rfl⟩ := hsame
      obtain rfl := Option.some.inj (hn.symm.trans hn')
      rw [if_pos ⟨rfl, rfl, rfl⟩, look_cons_self]
    · rw [look_cons_of_ne hsame, if_neg fun hr => ?_]
      · exact htold side' k n' hn'
      · obtain ⟨-, hside, hk⟩ := hr
        have hside : side = side' := hside
        subst hside
        exact hsame ⟨rfl, listed_inj hgaps hv hn hn' hk⟩
  · dsimp only at hp
    rw [hself] at hp
    have hp : (s.worker w).phase = .exchanging := hp
    rw [hphase] at hp
    cases hp
  · dsimp only at hj
    rw [hself] at hj
    have hj : j < (s.worker w).iter := hj
    dsimp only
    rw [outcomeAt_congr hsame hj.le, wrote_cons, if_neg fun hr => hj.ne' hr.1]
    exact h.past j hj side' k n' hn'

/-- **A request of the vertex** takes its call on: what was left of it is
answered from the account, and comes to the same in the end. -/
theorem Called.request_self (h : Called job s w v) (hgaps : NoGaps x job.part)
    (hv : job.part.Mem w v) (hedges : Edges job s)
    (hphase : (s.worker w).phase = .computing)
    (hstep : requestStep job s w v = some s') : Called job s' w v := by
  obtain ⟨ws, hplay, hfresh, htold⟩ := h.underWay (by rw [hphase]; simp)
  unfold requestStep at hstep
  rw [if_pos ⟨hv, hphase⟩] at hstep
  cases htodo : (s.worker w).todo v with
  | done a =>
    rw [htodo] at hstep
    cases hstep
  | getData next =>
    rw [htodo] at hstep hplay hfresh
    obtain rfl := Option.some.inj hstep
    exact h.of_silent hphase rfl rfl hplay (hfresh _) htold
  | setData d next =>
    rw [htodo] at hstep hplay hfresh
    obtain rfl := Option.some.inj hstep
    refine h.of_silent hphase rfl rfl ?_ hfresh htold
    dsimp only
    rw [Function.update_self]
    exact hplay
  | getEdge side i next =>
    rw [htodo] at hstep hplay hfresh
    exact h.getEdge hgaps hv hedges hphase hplay hfresh htold hstep
  | setEdge side i d next =>
    rw [htodo] at hstep hplay hfresh
    exact h.setEdge hgaps hv hedges hphase hplay hfresh htold hstep

theorem Called.finish (h : Called job s w v) (hv : job.part.Mem w v) {u : ℕ}
    (hstep : finishStep job s u = some s') : Called job s' w v := by
  unfold finishStep at hstep
  split at hstep
  case isFalse => cases hstep
  case isTrue hguard =>
    obtain ⟨-, hphase, hdone⟩ := hguard
    obtain rfl := Option.some.inj hstep
    by_cases hwu : w = u
    · subst hwu
      have hself := setWorker_self (s := s) w { s.worker w with phase := .exchanging }
      refine h.congr ?_ ?_ ?_ (Or.inr ⟨hphase, ?_, ?_⟩) (fun _ _ _ _ _ => rfl)
        (fun _ _ _ _ => rfl)
      · rw [hself]
      · rw [hself]
      · rw [hself]
      · rw [hself]
      · exact hdone v (Nat.lt_succ_of_le hv.2.2) hv.2.1
    · have hother := setWorker_of_ne (s := s) { s.worker u with phase := .exchanging } hwu
      refine h.congr ?_ ?_ ?_ (Or.inl ?_) (fun _ _ _ _ _ => rfl) (fun _ _ _ _ => rfl)
      · rw [hother]
      · rw [hother]
      · rw [hother]
      · rw [hother]

theorem Called.deliver (h : Called job s w v) {p u : ℕ}
    (hstep : deliverStep job s p u = some s') : Called job s' w v := by
  unfold deliverStep at hstep
  split at hstep
  case isFalse => cases hstep
  case isTrue =>
    obtain rfl := Option.some.inj hstep
    refine h.congr ?_ ?_ ?_ (Or.inl ?_) (fun _ _ _ _ _ => rfl) (fun _ _ _ _ => rfl)
    all_goals
      by_cases hwu : w = u
      · subst hwu
        rw [setWorker_self]
      · rw [setWorker_of_ne _ hwu]

/-- **When a call has returned**, the value and the history are what it comes
to. -/
theorem Called.returned (h : Called job s w v) (hphase : (s.worker w).phase = .exchanging) :
    (s.worker w).value v = dataAt job s.writes w v ((s.worker w).iter + 1) ∧
      Told job s.writes w v (s.worker w).iter
        (outcomeAt job s.writes w v (s.worker w).iter).2.2 := by
  obtain ⟨ws, hplay, -, htold⟩ := h.underWay (by rw [hphase]; simp)
  have hdone := h.done hphase
  cases htodo : (s.worker w).todo v with
  | done a =>
    rw [htodo] at hplay
    have hplay : (a, (s.worker w).value v, ws) = _ := hplay
    rw [dataAt]
    show _ = (outcomeAt job s.writes w v (s.worker w).iter).2.1 ∧ _
    rw [← hplay]
    exact ⟨rfl, htold⟩
  | getData next =>
    rw [htodo] at hdone
    cases hdone
  | setData d next =>
    rw [htodo] at hdone
    cases hdone
  | getEdge side i next =>
    rw [htodo] at hdone
    cases hdone
  | setEdge side i d next =>
    rw [htodo] at hdone
    cases hdone

theorem Called.sync (h : Called job s w v) {u : ℕ}
    (hstep : syncStep job s u = some s') : Called job s' w v := by
  unfold syncStep at hstep
  split at hstep
  case isFalse => cases hstep
  case isTrue hguard =>
    obtain ⟨-, hphase, -⟩ := hguard
    obtain rfl := Option.some.inj hstep
    by_cases hwu : w = u
    · subst hwu
      obtain ⟨hvalue, htold⟩ := h.returned hphase
      have hself := setWorker_self (s := s) w { s.worker w with
        memory := job.synced w (s.worker w).memory
        iter := (s.worker w).iter + 1
        phase := .waiting
        got := fun _ => false }
      refine ⟨fun _ => ?_, fun hp => ?_, fun hp => ?_, fun i hi => ?_⟩
      · rw [hself]
        exact hvalue
      · rw [hself] at hp
        exact absurd rfl hp
      · rw [hself] at hp
        cases hp
      · rw [hself] at hi
        rcases Nat.lt_succ_iff_lt_or_eq.mp hi with hi | rfl
        · exact h.past i hi
        · exact htold
    · have hother := setWorker_of_ne (s := s) { s.worker u with
        memory := job.synced u (s.worker u).memory
        iter := (s.worker u).iter + 1
        phase := .waiting
        got := fun _ => false } hwu
      refine h.congr ?_ ?_ ?_ (Or.inl ?_) (fun _ _ _ _ _ => rfl) (fun _ _ _ _ => rfl)
      · rw [hother]
      · rw [hother]
      · rw [hother]
      · rw [hother]

theorem Called.step (h : Called job s w v) (hgaps : NoGaps x job.part) (hv : job.part.Mem w v)
    (hedges : Edges job s) (hfresh : FreshProgram x.program) {a : Action}
    (hstep : step job s a = some s') : Called job s' w v := by
  cases a with
  | begin u => exact h.begin hgaps hv hedges hfresh hstep
  | request u v' =>
    obtain ⟨hv', hphase, -⟩ := request_cases hstep
    by_cases hvv : v = v'
    · subst hvv
      obtain rfl := hv.unique hv'
      exact h.request_self hgaps hv hedges hphase hstep
    · exact h.request_of_ne hgaps hv hedges hvv hv' hphase hstep
  | finish u => exact h.finish hv hstep
  | deliver p u => exact h.deliver hstep
  | sync u => exact h.sync hstep

end Steps

/-- **The history of a run**: its edges and its calls. -/
structure History (job : Job x) (s : State V E) : Prop where
  edges : Edges job s
  called : ∀ w v, job.part.Mem w v → Called job s w v

theorem History.init : History job (init job) where
  edges := .init
  called w v _ := .init w v

theorem History.step (h : History job s) (hgaps : NoGaps x job.part)
    (hfresh : FreshProgram x.program) {a : Action} (hok : AfterCompute s a)
    (hstep : step job s a = some s') : History job s' where
  edges := h.edges.step hgaps hok hstep
  called w v hv := (h.called w v hv).step hgaps hv h.edges hfresh hstep

/-- The history of the runs whose blocks are stored after the receiver has
computed. -/
theorem History.run (h : History job s) (hgaps : NoGaps x job.part)
    (hfresh : FreshProgram x.program) {as : List Action}
    (hrun : Run (Engine.step job) AfterCompute s as s') : History job s' :=
  hrun.invariant (fun _ _ _ h hok hstep => h.step hgaps hfresh hok hstep) h

end Engine
