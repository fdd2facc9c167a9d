import Mathlib
import DpdkGraph.EdgeVisibility

/-!
# The edges inside an interval

The value of an edge whose endpoints have the same worker is kept twice
there. While the worker computes, the main block is read and not written,
and `main_to_main_buf` is written and not read; then the whole of it is
copied over the main block. What the two slots of the edge hold is therefore
what has been written to it last, whatever else happens: blocks that come
early and vertices that write to in-edges from other workers do not reach
these slots.

The invariant starts from what the two buffers hold after loading, which may
be different things (`held`).
-/

namespace Engine

open VertexProgram
open Transition (Run)

variable {V E : Type} {x : Input V E} {job : Job x} {s s' : State V E}

/-! ## What a request does -/

/-- **A request** changes what is left of a call and the vertex data, or it
writes to an edge. -/
theorem request_cases {w v : ℕ} (hstep : requestStep job s w v = some s') :
    job.part.Mem w v ∧ (s.worker w).phase = .computing ∧
    ((∃ y, s' = s.setWorker w y ∧ y.memory = (s.worker w).memory ∧
        y.iter = (s.worker w).iter ∧ y.got = (s.worker w).got ∧
        y.phase = (s.worker w).phase) ∨
      ∃ side i d next e, (s.worker w).todo v = .setEdge side i d next ∧
        (job.edges w side v)[i]? = some e ∧
        s' = { s.setWorker w
            { s.worker w with
              memory := e.setData (s.worker w).memory d
              todo := Function.update (s.worker w).todo v next } with
          writes := ⟨(s.worker w).iter, side, e.edge, d⟩ :: s.writes }) := by
  unfold requestStep at hstep
  split at hstep
  case isFalse => cases hstep
  case isTrue hguard =>
    refine ⟨hguard.1, hguard.2, ?_⟩
    cases htodo : (s.worker w).todo v with
    | done a =>
      rw [htodo] at hstep
      cases hstep
    | getData next =>
      rw [htodo] at hstep
      obtain rfl := Option.some.inj hstep
      exact Or.inl ⟨_, rfl, rfl, rfl, rfl, rfl⟩
    | setData d next =>
      rw [htodo] at hstep
      obtain rfl := Option.some.inj hstep
      exact Or.inl ⟨_, rfl, rfl, rfl, rfl, rfl⟩
    | getEdge side i next =>
      rw [htodo] at hstep
      obtain ⟨e, -, rfl⟩ := Option.map_eq_some_iff.mp hstep
      exact Or.inl ⟨_, rfl, rfl, rfl, rfl, rfl⟩
    | setEdge side i d next =>
      rw [htodo] at hstep
      obtain ⟨e, he, rfl⟩ := Option.map_eq_some_iff.mp hstep
      exact Or.inr ⟨side, i, d, next, e, rfl, he, rfl⟩

/-! ## The value of an inner edge -/

/-- What an inner edge `k` holds in iteration `i`, when the main block holds
`first` and the copy of it `copy` after loading. -/
def held (first copy : E) (writes : List (Record E)) (k : ℕ) : ℕ → E
  | 0 => first
  | i + 1 => (lastWrite writes i k).getD
      (if i = 0 then copy else held first copy writes k i)

section Held

variable {first copy : E} {writes : List (Record E)} {r : Record E} {i k : ℕ}

/-- A write in an iteration changes the values of the later ones. -/
theorem held_cons_of_le (hi : i ≤ r.iteration) :
    held first copy (r :: writes) k i = held first copy writes k i := by
  induction i with
  | zero => rfl
  | succ i ih =>
    rw [held, held, ih (by omega), lastWrite_cons_of_ne (Or.inl (by omega))]

/-- A write to an edge changes the values of that edge. -/
theorem held_cons_of_ne (hk : r.edge ≠ k) (i : ℕ) :
    held first copy (r :: writes) k i = held first copy writes k i := by
  induction i with
  | zero => rfl
  | succ i ih => rw [held, held, ih, lastWrite_cons_of_ne (Or.inr hk)]

theorem held_cons_self (first copy : E) (writes : List (Record E))
    (r : Record E) :
    held first copy (r :: writes) r.edge (r.iteration + 1) = r.value := by
  rw [held]
  unfold lastWrite
  rw [List.find?_cons_of_pos (by simp)]
  rfl

/-- Where nothing is written in an iteration, the value stays, from the
second iteration on. -/
theorem held_succ (hpos : 0 < i)
    (h : ∀ r ∈ writes, r.edge = k → r.iteration ≠ i) :
    held first copy writes k (i + 1) = held first copy writes k i := by
  rw [held, lastWrite_eq_none h, Option.getD_none, if_neg hpos.ne']

/-- **What nobody has written stays** what the buffers held, if they held the
same. -/
theorem held_eq_first (h : ∀ i, lastWrite writes i k = none)
    (heq : copy = first) : held first copy writes k i = first := by
  induction i with
  | zero => rfl
  | succ i ih =>
    rw [held, h, Option.getD_none, ih, heq, ite_self]

end Held

/-- What an edge of worker `w` holds in an iteration. -/
def Job.heldAt (job : Job x) (w : ℕ) (n : EdgeWithValue E × ℕ)
    (writes : List (Record E)) (i : ℕ) : E :=
  held (job.loaded w (.inbuf w (slot x job.part n)))
    (job.loaded w (.mainToMain (slot x job.part n))) writes n.2 i

/-- **What the two slots of an inner edge hold**: the block has the value that
is read, and the copy the one that the next iteration will read. -/
structure Inner (job : Job x) (s : State V E) (n : EdgeWithValue E × ℕ)
    (w : ℕ) : Prop where
  /-- The block has the value of the iteration. -/
  block : (s.worker w).memory (.inbuf w (slot x job.part n)) =
    job.heldAt w n s.writes (s.worker w).iter
  /-- The copy has that of the next one. -/
  copy : (s.worker w).memory (.mainToMain (slot x job.part n)) =
    job.heldAt w n s.writes ((s.worker w).iter + 1)
  /-- The writes are not later than the iteration. -/
  early : ∀ r ∈ s.writes, r.edge = n.2 → r.iteration ≤ (s.worker w).iter ∧
    ((s.worker w).phase = .waiting → r.iteration < (s.worker w).iter)
  /-- What has been found is the value of the iteration. -/
  known : ∀ r ∈ s.found, r.edge = n.2 →
    r.value = job.heldAt w n s.writes r.iteration ∧
      r.iteration ≤ (s.worker w).iter

/-- A step that does not reach the edge. -/
theorem Inner.congr {n : EdgeWithValue E × ℕ} {w : ℕ} (h : Inner job s n w)
    (hheld : ∀ i, job.heldAt w n s'.writes i = job.heldAt w n s.writes i)
    (hwrites : ∀ r ∈ s'.writes, r.edge = n.2 → r ∈ s.writes)
    (hfound : ∀ r ∈ s'.found, r.edge = n.2 → r ∈ s.found ∨
      r.value = job.heldAt w n s.writes r.iteration ∧
        r.iteration ≤ (s.worker w).iter)
    (hblock : (s'.worker w).memory (.inbuf w (slot x job.part n)) =
      (s.worker w).memory (.inbuf w (slot x job.part n)))
    (hcopy : (s'.worker w).memory (.mainToMain (slot x job.part n)) =
      (s.worker w).memory (.mainToMain (slot x job.part n)))
    (hiter : (s'.worker w).iter = (s.worker w).iter)
    (hphase : (s'.worker w).phase = .waiting →
      (s.worker w).phase = .waiting) : Inner job s' n w where
  block := by rw [hblock, hheld, hiter, h.block]
  copy := by rw [hcopy, hheld, hiter, h.copy]
  early r hr hk := by
    have hearly := h.early r (hwrites r hr hk) hk
    rw [hiter]
    exact ⟨hearly.1, fun hp => hearly.2 (hphase hp)⟩
  known r hr hk := by
    rw [hheld, hiter]
    rcases hfound r hr hk with hr | hnew
    · exact h.known r hr hk
    · exact hnew

/-- After loading. -/
theorem Inner.init (n : EdgeWithValue E × ℕ) (w : ℕ) :
    Inner job (init job) n w where
  block := rfl
  copy := by
    show _ = job.heldAt w n [] 1
    unfold Job.heldAt
    rw [held, lastWrite_eq_none fun r hr => absurd hr List.not_mem_nil]
    rfl
  early r hr := absurd hr List.not_mem_nil
  known r hr := absurd hr List.not_mem_nil

/-! ## The steps keep the two slots -/

/-- Both endpoints of an inner edge are vertices of the worker of one. -/
theorem homes_eq {n : EdgeWithValue E × ℕ} {w v : ℕ} {side : Side}
    (hn : n ∈ x.edgesAt side v) (hv : job.part.Mem w v)
    (hinner : home job.part n.1.src = home job.part n.1.dst) :
    home job.part n.1.src = w ∧ home job.part n.1.dst = w := by
  obtain ⟨-, hend⟩ := mem_edgesAt.mp hn
  cases side with
  | inedge =>
    have hend : n.1.dst = v := hend
    have hdst : home job.part n.1.dst = w := home_eq (by rw [hend]; exact hv)
    exact ⟨hinner.trans hdst, hdst⟩
  | outedge =>
    have hend : n.1.src = v := hend
    have hsrc : home job.part n.1.src = w := home_eq (by rw [hend]; exact hv)
    exact ⟨hsrc, hinner.symm.trans hsrc⟩

/-- An endpoint of an inner edge reads the main block. -/
theorem object_dataPtr {part : IntervalPartition} {n : EdgeWithValue E × ℕ}
    {w : ℕ} (hsrc : home part n.1.src = w) (hdst : home part n.1.dst = w)
    (side : Side) :
    (object x part side n).dataPtr = .inbuf w (slot x part n) := by
  cases side with
  | inedge =>
    show Ptr.inbuf (home part n.1.src) _ = _
    rw [hsrc]
  | outedge =>
    show (outObject x part n).dataPtr = _
    unfold outObject
    rw [if_pos (hsrc.trans hdst.symm), hsrc]

/-- Nobody writes to the slot of an inner edge in the main block. -/
theorem object_target_ne {n' : EdgeWithValue E × ℕ} {w v : ℕ} {side : Side}
    (hn' : n' ∈ x.edgesAt side v) (hv : job.part.Mem w v) (i : ℕ) :
    (object x job.part side n').target ≠ .inbuf w i := by
  obtain ⟨-, hend⟩ := mem_edgesAt.mp hn'
  cases side with
  | inedge =>
    have hend : n'.1.dst = v := hend
    have hdst : home job.part n'.1.dst = w := home_eq (by rw [hend]; exact hv)
    show (inObject x job.part n').target ≠ _
    unfold Edge.target inObject
    dsimp only
    split
    · exact fun heq => by cases heq
    · next hne =>
      intro heq
      exact hne ((Ptr.inbuf.inj heq).1.trans hdst.symm)
  | outedge =>
    rw [object_target job.part fun h => by cases h]
    split
    · exact fun heq => by cases heq
    · exact fun heq => by cases heq

section Steps

variable {n : EdgeWithValue E × ℕ} {w : ℕ} (hgaps : NoGaps x job.part)
  (hn : n ∈ x.numbered) (hsrc : home job.part n.1.src = w)
  (hdst : home job.part n.1.dst = w)
include hgaps hn hsrc hdst

omit hgaps hn in
/-- The worker that has an endpoint of an inner edge is the worker of the
edge. -/
theorem worker_eq {u v : ℕ} {side : Side} (hv : job.part.Mem u v)
    (hmem : n ∈ x.edgesAt side v) : u = w := by
  obtain ⟨-, hend⟩ := mem_edgesAt.mp hmem
  cases side with
  | inedge =>
    have hend : n.1.dst = v := hend
    rw [← hdst, hend, home_eq hv]
  | outedge =>
    have hend : n.1.src = v := hend
    rw [← hsrc, hend, home_eq hv]

/-- An iteration begins: what is found on the edge is read off its slot of the
block, which no write reaches while the worker computes. -/
theorem Inner.begin (h : Inner job s n w) {u : ℕ}
    (hstep : beginStep job s u = some s') : Inner job s' n w := by
  unfold beginStep at hstep
  dsimp only at hstep
  split at hstep
  case isFalse => cases hstep
  case isTrue hguard =>
    obtain ⟨hu, hphase, -⟩ := hguard
    obtain rfl := Option.some.inj hstep
    have hmemory := field_eq (s := s) (w := u) (y := { s.worker u with
      todo := fun v => x.program (s.worker u).iter (job.vertex u v)
      phase := .computing }) Worker.memory rfl w
    have hiter := field_eq (s := s) (w := u) (y := { s.worker u with
      todo := fun v => x.program (s.worker u).iter (job.vertex u v)
      phase := .computing }) Worker.iter rfl w
    refine h.congr (fun _ => rfl) (fun _ hr _ => hr) (fun r hr hk => ?_)
      (congrFun hmemory _) (congrFun hmemory _) hiter fun hp => ?_
    · -- what the vertices find is in the block of the worker, which has the value of
      -- this iteration
      rcases List.mem_append.mp hr with hr | hr
      · obtain ⟨o, ho, rfl⟩ := List.mem_map.mp hr
        obtain ⟨v, hv, he⟩ := exists_of_mem_objects hu ho
        obtain ⟨n', hn', hobj⟩ := exists_object hgaps hv he
        have hnumber : n'.2 = n.2 := by
          rw [← object_edge job.part o.1 n', hobj]
          exact hk
        obtain rfl := eq_of_number hn (mem_edgesAt.mp hn').1 hnumber
        obtain rfl := worker_eq hsrc hdst hv hn'
        refine Or.inr ⟨?_, le_rfl⟩
        show (s.worker u).memory o.2.dataPtr = _
        rw [← hobj, object_dataPtr hsrc hdst, h.block]
      · exact Or.inl hr
    · by_cases huw : w = u
      · subst huw
        rw [State.setWorker] at hp
        dsimp only at hp
        rw [Function.update_self] at hp
        cases hp
      · rw [← setWorker_of_ne (s := s) _ huw]
        exact hp

/-- **A request** writes to the copy of the edge, or it does not reach the
edge. -/
theorem Inner.request (h : Inner job s n w) {u v : ℕ}
    (hstep : requestStep job s u v = some s') : Inner job s' n w := by
  obtain ⟨hv, hphase, ⟨y, rfl, hmemory, hiter, -, hyphase⟩ |
    ⟨side, i, d, next, e, -, he, rfl⟩⟩ := request_cases hstep
  · refine h.congr (fun _ => rfl) (fun _ hr _ => hr) (fun _ hr _ => Or.inl hr)
      (congrFun (field_eq Worker.memory hmemory w) _)
      (congrFun (field_eq Worker.memory hmemory w) _)
      (field_eq Worker.iter hiter w) fun hp => ?_
    rw [← field_eq Worker.phase hyphase w]
    exact hp
  · obtain ⟨n', hn', rfl⟩ := exists_object hgaps hv (List.mem_of_getElem? he)
    rw [object_edge]
    have hmem := (mem_edgesAt.mp hn').1
    have hiters := field_eq (s := s) (w := u) (y := { s.worker u with
      memory := (object x job.part side n').setData (s.worker u).memory d
      todo := Function.update (s.worker u).todo v next }) Worker.iter rfl w
    have hphases := field_eq (s := s) (w := u) (y := { s.worker u with
      memory := (object x job.part side n').setData (s.worker u).memory d
      todo := Function.update (s.worker u).todo v next }) Worker.phase rfl w
    -- the write reaches no `inbuf`
    have hblock := memory_of_write (s := s) (w := w) (u := u) (y := { s.worker u with
      memory := (object x job.part side n').setData (s.worker u).memory d
      todo := Function.update (s.worker u).todo v next }) rfl
      (p := .inbuf w (slot x job.part n)) fun huw => by
        subst huw
        exact object_target_ne hn' hv _
    by_cases hk : n'.2 = n.2
    · obtain rfl := eq_of_number hn hmem hk
      obtain rfl := worker_eq hsrc hdst hv hn'
      refine ⟨?_, ?_, fun r hr hkr => ?_, fun r hr hkr => ?_⟩
      · dsimp only
        unfold Job.heldAt
        rw [hiters, hblock, held_cons_of_le le_rfl]
        exact h.block
      · dsimp only
        unfold Job.heldAt
        rw [hiters, held_cons_self, setWorker_self]
        unfold Edge.setData
        dsimp only
        rw [object_target job.part fun _ => hsrc.trans hdst.symm,
          if_pos (hsrc.trans hdst.symm), Function.update_self]
      · dsimp only
        rw [hiters, hphases]
        rcases List.mem_cons.mp hr with rfl | hr
        · exact ⟨le_rfl, fun hp => by rw [hphase] at hp; cases hp⟩
        · exact h.early r hr hkr
      · obtain ⟨hval, hle⟩ := h.known r hr hkr
        dsimp only
        unfold Job.heldAt
        rw [hiters, held_cons_of_le hle]
        exact ⟨hval, hle⟩
    · refine h.congr (fun _ => held_cons_of_ne hk _) (fun r hr hkr => ?_)
        (fun _ hr _ => Or.inl hr) hblock (memory_of_write rfl fun huw => ?_) hiters
        fun hp => ?_
      · rcases List.mem_cons.mp hr with rfl | hr
        · exact absurd hkr hk
        · exact hr
      · subst huw
        by_cases hinner : home job.part n'.1.src = home job.part n'.1.dst
        · rw [object_target job.part fun _ => hinner, if_pos hinner]
          intro heq
          have hboth := homes_eq hn' hv hinner
          refine hk (congrArg Prod.snd (slot_injective job.covered hmem hn
            (hboth.1.trans hsrc.symm) (hboth.2.trans hdst.symm) ?_))
          exact Ptr.mainToMain.inj heq
        · cases side with
          | inedge =>
            show (inObject x job.part n').target ≠ _
            unfold Edge.target inObject
            dsimp only
            rw [if_neg hinner]
            exact fun heq => by cases heq
          | outedge =>
            have htarget : (object x job.part .outedge n').target = _ :=
              object_target job.part fun h => by cases h
            rw [htarget, if_neg hinner]
            exact fun heq => by cases heq
      · rw [← hphases]
        exact hp

omit hgaps hn hsrc hdst in
theorem Inner.finish (h : Inner job s n w) {u : ℕ}
    (hstep : finishStep job s u = some s') : Inner job s' n w := by
  unfold finishStep at hstep
  split at hstep
  case isFalse => cases hstep
  case isTrue hguard =>
    obtain rfl := Option.some.inj hstep
    have hmemory := field_eq (s := s) (w := u)
      (y := { s.worker u with phase := .exchanging }) Worker.memory rfl w
    have hiter := field_eq (s := s) (w := u)
      (y := { s.worker u with phase := .exchanging }) Worker.iter rfl w
    refine h.congr (fun _ => rfl) (fun _ hr _ => hr) (fun _ hr _ => Or.inl hr)
      (congrFun hmemory _) (congrFun hmemory _) hiter fun hp => ?_
    by_cases huw : w = u
    · subst huw
      rw [setWorker_self] at hp
      cases hp
    · rw [← setWorker_of_ne (s := s) _ huw]
      exact hp

omit hgaps hn hsrc hdst in
/-- A block of another worker goes elsewhere. -/
theorem Inner.deliver (h : Inner job s n w) {p u : ℕ}
    (hstep : deliverStep job s p u = some s') : Inner job s' n w := by
  unfold deliverStep at hstep
  split at hstep
  case isFalse => cases hstep
  case isTrue hguard =>
    obtain ⟨-, -, hne, -⟩ := hguard
    obtain rfl := Option.some.inj hstep
    have hiter := field_eq (s := s) (w := u) (y := { s.worker u with
      memory := job.stored p u (s.worker p).memory (s.worker u).memory
      got := Function.update (s.worker u).got p true }) Worker.iter rfl w
    refine h.congr (fun _ => rfl) (fun _ hr _ => hr) (fun _ hr _ => Or.inl hr)
      ?_ ?_ hiter fun hp => ?_
    · by_cases huw : w = u
      · subst huw
        rw [setWorker_self]
        show (if w = p ∧ _ then _ else _) = _
        rw [if_neg fun hc => hne hc.1.symm]
      · rw [setWorker_of_ne _ huw]
    · by_cases huw : w = u
      · subst huw
        rw [setWorker_self]
        rfl
      · rw [setWorker_of_ne _ huw]
    · rw [← field_eq (s := s) (w := u) (y := { s.worker u with
        memory := job.stored p u (s.worker p).memory (s.worker u).memory
        got := Function.update (s.worker u).got p true }) Worker.phase rfl w]
      exact hp

omit hgaps in
/-- **The copy of the main block** takes the edge to the next iteration: what
was written to the copy is now in the block, and what the next iteration writes
goes to the copy again. -/
theorem Inner.sync (h : Inner job s n w) {u : ℕ}
    (hstep : syncStep job s u = some s') : Inner job s' n w := by
  unfold syncStep at hstep
  split at hstep
  case isFalse => cases hstep
  case isTrue hguard =>
    obtain rfl := Option.some.inj hstep
    by_cases huw : w = u
    · subst huw
      have hslot := block_slot job.covered hn
      rw [hsrc, hdst] at hslot
      have hself := setWorker_self (s := s) w { s.worker w with
        memory := job.synced w (s.worker w).memory
        iter := (s.worker w).iter + 1
        phase := .waiting
        got := fun _ => false }
      -- no write is of the next iteration, so that the value of the last one stands
      have hnext : job.heldAt w n s.writes ((s.worker w).iter + 1 + 1) =
          job.heldAt w n s.writes ((s.worker w).iter + 1) := by
        refine held_succ (Nat.succ_pos _) fun r hr hk => ?_
        have := (h.early r hr hk).1
        omega
      refine ⟨?_, ?_, fun r hr hk => ?_, fun r hr hk => ?_⟩
      · rw [hself]
        show (if w = w ∧ _ then _ else _) = _
        rw [if_pos ⟨rfl, (List.getElem?_eq_some_iff.mp hslot).1⟩]
        exact h.copy
      · rw [hself]
        exact h.copy.trans hnext.symm
      · rw [hself]
        obtain ⟨hle, -⟩ := h.early r hr hk
        exact ⟨hle.trans (Nat.le_succ _), fun _ => Nat.lt_succ_of_le hle⟩
      · rw [hself]
        obtain ⟨hval, hle⟩ := h.known r hr hk
        exact ⟨hval, hle.trans (Nat.le_succ _)⟩
    · refine h.congr (fun _ => rfl) (fun _ hr _ => hr)
        (fun _ hr _ => Or.inl hr) ?_ ?_ ?_ fun hp => ?_
      · rw [setWorker_of_ne _ huw]
      · rw [setWorker_of_ne _ huw]
      · rw [setWorker_of_ne _ huw]
      · rw [← setWorker_of_ne (s := s) _ huw]
        exact hp

/-- **The steps keep the slots of an inner edge.** -/
theorem Inner.step (h : Inner job s n w) {a : Action}
    (hstep : step job s a = some s') : Inner job s' n w := by
  cases a with
  | begin u => exact h.begin hgaps hn hsrc hdst hstep
  | request u v => exact h.request hgaps hn hsrc hdst hstep
  | finish u => exact h.finish hstep
  | deliver p u => exact h.deliver hstep
  | sync u => exact h.sync hn hsrc hdst hstep

/-- The slots of an inner edge in any run. -/
theorem inner_of_run {ok : State V E → Action → Prop} {as : List Action}
    (hrun : Run (Engine.step job) ok (Engine.init job) as s) : Inner job s n w :=
  hrun.invariant (I := fun s => Inner job s n w)
    (fun _ _ _ h _ hstep => h.step hgaps hn hsrc hdst hstep) (Inner.init n w)

end Steps

end Engine
