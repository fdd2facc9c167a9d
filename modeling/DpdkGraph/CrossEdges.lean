import Mathlib
import DpdkGraph.InnerEdges

/-!
# The edges between two workers

The value of an edge whose endpoints have different workers is kept in an
`obuf` of the source's worker, which the source reads and writes, and in an
`inbuf` of the destination's worker, which the destination reads and writes.
What the destination writes stays there until the next block comes, so that
it reaches nobody: values go from the source to the destination only.

Here every vertex may write to any of its edges, as `update` of connected
components does; the blocks are stored after the receiver has computed.
-/

namespace Engine

open VertexProgram
open Transition (Run)

variable {V E : Type} {x : Input V E} {job : Job x} {s s' : State V E}

/-! ## What the source has written -/

theorem wrote_eq_none {writes : List (Record E)} {side : Side} {i k : ℕ}
    (h : ∀ r ∈ writes, r.edge = k → r.side = side → r.iteration ≠ i) :
    wrote writes side i k = none := by
  unfold wrote
  rw [Option.map_eq_none_iff, List.find?_eq_none]
  intro r hr
  simpa using fun hi hside hk => h r hr hk hside hi

/-- What the source of edge `k` has left in it before iteration `i`, where
the edge has held `first` at the beginning. -/
def sentAt (first : E) (writes : List (Record E)) (k : ℕ) : ℕ → E
  | 0 => first
  | i + 1 => (wrote writes .outedge i k).getD (sentAt first writes k i)

section Sent

variable {first : E} {writes : List (Record E)} {r : Record E} {i k : ℕ}

/-- A write in an iteration changes the values of the later ones. -/
theorem sentAt_cons_of_le (hi : i ≤ r.iteration) :
    sentAt first (r :: writes) k i = sentAt first writes k i := by
  induction i with
  | zero => rfl
  | succ i ih =>
    rw [sentAt, sentAt, ih (by omega), wrote_cons, if_neg fun h => by omega]

/-- It changes the value of its edge, and if it comes from the source. -/
theorem sentAt_cons_of_ne (h : r.side = .outedge → r.edge ≠ k) (i : ℕ) :
    sentAt first (r :: writes) k i = sentAt first writes k i := by
  induction i with
  | zero => rfl
  | succ i ih => rw [sentAt, sentAt, ih, wrote_cons, if_neg fun hr => h hr.2.1 hr.2.2]

theorem sentAt_cons_self (first : E) (writes : List (Record E)) {r : Record E}
    (h : r.side = .outedge) :
    sentAt first (r :: writes) r.edge (r.iteration + 1) = r.value := by
  rw [sentAt, wrote_cons, if_pos ⟨rfl, h, rfl⟩]
  rfl

theorem sentAt_succ (h : wrote writes .outedge i k = none) :
    sentAt first writes k (i + 1) = sentAt first writes k i := by
  rw [sentAt, h]
  rfl

end Sent

/-! ## The pace of the blocks -/

/-- **The blocks keep to the iterations**, whatever the workers do between: none
is stored before it is computed, and none is stored ahead of its iteration. -/
structure Paced (job : Job x) (s : State V E) : Prop where
  /-- A block is stored when it has been computed. -/
  counts : ∀ a b, a < job.workers → b < job.workers → a ≠ b →
    (s.worker b).received a ≤ (s.worker a).computed
  /-- Blocks are stored between computing and the next iteration. -/
  idle : ∀ b, (s.worker b).phase ≠ .exchanging →
    ∀ p, (s.worker b).got p = false

theorem Paced.init : Paced job (init job) where
  counts _ _ _ _ _ := le_rfl
  idle _ _ _ := rfl

/-- A worker that has not computed has received no block of the iteration. -/
theorem Paced.iter_le (h : Paced job s) {a b : ℕ} (ha : a < job.workers) (hb : b < job.workers)
    (hab : a ≠ b) : (s.worker b).iter ≤ (s.worker a).computed :=
  (Nat.le_add_right _ _).trans (h.counts a b ha hb hab)

/-- A step of a worker in its iteration. -/
theorem Paced.setWorker (h : Paced job s) {w : ℕ} {y : Worker V E}
    (hiter : y.iter = (s.worker w).iter) (hgot : y.got = (s.worker w).got)
    (hphase : y.phase = .exchanging ∨
      y.phase ≠ .exchanging ∧ (s.worker w).phase ≠ .exchanging) :
    Paced job (s.setWorker w y) where
  counts a b ha hb hab := by
    have hreceived : ((s.setWorker w y).worker b).received a = (s.worker b).received a :=
      field_eq (fun y => y.received a) (Worker.received_eq hiter (by rw [hgot])) b
    have hcomputed : (s.worker a).computed ≤ ((s.setWorker w y).worker a).computed := by
      by_cases haw : a = w
      · subst haw
        rw [setWorker_self]
        unfold Worker.computed
        rw [hiter]
        rcases hphase with hp | ⟨-, hp⟩
        · rw [if_pos hp]
          split
          · exact le_rfl
          · exact Nat.le_add_right _ _
        · rw [if_neg hp]
          exact Nat.le_add_right _ _
      · rw [setWorker_of_ne _ haw]
    rw [hreceived]
    exact (h.counts a b ha hb hab).trans hcomputed
  idle b hb p := by
    rw [field_eq Worker.got hgot b]
    refine h.idle b (fun hp => ?_) p
    by_cases hbw : b = w
    · subst hbw
      rw [setWorker_self] at hb
      rcases hphase with hy | ⟨-, hs⟩
      · exact hb hy
      · exact hs hp
    · rw [setWorker_of_ne _ hbw] at hb
      exact hb hp

/-- A step keeps the pace. Only a delivery and the copy of the main block change
which blocks count as received: a delivery adds the block of an iteration that
its sender has computed, and the copy begins the next iteration, of which no
block is there. -/
theorem Paced.step (h : Paced job s) {a : Action} (hok : AfterCompute s a)
    (hstep : step job s a = some s') : Paced job s' := by
  cases a with
  | begin w =>
    have hstep : beginStep job s w = some s' := hstep
    unfold beginStep at hstep
    dsimp only at hstep
    split at hstep
    case isFalse => cases hstep
    case isTrue hguard =>
      obtain rfl := Option.some.inj hstep
      have hset := h.setWorker (w := w) (y := { s.worker w with
        todo := fun v => x.program (s.worker w).iter (job.vertex w v)
        phase := .computing }) rfl rfl (Or.inr ⟨by simp, by rw [hguard.2.1]; simp⟩)
      exact ⟨hset.counts, hset.idle⟩
  | request w v =>
    obtain ⟨-, hphase, ⟨y, rfl, -, hiter, hgot, hyphase⟩ | ⟨side, i, d, next, e, -, -, rfl⟩⟩ :=
      request_cases hstep
    · exact h.setWorker hiter hgot (Or.inr ⟨by rw [hyphase, hphase]; simp, by rw [hphase]; simp⟩)
    · have hset := h.setWorker (w := w) (y := { s.worker w with
        memory := e.setData (s.worker w).memory d
        todo := Function.update (s.worker w).todo v next }) rfl rfl
        (Or.inr ⟨by rw [hphase]; simp, by rw [hphase]; simp⟩)
      exact ⟨hset.counts, hset.idle⟩
  | finish w =>
    have hstep : finishStep job s w = some s' := hstep
    unfold finishStep at hstep
    split at hstep
    case isFalse => cases hstep
    case isTrue =>
      obtain rfl := Option.some.inj hstep
      exact h.setWorker rfl rfl (Or.inl rfl)
  | deliver p w =>
    have hstep : deliverStep job s p w = some s' := hstep
    unfold deliverStep at hstep
    split at hstep
    case isFalse => cases hstep
    case isTrue hguard =>
      obtain ⟨hp, hw, hne, hphase, hiter, hgot⟩ := hguard
      obtain rfl := Option.some.inj hstep
      have hcomputed : ∀ a, ((s.setWorker w { s.worker w with
          memory := job.stored p w (s.worker p).memory (s.worker w).memory
          got := Function.update (s.worker w).got p true }).worker a).computed
            = (s.worker a).computed := field_eq Worker.computed rfl
      refine ⟨fun a b ha hb hab => ?_, fun b hb q => ?_⟩
      · rw [hcomputed]
        by_cases hbw : b = w
        · subst hbw
          rw [setWorker_self]
          by_cases hap : a = p
          · subst hap
            -- the block of the iteration that `a` has just computed
            rw [Worker.received_of_got (Function.update_self _ _ _)]
            unfold Worker.computed
            rw [if_pos hphase, hiter]
          · refine le_trans (le_of_eq ?_) (h.counts a b ha hb hab)
            exact Worker.received_eq rfl (Function.update_of_ne hap _ _)
        · rw [setWorker_of_ne _ hbw]
          exact h.counts a b ha hb hab
      · -- the receiver has computed, by the rule of the run
        have hwphase : (s.worker w).phase = .exchanging := hok
        by_cases hbw : b = w
        · subst hbw
          rw [setWorker_self] at hb
          exact absurd hwphase hb
        · rw [setWorker_of_ne _ hbw] at hb ⊢
          exact h.idle b hb q
  | sync w =>
    have hstep : syncStep job s w = some s' := hstep
    unfold syncStep at hstep
    split at hstep
    case isFalse => cases hstep
    case isTrue hguard =>
      obtain ⟨hw, hphase, hall⟩ := hguard
      obtain rfl := Option.some.inj hstep
      have hcomputed : ∀ a, ((s.setWorker w { s.worker w with
          memory := job.synced w (s.worker w).memory
          iter := (s.worker w).iter + 1
          phase := .waiting
          got := fun _ => false }).worker a).computed = (s.worker a).computed :=
        field_eq Worker.computed (by
          unfold Worker.computed
          rw [hphase]
          rfl)
      refine ⟨fun a b ha hb hab => ?_, fun b hb q => ?_⟩
      · rw [hcomputed]
        -- all blocks of the iteration had come, which is what none of the next one
        -- amounts to
        refine le_trans (le_of_eq ?_) (h.counts a b ha hb hab)
        by_cases hbw : b = w
        · subst hbw
          rw [setWorker_self, Worker.received_of_got (hall a ha hab)]
          rfl
        · rw [setWorker_of_ne _ hbw]
      · by_cases hbw : b = w
        · subst hbw
          rw [setWorker_self]
        · rw [setWorker_of_ne _ hbw] at hb ⊢
          exact h.idle b hb q

/-! ## The two slots of an edge -/

/-- What the two slots of an edge hold: `a` and `b` are the workers of its
source and of its destination. -/
structure Cross (job : Job x) (s : State V E) (n : EdgeWithValue E × ℕ) (a b : ℕ) : Prop where
  /-- The source keeps the value of the next iteration in its block. -/
  sent : (s.worker a).memory (.obuf b (slot x job.part n)) =
    sentAt n.1.value s.writes n.2 ((s.worker a).iter + 1)
  /-- The destination finds the block, or what it has written itself. -/
  received : (s.worker b).memory (.inbuf a (slot x job.part n)) =
    if (s.worker b).got a = true then sentAt n.1.value s.writes n.2 ((s.worker b).iter + 1)
    else (wrote s.writes .inedge (s.worker b).iter n.2).getD
      (sentAt n.1.value s.writes n.2 (s.worker b).iter)
  /-- The writes of the source are not later than its iteration … -/
  earlyOut : ∀ r ∈ s.writes, r.edge = n.2 → r.side = .outedge →
    r.iteration ≤ (s.worker a).iter ∧
      ((s.worker a).phase = .waiting → r.iteration < (s.worker a).iter)
  /-- … and those of the destination not later than its own. -/
  earlyIn : ∀ r ∈ s.writes, r.edge = n.2 → r.side = .inedge →
    r.iteration ≤ (s.worker b).iter ∧
      ((s.worker b).phase = .waiting → r.iteration < (s.worker b).iter)

/-- A step that does not reach the edge. -/
theorem Cross.congr {n : EdgeWithValue E × ℕ} {a b : ℕ} (h : Cross job s n a b)
    (hwrites : ∀ r ∈ s'.writes, r.edge = n.2 → r ∈ s.writes)
    (hwrote : ∀ side i, wrote s'.writes side i n.2 = wrote s.writes side i n.2)
    (hsent : ∀ i, sentAt n.1.value s'.writes n.2 i = sentAt n.1.value s.writes n.2 i)
    (hobuf : (s'.worker a).memory (.obuf b (slot x job.part n)) =
      (s.worker a).memory (.obuf b (slot x job.part n)))
    (hinbuf : (s'.worker b).memory (.inbuf a (slot x job.part n)) =
      (s.worker b).memory (.inbuf a (slot x job.part n)))
    (hiter : ∀ u, (s'.worker u).iter = (s.worker u).iter)
    (hgot : (s'.worker b).got a = (s.worker b).got a)
    (hphase : ∀ u, (s'.worker u).phase = .waiting → (s.worker u).phase = .waiting) :
    Cross job s' n a b where
  sent := by rw [hobuf, hsent, hiter, h.sent]
  received := by rw [hinbuf, hgot, hsent, hsent, hwrote, hiter, h.received]
  earlyOut r hr hk hside := by
    have hearly := h.earlyOut r (hwrites r hr hk) hk hside
    rw [hiter]
    exact ⟨hearly.1, fun hp => hearly.2 (hphase a hp)⟩
  earlyIn r hr hk hside := by
    have hearly := h.earlyIn r (hwrites r hr hk) hk hside
    rw [hiter]
    exact ⟨hearly.1, fun hp => hearly.2 (hphase b hp)⟩

/-- After loading. -/
theorem Cross.init {n : EdgeWithValue E × ℕ} (hn : n ∈ x.numbered) :
    Cross job (init job) n (home job.part n.1.src) (home job.part n.1.dst) where
  sent := by
    have hslot := block_slot job.covered hn
    show List.getD _ _ _ = (wrote [] .outedge 0 n.2).getD n.1.value
    rw [List.getD_eq_getElem?_getD, hslot]
    rfl
  received := by
    have hslot := block_slot job.covered hn
    show List.getD _ _ _ = n.1.value
    rw [List.getD_eq_getElem?_getD, hslot]
    rfl
  earlyOut r hr := absurd hr List.not_mem_nil
  earlyIn r hr := absurd hr List.not_mem_nil

/-- Where the destination of an edge from another worker writes to. -/
theorem object_target_inedge (part : IntervalPartition) {n : EdgeWithValue E × ℕ}
    (hne : home part n.1.src ≠ home part n.1.dst) :
    (object x part .inedge n).target = .inbuf (home part n.1.src) (slot x part n) := by
  show (inObject x part n).target = _
  unfold Edge.target inObject
  rw [if_neg hne]
  rfl

/-- The end of an edge that is a vertex has the vertex's worker. -/
theorem home_of_end {n : EdgeWithValue E × ℕ} {u v : ℕ} {side : Side}
    (hn : n ∈ x.edgesAt side v) (hv : job.part.Mem u v) :
    (side = .outedge → home job.part n.1.src = u) ∧
      (side = .inedge → home job.part n.1.dst = u) := by
  obtain ⟨-, hend⟩ := mem_edgesAt.mp hn
  refine ⟨fun hside => ?_, fun hside => ?_⟩
  · subst hside
    have hend : n.1.src = v := hend
    exact home_eq (by rw [hend]; exact hv)
  · subst hside
    have hend : n.1.dst = v := hend
    exact home_eq (by rw [hend]; exact hv)

section Steps

variable {n : EdgeWithValue E × ℕ} {a b : ℕ} (hn : n ∈ x.numbered)
  (hsrc : home job.part n.1.src = a) (hdst : home job.part n.1.dst = b) (hab : a ≠ b)

theorem Cross.begin (h : Cross job s n a b) {w : ℕ} (hstep : beginStep job s w = some s') :
    Cross job s' n a b := by
  unfold beginStep at hstep
  dsimp only at hstep
  split at hstep
  case isFalse => cases hstep
  case isTrue =>
    obtain rfl := Option.some.inj hstep
    have hmemory := field_eq (s := s) (w := w) (y := { s.worker w with
      todo := fun v => x.program (s.worker w).iter (job.vertex w v)
      phase := .computing }) Worker.memory rfl
    have hiter := field_eq (s := s) (w := w) (y := { s.worker w with
      todo := fun v => x.program (s.worker w).iter (job.vertex w v)
      phase := .computing }) Worker.iter rfl
    have hgot := field_eq (s := s) (w := w) (y := { s.worker w with
      todo := fun v => x.program (s.worker w).iter (job.vertex w v)
      phase := .computing }) Worker.got rfl
    refine h.congr (fun _ hr _ => hr) (fun _ _ => rfl) (fun _ => rfl)
      (congrFun (hmemory a) _) (congrFun (hmemory b) _) hiter (congrFun (hgot b) a)
      fun u hp => ?_
    by_cases huw : u = w
    · subst huw
      rw [State.setWorker] at hp
      dsimp only at hp
      rw [Function.update_self] at hp
      cases hp
    · rw [← setWorker_of_ne (s := s) _ huw]
      exact hp

include hsrc hdst hn in
/-- Another edge is written to in other slots. -/
theorem Cross.slots_apart {n' : EdgeWithValue E × ℕ} {w v : ℕ} {side : Side}
    (hv : job.part.Mem w v) (hn' : n' ∈ x.edgesAt side v) (hk : n'.2 ≠ n.2) :
    (a = w → (object x job.part side n').target ≠ .obuf b (slot x job.part n)) ∧
      (b = w → a ≠ b → (object x job.part side n').target ≠ .inbuf a (slot x job.part n)) := by
  have hmem := (mem_edgesAt.mp hn').1
  have hends := home_of_end hn' hv
  have hsame : home job.part n'.1.src = a → home job.part n'.1.dst = b →
      slot x job.part n' ≠ slot x job.part n := fun ha hb heq =>
    hk (congrArg Prod.snd (slot_injective job.covered hmem hn (ha.trans hsrc.symm)
      (hb.trans hdst.symm) heq))
  by_cases hinner : home job.part n'.1.src = home job.part n'.1.dst
  · rw [object_target job.part fun _ => hinner, if_pos hinner]
    exact ⟨fun _ heq => (by cases heq), fun _ _ heq => (by cases heq)⟩
  · cases side with
    | inedge =>
      rw [object_target_inedge job.part hinner]
      refine ⟨fun _ heq => (by cases heq), fun hbw _ heq => ?_⟩
      obtain ⟨ha, hslot⟩ := Ptr.inbuf.inj heq
      exact hsame ha ((hends.2 rfl).trans hbw.symm) hslot
    | outedge =>
      have htarget : (object x job.part .outedge n').target = _ :=
        object_target job.part fun h => by cases h
      rw [htarget, if_neg hinner]
      refine ⟨fun haw heq => ?_, fun _ _ heq => (by cases heq)⟩
      obtain ⟨hb, hslot⟩ := Ptr.obuf.inj heq
      exact hsame ((hends.1 rfl).trans haw.symm) hb hslot

section Write

variable {u : ℕ} {side : Side} {n' : EdgeWithValue E × ℕ} {d : E} {y : Worker V E}

include hsrc hdst hn hab in
/-- **A write to another edge** does not reach the slots of this one. -/
theorem Cross.write_of_ne (h : Cross job s n a b) {v : ℕ} (hv : job.part.Mem u v)
    (hn' : n' ∈ x.edgesAt side v) (hk : n'.2 ≠ n.2)
    (hmemory : y.memory = (object x job.part side n').setData (s.worker u).memory d)
    (hiter : y.iter = (s.worker u).iter) (hgot : y.got = (s.worker u).got)
    (hphase : y.phase = (s.worker u).phase) :
    Cross job { s.setWorker u y with
      writes := ⟨(s.worker u).iter, side, n'.2, d⟩ :: s.writes } n a b := by
  obtain ⟨hobuf, hinbuf⟩ := Cross.slots_apart hn hsrc hdst hv hn' hk
  refine h.congr (fun r hr hkr => ?_) (fun side j => ?_) (sentAt_cons_of_ne fun _ => hk)
    (memory_of_write hmemory hobuf) (memory_of_write hmemory fun hbu => hinbuf hbu hab)
    (field_eq Worker.iter hiter) (congrFun (field_eq Worker.got hgot b) a) fun w hp => ?_
  · rcases List.mem_cons.mp hr with rfl | hr
    · exact absurd hkr hk
    · exact hr
  · dsimp only
    rw [wrote_cons, if_neg fun hr => hk hr.2.2]
  · rw [← field_eq Worker.phase hphase w]
    exact hp

include hsrc hdst hab in
/-- **A write by the destination** goes to its own slot; as it computes, it
has not got the block of the source. -/
theorem Cross.write_inedge (h : Cross job s n a b) (hpaced : Paced job s)
    (hcomputing : (s.worker b).phase = .computing)
    (hmemory : y.memory = (object x job.part .inedge n).setData (s.worker b).memory d)
    (hiter : y.iter = (s.worker b).iter) (hgot : y.got = (s.worker b).got)
    (hphase : y.phase = (s.worker b).phase) :
    Cross job { s.setWorker b y with
      writes := ⟨(s.worker b).iter, .inedge, n.2, d⟩ :: s.writes } n a b := by
  have hiters := field_eq Worker.iter hiter
  have hphases := field_eq Worker.phase hphase
  have hgots := field_eq Worker.got hgot
  have htarget := object_target_inedge (x := x) (n := n) job.part (by rwa [hsrc, hdst])
  have hidle : (s.worker b).got a = false := hpaced.idle b (by rw [hcomputing]; simp) a
  have hsame : ∀ j, sentAt n.1.value (⟨(s.worker b).iter, .inedge, n.2, d⟩ :: s.writes)
      n.2 j = sentAt n.1.value s.writes n.2 j := fun j =>
    sentAt_cons_of_ne (fun hside => by cases hside) j
  refine ⟨?_, ?_, fun r hr hkr hside => ?_, fun r hr hkr hside => ?_⟩
  · dsimp only
    rw [hiters, hsame, memory_of_write hmemory fun hau => absurd hau hab]
    exact h.sent
  · dsimp only
    rw [hiters, hgots, hidle, if_neg (by simp), wrote_cons, if_pos ⟨rfl, rfl, rfl⟩,
      setWorker_self, hmemory]
    unfold Edge.setData
    rw [htarget, hsrc, Function.update_self]
    rfl
  · dsimp only
    rw [hiters, hphases]
    rcases List.mem_cons.mp hr with rfl | hr
    · cases hside
    · exact h.earlyOut r hr hkr hside
  · dsimp only
    rw [hiters, hphases]
    rcases List.mem_cons.mp hr with rfl | hr
    · exact ⟨le_rfl, fun hp => by rw [hcomputing] at hp; cases hp⟩
    · exact h.earlyIn r hr hkr hside

include hn hsrc hdst hab in
/-- **A write by the source** goes to its own slot; as it computes, the
destination has not got this block. -/
theorem Cross.write_outedge (h : Cross job s n a b) (hpaced : Paced job s)
    (hcomputing : (s.worker a).phase = .computing)
    (hmemory : y.memory = (object x job.part .outedge n).setData (s.worker a).memory d)
    (hiter : y.iter = (s.worker a).iter) (hgot : y.got = (s.worker a).got)
    (hphase : y.phase = (s.worker a).phase) :
    Cross job { s.setWorker a y with
      writes := ⟨(s.worker a).iter, .outedge, n.2, d⟩ :: s.writes } n a b := by
  have hiters := field_eq Worker.iter hiter
  have hphases := field_eq Worker.phase hphase
  have hgots := field_eq Worker.got hgot
  have ha : a < job.workers := hsrc ▸ (mem_src job.covered (mem_of_numbered hn)).1
  have hb : b < job.workers := hdst ▸ (mem_dst job.covered (mem_of_numbered hn)).1
  have htarget : (object x job.part .outedge n).target = _ :=
    object_target job.part fun h => by cases h
  rw [if_neg (by rwa [hsrc, hdst]), hdst] at htarget
  have hcomputed : (s.worker a).computed = (s.worker a).iter := by
    unfold Worker.computed
    rw [hcomputing]
    rfl
  -- what the destination has got is not later than the iteration that is being
  -- computed
  have hcount := hpaced.counts a b ha hb hab
  unfold Worker.received at hcount
  rw [hcomputed] at hcount
  have hnew : sentAt n.1.value (⟨(s.worker a).iter, .outedge, n.2, d⟩ :: s.writes) n.2
      ((s.worker a).iter + 1) = d := sentAt_cons_self _ _ rfl
  have hin : ∀ j, wrote (⟨(s.worker a).iter, .outedge, n.2, d⟩ :: s.writes) .inedge j n.2
      = wrote s.writes .inedge j n.2 := fun j => by
    rw [wrote_cons, if_neg fun hr => by cases hr.2.1]
  -- the new value is in `obuf`, and in no `inbuf` yet
  refine ⟨?_, ?_, fun r hr hkr hside => ?_, fun r hr hkr hside => ?_⟩
  · dsimp only
    rw [hiters, hnew, setWorker_self, hmemory]
    unfold Edge.setData
    rw [htarget, Function.update_self]
  · dsimp only
    rw [hiters, hgots, memory_of_write hmemory fun hbu => absurd hbu.symm hab, h.received, hin]
    split
    · next hgot =>
      rw [if_pos hgot] at hcount
      rw [sentAt_cons_of_le hcount]
    · rw [sentAt_cons_of_le ((Nat.le_add_right _ _).trans hcount)]
  · dsimp only
    rw [hiters, hphases]
    rcases List.mem_cons.mp hr with rfl | hr
    · exact ⟨le_rfl, fun hp => by rw [hcomputing] at hp; cases hp⟩
    · exact h.earlyOut r hr hkr hside
  · dsimp only
    rw [hiters, hphases]
    rcases List.mem_cons.mp hr with rfl | hr
    · cases hside
    · exact h.earlyIn r hr hkr hside

end Write

include hsrc hdst hn hab in
/-- **A request** writes to the slot of the endpoint that makes it, or it does
not reach the edge. -/
theorem Cross.request (h : Cross job s n a b) (hgaps : NoGaps x job.part) (hpaced : Paced job s)
    {u v : ℕ} (hstep : requestStep job s u v = some s') : Cross job s' n a b := by
  obtain ⟨hv, hphase, ⟨y, rfl, hmemory, hiter, hgot, hyphase⟩ |
    ⟨side, i, d, next, e, -, he, rfl⟩⟩ := request_cases hstep
  · refine h.congr (fun _ hr _ => hr) (fun _ _ => rfl) (fun _ => rfl)
      (congrFun (field_eq Worker.memory hmemory a) _)
      (congrFun (field_eq Worker.memory hmemory b) _) (field_eq Worker.iter hiter)
      (congrFun (field_eq Worker.got hgot b) a) fun w hp => ?_
    rw [← field_eq Worker.phase hyphase w]
    exact hp
  obtain ⟨n', hn', rfl⟩ := exists_object hgaps hv (List.mem_of_getElem? he)
  rw [object_edge]
  have hends := home_of_end hn' hv
  by_cases hk : n'.2 = n.2
  · obtain rfl := eq_of_number hn (mem_edgesAt.mp hn').1 hk
    cases side with
    | inedge =>
      obtain rfl : b = u := hdst.symm.trans (hends.2 rfl)
      exact h.write_inedge hsrc hdst hab hpaced hphase rfl rfl rfl rfl
    | outedge =>
      obtain rfl : a = u := hsrc.symm.trans (hends.1 rfl)
      exact h.write_outedge hn hsrc hdst hab hpaced hphase rfl rfl rfl rfl
  · exact h.write_of_ne hn hsrc hdst hab hv hn' hk rfl rfl rfl rfl

theorem Cross.finish (h : Cross job s n a b) {w : ℕ} (hstep : finishStep job s w = some s') :
    Cross job s' n a b := by
  unfold finishStep at hstep
  split at hstep
  case isFalse => cases hstep
  case isTrue =>
    obtain rfl := Option.some.inj hstep
    have hmemory := field_eq (s := s) (w := w)
      (y := { s.worker w with phase := .exchanging }) Worker.memory rfl
    have hiter := field_eq (s := s) (w := w)
      (y := { s.worker w with phase := .exchanging }) Worker.iter rfl
    have hgot := field_eq (s := s) (w := w)
      (y := { s.worker w with phase := .exchanging }) Worker.got rfl
    refine h.congr (fun _ hr _ => hr) (fun _ _ => rfl) (fun _ => rfl)
      (congrFun (hmemory a) _) (congrFun (hmemory b) _) hiter (congrFun (hgot b) a)
      fun u hp => ?_
    by_cases huw : u = w
    · subst huw
      rw [setWorker_self] at hp
      cases hp
    · rw [← setWorker_of_ne (s := s) _ huw]
      exact hp

include hsrc hdst hn in
/-- **A block takes the edge to the other worker**: the cell of the block that
is sent goes into the buffer for it, and that is the value of the iteration that
is over. -/
theorem Cross.deliver (h : Cross job s n a b) {p w : ℕ}
    (hstep : deliverStep job s p w = some s') : Cross job s' n a b := by
  unfold deliverStep at hstep
  split at hstep
  case isFalse => cases hstep
  case isTrue hguard =>
    obtain ⟨hp, hw, hne, hphase, hiter, hgot⟩ := hguard
    obtain rfl := Option.some.inj hstep
    have hiters := field_eq (s := s) (w := w) (y := { s.worker w with
      memory := job.stored p w (s.worker p).memory (s.worker w).memory
      got := Function.update (s.worker w).got p true }) Worker.iter rfl
    have hphases := field_eq (s := s) (w := w) (y := { s.worker w with
      memory := job.stored p w (s.worker p).memory (s.worker w).memory
      got := Function.update (s.worker w).got p true }) Worker.phase rfl
    have hobuf : ((s.setWorker w { s.worker w with
        memory := job.stored p w (s.worker p).memory (s.worker w).memory
        got := Function.update (s.worker w).got p true }).worker a).memory
          (.obuf b (slot x job.part n)) = (s.worker a).memory (.obuf b (slot x job.part n)) := by
      by_cases haw : a = w
      · subst haw
        rw [setWorker_self]
        rfl
      · rw [setWorker_of_ne _ haw]
    by_cases hhit : a = p ∧ b = w
    · obtain ⟨rfl, rfl⟩ := hhit
      -- this block is the one: what the source had sent is now what the destination
      -- reads
      refine ⟨?_, ?_, fun r hr hk hside => ?_, fun r hr hk hside => ?_⟩
      · rw [hobuf, hiters]
        exact h.sent
      · have hslot := block_slot job.covered hn
        rw [hsrc, hdst] at hslot
        rw [hiters, setWorker_self]
        dsimp only
        have hgot : Function.update (s.worker b).got a true a = true := Function.update_self _ _ _
        rw [if_pos hgot, ← hiter]
        show (if a = a ∧ _ then _ else _) = _
        rw [if_pos ⟨rfl, (List.getElem?_eq_some_iff.mp hslot).1⟩]
        exact h.sent
      · rw [hiters, hphases]
        exact h.earlyOut r hr hk hside
      · rw [hiters, hphases]
        exact h.earlyIn r hr hk hside
    · -- another block leaves both slots
      refine h.congr (fun _ hr _ => hr) (fun _ _ => rfl) (fun _ => rfl) hobuf ?_ hiters ?_
        fun u hp => (hphases u).symm.trans hp
      · by_cases hbw : b = w
        · subst hbw
          rw [setWorker_self]
          show (if a = p ∧ _ then _ else _) = _
          rw [if_neg fun hc => hhit ⟨hc.1, rfl⟩]
        · rw [setWorker_of_ne _ hbw]
      · by_cases hbw : b = w
        · subst hbw
          rw [setWorker_self]
          exact Function.update_of_ne (fun hap => hhit ⟨hap, rfl⟩) _ _
        · rw [setWorker_of_ne _ hbw]

include hsrc hn hab in
/-- **The end of an iteration**: all blocks have been stored, and what was the
value of the iteration to come is that of the iteration that begins. -/
theorem Cross.sync (h : Cross job s n a b) {w : ℕ} (hstep : syncStep job s w = some s') :
    Cross job s' n a b := by
  unfold syncStep at hstep
  split at hstep
  case isFalse => cases hstep
  case isTrue hguard =>
    obtain ⟨hw, hphase, hall⟩ := hguard
    obtain rfl := Option.some.inj hstep
    have ha : a < job.workers := hsrc ▸ (mem_src job.covered (mem_of_numbered hn)).1
    have hself := setWorker_self (s := s) w { s.worker w with
      memory := job.synced w (s.worker w).memory
      iter := (s.worker w).iter + 1
      phase := .waiting
      got := fun _ => false }
    have hother := fun u => setWorker_of_ne (s := s) (u := u) (w := w)
      { s.worker w with
        memory := job.synced w (s.worker w).memory
        iter := (s.worker w).iter + 1
        phase := .waiting
        got := fun _ => false }
    refine ⟨?_, ?_, fun r hr hk hside => ?_, fun r hr hk hside => ?_⟩
    · -- for the source no write is as late as the new iteration, so that the last one
      -- stands
      by_cases haw : a = w
      · subst haw
        rw [hself]
        dsimp only
        have hlate : wrote s.writes .outedge ((s.worker a).iter + 1) n.2 = none :=
          wrote_eq_none fun r hr hk hside => by
            have := (h.earlyOut r hr hk hside).1
            omega
        refine Eq.trans ?_ (sentAt_succ hlate).symm
        exact h.sent
      · rw [hother a haw]
        exact h.sent
    · -- the destination reads what it has got, as it has not written in the new
      -- iteration either
      by_cases hbw : b = w
      · subst hbw
        have hreceived := h.received
        rw [if_pos (hall a ha hab)] at hreceived
        have hlate : wrote s.writes .inedge ((s.worker b).iter + 1) n.2 = none :=
          wrote_eq_none fun r hr hk hside => by
            have := (h.earlyIn r hr hk hside).1
            omega
        rw [hself]
        dsimp only
        rw [if_neg (by simp)]
        show _ = (wrote s.writes .inedge ((s.worker b).iter + 1) n.2).getD
          (sentAt n.1.value s.writes n.2 ((s.worker b).iter + 1))
        rw [hlate, Option.getD_none, ← hreceived]
        show (if a = b ∧ _ then _ else _) = _
        rw [if_neg fun hc => hab hc.1]
      · rw [hother b hbw]
        exact h.received
    · by_cases haw : a = w
      · subst haw
        rw [hself]
        have hle := (h.earlyOut r hr hk hside).1
        exact ⟨hle.trans (Nat.le_succ _), fun _ => Nat.lt_succ_of_le hle⟩
      · rw [hother a haw]
        exact h.earlyOut r hr hk hside
    · by_cases hbw : b = w
      · subst hbw
        rw [hself]
        have hle := (h.earlyIn r hr hk hside).1
        exact ⟨hle.trans (Nat.le_succ _), fun _ => Nat.lt_succ_of_le hle⟩
      · rw [hother b hbw]
        exact h.earlyIn r hr hk hside

include hsrc hdst hn hab in
/-- **The steps keep the two slots.** -/
theorem Cross.step (h : Cross job s n a b) (hgaps : NoGaps x job.part) (hpaced : Paced job s)
    {c : Action} (hstep : step job s c = some s') : Cross job s' n a b := by
  cases c with
  | begin w => exact h.begin hstep
  | request w v => exact h.request hn hsrc hdst hab hgaps hpaced hstep
  | finish w => exact h.finish hstep
  | deliver p w => exact h.deliver hn hsrc hdst hstep
  | sync w => exact h.sync hn hsrc hab hstep

end Steps

end Engine
