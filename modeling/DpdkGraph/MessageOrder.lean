import DpdkGraph.MessageRuns

/-!
# Every packet is stored

The main node waits for `PreInfo`, and for each shovel, but not for `Duty`;
so a shovel may be handled before its slot is there. And it takes a failed
connection for a message that is through. Both are matters of the order of
the messages: `InOrder` asks that a shovel is accepted after `Duty` has been
handled at its node, and that no connection fails.

Then each handler finds what it uses (`orderly_of_inOrder`), the packets are
stored, each once and in the slot of its shard, and `sub_done` is set only
after that (`lawful_of_inOrder`). What the handlers have to find is exact:
a run in which one of them does not find it is not lawful
(`lawful_iff_orderly`). What a lawful run has stored when `sub_done` is set
are the packets that were sent (`perm_packets`).
-/

namespace MessageOrder

open Transition (Run exec exists_run)

variable {job : Job} {s s' : State} {a : Action} {m : Message} {n k j : ℕ}

/-- **The packets are stored.** -/
structure Lawful (job : Job) (s : State) : Prop where
  /-- Nothing is used before it has been set up. -/
  sound : ∀ n, (s.node n).spoiled = false
  /-- A packet is in the slot of a duty of its node. -/
  placed : ∀ n, ∀ p ∈ (s.node n).stored, p.1 ∈ job.duties n
  /-- A packet that is through has been stored, once. -/
  stored : ∀ k j, s.phase (.shovel k j) = .through →
    (s.node (job.nodeOf k)).stored.count (k, j) = 1
  /-- `sub_done` is set after all packets have been stored. -/
  complete : ∀ n, (s.node n).subDone = true → ∀ k j, .shovel k j ∈ job.shovels →
    job.nodeOf k = n → (k, j) ∈ (s.node n).stored

/-- **The messages come in order**: no connection fails, and a shovel is
accepted when the handler of `Duty` has returned at its node. -/
def InOrder (job : Job) (s : State) : Action → Prop
  | .fail _ => False
  | .accept (.shovel k _) => (s.phase (.duty (job.nodeOf k))).returned = true
  | _ => True

instance (job : Job) (s : State) : DecidablePred (InOrder job s)
  | .fail _ => inferInstanceAs (Decidable False)
  | .accept (.shovel _ _) => inferInstanceAs (Decidable (_ = true))
  | .accept (.preInfo _) | .accept (.duty _) | .accept (.reshard _) | .main | .connect _
  | .handle _ | .reply _ => inferInstanceAs (Decidable True)

/-- **A step that finds what it uses**: no connection for a shovel fails, and
a shovel's handler finds its slot, and then the counters. -/
def orderly (job : Job) (s : State) : Action → Bool
  | .fail (.shovel _ _) => false
  | .handle (.shovel k j) =>
    if s.phase (.shovel k j) = .handling 0 then
      (s.node (job.nodeOf k)).duties.idxOf k < (s.node (job.nodeOf k)).slots
    else (s.node (job.nodeOf k)).counters
  | _ => true

/-- What orderly runs keep in addition. -/
structure Kept (job : Job) (s : State) : Prop where
  /-- Nothing is used before it has been set up. -/
  sound : ∀ n, (s.node n).spoiled = false
  /-- A packet is stored by the first step of its handler. -/
  stored : ∀ k j, ¬(s.phase (.shovel k j)).early = true →
    (k, j) ∈ (s.node (job.nodeOf k)).stored
  /-- A packet that has been counted has been counted in the counters. -/
  counted : ∀ k j, (s.phase (.shovel k j)).returned = true →
    (s.node (job.nodeOf k)).counters = true

/-- **Something has gone wrong**, for good. -/
def Bad (job : Job) (s : State) : Prop :=
  (∃ n, (s.node n).spoiled = true) ∨ ∃ k j, s.phase (.shovel k j) = .through
    ∧ (k, j) ∉ (s.node (job.nodeOf k)).stored

/-! ## In order -/

theorem kept_init (job : Job) : Kept job (init job) where
  sound := fun _ => rfl
  stored := fun _ _ h => absurd rfl h
  counted := fun _ _ h => nomatch h

theorem Kept.lawful (h : Kept job s) (hinv : Inv job s) : Lawful job s where
  sound := h.sound
  placed := hinv.placed
  stored := by
    intro k j hdone
    refine List.count_eq_one_of_mem (hinv.once _) (h.stored k j ?_)
    rw [hdone]
    exact Bool.false_ne_true
  complete := by
    intro n hdone k j hmem hn
    have hthrough := hinv.through_of_reshard (hinv.done n hdone) hmem
    rw [← hn]
    refine h.stored k j ?_
    rw [hthrough]
    exact Bool.false_ne_true

/-- A step outside the handlers. -/
theorem Kept.setPhase (h : Kept job s) {p : Phase}
    (hearly : ∀ k j, m = .shovel k j → ¬p.early = true → ¬(s.phase m).early = true)
    (hreturned : ∀ k j, m = .shovel k j → p.returned = true → (s.phase m).returned = true) :
    Kept job (s.setPhase m p) := by
  refine ⟨h.sound, fun k j he => h.stored k j ?_, fun k j hr => h.counted k j ?_⟩
  · by_cases heq : Message.shovel k j = m
    · rw [heq, phase_setPhase_self] at he
      rw [heq]
      exact hearly k j heq.symm he
    · rw [phase_setPhase_of_ne s heq] at he
      exact he
  · by_cases heq : Message.shovel k j = m
    · rw [heq, phase_setPhase_self] at hr
      rw [heq]
      exact hreturned k j heq.symm hr
    · rw [phase_setPhase_of_ne s heq] at hr
      exact hr

/-- A node with as much in it. -/
theorem Kept.setNode (h : Kept job s) {x : Node} (hsound : x.spoiled = false)
    (hstored : ∀ p ∈ (s.node n).stored, p ∈ x.stored)
    (hcounters : (s.node n).counters = true → x.counters = true) :
    Kept job (s.setNode n x) := by
  refine ⟨forall_node (P := fun _ y => y.spoiled = false) h.sound hsound,
    fun k j he => ?_, fun k j hr => ?_⟩
  · by_cases hn : job.nodeOf k = n
    · rw [hn, node_setNode_self]
      exact hstored _ (hn ▸ h.stored k j he)
    · rw [node_setNode_of_ne s hn]
      exact h.stored k j he
  · by_cases hn : job.nodeOf k = n
    · rw [hn, node_setNode_self]
      exact hcounters (hn ▸ h.counted k j hr)
    · rw [node_setNode_of_ne s hn]
      exact h.counted k j hr

/-- While `finish_receive` looks at the duties, the counters are there. -/
theorem Kept.counters (h : Kept job s) (hinv : Inv job s)
    (hn : s.phase (.reshard n) ≠ .unsent) {i : ℕ} (hi : i < (s.node n).duties.length) :
    (s.node n).counters = true := by
  have hlt := mem_adds_script_reshard.mp (hinv.sent _ hn)
  obtain ⟨hk, hnode⟩ := mem_duties.mp ((hinv.slots n).mem (List.getElem_mem hi))
  have hsend : (s.node n).duties[i] ∈ job.sends :=
    mem_sends.mpr ⟨hk, by rw [hnode]; exact hlt.ne⟩
  obtain ⟨j, hj⟩ := @exists_shovel _ (fun _ => 0) _ hsend
  have hthrough := hinv.through_of_reshard hn hj
  have hcount := h.counted _ j (by rw [hthrough]; rfl)
  rw [hnode] at hcount
  exact hcount

/-- A packet in order finds its slot. -/
theorem slot_of_orderly (hm : s.phase (.shovel k j) = .handling 0)
    (hok : orderly job s (.handle (.shovel k j)) = true) :
    (s.node (job.nodeOf k)).duties.idxOf k < (s.node (job.nodeOf k)).slots := by
  rw [orderly, if_pos hm] at hok
  exact of_decide_eq_true hok

/-- A handler goes on, with nothing spoiled: what it has stored is there, and a
`Shovel` packet that has been answered has been counted. Nothing that was stored
before is lost. -/
theorem Kept.handle (h : Kept job s) {pc : ℕ} {x : Node} {p : Phase}
    (hx : Handles job (s.node (job.node m)) m pc x p) (hsound : x.spoiled = false)
    (hstored : ∀ k j, m = .shovel k j → (k, j) ∈ x.stored)
    (hcounted : ∀ k j, m = .shovel k j → p.returned = true → x.counters = true) :
    Kept job ((s.setPhase m p).setNode (job.node m) x) := by
  -- a handler only ever adds a packet to those stored
  have hmono : ∀ q ∈ (s.node (job.node m)).stored, q ∈ x.stored := by
    intro q hq
    cases hx.stored with
    | inl heq => rw [heq]; exact hq
    | inr hnew =>
      obtain ⟨k, j, -, -, -, heq⟩ := hnew
      rw [heq]
      exact List.mem_append_left _ hq
  refine ⟨forall_node (P := fun _ y => y.spoiled = false) h.sound hsound,
    fun k j he => ?_, fun k j hr => ?_⟩
  · rw [phase_setNode] at he
    -- the packet of this very message, or one stored before
    by_cases heq : Message.shovel k j = m
    · have hnode : job.nodeOf k = job.node m := heq ▸ rfl
      rw [hnode, node_setNode_self]
      exact hstored k j heq.symm
    · rw [phase_setPhase_of_ne s heq] at he
      have hold := h.stored k j he
      by_cases hn : job.nodeOf k = job.node m
      · rw [hn, node_setNode_self]
        exact hmono _ (hn ▸ hold)
      · rw [node_setNode_of_ne _ hn]
        exact hold
  · rw [phase_setNode] at hr
    -- the counters of a node stay set once they have been
    by_cases heq : Message.shovel k j = m
    · have hnode : job.nodeOf k = job.node m := heq ▸ rfl
      rw [heq, phase_setPhase_self] at hr
      rw [hnode, node_setNode_self]
      exact hcounted k j heq.symm hr
    · rw [phase_setPhase_of_ne s heq] at hr
      have hold := h.counted k j hr
      by_cases hn : job.nodeOf k = job.node m
      · rw [hn, node_setNode_self]
        exact hx.counters_mono (hn ▸ hold)
      · rw [node_setNode_of_ne _ hn]
        exact hold

/-- **Orderly steps keep it.** The order of the messages forbids the three steps
that spoil something: a packet that finds no slot, and the two that use counters
which are not there yet. -/
theorem Kept.step (h : Kept job s) (hinv : Inv job s) (hok : orderly job s a = true)
    (hnext : Next job s a s') : Kept job s' := by
  cases hnext with
  | addTask m todo senders htodo =>
    have hkept : Kept job (s.setPhase m .sending) :=
      h.setPhase (fun _ _ _ he => absurd rfl he) fun _ _ _ hr => nomatch hr
    exact ⟨hkept.sound, hkept.stored, hkept.counted⟩
  | await m todo htodo hm => exact ⟨h.sound, h.stored, h.counted⟩
  | connect m hm =>
    exact h.setPhase (fun _ _ _ he => absurd rfl he) fun _ _ _ hr => nomatch hr
  | fail m hm =>
    refine h.setPhase (fun k j heq => ?_) fun k j heq => ?_
    all_goals rw [heq] at hok; exact nomatch hok
  | accept m receivers hm =>
    have hkept : Kept job (s.setPhase m (.handling 0)) :=
      h.setPhase (fun _ _ _ he => absurd rfl he) fun _ _ _ hr => nomatch hr
    exact hkept.setNode (hkept.sound _) (fun p hp => hp) fun hc => hc
  | handle m pc x p hm hx =>
    have hx := handles_of_handler hx
    have hold := h.sound (job.node m)
    refine h.handle hx ?_ ?_ ?_
    · cases hx with
      -- the node has had its `Duty` and knows where the packet goes
      | lost k j hlost => exact absurd (slot_of_orderly hm hok) hlost
      | miscount k j pc hcount =>
        rw [orderly, if_neg (by rw [hm]; exact fun h => nomatch h)] at hok
        exact absurd hok hcount
      -- a packet of each duty has been counted before, so that the counters are
      -- there
      | garbage n i hi hcount =>
        exact absurd (h.counters (n := n) hinv (by rw [hm]; exact fun h => nomatch h) hi)
          hcount
      | _ => exact hold
    · rintro k j rfl
      cases hx with
      | store k j hslot => exact List.mem_append_right _ (List.mem_singleton_self _)
      | lost k j hlost => exact absurd (slot_of_orderly hm hok) hlost
      | count k j pc hcount => exact h.stored k j (by rw [hm]; exact Bool.false_ne_true)
      | miscount k j pc hcount => exact h.stored k j (by rw [hm]; exact Bool.false_ne_true)
    · rintro k j rfl hreturned
      cases hx with
      | store k j hslot => cases hreturned
      | lost k j hlost => cases hreturned
      | count k j pc hcount => exact hcount
      | miscount k j pc hcount =>
        rw [orderly, if_neg (by rw [hm]; exact fun h => nomatch h)] at hok
        exact absurd hok hcount
  | reply m hm =>
    -- a reply follows the handler, which has stored and counted by then
    refine h.setPhase (fun _ _ _ _ => ?_) fun _ _ _ _ => ?_
    · rw [hm]
      exact Bool.false_ne_true
    · rw [hm]
      rfl

/-! ## `Duty` first -/

/-- **How far `set_duties` has come** at a node, by where its message is. -/
structure Prepared (duties : List ℕ) (x : Node) (p : Phase) : Prop where
  /-- There are no slots before it begins. -/
  fresh : p.early = true ∨ p = .handling 1 → x.slots = 0
  /-- The duties are the first thing it sets. -/
  named : ∀ pc, p = .handling (pc + 1) → x.duties = duties
  /-- The slots come one after the other. -/
  slots : ∀ i, p = .handling (i + 2) → x.slots = i ∧ i ≤ duties.length
  /-- When it has returned everything is there. -/
  done : p.returned = true →
    x.duties = duties ∧ x.slots = duties.length ∧ x.counters = true

/-- A message that has not come to its handler. -/
theorem Prepared.of_early {duties : List ℕ} {x : Node} {p : Phase} (hx : x.slots = 0)
    (hp : p.early = true) : Prepared duties x p := by
  refine ⟨fun _ => hx, fun pc h => ?_, fun i h => ?_, fun h => ?_⟩
  · rw [h] at hp
    cases hp
  · rw [h] at hp
    cases hp
  · cases p with
    | answered => cases hp
    | through => cases hp
    | _ => cases h

/-- The handler of `Duty` goes on. -/
theorem Handles.prepared {x x' : Node} {pc : ℕ} {p : Phase}
    (h : Handles job x (.duty n) pc x' p)
    (hx : Prepared (job.duties n) x (.handling pc)) : Prepared (job.duties n) x' p := by
  cases h with
  | duties n =>
    have hslots := hx.fresh (Or.inl rfl)
    refine ⟨fun _ => hslots, fun _ _ => rfl, fun i h => ?_, fun h => nomatch h⟩
    cases h
  | wait n hdone =>
    have hslots := hx.fresh (Or.inr rfl)
    have hnamed := hx.named 0 rfl
    refine ⟨fun h => ?_, fun _ _ => hnamed, fun i h => ?_, fun h => nomatch h⟩
    · rcases h with h | h <;> cases h
    · obtain rfl : 0 = i := by
        have := Phase.handling.inj h
        omega
      exact ⟨hslots, Nat.zero_le _⟩
  | slot n i hi =>
    have hnamed := hx.named (i + 1) rfl
    refine ⟨fun h => ?_, fun _ _ => hnamed, fun i' h => ?_, fun h => nomatch h⟩
    · rcases h with h | h <;> cases h
    · obtain rfl : i + 1 = i' := by
        have := Phase.handling.inj h
        omega
      exact ⟨rfl, hnamed ▸ hi⟩
  | counters n i hi =>
    have hnamed := hx.named (i + 1) rfl
    obtain ⟨hslots, hle⟩ := hx.slots i rfl
    rw [hnamed] at hi
    refine ⟨fun h => ?_, fun pc h => (by cases h), fun i h => (by cases h), fun _ => ?_⟩
    · rcases h with h | h <;> cases h
    · exact ⟨hnamed, hslots.trans (le_antisymm hle (not_lt.mp hi)), rfl⟩

/-- No other handler sets up anything. -/
theorem Handles.same {x x' : Node} {pc : ℕ} {p : Phase} (h : Handles job x m pc x' p)
    (hm : ∀ n, m ≠ .duty n) :
    x'.duties = x.duties ∧ x'.slots = x.slots ∧ x'.counters = x.counters := by
  cases h with
  | duties n | wait n | slot n | counters n => exact absurd rfl (hm n)
  | _ => exact ⟨rfl, rfl, rfl⟩

theorem Prepared.congr {duties : List ℕ} {x x' : Node} {p : Phase} (h : Prepared duties x p)
    (hsame : x'.duties = x.duties ∧ x'.slots = x.slots ∧ x'.counters = x.counters) :
    Prepared duties x' p := by
  obtain ⟨hduties, hslots, hcounters⟩ := hsame
  constructor
  · rw [hslots]
    exact h.fresh
  · rw [hduties]
    exact h.named
  · rw [hslots]
    exact h.slots
  · rw [hduties, hslots, hcounters]
    exact h.done

/-- A message has been accepted. -/
def Phase.accepted : Phase → Bool
  | handling _ | answered | through => true
  | _ => false

/-- **What runs in order keep in addition.** -/
structure Timed (job : Job) (s : State) : Prop where
  /-- Each node is as far as its `Duty` is. -/
  prepared : ∀ n, Prepared (job.duties n) (s.node n) (s.phase (.duty n))
  /-- Where a shovel has been accepted, `Duty` has been handled. -/
  after : ∀ k j, (s.phase (.shovel k j)).accepted = true →
    (s.phase (.duty (job.nodeOf k))).returned = true

theorem timed_init (job : Job) : Timed job (init job) where
  prepared _ := .of_early rfl rfl
  after _ _ h := nomatch h

/-- **Then a handler finds what it uses**: the condition on the order of the
messages gives the condition on the tables. -/
theorem Timed.orderly (h : Timed job s) (hinv : Inv job s) (hok : InOrder job s a)
    (hnext : Next job s a s') : orderly job s a = true := by
  cases hnext with
  | fail m hm => exact hok.elim
  | handle m pc x p hm hx =>
    cases m with
    | shovel k j =>
      have hreturned := h.after k j (by rw [hm]; rfl)
      obtain ⟨hduties, hslots, hcounters⟩ := (h.prepared _).done hreturned
      -- the shard is one of those that are sent, and so a duty of its node
      have hsent := hinv.sent (.shovel k j) (by rw [hm]; exact fun h => nomatch h)
      obtain ⟨k', hk', j', heq⟩ := mem_shovelsFrom (mem_adds_script_shovel.mp hsent)
      obtain ⟨rfl, rfl⟩ := Message.shovel.inj heq
      have hmem : k ∈ job.duties (job.nodeOf k) :=
        mem_duties.mpr ⟨(mem_sends.mp hk').1, rfl⟩
      rw [MessageOrder.orderly]
      split
      · rw [hduties, hslots]
        exact decide_eq_true (List.idxOf_lt_length_iff.mpr hmem)
      · exact hcounters
    | _ => rfl
  | _ => rfl

/-- A message outside its handler goes on. -/
theorem Timed.setPhase (h : Timed job s) {p : Phase}
    (hduty : ∀ n, m = .duty n → Prepared (job.duties n) (s.node n) p)
    (hreturned : (s.phase m).returned = true → p.returned = true)
    (hshovel : ∀ k j, m = .shovel k j → p.accepted = true →
      (s.phase (.duty (job.nodeOf k))).returned = true) : Timed job (s.setPhase m p) := by
  refine ⟨fun n => ?_, fun k j haccepted => ?_⟩
  · by_cases heq : Message.duty n = m
    · rw [heq, phase_setPhase_self]
      exact hduty n heq.symm
    · rw [phase_setPhase_of_ne s heq]
      exact h.prepared n
  · have hold : (s.phase (.duty (job.nodeOf k))).returned = true := by
      by_cases heq : Message.shovel k j = m
      · rw [heq, phase_setPhase_self] at haccepted
        exact hshovel k j heq.symm haccepted
      · rw [phase_setPhase_of_ne s heq] at haccepted
        exact h.after k j haccepted
    by_cases heq : Message.duty (job.nodeOf k) = m
    · rw [heq, phase_setPhase_self]
      exact hreturned (heq ▸ hold)
    · rw [phase_setPhase_of_ne s heq]
      exact hold

/-- A node where nothing is set up. -/
theorem Timed.setNode (h : Timed job s) {x : Node}
    (hsame : x.duties = (s.node n).duties ∧ x.slots = (s.node n).slots
      ∧ x.counters = (s.node n).counters) : Timed job (s.setNode n x) where
  prepared := forall_node (P := fun n y => Prepared (job.duties n) y (s.phase (.duty n)))
    h.prepared ((h.prepared n).congr hsame)
  after := h.after

/-- A handler goes on. -/
theorem Timed.handle (h : Timed job s) {pc : ℕ} {x : Node} {p : Phase}
    (hm : s.phase m = .handling pc) (hx : Handles job (s.node (job.node m)) m pc x p) :
    Timed job ((s.setPhase m p).setNode (job.node m) x) := by
  by_cases hduty : ∃ n, m = .duty n
  · obtain ⟨n, rfl⟩ := hduty
    have hbefore := h.prepared n
    rw [hm] at hbefore
    refine ⟨fun n' => ?_, fun k j haccepted => ?_⟩
    · by_cases hn : n' = n
      · subst hn
        rw [phase_setNode, phase_setPhase_self]
        show Prepared _ (((s.setPhase (.duty n') p).setNode n' x).node n') p
        rw [node_setNode_self]
        exact hx.prepared hbefore
      · rw [phase_setNode, phase_setPhase_of_ne s fun h => hn (Message.duty.inj h)]
        show Prepared _ (((s.setPhase (.duty n) p).setNode n x).node n') _
        rw [node_setNode_of_ne _ hn]
        exact h.prepared n'
    · -- a `Duty` that is being handled has not returned
      have hshovel : Message.shovel k j ≠ .duty n := fun heq => nomatch heq
      rw [phase_setNode, phase_setPhase_of_ne s hshovel] at haccepted
      have hold := h.after k j haccepted
      have hne : Message.duty (job.nodeOf k) ≠ .duty n := fun heq => by
        rw [heq, hm] at hold
        cases hold
      rw [phase_setNode, phase_setPhase_of_ne s hne]
      exact hold
  · push Not at hduty
    refine Timed.setNode (h.setPhase (fun n heq => absurd heq (hduty n)) (fun hr => ?_)
      fun k j heq _ => ?_) (hx.same hduty)
    · rw [hm] at hr
      cases hr
    · subst heq
      exact h.after k j (by rw [hm]; rfl)

/-- **Steps in order keep it**: the tables of a node are changed by its `Duty`
only, whose handler goes on from line to line. -/
theorem Timed.step (h : Timed job s) (hinv : Inv job s) (hok : InOrder job s a)
    (hnext : Next job s a s') : Timed job s' := by
  cases hnext with
  | addTask m todo senders htodo =>
    have hunsent : s.phase m = .unsent :=
      hinv.unsent m (mem_adds.mpr (htodo ▸ List.mem_cons_self))
    have htimed : Timed job (s.setPhase m .sending) := by
      refine h.setPhase (fun n heq => .of_early ?_ rfl) (fun hr => ?_) fun _ _ _ ha => nomatch ha
      · exact (h.prepared n).fresh (Or.inl (by rw [← heq, hunsent]; rfl))
      · rw [hunsent] at hr
        cases hr
    exact ⟨htimed.prepared, htimed.after⟩
  | await m todo htodo hm => exact ⟨h.prepared, h.after⟩
  | connect m hm =>
    refine h.setPhase (fun n heq => .of_early ?_ rfl) (fun hr => ?_) fun _ _ _ ha => nomatch ha
    · exact (h.prepared n).fresh (Or.inl (by rw [← heq, hm]; rfl))
    · rw [hm] at hr
      cases hr
  | fail m hm => exact hok.elim
  | accept m receivers hm =>
    refine Timed.setNode (h.setPhase (fun n heq => .of_early ?_ rfl) (fun hr => ?_)
      fun k j heq _ => ?_) ⟨rfl, rfl, rfl⟩
    · exact (h.prepared n).fresh (Or.inl (by rw [← heq, hm]; rfl))
    · rw [hm] at hr
      cases hr
    · subst heq
      exact hok
  | handle m pc x p hm hx => exact h.handle hm (handles_of_handler hx)
  | reply m hm =>
    refine h.setPhase (fun n heq => ?_) (fun _ => rfl) fun k j heq _ => ?_
    · have hdone := (h.prepared n).done (by rw [← heq, hm]; rfl)
      refine ⟨fun hc => ?_, fun pc hc => (by cases hc), fun i hc => (by cases hc),
        fun _ => hdone⟩
      rcases hc with hc | hc <;> cases hc
    · exact h.after k j (by rw [← heq, hm]; rfl)

/-! ## Out of order -/

/-- What is through stays so. -/
theorem Next.through (hnext : Next job s a s') (hinv : Inv job s)
    (h : s.phase m = .through) : s'.phase m = .through := by
  have hset : ∀ m' p, s.phase m' ≠ .through → (s.setPhase m' p).phase m = .through := by
    intro m' p hne
    have hne : m ≠ m' := by
      intro heq
      rw [← heq] at hne
      exact hne h
    rw [phase_setPhase_of_ne s hne]
    exact h
  cases hnext with
  | addTask m' todo senders htodo =>
    refine hset m' _ ?_
    rw [hinv.unsent m' (mem_adds.mpr (htodo ▸ List.mem_cons_self))]
    exact fun h => nomatch h
  | await m' todo htodo hm => exact h
  | connect m' hm => exact hset m' _ (by rw [hm]; exact fun h => nomatch h)
  | fail m' hm => exact hset m' _ (by rw [hm]; exact fun h => nomatch h)
  | accept m' receivers hm => exact hset m' _ (by rw [hm]; exact fun h => nomatch h)
  | handle m' pc x p hm hx => exact hset m' _ (by rw [hm]; exact fun h => nomatch h)
  | reply m' hm => exact hset m' _ (by rw [hm]; exact fun h => nomatch h)

/-- What is used too early stays spoiled. -/
theorem Next.spoiled (hnext : Next job s a s') (h : (s.node n).spoiled = true) :
    (s'.node n).spoiled = true := by
  cases hnext with
  | accept m receivers hm =>
    by_cases hn : n = job.node m
    · rw [hn, node_setNode_self]
      exact hn ▸ h
    · rw [node_setNode_of_ne _ hn]
      exact h
  | handle m pc x p hm hx =>
    by_cases hn : n = job.node m
    · rw [hn, node_setNode_self]
      exact (handles_of_handler hx).spoiled_mono (hn ▸ h)
    · rw [node_setNode_of_ne _ hn]
      exact h
  | _ => exact h

/-- A packet is stored by its handler only. -/
theorem Next.not_stored (hnext : Next job s a s') (hm : s.phase (.shovel k j) = .through)
    (h : (k, j) ∉ (s.node n).stored) : (k, j) ∉ (s'.node n).stored := by
  cases hnext with
  | accept m receivers _ =>
    by_cases hn : n = job.node m
    · rw [hn, node_setNode_self]
      exact hn ▸ h
    · rw [node_setNode_of_ne _ hn]
      exact h
  | handle m pc x p hm' hx =>
    by_cases hn : n = job.node m
    · rw [hn, node_setNode_self]
      rw [hn] at h
      cases (handles_of_handler hx).stored with
      | inl heq => rw [heq]; exact h
      | inr hnew =>
        obtain ⟨k', j', rfl, -, -, heq⟩ := hnew
        rw [heq, List.mem_append, List.mem_singleton]
        rintro (hmem | hmem)
        · exact h hmem
        · cases hmem
          rw [hm] at hm'
          cases hm'
    · rw [node_setNode_of_ne _ hn]
      exact h
  | _ => exact h

/-- **What has gone wrong stays wrong.** -/
theorem Bad.step (h : Bad job s) (hinv : Inv job s) (hnext : Next job s a s') :
    Bad job s' := by
  obtain ⟨n, hn⟩ | ⟨k, j, hdone, hmem⟩ := h
  · exact Or.inl ⟨n, hnext.spoiled hn⟩
  · exact Or.inr ⟨k, j, hnext.through hinv hdone, hnext.not_stored hdone hmem⟩

/-- **A step out of order goes wrong**: something has been used that was not
there, or a packet that was never stored counts as delivered. -/
theorem bad_of_not_orderly (hinv : Inv job s) (hnext : Next job s a s')
    (hok : ¬orderly job s a = true) : Bad job s' := by
  cases hnext with
  | fail m hm =>
    cases m with
    | shovel k j =>
      exact Or.inr ⟨k, j, phase_setPhase_self .., hinv.fresh k j (by rw [hm]; rfl)⟩
    | _ => exact absurd rfl hok
  | handle m pc x p hm hx =>
    refine Or.inl ⟨job.node m, ?_⟩
    rw [node_setNode_self]
    cases handles_of_handler hx with
    | store k j hslot =>
      rw [orderly, if_pos hm] at hok
      exact absurd (decide_eq_true hslot) hok
    | lost k j hlost => rfl
    | count k j pc hcount =>
      rw [orderly, if_neg (by rw [hm]; exact fun h => nomatch h)] at hok
      exact absurd hcount hok
    | miscount k j pc hcount => rfl
    | _ => exact absurd rfl hok
  | _ => exact absurd rfl hok

theorem Bad.not_lawful (h : Bad job s) : ¬Lawful job s := by
  intro hlaw
  obtain ⟨n, hn⟩ | ⟨k, j, hdone, hmem⟩ := h
  · exact Bool.false_ne_true ((hlaw.sound n).symm.trans hn)
  · have hcount := hlaw.stored k j hdone
    rw [List.count_eq_zero_of_not_mem hmem] at hcount
    exact absurd hcount (by decide)

/-! ## Runs -/

/-- The invariant holds in every run. -/
theorem inv_of_run {ok : State → Action → Prop} {as : List Action}
    (hrun : Run (step job) ok (init job) as s) : Inv job s :=
  hrun.invariant (fun _ _ _ h _ hstep => h.step (next_of_step hstep)) (inv_init job)

/-- Where each handler finds what it uses the packets are stored. -/
theorem lawful_of_orderly {as : List Action}
    (hrun : Run (step job) (fun s a => orderly job s a = true) (init job) as s) :
    Lawful job s := by
  have hboth : Inv job s ∧ Kept job s :=
    hrun.invariant (I := fun s => Inv job s ∧ Kept job s)
      (fun _ _ _ h hok hstep =>
        ⟨h.1.step (next_of_step hstep), h.2.step h.1 hok (next_of_step hstep)⟩)
      ⟨inv_init job, kept_init job⟩
  exact hboth.2.lawful (inv_of_run hrun)

theorem bad_of_run {as : List Action} (hrun : Run (step job) (fun _ _ => True) s as s')
    (hinv : Inv job s) (h : Bad job s) : Bad job s' :=
  (hrun.invariant (I := fun s => Inv job s ∧ Bad job s)
    (fun _ _ _ h _ hstep =>
      ⟨h.1.step (next_of_step hstep), h.2.step h.1 (next_of_step hstep)⟩) ⟨hinv, h⟩).2

/-- Where one does not they are not. -/
theorem orderly_of_lawful {as : List Action}
    (hrun : Run (step job) (fun _ _ => True) s as s') (hinv : Inv job s)
    (hlaw : Lawful job s') : Run (step job) (fun s a => orderly job s a = true) s as s' := by
  induction hrun with
  | nil s => exact Run.nil s
  | cons ha hstep hrest ih =>
    have hnext := next_of_step hstep
    refine Run.cons ?_ hstep (ih (hinv.step hnext) hlaw)
    by_contra hok
    exact (bad_of_run hrest (hinv.step hnext)
      (bad_of_not_orderly hinv hnext hok)).not_lawful hlaw

/-- **When the packets are stored**: exactly when every handler finds what it
uses. -/
theorem lawful_iff_orderly {as : List Action}
    (hrun : Run (step job) (fun _ _ => True) (init job) as s) :
    Lawful job s ↔ Run (step job) (fun s a => orderly job s a = true) (init job) as s :=
  ⟨orderly_of_lawful hrun (inv_init job), lawful_of_orderly⟩

/-- In a run in order every handler finds what it uses. -/
theorem orderly_of_inOrder {as : List Action}
    (hrun : Run (step job) (InOrder job) s as s') (hinv : Inv job s) (h : Timed job s) :
    Run (step job) (fun s a => orderly job s a = true) s as s' := by
  induction hrun with
  | nil s => exact Run.nil s
  | cons ha hstep hrest ih =>
    have hnext := next_of_step hstep
    exact Run.cons (h.orderly hinv ha hnext) hstep
      (ih (hinv.step hnext) (h.step hinv ha hnext))

/-- **In order, the packets are stored.** -/
theorem lawful_of_inOrder {as : List Action}
    (hrun : Run (step job) (InOrder job) (init job) as s) : Lawful job s :=
  lawful_of_orderly (orderly_of_inOrder hrun (inv_init job) (timed_init job))

/-! ## Two runs -/

/-- One sub node with one of two shards, whose buffer gets full once. -/
def oneSub : Job := ⟨1, 2, [0], by decide⟩

/-- A message goes its way, with so many steps of its handler. -/
def deliver (m : Message) (steps : ℕ) : List Action :=
  [.connect m, .accept m] ++ List.replicate steps (.handle m) ++ [.reply m]

/-- One message after the other. -/
def oneByOne : List Action :=
  [.main, .main] ++ deliver (.preInfo 0) 2 ++ deliver (.duty 0) 4 ++ [.main, .main]
    ++ deliver (.shovel 0 0) 2 ++ [.main, .main] ++ deliver (.shovel 0 1) 2
    ++ [.main, .main] ++ deliver (.reshard 0) 2

/-- The first shovel overtakes `Duty`. -/
def overtaken : List Action :=
  [.main, .main] ++ deliver (.preInfo 0) 2
    ++ [.main, .main, .connect (.shovel 0 0), .accept (.shovel 0 0), .handle (.shovel 0 0)]

/-- One message after the other, the packets are stored and `sub_done` is
set. -/
theorem lawful_oneByOne :
    ∃ s, Run (step oneSub) (InOrder oneSub) (init oneSub) oneByOne s
      ∧ Lawful oneSub s ∧ (s.node 0).subDone = true := by
  obtain ⟨s, hrun, hdone⟩ := exists_run (step oneSub) (InOrder oneSub) (init oneSub)
    oneByOne (fun s => (s.node 0).subDone = true) (by decide +kernel)
  exact ⟨s, hrun, lawful_of_inOrder hrun, hdone⟩

/-- **A shovel that overtakes `Duty` finds no slot.** -/
theorem not_lawful_overtaken :
    ¬∀ (job : Job) (as : List Action) (s : State),
      Run (step job) (fun _ _ => True) (init job) as s → Lawful job s := by
  intro h
  obtain ⟨s, hrun, hspoiled⟩ := exists_run (step oneSub) (fun _ _ => True)
    (init oneSub) overtaken (fun s => (s.node 0).spoiled = true) (by decide +kernel)
  exact Bool.false_ne_true (((h _ _ s hrun).sound 0).symm.trans hspoiled)

/-! ## What has been stored -/

theorem mem_shovelsFrom_iff {packages : ℕ → ℕ} {l : List ℕ} :
    .shovel k j ∈ shovelsFrom packages l ↔ packages k ≤ j ∧ j < packages k + l.count k := by
  induction l generalizing packages with
  | nil =>
    rw [List.count_nil]
    exact ⟨fun h => absurd h List.not_mem_nil, fun h => by omega⟩
  | cons i l ih =>
    rw [shovelsFrom, List.mem_cons, ih]
    by_cases hk : k = i
    · subst hk
      rw [Function.update_self, List.count_cons_self, Message.shovel.injEq]
      omega
    · rw [Function.update_of_ne hk, List.count_cons_of_ne (Ne.symm hk), Message.shovel.injEq]
      exact or_iff_right fun h => hk h.1

/-- **When `sub_done` is set, the packets of a shard are those that were
sent.** -/
theorem perm_stored (hinv : Inv job s) (hlaw : Lawful job s)
    (hdone : (s.node n).subDone = true) (hk : k ∈ job.duties n) :
    ((s.node n).stored.filter fun p => p.1 = k).Perm
      ((List.range (job.sends.count k)).map fun j => (k, j)) := by
  have hnode := (mem_duties.mp hk).2
  have hmem : ∀ j, (k, j) ∈ (s.node n).stored ↔ j < job.sends.count k := by
    intro j
    have hshovel : .shovel k j ∈ job.shovels ↔ j < job.sends.count k := by
      unfold Job.shovels
      rw [mem_shovelsFrom_iff, Nat.zero_add]
      exact and_iff_right (Nat.zero_le j)
    rw [← hshovel]
    refine ⟨fun hstored => ?_, fun h => hlaw.complete n hdone k j h hnode⟩
    refine mem_adds_script_shovel.mp (hinv.sent _ fun hunsent => ?_)
    refine hinv.fresh k j (by rw [hunsent]; rfl) ?_
    rw [hnode]
    exact hstored
  refine (List.perm_ext_iff_of_nodup ((hinv.once n).filter _)
    (List.nodup_range.map fun _ _ h => congrArg Prod.snd h)).mpr fun p => ?_
  rw [List.mem_filter, List.mem_map, decide_eq_true_iff]
  constructor
  · rintro ⟨hp, rfl⟩
    exact ⟨p.2, List.mem_range.mpr ((hmem p.2).mp hp), rfl⟩
  · rintro ⟨j, hj, rfl⟩
    exact ⟨(hmem j).mpr (List.mem_range.mp hj), rfl⟩

open SubNode (Edge ValueType packets packetsFrom)

/-- The packets themselves, as they have been stored. -/
def arrivals (T : ValueType) (sent : ℕ → List (List Edge)) (stored : List (ℕ × ℕ)) :
    List SubNode.Packet :=
  stored.filterMap fun p => (packets T p.1 (sent p.1))[p.2]?

theorem shard_of_mem_packetsFrom {T : ValueType} {off : ℕ} {sent : List (List Edge)}
    {p : SubNode.Packet} (h : p ∈ packetsFrom T k off sent) : p.shard = k := by
  induction sent generalizing off with
  | nil => cases h
  | cons es more ih =>
    cases List.mem_cons.mp h with
    | inl heq => rw [heq]
    | inr hmem => exact ih hmem

theorem length_packetsFrom (T : ValueType) (k off : ℕ) (sent : List (List Edge)) :
    (packetsFrom T k off sent).length = sent.length := by
  induction sent generalizing off with
  | nil => rfl
  | cons es more ih => exact congrArg Nat.succ (ih _)

theorem filterMap_range_getElem? {α : Type*} (l : List α) :
    (List.range l.length).filterMap (fun i => l[i]?) = l := by
  induction l with
  | nil => rfl
  | cons a l ih =>
    rw [List.length_cons, List.range_succ_eq_map, List.filterMap_cons, List.filterMap_map]
    exact congrArg (a :: ·) ih

/-- **What arrives is what was sent**, in some order: each packet has been
stored once when `sub_done` is set. -/
theorem perm_packets {T : ValueType} {sent : ℕ → List (List Edge)} (hinv : Inv job s)
    (hlaw : Lawful job s) (hdone : (s.node n).subDone = true) (hk : k ∈ job.duties n)
    (hlen : (sent k).length = job.sends.count k) :
    ((arrivals T sent (s.node n).stored).filter fun p => p.shard = k).Perm
      (packets T k (sent k)) := by
  have hshard : ∀ stored : List (ℕ × ℕ),
      (arrivals T sent stored).filter (fun p => p.shard = k)
        = arrivals T sent (stored.filter fun p => p.1 = k) := by
    intro stored
    unfold arrivals
    rw [List.filter_filterMap, List.filterMap_filter]
    congr 1
    funext p
    cases hp : (packets T p.1 (sent p.1))[p.2]? with
    | none =>
      split
      · rfl
      · rfl
    | some q =>
      have hq : q.shard = p.1 := shard_of_mem_packetsFrom (List.mem_of_getElem? hp)
      show Option.filter _ (some q) = _
      rw [Option.filter_some, hq]
  have hrange : arrivals T sent ((List.range (job.sends.count k)).map fun j => (k, j))
      = packets T k (sent k) := by
    unfold arrivals
    rw [List.filterMap_map, ← hlen, ← length_packetsFrom T k 0 (sent k)]
    exact filterMap_range_getElem? (packets T k (sent k))
  rw [hshard, ← hrange]
  exact (perm_stored hinv hlaw hdone hk).filterMap _

/-- **A lawful run is a shipment** for each sub node whose `sub_done` is set:
what is known about the array that it hands to `reshard` holds here. -/
theorem exists_shipment {ok : State → Action → Prop} {as : List Action}
    (hrun : Run (step job) ok (init job) as s) (hlaw : Lawful job s)
    (hdone : (s.node n).subDone = true) (config : SubNode.Config) (duty : ℕ → ℕ)
    (stale : ℕ → Region UInt8) {sent : ℕ → List (List Edge)}
    (hedge : ∀ k, ∀ e ∈ (sent k).flatten, SubNode.IsEdge config.edgeType.mainType e)
    (hlen : ∀ k ∈ job.duties n, (sent k).length = job.sends.count k) :
    ∃ x : SubNode.Shipment, x.config = config ∧ x.shards = job.duties n ∧ x.duty = duty
      ∧ x.stale = stale ∧ x.sent = sent
      ∧ x.arrivals = arrivals config.edgeType.mainType sent (s.node n).stored := by
  refine ⟨⟨config, job.duties n, List.nodup_range.filter _, duty, stale, sent, hedge,
    arrivals config.edgeType.mainType sent (s.node n).stored, fun p hp => ?_,
    fun k hk => perm_packets (inv_of_run hrun) hlaw hdone hk (hlen k hk)⟩,
    rfl, rfl, rfl, rfl, rfl, rfl⟩
  obtain ⟨q, hq, hget⟩ := List.mem_filterMap.mp hp
  rw [shard_of_mem_packetsFrom (List.mem_of_getElem? hget)]
  exact hlaw.placed n q hq

end MessageOrder
