import DpdkGraph.Messages

/-!
# What holds in every order

The main node's program has each message once, and what it has come to is
what has been sent. It waits for each shovel until it is through, and sends
`Reshard` after all of them (`Inv.through_of_reshard`). A packet is stored
by its handler and by nobody else, at most once, in the slot of a duty.

All of this is an invariant of single steps (`Inv.step`), whatever the order
of the messages and of the handlers' steps.
-/

namespace MessageOrder

variable {job : Job} {s s' : State} {a : Action} {m : Message} {n k j : ℕ}

/-! ## The program -/

/-- The messages of a program. -/
def adds (ops : List Op) : List Message :=
  ops.filterMap fun
    | .addTask m => some m
    | .await _ => none

theorem mem_adds {ops : List Op} : m ∈ adds ops ↔ .addTask m ∈ ops := by
  unfold adds
  rw [List.mem_filterMap]
  constructor
  · rintro ⟨op, hop, heq⟩
    cases op with
    | addTask m' => cases heq; exact hop
    | await m' => cases heq
  · exact fun h => ⟨_, h, rfl⟩

theorem le_of_mem_shovelsFrom {packages : ℕ → ℕ} {l : List ℕ}
    (h : .shovel k j ∈ shovelsFrom packages l) : packages k ≤ j := by
  induction l generalizing packages with
  | nil => cases h
  | cons i l ih =>
    cases List.mem_cons.mp h with
    | inl heq => cases heq; exact le_rfl
    | inr hmem =>
      have hle := ih hmem
      by_cases hk : k = i
      · subst hk
        rw [Function.update_self] at hle
        exact le_trans (Nat.le_succ _) hle
      · rw [Function.update_of_ne hk] at hle
        exact hle

/-- No packet is numbered as another one. -/
theorem nodup_shovelsFrom (packages : ℕ → ℕ) (l : List ℕ) :
    (shovelsFrom packages l).Nodup := by
  induction l generalizing packages with
  | nil => exact List.nodup_nil
  | cons i l ih =>
    refine List.nodup_cons.mpr ⟨fun hmem => ?_, ih _⟩
    have hle := le_of_mem_shovelsFrom hmem
    rw [Function.update_self] at hle
    exact absurd hle (Nat.not_succ_le_self _)

theorem exists_shovel {packages : ℕ → ℕ} {l : List ℕ} (h : k ∈ l) :
    ∃ j, .shovel k j ∈ shovelsFrom packages l := by
  induction l generalizing packages with
  | nil => cases h
  | cons i l ih =>
    cases List.mem_cons.mp h with
    | inl heq => subst heq; exact ⟨_, List.mem_cons_self⟩
    | inr hmem =>
      obtain ⟨j, hj⟩ := ih hmem
      exact ⟨j, List.mem_cons_of_mem _ hj⟩

theorem mem_shovelsFrom {packages : ℕ → ℕ} {l : List ℕ} (h : m ∈ shovelsFrom packages l) :
    ∃ k ∈ l, ∃ j, m = .shovel k j := by
  induction l generalizing packages with
  | nil => cases h
  | cons i l ih =>
    cases List.mem_cons.mp h with
    | inl heq => exact ⟨i, List.mem_cons_self, _, heq⟩
    | inr hmem =>
      obtain ⟨k, hk, j, heq⟩ := ih hmem
      exact ⟨k, List.mem_cons_of_mem _ hk, j, heq⟩

theorem mem_sends : k ∈ job.sends ↔ k < job.nshards ∧ job.nodeOf k ≠ job.subs := by
  unfold Job.sends
  rw [List.mem_filter, List.mem_append, List.mem_range, decide_eq_true_iff]
  exact and_congr_left fun _ => ⟨fun h => h.elim (job.lt k) id, Or.inr⟩

theorem mem_duties : k ∈ job.duties n ↔ k < job.nshards ∧ job.nodeOf k = n := by
  unfold Job.duties
  rw [List.mem_filter, List.mem_range, decide_eq_true_iff]

theorem adds_append (l l' : List Op) : adds (l ++ l') = adds l ++ adds l' :=
  List.filterMap_append

theorem adds_script :
    adds job.script = ((List.range job.subs).flatMap fun n => [.preInfo n, .duty n])
      ++ job.shovels ++ (List.range job.subs).map .reshard := by
  have hshovels : ∀ l : List Message,
      adds (l.flatMap fun m => [.addTask m, .await m]) = l := by
    intro l
    induction l with
    | nil => rfl
    | cons m l ih =>
      rw [List.flatMap_cons, adds_append, ih]
      rfl
  have hfirst : ∀ l : List ℕ, adds (l.flatMap fun n =>
      [.addTask (.preInfo n), .addTask (.duty n), .await (.preInfo n)])
        = l.flatMap fun n => [.preInfo n, .duty n] := by
    intro l
    induction l with
    | nil => rfl
    | cons n l ih =>
      rw [List.flatMap_cons, adds_append, ih]
      rfl
  have hlast : ∀ l : List ℕ, adds (l.map fun n => .addTask (.reshard n))
      = l.map .reshard := by
    intro l
    induction l with
    | nil => rfl
    | cons n l ih => exact congrArg (Message.reshard n :: ·) ih
  rw [Job.script, Job.sending, adds_append, adds_append, hfirst, hshovels, hlast]

theorem mem_adds_script_shovel : .shovel k j ∈ adds job.script ↔ .shovel k j ∈ job.shovels := by
  rw [adds_script, List.mem_append, List.mem_append]
  constructor
  · rintro ((h | h) | h)
    · obtain ⟨n, -, h⟩ := List.mem_flatMap.mp h
      simp at h
    · exact h
    · obtain ⟨n, -, h⟩ := List.mem_map.mp h
      cases h
  · exact fun h => Or.inl (Or.inr h)

theorem mem_adds_script_reshard : .reshard n ∈ adds job.script ↔ n < job.subs := by
  rw [adds_script, List.mem_append, List.mem_append]
  constructor
  · rintro ((h | h) | h)
    · obtain ⟨n, -, h⟩ := List.mem_flatMap.mp h
      simp at h
    · obtain ⟨k, -, j, heq⟩ := mem_shovelsFrom h
      cases heq
    · obtain ⟨i, hi, heq⟩ := List.mem_map.mp h
      cases heq
      exact List.mem_range.mp hi
  · exact fun h => Or.inr (List.mem_map_of_mem (List.mem_range.mpr h))

/-- No message is sent twice. -/
theorem nodup_adds_script : (adds job.script).Nodup := by
  rw [adds_script, List.nodup_append, List.nodup_append, List.nodup_flatMap]
  refine ⟨⟨⟨fun n _ => by simp, ?_⟩, nodup_shovelsFrom _ _, ?_⟩, ?_, ?_⟩
  · refine List.nodup_range.imp fun hne => ?_
    simp [Function.onFun, Ne.symm hne]
  · intro m hm m' hm' heq
    obtain ⟨n, -, hn⟩ := List.mem_flatMap.mp hm
    obtain ⟨k, -, j, rfl⟩ := mem_shovelsFrom hm'
    subst heq
    simp at hn
  · exact List.nodup_range.map fun _ _ h => Message.reshard.inj h
  · intro m hm m' hm' heq
    obtain ⟨i, -, rfl⟩ := List.mem_map.mp hm'
    subst heq
    cases List.mem_append.mp hm with
    | inl h =>
      obtain ⟨n, -, hn⟩ := List.mem_flatMap.mp h
      simp at hn
    | inr h =>
      obtain ⟨k, -, j, heq⟩ := mem_shovelsFrom h
      cases heq

/-- For each packet the main node waits. -/
theorem await_mem_sending (h : m ∈ job.shovels) : .await m ∈ job.sending :=
  List.mem_append_right _ (List.mem_flatMap.mpr
    ⟨m, h, List.mem_cons_of_mem _ (List.mem_singleton_self _)⟩)

/-! ## The handlers -/

/-- **What a handler does to its node**, step by step: the message it handles,
the line it is at, and the node and the phase it leads to. -/
inductive Handles (job : Job) (x : Node) : Message → ℕ → Node → Phase → Prop
  | names (n : ℕ) : Handles job x (.preInfo n) 0 x (.handling 1)
  | intervals (n pc : ℕ) :
      Handles job x (.preInfo n) (pc + 1) { x with intervalDone := true } .answered
  | duties (n : ℕ) : Handles job x (.duty n) 0 { x with duties := job.duties n } (.handling 1)
  | wait (n : ℕ) (h : x.intervalDone = true) : Handles job x (.duty n) 1 x (.handling 2)
  | slot (n i : ℕ) (hi : i < x.duties.length) :
      Handles job x (.duty n) (i + 2) { x with slots := i + 1 } (.handling (i + 3))
  | counters (n i : ℕ) (hi : ¬i < x.duties.length) : Handles job x (.duty n) (i + 2)
      { x with counters := true, packages := fun _ => 0 } .answered
  | store (k j : ℕ) (h : x.duties.idxOf k < x.slots) :
      Handles job x (.shovel k j) 0 { x with stored := x.stored ++ [(k, j)] } (.handling 1)
  | lost (k j : ℕ) (h : ¬x.duties.idxOf k < x.slots) :
      Handles job x (.shovel k j) 0 { x with spoiled := true } (.handling 1)
  | count (k j pc : ℕ) (h : x.counters = true) :
      Handles job x (.shovel k j) (pc + 1) (x.count (x.duties.idxOf k)) .answered
  | miscount (k j pc : ℕ) (h : ¬x.counters = true) :
      Handles job x (.shovel k j) (pc + 1) { x with spoiled := true } .answered
  | compare (n i : ℕ) : Handles job x (.reshard n) i x (.handling (i + 1))
  | garbage (n i : ℕ) (hi : i < x.duties.length) (h : ¬x.counters = true) :
      Handles job x (.reshard n) i { x with spoiled := true } (.handling (i + 1))
  | done (n i : ℕ) (hi : ¬i < x.duties.length) :
      Handles job x (.reshard n) i { x with subDone := true } .answered

/-- What one step of a handler does, read off from the code of `handler`: one
case for each thing that a message can have it do. -/
theorem handles_of_handler {pc : ℕ} {x x' : Node} {p : Phase}
    (h : handler job m pc x = some (x', p)) : Handles job x m pc x' p := by
  cases m with
  | preInfo n =>
    cases pc with
    | zero => cases h; exact .names n
    | succ pc => cases h; exact .intervals n pc
  | duty n =>
    match pc with
    | 0 => cases h; exact .duties n
    | 1 =>
      rw [handler] at h
      split at h
      · next hdone => cases h; exact .wait n hdone
      · cases h
    | i + 2 =>
      rw [handler] at h
      split at h
      · next hi => cases h; exact .slot n i hi
      · next hi => cases h; exact .counters n i hi
  | shovel k j =>
    cases pc with
    | zero =>
      rw [handler] at h
      split at h
      · next hstore => cases h; exact .store k j hstore
      · next hlost => cases h; exact .lost k j hlost
    | succ pc =>
      rw [handler] at h
      · split at h
        · next hcount => cases h; exact .count k j pc hcount
        · next hcount => cases h; exact .miscount k j pc hcount
      · exact Nat.succ_ne_zero pc
  | reshard n =>
    rw [handler, finishReceive] at h
    split at h
    · next hi =>
      split at h
      · split at h
        · cases h; exact .compare n pc
        · cases h
      · next hcount => cases h; exact .garbage n pc hi hcount
    · next hi => cases h; exact .done n pc hi

/-! ## What holds in every run -/

/-- How far `set_duties` has come. -/
def Node.SetUp (x : Node) (duties : List ℕ) : Prop :=
  x.duties = [] ∧ x.slots = 0 ∨ x.duties = duties ∧ x.slots ≤ duties.length

theorem Node.SetUp.mem {x : Node} {duties : List ℕ} (h : x.SetUp duties)
    (hk : k ∈ x.duties) : k ∈ duties := by
  cases h with
  | inl h => rw [h.1] at hk; exact absurd hk List.not_mem_nil
  | inr h => exact h.1 ▸ hk

/-- A slot that is there is that of a duty. -/
theorem Node.SetUp.mem_of_idxOf {x : Node} {duties : List ℕ} (h : x.SetUp duties)
    (hk : x.duties.idxOf k < x.slots) : k ∈ duties := by
  refine h.mem (List.idxOf_lt_length_iff.mp ?_)
  cases h with
  | inl h => rw [h.2] at hk; exact absurd hk (Nat.not_lt_zero _)
  | inr h => rw [h.1] at hk ⊢; exact lt_of_lt_of_le hk h.2

/-- **What is always so**, whatever the order in which the messages come: the
main node keeps to its program, and the packets that are stored are stored once
and in the right slot. -/
structure Inv (job : Job) (s : State) : Prop where
  /-- The main node keeps to its program. -/
  suffix : s.todo <:+ job.script
  /-- What it has not come to is not sent. -/
  unsent : ∀ m ∈ adds s.todo, s.phase m = .unsent
  /-- Only what is in the program is sent. -/
  sent : ∀ m, s.phase m ≠ .unsent → m ∈ adds job.script
  /-- What it has waited for is through. -/
  awaited : ∀ m, .await m ∈ job.script → .await m ∈ s.todo ∨ s.phase m = .through
  /-- A packet is stored by its handler. -/
  fresh : ∀ k j, (s.phase (.shovel k j)).early = true →
    (k, j) ∉ (s.node (job.nodeOf k)).stored
  /-- It is stored once. -/
  once : ∀ n, (s.node n).stored.Nodup
  /-- It is stored in the slot of a duty. -/
  placed : ∀ n, ∀ p ∈ (s.node n).stored, p.1 ∈ job.duties n
  /-- The slots are those of the duties. -/
  slots : ∀ n, (s.node n).SetUp (job.duties n)
  /-- `sub_done` comes from `Reshard`. -/
  done : ∀ n, (s.node n).subDone = true → s.phase (.reshard n) ≠ .unsent

theorem inv_init (job : Job) : Inv job (init job) where
  suffix := List.suffix_rfl
  unsent := fun _ _ => rfl
  sent := fun _ h => absurd rfl h
  awaited := fun _ h => Or.inl h
  fresh := fun _ _ _ => List.not_mem_nil
  once := fun _ => List.nodup_nil
  placed := fun _ _ h => absurd h List.not_mem_nil
  slots := fun _ => Or.inl ⟨rfl, rfl⟩
  done := fun _ h => nomatch h

/-- **`Reshard` is sent when all packets are through.** -/
theorem Inv.through_of_reshard (h : Inv job s) (hn : s.phase (.reshard n) ≠ .unsent)
    (hm : m ∈ job.shovels) : s.phase m = .through := by
  refine (h.awaited m (List.mem_append_left _ (await_mem_sending hm))).resolve_left ?_
  intro hwait
  have hlast : Op.addTask (.reshard n)
      ∈ (List.range job.subs).map fun n => Op.addTask (.reshard n) :=
    List.mem_map_of_mem (List.mem_range.mpr (mem_adds_script_reshard.mp (h.sent _ hn)))
  obtain ⟨past, hpast⟩ := h.suffix
  unfold Job.script at hpast
  rw [List.append_eq_append_iff] at hpast
  obtain ⟨rest, -, htodo⟩ | ⟨rest, -, htodo⟩ := hpast
  · refine hn (h.unsent _ (mem_adds.mpr ?_))
    rw [htodo]
    exact List.mem_append_right _ hlast
  · have hmem : Op.await m ∈ (List.range job.subs).map fun n => Op.addTask (.reshard n) := by
      rw [htodo]
      exact List.mem_append_right _ hwait
    obtain ⟨i, -, heq⟩ := List.mem_map.mp hmem
    cases heq

/-! ### What a handler leaves alone -/

namespace Handles

variable {x x' : Node} {pc : ℕ} {p : Phase}

theorem phase_ne_unsent (h : Handles job x m pc x' p) : p ≠ .unsent := by
  cases h <;> exact fun h => nomatch h

theorem phase_not_early (h : Handles job x m pc x' p) : ¬p.early = true := by
  cases h <;> exact Bool.false_ne_true

/-- Only a packet's own handler stores it. -/
theorem stored (h : Handles job x m pc x' p) :
    x'.stored = x.stored ∨ ∃ k j, m = .shovel k j ∧ pc = 0 ∧ x.duties.idxOf k < x.slots
      ∧ x'.stored = x.stored ++ [(k, j)] := by
  cases h with
  | store k j hslot => exact Or.inr ⟨k, j, rfl, rfl, hslot, rfl⟩
  | _ => exact Or.inl rfl

theorem setUp (h : Handles job x m pc x' p) (hx : x.SetUp (job.duties (job.node m))) :
    x'.SetUp (job.duties (job.node m)) := by
  cases h with
  | duties n => exact Or.inr ⟨rfl, hx.elim (fun h => h.2.le.trans (Nat.zero_le _)) And.right⟩
  | slot n i hi =>
    cases hx with
    | inl hx => rw [hx.1] at hi; exact absurd hi (Nat.not_lt_zero _)
    | inr hx => rw [hx.1] at hi; exact Or.inr ⟨hx.1, hi⟩
  | _ => exact hx

theorem subDone_eq (h : Handles job x m pc x' p) :
    x'.subDone = x.subDone ∨ m = .reshard (job.node m) := by
  cases h with
  | done n i hi => exact Or.inr rfl
  | _ => exact Or.inl rfl

theorem counters_mono (h : Handles job x m pc x' p) (hx : x.counters = true) :
    x'.counters = true := by
  cases h with
  | counters n pc => rfl
  | _ => exact hx

theorem spoiled_mono (h : Handles job x m pc x' p) (hx : x.spoiled = true) :
    x'.spoiled = true := by
  cases h with
  | lost k j h => rfl
  | miscount k j pc h => rfl
  | garbage n i hi h => rfl
  | _ => exact hx

end Handles

/-! ### One step -/

/-- What holds of the changed node and of the others holds of all. -/
theorem forall_node {P : ℕ → Node → Prop} (h : ∀ n, P n (s.node n)) {n₀ : ℕ} {x : Node}
    (hx : P n₀ x) : ∀ n, P n ((s.setNode n₀ x).node n) := by
  intro n
  by_cases hn : n = n₀
  · rw [hn, node_setNode_self]
    exact hx
  · rw [node_setNode_of_ne s hn]
    exact h n

/-- A message that is on its way goes on: the program has not changed. -/
theorem Inv.program (h : Inv job s) (hunsent : s.phase m ≠ .unsent)
    (hthrough : s.phase m ≠ .through) (p : Phase) :
    (∀ m' ∈ adds s.todo, (s.setPhase m p).phase m' = .unsent)
      ∧ (∀ m', (s.setPhase m p).phase m' ≠ .unsent → m' ∈ adds job.script)
      ∧ ∀ m', .await m' ∈ job.script →
        .await m' ∈ s.todo ∨ (s.setPhase m p).phase m' = .through := by
  refine ⟨fun m' hm' => ?_, fun m' hm' => ?_, fun m' hm' => ?_⟩
  · have hne : m' ≠ m := fun heq => hunsent (heq ▸ h.unsent m' hm')
    rw [phase_setPhase_of_ne s hne]
    exact h.unsent m' hm'
  · by_cases heq : m' = m
    · rw [heq]
      exact h.sent m hunsent
    · rw [phase_setPhase_of_ne s heq] at hm'
      exact h.sent m' hm'
  · refine (h.awaited m' hm').imp_right fun hdone => ?_
    have hne : m' ≠ m := fun heq => hthrough (heq ▸ hdone)
    rw [phase_setPhase_of_ne s hne]
    exact hdone

/-- A step of a message outside its handler. -/
theorem Inv.setPhase (h : Inv job s) (hunsent : s.phase m ≠ .unsent)
    (hthrough : s.phase m ≠ .through) {p : Phase} (hp : p ≠ .unsent)
    (hearly : p.early = true → (s.phase m).early = true) : Inv job (s.setPhase m p) := by
  obtain ⟨hleft, hsent, hawaited⟩ := h.program hunsent hthrough p
  refine ⟨h.suffix, hleft, hsent, hawaited, fun k j he => ?_, h.once, h.placed, h.slots,
    fun n hdone => ?_⟩
  · refine h.fresh k j ?_
    by_cases heq : Message.shovel k j = m
    · rw [heq, phase_setPhase_self] at he
      rw [heq]
      exact hearly he
    · rw [phase_setPhase_of_ne s heq] at he
      exact he
  · by_cases heq : Message.reshard n = m
    · rw [heq, phase_setPhase_self]
      exact hp
    · rw [phase_setPhase_of_ne s heq]
      exact h.done n hdone

/-- The list of receivers does not matter. -/
theorem Inv.setReceivers (h : Inv job s) (n : ℕ) (receivers : List Message) :
    Inv job (s.setNode n { s.node n with receivers := receivers }) := by
  refine ⟨h.suffix, h.unsent, h.sent, h.awaited, fun k j he => ?_, ?_, ?_, ?_, ?_⟩
  · have hold := h.fresh k j he
    by_cases hn : job.nodeOf k = n
    · rw [hn, node_setNode_self]
      exact hn ▸ hold
    · rw [node_setNode_of_ne s hn]
      exact hold
  · exact forall_node (P := fun _ y => y.stored.Nodup) h.once (h.once n)
  · exact forall_node (P := fun n y => ∀ q ∈ y.stored, q.1 ∈ job.duties n) h.placed
      (h.placed n)
  · exact forall_node (P := fun n y => y.SetUp (job.duties n)) h.slots (h.slots n)
  · exact forall_node (P := fun n y => y.subDone = true → s.phase (.reshard n) ≠ .unsent)
      h.done (h.done n)

/-- A handler goes on. A packet becomes stored by its own message only, so that
no packet is stored twice, and where its slot is. -/
theorem Inv.handle (h : Inv job s) {pc : ℕ} {x : Node} {p : Phase}
    (hm : s.phase m = .handling pc)
    (hx : Handles job (s.node (job.node m)) m pc x p) :
    Inv job ((s.setPhase m p).setNode (job.node m) x) := by
  have hunsent : s.phase m ≠ .unsent := by rw [hm]; exact fun h => nomatch h
  have hthrough : s.phase m ≠ .through := by rw [hm]; exact fun h => nomatch h
  obtain ⟨hleft, hsent, hawaited⟩ := h.program hunsent hthrough p
  refine ⟨h.suffix, hleft, hsent, hawaited, fun k j he => ?_, ?_, ?_,
    forall_node (P := fun n y => y.SetUp (job.duties n)) h.slots (hx.setUp (h.slots _)),
    fun n hdone => ?_⟩
  · -- a packet that is to be stored yet is of another message
    have hne : Message.shovel k j ≠ m := by
      intro heq
      rw [phase_setNode, heq, phase_setPhase_self] at he
      exact hx.phase_not_early he
    rw [phase_setNode, phase_setPhase_of_ne s hne] at he
    have hold := h.fresh k j he
    by_cases hn : job.nodeOf k = job.node m
    · rw [hn, node_setNode_self]
      rw [hn] at hold
      cases hx.stored with
      | inl heq => rw [heq]; exact hold
      | inr hnew =>
        obtain ⟨k', j', rfl, -, -, heq⟩ := hnew
        rw [heq, List.mem_append, List.mem_singleton]
        rintro (hmem | hmem)
        · exact hold hmem
        · cases hmem
          exact hne rfl
    · rw [node_setNode_of_ne _ hn]
      exact hold
  · -- the packet that is new was not among those stored
    refine forall_node (P := fun _ y => y.stored.Nodup) h.once ?_
    cases hx.stored with
    | inl heq => rw [heq]; exact h.once _
    | inr hnew =>
      obtain ⟨k, j, rfl, rfl, -, heq⟩ := hnew
      rw [heq]
      refine List.nodup_append.mpr ⟨h.once _, List.nodup_singleton _, fun q hq q' hq' heq => ?_⟩
      rw [List.mem_singleton.mp hq'] at heq
      rw [heq] at hq
      exact h.fresh k j (by rw [hm]; rfl) hq
  · refine forall_node (P := fun n y => ∀ q ∈ y.stored, q.1 ∈ job.duties n) h.placed ?_
    cases hx.stored with
    | inl heq => rw [heq]; exact h.placed _
    | inr hnew =>
      obtain ⟨k, j, -, -, hslot, heq⟩ := hnew
      rw [heq]
      intro q hq
      cases List.mem_append.mp hq with
      | inl hq => exact h.placed _ q hq
      | inr hq =>
        rw [List.mem_singleton.mp hq]
        exact (h.slots _).mem_of_idxOf hslot
  · -- `sub_done` is set by the `Reshard` of the node, which is handled now
    rw [phase_setNode]
    by_cases heq : Message.reshard n = m
    · rw [heq, phase_setPhase_self]
      exact hx.phase_ne_unsent
    · rw [phase_setPhase_of_ne s heq]
      refine h.done n ?_
      by_cases hn : n = job.node m
      · rw [hn, node_setNode_self] at hdone
        cases hx.subDone_eq with
        | inl hsame => rw [hsame, ← hn] at hdone; exact hdone
        | inr hreshard => exact absurd (hn ▸ hreshard.symm) heq
      · rw [node_setNode_of_ne _ hn] at hdone
        exact hdone

/-- The main node starts a thread. -/
theorem Inv.addTask (h : Inv job s) {todo : List Op} (senders : List Message)
    (htodo : s.todo = .addTask m :: todo) :
    Inv job { s.setPhase m .sending with todo := todo, senders := senders } := by
  -- the script names every message once: this one is not to come again
  have hsuffix : todo <:+ s.todo := htodo ▸ List.suffix_cons _ _
  have hm : s.phase m = .unsent :=
    h.unsent m (mem_adds.mpr (htodo ▸ List.mem_cons_self))
  have hnew : m ∉ adds todo := by
    have hnodup : (adds s.todo).Nodup :=
      nodup_adds_script.sublist (h.suffix.sublist.filterMap _)
    rw [htodo] at hnodup
    exact (List.nodup_cons.mp hnodup).1
  have hthrough : ∀ m', s.phase m' = .through → (s.setPhase m .sending).phase m' = .through := by
    intro m' hm'
    have hne : m' ≠ m := by
      intro heq
      rw [heq, hm] at hm'
      cases hm'
    rw [phase_setPhase_of_ne s hne]
    exact hm'
  refine ⟨hsuffix.trans h.suffix, fun m' hm' => ?_, fun m' hm' => ?_, fun m' hm' => ?_,
    fun k j he => ?_, h.once, h.placed, h.slots, fun n hdone => ?_⟩
  · have hne : m' ≠ m := fun heq => hnew (heq ▸ hm')
    show (s.setPhase m .sending).phase m' = .unsent
    rw [phase_setPhase_of_ne s hne]
    exact h.unsent m' (mem_adds.mpr (hsuffix.mem (mem_adds.mp hm')))
  · by_cases heq : m' = m
    · rw [heq]
      exact mem_adds.mpr (h.suffix.mem (htodo ▸ List.mem_cons_self))
    · refine h.sent m' fun hm'' => hm' ?_
      exact (phase_setPhase_of_ne s heq .sending).trans hm''
  · cases h.awaited m' hm' with
    | inl hwait =>
      rw [htodo, List.mem_cons] at hwait
      exact Or.inl (hwait.resolve_left fun heq => nomatch heq)
    | inr hdone => exact Or.inr (hthrough m' hdone)
  · refine h.fresh k j ?_
    by_cases heq : Message.shovel k j = m
    · rw [heq, hm]
      rfl
    · rw [← phase_setPhase_of_ne s heq .sending]
      exact he
  · by_cases heq : Message.reshard n = m
    · subst heq
      exact fun hno => absurd ((phase_setPhase_self s _ .sending).symm.trans hno)
        fun h => nomatch h
    · exact fun hno => h.done n hdone ((phase_setPhase_of_ne s heq .sending).symm.trans hno)

/-- **Every step keeps it**: the main node changes the phases of messages that
it names for the first time, and a handler the node it runs on. -/
theorem Inv.step (h : Inv job s) (hnext : Next job s a s') : Inv job s' := by
  cases hnext with
  | addTask m todo senders htodo => exact h.addTask senders htodo
  | await m todo htodo hm =>
    have hsuffix : todo <:+ s.todo := htodo ▸ List.suffix_cons _ _
    refine ⟨hsuffix.trans h.suffix, fun m' hm' =>
      h.unsent m' (mem_adds.mpr (hsuffix.mem (mem_adds.mp hm'))), h.sent, fun m' hm' => ?_,
      h.fresh, h.once, h.placed, h.slots, h.done⟩
    cases h.awaited m' hm' with
    | inl hwait =>
      rw [htodo, List.mem_cons] at hwait
      cases hwait with
      | inl heq => cases heq; exact Or.inr hm
      | inr hmem => exact Or.inl hmem
    | inr hdone => exact Or.inr hdone
  | connect m hm =>
    refine h.setPhase ?_ ?_ (fun h => nomatch h) fun _ => by rw [hm]; rfl
    all_goals rw [hm]; exact fun h => nomatch h
  | fail m hm =>
    refine h.setPhase ?_ ?_ (fun h => nomatch h) fun h => nomatch h
    all_goals rw [hm]; exact fun h => nomatch h
  | accept m receivers hm =>
    refine (h.setPhase (p := .handling 0) ?_ ?_ (fun h => nomatch h)
      fun _ => by rw [hm]; rfl).setReceivers (job.node m) receivers
    all_goals rw [hm]; exact fun h => nomatch h
  | handle m pc x p hm hx => exact h.handle hm (handles_of_handler hx)
  | reply m hm =>
    refine h.setPhase ?_ ?_ (fun h => nomatch h) fun h => nomatch h
    all_goals rw [hm]; exact fun h => nomatch h

end MessageOrder
