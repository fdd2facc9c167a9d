import Mathlib

/-!
# Runs of a transition system

A transition system is a partial function `step`: the state before and an
action give the state after, or nothing where the action is not enabled. A
*run* takes a list of actions one after the other; `ok` restricts what each
of them may be in the state before it. Invariants of the restricted system
are proved for one step and lifted to runs here, once.
-/

namespace Transition

variable {σ α : Type*} {step : σ → α → Option σ} {ok ok' : σ → α → Prop}

/-- `Run step ok s as s'`: the actions `as`, each allowed by `ok` in the
state before it, lead from `s` to `s'`. -/
inductive Run (step : σ → α → Option σ) (ok : σ → α → Prop) :
    σ → List α → σ → Prop
  | nil (s : σ) : Run step ok s [] s
  | cons {s s' s'' : σ} {a : α} {as : List α} : ok s a → step s a = some s' →
      Run step ok s' as s'' → Run step ok s (a :: as) s''

/-- **An invariant of the steps is an invariant of the runs.** -/
theorem Run.invariant {I : σ → Prop} {s s' : σ} {as : List α}
    (hrun : Run step ok s as s')
    (hstep : ∀ s a s', I s → ok s a → step s a = some s' → I s')
    (hs : I s) : I s' := by
  induction hrun with
  | nil s => exact hs
  | cons ha hnext _ ih => exact ih (hstep _ _ _ hs ha hnext)

/-- A run under a stronger restriction is a run under a weaker one. -/
theorem Run.mono {s s' : σ} {as : List α} (hrun : Run step ok s as s')
    (h : ∀ s a, ok s a → ok' s a) : Run step ok' s as s' := by
  induction hrun with
  | nil s => exact Run.nil s
  | cons ha hnext _ ih => exact Run.cons (h _ _ ha) hnext ih

/-- Two runs make one. -/
theorem Run.append {s s' s'' : σ} {as bs : List α}
    (hrun : Run step ok s as s') (hmore : Run step ok s' bs s'') :
    Run step ok s (as ++ bs) s'' := by
  induction hrun with
  | nil s => exact hmore
  | cons ha hnext _ ih => exact Run.cons ha hnext (ih hmore)

/-- **Refinement.** Where each step of one system is a step of another, seen
through `view`, or leaves the view as it is, the runs of the one are runs of
the other. -/
theorem Run.project {τ β : Type*} {step' : τ → β → Option τ}
    {allowed : τ → β → Prop} (view : σ → τ)
    (hview : ∀ s a s', ok s a → step s a = some s' →
      view s' = view s ∨
        ∃ b, allowed (view s) b ∧ step' (view s) b = some (view s'))
    {s s' : σ} {as : List α} (hrun : Run step ok s as s') :
    ∃ bs, bs.length ≤ as.length ∧ Run step' allowed (view s) bs (view s') := by
  induction hrun with
  | nil s => exact ⟨[], le_rfl, Run.nil _⟩
  | cons ha hnext _ ih =>
    obtain ⟨bs, hlen, hrun⟩ := ih
    rcases hview _ _ _ ha hnext with hsame | ⟨b, hb, hstep⟩
    · rw [hsame] at hrun
      exact ⟨bs, hlen.trans (Nat.le_succ _), hrun⟩
    · exact ⟨b :: bs, Nat.succ_le_succ hlen, Run.cons hb hstep hrun⟩

/-- **A measure that every step lowers bounds the runs.** -/
theorem Run.length_le {I : σ → Prop} {μ : σ → ℕ} {s s' : σ} {as : List α}
    (hrun : Run step ok s as s')
    (hstep : ∀ s a s', I s → ok s a → step s a = some s' → I s' ∧ μ s' < μ s)
    (hs : I s) : as.length + μ s' ≤ μ s := by
  induction hrun with
  | nil s => simp
  | cons ha hnext _ ih =>
    obtain ⟨hs', hlt⟩ := hstep _ _ _ hs ha hnext
    have hle := ih hs'
    rw [List.length_cons]
    omega

/-- Two sums over the threads of a system that differ in one of them. -/
theorem sum_exchange {M : Type*} [AddCommMonoid M] {f g : ℕ → M} {n t : ℕ}
    (ht : t < n) (h : ∀ u, u ≠ t → f u = g u) :
    ∑ u ∈ Finset.range n, f u + g t = ∑ u ∈ Finset.range n, g u + f t := by
  have hmem : t ∈ Finset.range n := Finset.mem_range.mpr ht
  have hrest : ∑ u ∈ (Finset.range n).erase t, f u =
      ∑ u ∈ (Finset.range n).erase t, g u :=
    Finset.sum_congr rfl fun u hu => h u (Finset.ne_of_mem_erase hu)
  rw [← Finset.add_sum_erase _ f hmem, ← Finset.add_sum_erase _ g hmem, hrest]
  abel

/-- **A system whose runs are bounded gets to its end**, where it is never
stuck before it. -/
theorem Run.exists_end {goal : σ → Prop} {s : σ} {n : ℕ}
    (hbound : ∀ as s', Run step ok s as s' → as.length ≤ n)
    (hlive : ∀ as s', Run step ok s as s' →
      goal s' ∨ ∃ a s'', ok s' a ∧ step s' a = some s'') :
    ∃ as s', Run step ok s as s' ∧ goal s' := by
  have hgrow : ∀ m, (∃ as s', Run step ok s as s' ∧ goal s') ∨
      ∃ as s', Run step ok s as s' ∧ as.length = m := by
    intro m
    induction m with
    | zero => exact Or.inr ⟨[], s, Run.nil s, rfl⟩
    | succ m ih =>
      rcases ih with hend | ⟨as, s', hrun, hlen⟩
      · exact Or.inl hend
      · rcases hlive as s' hrun with hgoal | ⟨a, s'', ha, hnext⟩
        · exact Or.inl ⟨as, s', hrun, hgoal⟩
        · refine Or.inr ⟨as ++ [a], s'',
            hrun.append (Run.cons ha hnext (Run.nil s'')), ?_⟩
          rw [List.length_append, hlen, List.length_singleton]
  rcases hgrow (n + 1) with hend | ⟨as, s', hrun, hlen⟩
  · exact hend
  · have hle := hbound as s' hrun
    omega

/-- **One thing after the other.** Where each thing of a list can be done by
a run that leaves what has been done, all of them can be done. -/
theorem Run.exists_forall {ι : Type*} {I : σ → Prop} {D : ι → σ → Prop}
    {l : List ι}
    (hone : ∀ j ∈ l, ∀ s, I s → ∃ as s', Run step ok s as s' ∧ I s' ∧
      D j s' ∧ ∀ k, D k s → D k s') {s : σ} (hs : I s) :
    ∃ as s', Run step ok s as s' ∧ I s' ∧ ∀ j ∈ l, D j s' := by
  induction l with
  | nil => exact ⟨[], s, Run.nil s, hs, fun j hj => absurd hj List.not_mem_nil⟩
  | cons j l ih =>
    obtain ⟨as, s', hrun, hs', hall⟩ :=
      ih fun k hk => hone k (List.mem_cons_of_mem _ hk)
    obtain ⟨bs, s'', hmore, hs'', hj, hkeep⟩ :=
      hone j List.mem_cons_self s' hs'
    refine ⟨as ++ bs, s'', hrun.append hmore, hs'', fun k hk => ?_⟩
    rcases List.mem_cons.mp hk with rfl | hk
    · exact hj
    · exact hkeep k (hall k hk)

/-- **Runs without an end**, where what holds at stage `i` can be taken to
stage `i + 1`. -/
theorem exists_stages {I : ℕ → σ → Prop} {R : σ → σ → Prop} {s : σ}
    (hs : I 0 s) (hnext : ∀ i s, I i s → ∃ s', R s s' ∧ I (i + 1) s') :
    ∃ t : ℕ → σ, t 0 = s ∧ ∀ i, I i (t i) ∧ R (t i) (t (i + 1)) := by
  have : Nonempty σ := ⟨s⟩
  choose! next hR hI using hnext
  let t : ℕ → σ := fun i => Nat.rec s next i
  have ht : ∀ i, I i (t i) := fun i => by
    induction i with
    | zero => exact hs
    | succ i ih => exact hI i _ ih
  exact ⟨t, rfl, fun i => ⟨ht i, hR i _ (ht i)⟩⟩

/-- Takes the actions one after the other, as long as they are enabled and
allowed. -/
def exec (step : σ → α → Option σ) (ok : σ → α → Prop)
    [∀ s a, Decidable (ok s a)] : σ → List α → Option σ
  | s, [] => some s
  | s, a :: as =>
    if ok s a then (step s a).bind fun s' => exec step ok s' as else none

/-- What `exec` computes is the end of a run. -/
theorem run_of_exec [∀ s a, Decidable (ok s a)] {as : List α} :
    ∀ {s s' : σ}, exec step ok s as = some s' → Run step ok s as s' := by
  induction as with
  | nil =>
    intro s s' h
    rw [exec, Option.some.injEq] at h
    rw [← h]
    exact Run.nil s
  | cons a as ih =>
    intro s s' h
    rw [exec] at h
    split at h
    · next ha =>
      obtain ⟨t, ht, hrest⟩ := Option.bind_eq_some_iff.mp h
      exact Run.cons ha ht (ih hrest)
    · cases h

/-- A list of actions that `exec` takes to its end is a run. -/
theorem exists_run (step : σ → α → Option σ) (ok : σ → α → Prop)
    [∀ s a, Decidable (ok s a)] (s : σ) (as : List α) (P : σ → Prop)
    [DecidablePred P]
    (h : (exec step ok s as).any (fun s' => decide (P s')) = true) :
    ∃ s', Run step ok s as s' ∧ P s' := by
  cases hs : exec step ok s as with
  | none => rw [hs] at h; cases h
  | some s' =>
    rw [hs] at h
    exact ⟨s', run_of_exec hs, of_decide_eq_true h⟩

end Transition
