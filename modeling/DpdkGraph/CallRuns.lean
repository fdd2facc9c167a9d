import Mathlib

/-!
# Objects that answer calls

An object is a partial function `step`: the state before and a call give the
state after and an answer, or nothing where the call has no meaning.
`answers` makes a sequence of calls. One object does for another what it is
asked (`Refines.answers`) if a relation between their states is kept by each
call that the other one answers, with the same answer; where this needs a
condition on the state before a call, it has to be met along the run.
-/

namespace CallRuns

variable {σ τ α ρ : Type*}

/-- The calls one after the other: the last state and all answers. -/
def answers (step : σ → α → Option (σ × ρ)) : σ → List α → Option (σ × List ρ)
  | s, [] => some (s, [])
  | s, a :: as => (step s a).bind fun r =>
      (answers step r.1 as).map fun more => (more.1, r.2 :: more.2)

/-- `ok` is met before each call of a run. -/
def Along (step : σ → α → Option (σ × ρ)) (ok : σ → α → Prop) : σ → List α → Prop
  | _, [] => True
  | s, a :: as => ok s a ∧ ∀ r, step s a = some r → Along step ok r.1 as

/-- A condition that can be tested can be tested along a run. -/
instance decidableAlong (step : σ → α → Option (σ × ρ)) (ok : σ → α → Prop)
    [∀ s a, Decidable (ok s a)] : ∀ s as, Decidable (Along step ok s as)
  | _, [] => isTrue trivial
  | s, a :: as =>
    match hr : step s a with
    | none => decidable_of_iff (ok s a) (by
        unfold Along
        rw [hr]
        exact ⟨fun h => ⟨h, fun r hnone => absurd hnone.symm (Option.some_ne_none r)⟩,
          fun h => h.1⟩)
    | some r =>
      have := decidableAlong step ok r.1 as
      decidable_of_iff (ok s a ∧ Along step ok r.1 as) (by
        rw [Along, hr]
        exact and_congr_right fun _ =>
          ⟨fun h r' hr' => Option.some.inj hr' ▸ h, fun h => h r rfl⟩)

@[simp] theorem answers_nil (step : σ → α → Option (σ × ρ)) (s : σ) :
    answers step s [] = some (s, []) := rfl

theorem answers_cons_eq_some {step : σ → α → Option (σ × ρ)} {s s' : σ} {a : α}
    {as : List α} {rs : List ρ} (h : answers step s (a :: as) = some (s', rs)) :
    ∃ s₁ r rs', step s a = some (s₁, r) ∧ answers step s₁ as = some (s', rs')
      ∧ rs = r :: rs' := by
  obtain ⟨⟨s₁, r⟩, hr, hmore⟩ := Option.bind_eq_some_iff.mp h
  obtain ⟨⟨s₂, rs'⟩, hrs, heq⟩ := Option.map_eq_some_iff.mp hmore
  obtain ⟨rfl, rfl⟩ := Prod.mk.inj heq
  exact ⟨s₁, r, rs', hr, hrs, rfl⟩

/-- **`R` relates an object to what it stands for**: under `ok`, a call that
is answered there is answered here too, in the same way. -/
def Refines (step : σ → α → Option (σ × ρ)) (spec : τ → α → Option (τ × ρ))
    (ok : σ → α → Prop) (R : σ → τ → Prop) : Prop :=
  ∀ s t a, R s t → ok s a → ∀ t' r, spec t a = some (t', r) →
    ∃ s', step s a = some (s', r) ∧ R s' t'

/-- **The answers are the same along a run.** -/
theorem Refines.answers {step : σ → α → Option (σ × ρ)} {spec : τ → α → Option (τ × ρ)}
    {ok : σ → α → Prop} {R : σ → τ → Prop} (h : Refines step spec ok R) {s : σ} {t t' : τ}
    {as : List α} {rs : List ρ} (hR : R s t) (hok : Along step ok s as)
    (hspec : answers spec t as = some (t', rs)) :
    ∃ s', answers step s as = some (s', rs) ∧ R s' t' := by
  induction as generalizing s t rs with
  | nil =>
    obtain ⟨rfl, rfl⟩ := Prod.mk.inj (Option.some.inj hspec)
    exact ⟨s, rfl, hR⟩
  | cons a as ih =>
    obtain ⟨t₁, r, rs', hr, hmore, rfl⟩ := answers_cons_eq_some hspec
    obtain ⟨s₁, hs₁, hR₁⟩ := h s t a hR hok.1 t₁ r hr
    obtain ⟨s', hs', hR'⟩ := ih hR₁ (hok.2 _ hs₁) hmore
    refine ⟨s', ?_, hR'⟩
    show ((step s a).bind fun r => (CallRuns.answers step r.1 as).map
      fun more => (more.1, r.2 :: more.2)) = some (s', r :: rs')
    rw [hs₁, Option.bind_some, hs', Option.map_some]

/-- One object out of several: `calls` are made on the one at an index. -/
def at_ (step : σ → α → Option (σ × ρ)) (ss : List σ) (a : ℕ × α) :
    Option (List σ × ρ) :=
  ss[a.1]?.bind fun s => (step s a.2).map fun r => (ss.set a.1 r.1, r.2)

/-- **Several objects, each for its own**: a call names the object it is for,
and where each object answers as its specification, so do all of them
together. -/
theorem Refines.at_ {step : σ → α → Option (σ × ρ)} {spec : τ → α → Option (τ × ρ)}
    {ok : σ → α → Prop} {R : σ → τ → Prop} (h : Refines step spec ok R) :
    Refines (CallRuns.at_ step) (CallRuns.at_ spec)
      (fun ss a => ∀ s ∈ ss[a.1]?, ok s a.2) (List.Forall₂ R) := by
  rintro ss ts ⟨i, a⟩ hR hok ts' r hspec
  obtain ⟨t, ht, hspec⟩ := Option.bind_eq_some_iff.mp hspec
  obtain ⟨⟨t', r'⟩, hcall, heq⟩ := Option.map_eq_some_iff.mp hspec
  obtain ⟨rfl, rfl⟩ := Prod.mk.inj heq
  rw [List.forall₂_iff_get] at hR
  obtain ⟨hi, hti⟩ := List.getElem?_eq_some_iff.mp ht
  have hi' : i < ss.length := by
    rw [hR.1]
    exact hi
  have hs : ss[i]? = some ss[i] := List.getElem?_eq_getElem hi'
  have hrel : R ss[i] t := by
    rw [← hti]
    exact hR.2 i hi' hi
  obtain ⟨s', hs', hR'⟩ := h _ _ a hrel (hok _ hs) t' r' hcall
  refine ⟨ss.set i s', ?_, ?_⟩
  · unfold CallRuns.at_
    rw [hs, Option.bind_some, hs', Option.map_some]
  · rw [List.forall₂_iff_get]
    refine ⟨by rw [List.length_set, List.length_set, hR.1], fun j hj hj' => ?_⟩
    rw [List.get_eq_getElem, List.get_eq_getElem, List.getElem_set, List.getElem_set]
    split
    · exact hR'
    · exact hR.2 j _ _

end CallRuns
