import Mathlib
import DpdkGraph.ConnectedLabels
import DpdkGraph.Rounds

/-!
# The labels that connected components settle at

The labels get less from the second iteration on, so that they settle. What
they settle at is the least label that each vertex has heard of, and so the
least id of the weak component exactly where that one gets to every vertex of
it (`Informed`): along the edges between the workers from the source to the
destination, along those inside an interval both ways.

On one worker they do. On two workers the chain `3 → 2 → 0` keeps the label 2
at vertex 3 for good, if that one has a worker of its own: what vertex 2
writes to the edge between them is lost.
-/

namespace Engine

open VertexProgram
open LabelRules (Network Labeling Starts Advances Sound)
open Transition (Run)

variable {x : Input ℕ ℕ} {job : Job x} {t : ℕ → State ℕ ℕ}

/-! ## The law -/

/-- From iteration `k` on no label changes. -/
def SettledAt (job : Job x) (t : ℕ → State ℕ ℕ) (k : ℕ) : Prop :=
  ∀ i, k ≤ i → ∀ w v, job.part.Mem w v →
    ((t i).worker w).value v = ((t k).worker w).value v

/-- The labels are the least ids of the weak components. -/
def LeastLabels (job : Job x) (s : State ℕ ℕ) : Prop :=
  ∀ w v, job.part.Mem w v → IsLeast (job.network.component v) ((s.worker w).value v)

/-- **The law of connected components**: when the labels have settled, they
are the least ids of the weak components. -/
def Lawful (job : Job x) : Prop :=
  ∀ t, Rounds job t → ∀ k, SettledAt job t k → LeastLabels job (t k)

/-- The least id of its component gets to every vertex. -/
def Informed (job : Job x) : Prop :=
  ∀ w v, job.part.Mem w v →
    ∃ m ∈ job.network.heard v, m ∈ lowerBounds (job.network.component v)

/-! ## The labels of a run -/

section Labels

variable (hprogram : x.program = ConnectedComponents.update) (hgaps : NoGaps x job.part)

include hprogram in
theorem freshProgram_of_eq : FreshProgram x.program := by
  rw [hprogram]
  exact freshProgram_update

include hprogram hgaps

/-- The labels of a run are those of the history. -/
theorem Rounds.label_eq (h : Rounds job t) {w v i j : ℕ} (hv : job.part.Mem w v)
    (hij : i ≤ j) :
    ((t i).worker w).value v = (labelsAt job (t j).writes i).value v := by
  rw [h.value_eq hgaps (freshProgram_of_eq hprogram) hv hij]
  show _ = dataAt job (t j).writes (home job.part v) v i
  rw [home_eq hv]

omit hprogram hgaps in
/-- The iterations that are over. -/
theorem Rounds.late (h : Rounds job t) {i j : ℕ} (hij : i < j) :
    ∀ w < job.workers, i < ((t j).worker w).iter := fun w hw => by
  rw [(h.awaits j w hw).2]
  exact hij

/-- **An iteration of a run is a round**, the first one excepted. -/
theorem Rounds.advances (h : Rounds job t) {i j : ℕ} (hi : i ≠ 0) (hij : i < j) :
    Advances job.network (labelsAt job (t j).writes i) (labelsAt job (t j).writes (i + 1)) :=
  advances_of_history hprogram hgaps (h.history hgaps (freshProgram_of_eq hprogram) j)
    (h.late hij) hi

/-- **What holds of the labels of a run.** -/
theorem Rounds.sound (h : Rounds job t) {i j : ℕ} (hi : 1 ≤ i) (hij : i ≤ j) :
    Sound job.network (labelsAt job (t j).writes i) := by
  induction i, hi using Nat.le_induction with
  | base =>
    exact (starts_of_history hprogram hgaps
      (h.history hgaps (freshProgram_of_eq hprogram) j)
      (h.late hij) rfl).sound
  | succ i hi ih =>
    exact (ih (Nat.le_of_lt hij)).advances (h.advances hprogram hgaps (by omega) hij)

/-- **Settled labels are the least ones heard of.** -/
theorem Rounds.isLeast_heard (h : Rounds job t) {k : ℕ} (hsettled : SettledAt job t k)
    {w v : ℕ} (hv : job.part.Mem w v) :
    IsLeast (job.network.heard v) (((t k).worker w).value v) := by
  have hsame : ∀ i, k + 1 ≤ i → i ≤ k + 4 → ∀ u ∈ job.network.vertices,
      (labelsAt job (t (k + 4)).writes i).value u =
        (labelsAt job (t (k + 4)).writes (k + 1)).value u := by
    rintro i hki hi u ⟨w', hu⟩
    rw [← h.label_eq hprogram hgaps hu hi, ← h.label_eq hprogram hgaps hu (by omega),
      hsettled i (by omega) w' u hu, hsettled (k + 1) (by omega) w' u hu]
  have hleast := LabelRules.isLeast_heard
    (h.advances hprogram hgaps (i := k + 1) (j := k + 4) (by omega) (by omega))
    (h.advances hprogram hgaps (i := k + 2) (by omega) (by omega))
    (h.advances hprogram hgaps (i := k + 3) (by omega) (by omega))
    (hsame (k + 2) (by omega) (by omega)) (hsame (k + 3) (by omega) (by omega))
    (hsame (k + 4) (by omega) le_rfl)
    (h.sound hprogram hgaps (by omega) (by omega)) ⟨w, hv⟩
  rw [← h.label_eq hprogram hgaps hv (by omega), hsettled (k + 1) (by omega) w v hv] at hleast
  exact hleast

/-- A vertex's labels settle. -/
theorem Rounds.exists_settled_vertex (h : Rounds job t) {w v : ℕ} (hv : job.part.Mem w v) :
    ∃ k, ∀ i, k ≤ i → ((t i).worker w).value v = ((t k).worker w).value v := by
  have hle : ∀ i, 1 ≤ i → ∀ j, i ≤ j →
      ((t j).worker w).value v ≤ ((t i).worker w).value v := fun i hi j hij => by
    induction j, hij using Nat.le_induction with
    | base => exact le_rfl
    | succ j hij ih =>
      refine le_trans ?_ ih
      rw [h.label_eq hprogram hgaps hv le_rfl, h.label_eq hprogram hgaps hv (Nat.le_succ j)]
      exact (h.advances hprogram hgaps (by omega) (Nat.lt_succ_self j)).value_le v ⟨w, hv⟩
  -- the least label, and an iteration that has it
  obtain ⟨k, hk, hmin⟩ : ∃ k, 1 ≤ k ∧ ∀ i, 1 ≤ i →
      ((t k).worker w).value v ≤ ((t i).worker w).value v := by
    obtain ⟨k, hk, hmin⟩ := WellFounded.has_min
      (InvImage.wf (fun i => ((t i).worker w).value v) Nat.lt_wfRel.wf) (Set.Ici 1)
      Set.nonempty_Ici
    exact ⟨k, hk, fun i hi => not_lt.mp (hmin i hi)⟩
  exact ⟨k, fun i hi => le_antisymm (hle k hk i hi) (hmin i (hk.trans hi))⟩

/-- **The labels settle.** -/
theorem Rounds.exists_settled (h : Rounds job t) : ∃ k, SettledAt job t k := by
  have hone : ∀ w v, job.part.Mem w v → ∃ k, ∀ i, k ≤ i →
      ((t i).worker w).value v = ((t k).worker w).value v :=
    fun w v hv => h.exists_settled_vertex hprogram hgaps hv
  choose! K hK using hone
  let all := (Finset.range job.workers).sigma fun w => Finset.range (job.part.second w + 1)
  refine ⟨all.sup fun c => K c.1 c.2, fun i hi w v hv => ?_⟩
  have hmem : (⟨w, v⟩ : (_ : ℕ) × ℕ) ∈ all := Finset.mem_sigma.mpr
    ⟨Finset.mem_range.mpr hv.1, Finset.mem_range.mpr (Nat.lt_succ_of_le hv.2.2)⟩
  have hle : K w v ≤ all.sup fun c => K c.1 c.2 :=
    Finset.le_sup (f := fun c : (_ : ℕ) × ℕ => K c.1 c.2) hmem
  rw [hK w v hv i (hle.trans hi), hK w v hv _ hle]

/-! ## The law holds where the least ids get everywhere -/

theorem lawful_of_informed (hinformed : Informed job) : Lawful job :=
  fun _ h _ hsettled w v hv => (LabelRules.isLeast_component_iff
    (h.isLeast_heard hprogram hgaps hsettled hv)).mpr (hinformed w v hv)

theorem informed_of_lawful (hlawful : Lawful job) : Informed job := by
  intro w v hv
  obtain ⟨t, h⟩ := exists_rounds hgaps (freshProgram_of_eq hprogram)
  obtain ⟨k, hsettled⟩ := h.exists_settled hprogram hgaps
  exact (LabelRules.isLeast_component_iff (h.isLeast_heard hprogram hgaps hsettled hv)).mp
    (hlawful t h k hsettled w v hv)

/-- **Connected components settles at the least ids of the weak components
exactly where these get to all vertices.** -/
theorem lawful_iff_informed : Lawful job ↔ Informed job :=
  ⟨informed_of_lawful hprogram hgaps, lawful_of_informed hprogram hgaps⟩

end Labels

/-- Where all edges are inside the intervals, the least ids get everywhere. -/
theorem informed_of_inside
    (h : ∀ n ∈ x.numbered, home job.part n.1.src = home job.part n.1.dst) : Informed job := by
  intro w v hv
  have hne : (job.network.component v).Nonempty := ⟨v, .refl⟩
  refine ⟨sInf (job.network.component v), ?_, fun u hu => Nat.sInf_le hu⟩
  rw [Network.heard_eq_component h]
  exact Nat.sInf_mem hne

/-! ## One worker and two -/

/-- All vertices of the chain in one interval. -/
def wholeChain : IntervalPartition where
  intervals := [(0, 5)]
  start := rfl
  contiguous := by decide
  ordered := by decide
  vid := by decide

def chainTogether : Job chain where
  part := wholeChain
  covered e he := by
    have hall : ∀ e ∈ chain.edges, wholeChain.Mem 0 e.src ∧ wholeChain.Mem 0 e.dst := by
      decide
    exact ⟨⟨0, (hall e he).1⟩, 0, (hall e he).2⟩
  outedges w v := (loadBeforeUpdates chain wholeChain w).edges .outedge v
  added _ _ := List.Perm.refl _
  copied _ _ := true
  blank _ _ := 0

theorem loadable_wholeChain : Loadable chain wholeChain := by decide +kernel

/-- On one worker the chain gets its labels. -/
theorem lawful_chainTogether : Lawful chainTogether :=
  (lawful_iff_informed rfl loadable_wholeChain.noGaps).mpr
    (informed_of_inside (by decide +kernel))

/-- No edge of the chain goes to vertex 3, and the one from there goes to
vertex 2, which has another worker. -/
theorem chain_edges (n : EdgeWithValue ℕ × ℕ) (hn : n ∈ chain.numbered) :
    n.1.dst ≠ 3 ∧ ¬(home apart n.1.src = home apart n.1.dst ∧ n.1.src = 3) ∧
      (n.1.src = 3 → n.1.dst = 2) := by
  have hall : ∀ n ∈ chain.numbered, n.1.dst ≠ 3 ∧
      ¬(home apart n.1.src = home apart n.1.dst ∧ n.1.src = 3) ∧
        (n.1.src = 3 → n.1.dst = 2) := by decide +kernel
  exact hall n hn

/-- Vertex 3 hears of itself and of vertex 2. -/
theorem two_le_of_heard {m : ℕ} (hm : m ∈ chainApart.network.heard 3) : 2 ≤ m := by
  obtain ⟨u, hpath, hm⟩ := hm
  have hu : u = 3 := by
    rcases Relation.ReflTransGen.cases_tail hpath with heq | ⟨c, -, n, hn, ⟨-, hdst⟩ |
      ⟨htwo, hsrc, -⟩⟩
    · exact heq.symm
    · exact absurd hdst (chain_edges n hn).1
    · exact absurd ⟨htwo, hsrc⟩ (chain_edges n hn).2.1
  subst hu
  rcases hm with rfl | ⟨n, hn, ⟨hsrc, hdst⟩ | ⟨-, hdst⟩⟩
  · exact Nat.le_succ 2
  · exact ((chain_edges n hn).2.2 hsrc).ge.trans hdst.le
  · exact absurd hdst (chain_edges n hn).1

/-- **On two workers vertex 3 keeps another label**, though vertex 0 is in its
component: the graph can be loaded, and the labels settle elsewhere. -/
theorem not_lawful_chainApart : Loadable chain apart ∧ ¬Lawful chainApart := by
  refine ⟨loadable_chain, fun hlawful => ?_⟩
  obtain ⟨m, hm, hlower⟩ := informed_of_lawful rfl loadable_chain.noGaps hlawful 1 3
    (by decide)
  have hfirst : chainApart.network.Adjacent 3 2 :=
    ⟨(⟨3, 2, 0⟩, 2), (by decide : (⟨3, 2, 0⟩, 2) ∈ chain.numbered), Or.inl ⟨rfl, rfl⟩⟩
  have hsecond : chainApart.network.Adjacent 2 0 :=
    ⟨(⟨2, 0, 0⟩, 1), (by decide : (⟨2, 0, 0⟩, 1) ∈ chain.numbered), Or.inl ⟨rfl, rfl⟩⟩
  have hzero : m ≤ 0 := hlower ((Relation.ReflTransGen.single hfirst).tail hsecond)
  have htwo := two_le_of_heard hm
  omega

end Engine
