import Mathlib

/-!
# Labels that pass along edges

Vertices are labels themselves, and each vertex looks for the least label of
its component. It begins with the least one among itself and its neighbours;
then, round by round, it takes the least value of its edges and leaves its
label there. Some edges take labels both ways, the others from their source
to their destination only.

The labels settle: if they are the same after three more rounds, every vertex
has the least label that it can have heard of (`isLeast_heard`), which is the
least one of its component exactly where that one has reached it. Within a
round the endpoints of a two-way edge may be overwriting each other, so that
what the edge holds is not determined.
-/

namespace LabelRules

/-- A graph some of whose edges go both ways. -/
structure Network (α ε : Type*) where
  vertices : Set α
  edges : Set ε
  src : ε → α
  dst : ε → α
  /-- Whether labels go along it both ways. -/
  twoWay : ε → Prop
  src_mem : ∀ e ∈ edges, src e ∈ vertices
  dst_mem : ∀ e ∈ edges, dst e ∈ vertices

/-- The labels of the vertices, and what the edges hold. -/
structure Labeling (α ε : Type*) where
  value : α → α
  edge : ε → α

variable {α ε : Type*} (N : Network α ε)

namespace Network

/-- Neighbours, whatever the direction of the edge. -/
def Adjacent (u v : α) : Prop :=
  ∃ e ∈ N.edges, N.src e = u ∧ N.dst e = v ∨ N.src e = v ∧ N.dst e = u

/-- An edge takes the label of `u` to `v`. -/
def Flows (u v : α) : Prop :=
  ∃ e ∈ N.edges, N.src e = u ∧ N.dst e = v ∨ N.twoWay e ∧ N.src e = v ∧ N.dst e = u

/-- **The component of a vertex.** -/
def component (v : α) : Set α := {u | Relation.ReflTransGen N.Adjacent v u}

/-- **What a vertex can hear of**: the vertices whose labels get to it, and
their neighbours. -/
def heard (v : α) : Set α :=
  {c | ∃ u, Relation.ReflTransGen N.Flows u v ∧ (c = u ∨ N.Adjacent u c)}

variable {N}

theorem Adjacent.symm {u v : α} (h : N.Adjacent u v) : N.Adjacent v u := by
  obtain ⟨e, he, h | h⟩ := h
  · exact ⟨e, he, Or.inr h⟩
  · exact ⟨e, he, Or.inl h⟩

theorem Flows.adjacent {u v : α} (h : N.Flows u v) : N.Adjacent v u := by
  obtain ⟨e, he, h | ⟨-, h⟩⟩ := h
  · exact ⟨e, he, Or.inr h⟩
  · exact ⟨e, he, Or.inl h⟩

theorem self_mem_heard (v : α) : v ∈ N.heard v := ⟨v, .refl, Or.inl rfl⟩

theorem neighbor_mem_heard {v u : α} (h : N.Adjacent v u) : u ∈ N.heard v :=
  ⟨v, .refl, Or.inr h⟩

/-- What `u` hears of goes on to `v`. -/
theorem heard_mono {u v : α} (h : N.Flows u v) : N.heard u ⊆ N.heard v :=
  fun _ ⟨t, hpath, hc⟩ => ⟨t, hpath.tail h, hc⟩

/-- The endpoints of a two-way edge hear of the same. -/
theorem heard_eq_of_twoWay {e : ε} (he : e ∈ N.edges) (h : N.twoWay e) :
    N.heard (N.src e) = N.heard (N.dst e) :=
  Set.Subset.antisymm (heard_mono ⟨e, he, Or.inl ⟨rfl, rfl⟩⟩)
    (heard_mono ⟨e, he, Or.inr ⟨h, rfl, rfl⟩⟩)

theorem heard_subset_component (v : α) : N.heard v ⊆ N.component v := by
  rintro c ⟨u, hpath, hc⟩
  have hback : Relation.ReflTransGen N.Adjacent v u := by
    clear hc
    induction hpath using Relation.ReflTransGen.head_induction_on with
    | refl => exact .refl
    | head h _ ih => exact ih.tail h.adjacent
  rcases hc with rfl | hc
  · exact hback
  · exact hback.tail hc

/-- Where all edges go both ways a vertex hears of its whole component. -/
theorem heard_eq_component (h : ∀ e ∈ N.edges, N.twoWay e) (v : α) :
    N.heard v = N.component v := by
  refine Set.Subset.antisymm (heard_subset_component v) fun c hc => ?_
  refine ⟨c, ?_, Or.inl rfl⟩
  induction hc with
  | refl => exact .refl
  | tail _ hadj ih =>
    obtain ⟨e, he, hends | hends⟩ := hadj
    · exact .head ⟨e, he, Or.inr ⟨h e he, hends⟩⟩ ih
    · exact .head ⟨e, he, Or.inl hends⟩ ih

/-- What flows to a vertex comes from vertices. -/
theorem mem_of_flows {u v : α} (hpath : Relation.ReflTransGen N.Flows u v)
    (hv : v ∈ N.vertices) : u ∈ N.vertices := by
  induction hpath using Relation.ReflTransGen.head_induction_on with
  | refl => exact hv
  | head h _ _ =>
    obtain ⟨e, he, ⟨rfl, -⟩ | ⟨-, -, rfl⟩⟩ := h
    · exact N.src_mem e he
    · exact N.dst_mem e he

end Network

open Network

variable [LinearOrder α]

/-! ## The rounds -/

/-- **The first round**: a vertex takes the least label around it, and leaves
it in the edges that it is the source of. -/
structure Starts (l : Labeling α ε) : Prop where
  /-- A vertex has the least of its own id and its neighbours'. -/
  value : ∀ v ∈ N.vertices, IsLeast {u | u = v ∨ N.Adjacent v u} (l.value v)
  /-- An edge has the label of its source. -/
  edge : ∀ e ∈ N.edges, l.edge e = l.value (N.src e)

/-- **A later round**: the labels get less as the edges tell, and where a
vertex has a lesser label than a two-way edge the edge has a lesser one
afterwards. -/
structure Advances (l l' : Labeling α ε) : Prop where
  /-- No label rises. -/
  value_le : ∀ v ∈ N.vertices, l'.value v ≤ l.value v
  /-- A vertex takes over what is smaller on its edges … -/
  le_edge : ∀ e ∈ N.edges, l'.value (N.src e) ≤ l.edge e ∧ l'.value (N.dst e) ≤ l.edge e
  /-- … and nothing else. -/
  value_mem : ∀ v ∈ N.vertices, l'.value v = l.value v ∨
    ∃ e ∈ N.edges, (N.src e = v ∨ N.dst e = v) ∧ l'.value v = l.edge e
  /-- An edge in one direction has the label of its source. -/
  oneWay : ∀ e ∈ N.edges, ¬N.twoWay e → l'.edge e = l'.value (N.src e)
  /-- One in both has the label of either end, a smaller one than before unless
  both ends agree with it. -/
  twoWay : ∀ e ∈ N.edges, N.twoWay e →
    (l'.edge e = l'.value (N.src e) ∨ l'.edge e = l'.value (N.dst e)) ∧
      (l'.edge e < l.edge e ∨ l'.value (N.src e) = l.edge e ∧ l'.value (N.dst e) = l.edge e)

/-- **What holds after every round.** -/
structure Sound (l : Labeling α ε) : Prop where
  /-- The label of a vertex is an id that it can hear of … -/
  value : ∀ v ∈ N.vertices, l.value v ∈ N.heard v
  /-- … and that of an edge one that both ends can hear of. -/
  edge : ∀ e ∈ N.edges, l.edge e ∈ N.heard (N.src e) ∧ l.edge e ∈ N.heard (N.dst e)
  /-- It is no larger than the id of the vertex or of a neighbour. -/
  below : ∀ v ∈ N.vertices, ∀ u, u = v ∨ N.Adjacent v u → l.value v ≤ u

variable {N} {l l' : Labeling α ε}

theorem Starts.sound (h : Starts N l) : Sound N l where
  value v hv := by
    rcases (h.value v hv).1 with heq | hadj
    · rw [heq]
      exact self_mem_heard v
    · exact neighbor_mem_heard hadj
  edge e he := by
    have hsrc : l.value (N.src e) ∈ N.heard (N.src e) := by
      rcases (h.value _ (N.src_mem e he)).1 with heq | hadj
      · rw [heq]
        exact self_mem_heard _
      · exact neighbor_mem_heard hadj
    rw [h.edge e he]
    exact ⟨hsrc, heard_mono ⟨e, he, Or.inl ⟨rfl, rfl⟩⟩ hsrc⟩
  below v hv _ hu := (h.value v hv).2 hu

/-- **A round keeps what holds**: the labels are ids that can be heard of, and
that of a vertex is no larger than its own id or a neighbour's. -/
theorem Sound.advances (h : Sound N l) (hadv : Advances N l l') : Sound N l' := by
  have hvalue : ∀ v ∈ N.vertices, l'.value v ∈ N.heard v := by
    intro v hv
    rcases hadv.value_mem v hv with heq | ⟨e, he, rfl | rfl, heq⟩
    · rw [heq]
      exact h.value v hv
    · rw [heq]
      exact (h.edge e he).1
    · rw [heq]
      exact (h.edge e he).2
  refine ⟨hvalue, fun e he => ?_, fun v hv u hu => (hadv.value_le v hv).trans (h.below v hv u hu)⟩
  have hsrc := hvalue _ (N.src_mem e he)
  have hdst := hvalue _ (N.dst_mem e he)
  by_cases htwo : N.twoWay e
  · have hsame := heard_eq_of_twoWay he htwo
    rcases (hadv.twoWay e he htwo).1 with heq | heq
    · rw [heq, ← hsame]
      exact ⟨hsrc, hsrc⟩
    · rw [heq, hsame]
      exact ⟨hdst, hdst⟩
  · rw [hadv.oneWay e he htwo]
    exact ⟨hsrc, heard_mono ⟨e, he, Or.inl ⟨rfl, rfl⟩⟩ hsrc⟩

/-! ## Settled labels -/

/-- The labels are the same. -/
def SameValues (N : Network α ε) (l l' : Labeling α ε) : Prop :=
  ∀ v ∈ N.vertices, l'.value v = l.value v

section Settled

variable {l₁ l₂ l₃ : Labeling α ε} (h₁ : Advances N l l₁) (h₂ : Advances N l₁ l₂)
  (h₃ : Advances N l₂ l₃) (hsame₁ : SameValues N l l₁) (hsame₂ : SameValues N l l₂)
  (hsame₃ : SameValues N l l₃)
include h₁ h₂ h₃ hsame₁ hsame₂ hsame₃

/-- The endpoints of a two-way edge have the same label: the edge holds one of
the two, and in the next round the lesser one if they are different. -/
theorem value_eq_of_twoWay {e : ε} (he : e ∈ N.edges) (htwo : N.twoWay e) :
    l.value (N.src e) = l.value (N.dst e) := by
  have hsrc := N.src_mem e he
  have hdst := N.dst_mem e he
  obtain ⟨hcases₁, -⟩ := h₁.twoWay e he htwo
  obtain ⟨hcases₂, hless₂⟩ := h₂.twoWay e he htwo
  have hle₂ := h₂.le_edge e he
  have hle₃ := h₃.le_edge e he
  rw [hsame₁ _ hsrc, hsame₁ _ hdst] at hcases₁
  rw [hsame₂ _ hsrc, hsame₂ _ hdst] at hcases₂ hless₂ hle₂
  rw [hsame₃ _ hsrc, hsame₃ _ hdst] at hle₃
  rcases hless₂ with hless | ⟨hs, hd⟩
  · -- the edge holds the label of one endpoint, and afterwards that of the other
    refine le_antisymm ?_ ?_
    · rcases hcases₁ with heq | heq
      · rcases hcases₂ with heq' | heq'
        · exact absurd hless (by rw [heq, heq']; exact lt_irrefl _)
        · exact hle₃.1.trans (le_of_eq heq')
      · exact hle₂.1.trans (le_of_eq heq)
    · rcases hcases₁ with heq | heq
      · exact hle₂.2.trans (le_of_eq heq)
      · rcases hcases₂ with heq' | heq'
        · exact hle₃.2.trans (le_of_eq heq')
        · exact absurd hless (by rw [heq, heq']; exact lt_irrefl _)
  · exact hs.trans hd.symm

/-- A label that flows is not less than what is there. -/
theorem value_le_of_flows {u v : α} (h : N.Flows u v) : l.value v ≤ l.value u := by
  obtain ⟨e, he, hends⟩ := h
  have hsrc := N.src_mem e he
  have hdst := N.dst_mem e he
  by_cases htwo : N.twoWay e
  · have heq := value_eq_of_twoWay h₁ h₂ h₃ hsame₁ hsame₂ hsame₃ he htwo
    rcases hends with ⟨rfl, rfl⟩ | ⟨-, rfl, rfl⟩
    · exact heq.ge
    · exact heq.le
  · obtain ⟨rfl, rfl⟩ := hends.resolve_right fun h => htwo h.1
    have hle := (h₂.le_edge e he).2
    rw [h₁.oneWay e he htwo, hsame₁ _ hsrc, hsame₂ _ hdst] at hle
    exact hle

/-- **Settled labels are the least ones heard of.** -/
theorem isLeast_heard (h : Sound N l) {v : α} (hv : v ∈ N.vertices) :
    IsLeast (N.heard v) (l.value v) := by
  refine ⟨h.value v hv, ?_⟩
  rintro c ⟨u, hpath, hc⟩
  have hle : l.value v ≤ l.value u := by
    clear hc hv
    induction hpath with
    | refl => exact le_rfl
    | tail _ hflow ih =>
      exact (value_le_of_flows h₁ h₂ h₃ hsame₁ hsame₂ hsame₃ hflow).trans ih
  exact hle.trans (h.below u (mem_of_flows hpath hv) c hc)

end Settled

/-- The least label heard of is the least one of the component where the
latter has been heard of. -/
theorem isLeast_component_iff {v a : α} (h : IsLeast (N.heard v) a) :
    IsLeast (N.component v) a ↔ ∃ m ∈ N.heard v, m ∈ lowerBounds (N.component v) := by
  constructor
  · exact fun hleast => ⟨a, h.1, hleast.2⟩
  · rintro ⟨m, hm, hlower⟩
    have hmem := heard_subset_component v h.1
    obtain rfl : a = m := le_antisymm (h.2 hm) (hlower hmem)
    exact ⟨hmem, hlower⟩

end LabelRules
