import DpdkGraph.QuickSort
import DpdkGraph.TopOf

/-!
# The top list of a worker

`get_top_vertices` reads the vertex file of a worker in windows of about a
million values and keeps the largest `ntop` of those read so far. The first
window is sorted and cut off; from each later one it takes the values above
the smallest that it keeps, sorts them and merges the two lists. The size of
a window is a parameter here, `getTopVerticesIn`.

The ids are the places in the file: the worker's own numbers.

Where it returns (`isSome_getTopVerticesIn_iff`), the result lists the
largest values of the file (`getTopVerticesIn_spec`).
-/

namespace TopVertices

variable {V : Type} [LinearOrder V]

/-- `vertex_value`. -/
structure VertexValue (V : Type) where
  /-- The vertex. -/
  vertex : ℕ
  /-- Its value. -/
  value : V
deriving Repr, DecidableEq

/-- `vertex_value_greater`. -/
def vertexValueGreater (a b : VertexValue V) : Bool := decide (b.value < a.value)

/-- `merge`. The first round compares the elements under both pointers
before it asks whether there are any: an empty first list has no meaning,
and under the pointer into an empty second one is what its buffer holds
there, `stale`. -/
def merge {E : Type} (f : E → E → Bool) (stale : E) : List E → List E → Option (List E)
  | [], _ => none
  | a :: S₁, [] => if f stale a then none else some (a :: S₁)
  | a :: S₁, b :: S₂ => some (List.merge (a :: S₁) (b :: S₂) fun x y => !f y x)

/-- `readwindow`. -/
def readwindow : ℕ := 1024 * 1024

/-- The values of a window with their places in the file. -/
def entries (idx : ℕ) (vals : List V) : List (VertexValue V) :=
  (vals.zipIdx idx).map fun q => ⟨q.2, q.1⟩

/-- What the loop over the windows keeps. -/
structure Selection (V : Type) where
  /-- `topbuf`. -/
  topbuf : List (VertexValue V)
  /-- `buffer_idxs[0]`, from the last window that had a value for it. -/
  stale : VertexValue V
  /-- How many random numbers have been drawn. -/
  drawn : ℕ

section Loop

variable (rand : ℕ → ℕ) (size ntop : ℕ)

/-- `quickSort` of the entries of a window. -/
def sorted (drawn : ℕ) (l : List (VertexValue V)) : List (VertexValue V) × ℕ :=
  Qsort.quickSort vertexValueGreater rand l.length drawn l

/-- The first window: nothing to merge, just copy. More than the buffer
holds cannot be copied. -/
def first [Zero V] (vals : List V) : Option (Selection V) :=
  if ntop ≤ size then
    some ⟨(sorted rand 0 (entries 0 vals)).1.take ntop,
      (sorted rand 0 (entries 0 vals)).1.headD ⟨0, 0⟩, (sorted rand 0 (entries 0 vals)).2⟩
  else none

/-- `minima`: the smallest value that is kept. -/
def Selection.minima (s : Selection V) : V := (s.topbuf.getD (ntop - 1) s.stale).value

/-- The entries of a later window that are considered. -/
def Selection.considered (s : Selection V) (idx : ℕ) (vals : List V) :
    List (VertexValue V) :=
  (entries idx vals).filter fun e => decide (s.minima ntop < e.value)

/-- A later window. -/
def Selection.window (s : Selection V) (idx : ℕ) (vals : List V) :
    Option (Selection V) :=
  (merge vertexValueGreater s.stale s.topbuf
      ((sorted rand s.drawn (s.considered ntop idx vals)).1.take ntop)).map fun mergearr =>
    ⟨mergearr.take ntop,
      (sorted rand s.drawn (s.considered ntop idx vals)).1.headD s.stale,
      (sorted rand s.drawn (s.considered ntop idx vals)).2⟩

/-- The later windows; the fuel covers them. -/
def windows : ℕ → Selection V → ℕ → List V → Option (Selection V)
  | 0, s, _, _ => some s
  | fuel + 1, s, idx, vals =>
    if vals = [] then some s
    else (s.window rand ntop idx (vals.take size)).bind fun s' =>
      windows fuel s' (idx + size) (vals.drop size)

/-- `st` behind the last window of a file of `n` values. -/
def lastStart (n : ℕ) : ℕ := (n + size - 1) / size * size

/-- `get_top_vertices` with windows of `size` values, for the values in the
vertex file. The loop runs over a `vid_t`: without a vertex, or with windows
of none, or where `st` wraps around before it is behind the file, it does not
end there. -/
def getTopVerticesIn [Zero V] (vals : List V) : Option (List (VertexValue V)) :=
  if vals = [] ∨ size = 0 ∨ 2 ^ 32 ≤ lastStart size vals.length then none
  else
    ((first rand size (min ntop vals.length) (vals.take size)).bind fun s =>
      windows rand size (min ntop vals.length) vals.length s size
        (vals.drop size)).map Selection.topbuf

/-- **`get_top_vertices`**. -/
def getTopVertices [Zero V] (vals : List V) : Option (List (VertexValue V)) :=
  getTopVerticesIn rand readwindow ntop vals

end Loop

/-! ## One window -/

section Entries

omit [LinearOrder V]

theorem entries_append (idx : ℕ) (vals vals' : List V) :
    entries idx (vals ++ vals') = entries idx vals ++ entries (idx + vals.length) vals' := by
  unfold entries
  rw [List.zipIdx_append, List.map_append]

@[simp] theorem length_entries (idx : ℕ) (vals : List V) :
    (entries idx vals).length = vals.length := by
  unfold entries
  rw [List.length_map, List.length_zipIdx]

end Entries

/-- The order of the sort: the largest value comes first. -/
def rank (e : VertexValue V) : Vᵒᵈ := OrderDual.toDual e.value

theorem vertexValueGreater_iff (a b : VertexValue V) :
    vertexValueGreater a b = true ↔ rank a < rank b := by
  unfold vertexValueGreater rank
  rw [decide_eq_true_eq]
  exact OrderDual.toDual_lt_toDual.symm

/-- The sort puts the largest first. -/
theorem sorted_spec (rand : ℕ → ℕ) (drawn : ℕ) (l : List (VertexValue V)) :
    (sorted rand drawn l).1.Perm l
      ∧ (sorted rand drawn l).1.Pairwise fun a b => b.value ≤ a.value := by
  obtain ⟨hperm, hsorted⟩ :=
    Qsort.quickSort_spec vertexValueGreater_iff rand l.length drawn l le_rfl
  exact ⟨hperm, hsorted.imp fun h => OrderDual.toDual_le_toDual.mp h⟩

/-- Two lists of largest values are merged into one. -/
theorem merge_spec {l₁ l₂ : List (VertexValue V)}
    {stale : VertexValue V} (h₁ : l₁.Pairwise fun a b => b.value ≤ a.value)
    (h₂ : l₂.Pairwise fun a b => b.value ≤ a.value) (hne : l₁ ≠ [])
    (hstale : ∀ a ∈ l₁.head?, stale.value ≤ a.value) :
    ∃ l, merge vertexValueGreater stale l₁ l₂ = some l ∧ l.Perm (l₁ ++ l₂)
      ∧ l.Pairwise fun a b => b.value ≤ a.value := by
  obtain ⟨a, S₁, rfl⟩ := List.exists_cons_of_ne_nil hne
  cases l₂ with
  | nil =>
    have hnot : ¬vertexValueGreater stale a = true := by
      unfold vertexValueGreater
      rw [decide_eq_true_eq]
      exact not_lt.mpr (hstale a rfl)
    refine ⟨a :: S₁, if_neg hnot, ?_, h₁⟩
    rw [List.append_nil]
  | cons b S₂ =>
    have hle : ∀ x y : VertexValue V, (!vertexValueGreater y x) = true
        ↔ y.value ≤ x.value := by
      intro x y
      unfold vertexValueGreater
      rw [Bool.not_eq_true', decide_eq_false_iff_not, not_lt]
    have htrans : ∀ x y z : VertexValue V, (!vertexValueGreater y x) = true →
        (!vertexValueGreater z y) = true → (!vertexValueGreater z x) = true :=
      fun x y z hxy hyz => (hle x z).mpr (((hle y z).mp hyz).trans ((hle x y).mp hxy))
    have htotal : ∀ x y : VertexValue V,
        (!vertexValueGreater y x || !vertexValueGreater x y) = true := by
      intro x y
      rw [Bool.or_eq_true]
      exact (le_total y.value x.value).imp (hle x y).mpr (hle y x).mpr
    refine ⟨_, rfl, List.merge_perm_append _, ?_⟩
    exact (List.pairwise_merge htrans htotal _ _ (h₁.imp fun h => (hle _ _).mpr h)
      (h₂.imp fun h => (hle _ _).mpr h)).imp fun h => (hle _ _).mp h

/-- The first of a sorted list is the largest. -/
theorem le_head {l : List (VertexValue V)} (h : l.Pairwise fun a b => b.value ≤ a.value)
    {a b : VertexValue V} (ha : a ∈ l.head?) (hb : b ∈ l) : b.value ≤ a.value := by
  cases l with
  | nil => exact absurd hb List.not_mem_nil
  | cons x l =>
    have hxa : x = a := Option.some.inj ha
    subst hxa
    rcases List.mem_cons.mp hb with rfl | hb
    · exact le_rfl
    · exact (List.pairwise_cons.mp h).1 b hb

/-- The last of a sorted list is the smallest. -/
theorem getD_le {l : List (VertexValue V)} (h : l.Pairwise fun a b => b.value ≤ a.value)
    {a : VertexValue V} (ha : a ∈ l) (d : VertexValue V) :
    (l.getD (l.length - 1) d).value ≤ a.value := by
  obtain ⟨i, hi, rfl⟩ := List.getElem_of_mem ha
  have hlast : l.length - 1 < l.length := by omega
  rw [List.getD_eq_getElem _ _ hlast]
  rcases (show i ≤ l.length - 1 by omega).eq_or_lt with heq | hlt
  · subst heq
    exact le_rfl
  · exact List.pairwise_iff_getElem.mp h i (l.length - 1) hi hlast hlt

/-- **What is kept of the values so far**: the buffer has the largest, and one
more cell that is stale. -/
structure Kept (ntop : ℕ) (s : Selection V) (vals : List V) : Prop where
  /-- The largest values. -/
  top : TopOf VertexValue.value ntop s.topbuf (entries 0 vals)
  /-- There were enough. -/
  full : s.topbuf.length = ntop
  /-- The stale cell is not above them. -/
  stale : ∀ a ∈ s.topbuf.head?, s.stale.value ≤ a.value

/-- What is left out of a window is not above what is kept. -/
theorem Kept.le_countP {ntop : ℕ} {s : Selection V} {vals : List V}
    (h : Kept ntop s vals) {c : VertexValue V} (hc : c.value ≤ s.minima ntop)
    (more : List (VertexValue V)) :
    ntop ≤ (entries 0 vals ++ more).countP fun a => decide (c.value ≤ a.value) := by
  obtain ⟨rest, hrest, -⟩ := h.top.split
  have hall : s.topbuf.countP (fun a => decide (c.value ≤ a.value)) = ntop := by
    rw [List.countP_eq_length.mpr, h.full]
    intro a ha
    refine decide_eq_true (hc.trans ?_)
    unfold Selection.minima
    rw [← h.full]
    exact getD_le h.top.sorted ha _
  rw [List.countP_append, ← hrest.countP_eq, List.countP_append, hall]
  omega

/-- **One window**: the largest values so far are kept. Those of its values that
are above the smallest of them are sorted, and merged with them. -/
theorem Kept.window {ntop : ℕ} {s : Selection V} {vals : List V} (h : Kept ntop s vals)
    (hpos : 0 < ntop) (rand : ℕ → ℕ) (vals' : List V) :
    ∃ s', s.window rand ntop vals.length vals' = some s'
      ∧ Kept ntop s' (vals ++ vals') := by
  obtain ⟨hperm, hsorted⟩ := sorted_spec rand s.drawn (s.considered ntop vals.length vals')
  unfold Selection.window
  generalize (sorted rand s.drawn (s.considered ntop vals.length vals')).2 = drawn
  generalize (sorted rand s.drawn (s.considered ntop vals.length vals')).1 = S
    at hperm hsorted
  have hne : s.topbuf ≠ [] := by
    rw [← List.length_pos_iff, h.full]
    exact hpos
  obtain ⟨l, hl, hlperm, hlsorted⟩ := merge_spec h.top.sorted
    (hsorted.sublist (List.take_sublist ntop S)) hne h.stale
  rw [hl]
  have htop : TopOf VertexValue.value ntop (l.take ntop)
      (entries 0 vals ++ s.considered ntop vals.length vals') :=
    TopOf.of_tops (topOf_take hlperm hlsorted) h.top (topOf_take hperm hsorted)
  -- the entries that were not considered are left out
  have hout : ∀ c ∈ (entries vals.length vals').filter
        (fun e => !decide (s.minima ntop < e.value)),
      ntop ≤ (entries 0 vals ++ s.considered ntop vals.length vals').countP
        fun a => decide (c.value ≤ a.value) := by
    intro c hc
    have hnot := (List.mem_filter.mp hc).2
    rw [Bool.not_eq_true', decide_eq_false_iff_not, not_lt] at hnot
    exact h.le_countP hnot _
  have hall : TopOf VertexValue.value ntop (l.take ntop) (entries 0 (vals ++ vals')) := by
    refine (htop.append hout).perm ?_
    rw [entries_append, List.append_assoc, Nat.zero_add]
    exact List.Perm.append_left _ (List.filter_append_perm _ _)
  refine ⟨_, rfl, hall, ?_, fun a htake => ?_⟩
  · show (l.take ntop).length = ntop
    rw [List.length_take, hlperm.length_eq, List.length_append, h.full]
    omega
  · have ha : a ∈ l.head? := by
      have htake : a ∈ (l.take ntop).head? := htake
      rw [List.head?_take, if_neg hpos.ne'] at htake
      exact htake
    clear htake
    show (S.headD s.stale).value ≤ a.value
    cases S with
    | nil =>
      obtain ⟨b, topbuf, hb⟩ := List.exists_cons_of_ne_nil hne
      have hstale := h.stale b (by rw [hb]; rfl)
      refine hstale.trans (le_head hlsorted ha (hlperm.mem_iff.mpr ?_))
      rw [hb]
      exact List.mem_append_left _ List.mem_cons_self
    | cons x S =>
      refine le_head hlsorted ha (hlperm.mem_iff.mpr (List.mem_append_right _ ?_))
      obtain ⟨n, rfl⟩ : ∃ n, ntop = n + 1 := ⟨ntop - 1, by omega⟩
      exact List.mem_cons_self

/-! ## All windows -/

/-- The later windows: what is kept after each is the best of the values so far.
The induction is on the fuel, of which the values that are left are no more. -/
theorem Kept.windows {ntop : ℕ} {s : Selection V} {vals rest : List V}
    (h : Kept ntop s vals) (hpos : 0 < ntop ∨ rest = []) (rand : ℕ → ℕ) {size fuel : ℕ}
    (hsize : 0 < size) (hfuel : rest.length ≤ fuel) :
    ∃ s', windows rand size ntop fuel s vals.length rest = some s'
      ∧ Kept ntop s' (vals ++ rest) := by
  induction fuel generalizing s vals rest with
  | zero =>
    obtain rfl : rest = [] := List.length_eq_zero_iff.mp (by omega)
    refine ⟨s, rfl, ?_⟩
    rw [List.append_nil]
    exact h
  | succ fuel ih =>
    unfold TopVertices.windows
    by_cases hrest : rest = []
    · subst hrest
      refine ⟨s, rfl, ?_⟩
      rw [List.append_nil]
      exact h
    · rw [if_neg hrest]
      have hpos := hpos.resolve_right hrest
      obtain ⟨s₁, hs₁, hkept⟩ := h.window hpos rand (rest.take size)
      rw [hs₁, Option.bind_some]
      -- the last window may be shorter than the others
      by_cases hmore : rest.drop size = []
      · have htake : rest.take size = rest := by
          have := List.take_append_drop size rest
          rwa [hmore, List.append_nil] at this
        rw [hmore]
        rw [htake] at hkept
        refine ⟨s₁, ?_, hkept⟩
        cases fuel with
        | zero => rfl
        | succ fuel => exact if_pos rfl
      · -- a whole window, and there is more behind it
        have hlong : size < rest.length := by
          by_contra hle
          exact hmore (List.drop_eq_nil_of_le (Nat.not_lt.mp hle))
        have hlength : vals.length + size
            = (vals ++ rest.take size).length := by
          rw [List.length_append, List.length_take, min_eq_left hlong.le]
        rw [hlength, ← List.take_append_drop size rest, ← List.append_assoc,
          List.take_append_drop size rest]
        refine ih hkept (Or.inl hpos) ?_
        rw [List.length_drop]
        omega

section Whole

variable [Zero V] (rand : ℕ → ℕ) {size ntop : ℕ} {vals : List V}

/-- **The files for which `get_top_vertices` returns**: there is a value,
the loop counter suffices, the first window has as many values as are
copied, and it is the only one when none is asked for. -/
structure ListableIn (size ntop n : ℕ) : Prop where
  /-- There is a value. -/
  pos : 0 < n
  /-- A window has a value. -/
  window : 0 < size
  /-- The loop counter suffices. -/
  vid : lastStart size n < 2 ^ 32
  /-- The buffer holds what is copied. -/
  buffer : min ntop n ≤ size
  /-- A merge has something to compare. -/
  asked : 0 < ntop ∨ n ≤ size

/-- With the windows that the code has. -/
abbrev Listable (ntop n : ℕ) : Prop := ListableIn readwindow ntop n

/-- What the first window leaves. -/
theorem first_spec (h : ntop ≤ size) (hntop : ntop ≤ vals.length) :
    ∃ s, first rand size ntop (vals.take size) = some s
      ∧ Kept ntop s (vals.take size) := by
  obtain ⟨hperm, hsorted⟩ := sorted_spec rand 0 (entries 0 (vals.take size))
  unfold first
  rw [if_pos h]
  refine ⟨_, rfl, topOf_take hperm hsorted, ?_, fun a ha => ?_⟩
  · show ((sorted rand 0 (entries 0 (vals.take size))).1.take ntop).length = ntop
    rw [List.length_take, hperm.length_eq, length_entries, List.length_take]
    omega
  · have ha : a ∈ ((sorted rand 0 (entries 0 (vals.take size))).1.take ntop).head? := ha
    rw [List.head?_take] at ha
    split at ha
    · exact absurd ha (Option.not_mem_none a)
    · show ((sorted rand 0 (entries 0 (vals.take size))).1.headD ⟨0, 0⟩).value ≤ a.value
      rw [List.headD_eq_head?_getD, Option.mem_def.mp ha]
      exact le_rfl

/-- **The list of a worker has the largest values of its file**, whatever the
pivots of the sorts are. -/
theorem getTopVerticesIn_spec (h : ListableIn size ntop vals.length) :
    ∃ l, getTopVerticesIn rand size ntop vals = some l
      ∧ TopOf VertexValue.value ntop l (entries 0 vals) := by
  have hne : vals ≠ [] := List.length_pos_iff.mp h.pos
  have hbound : ¬(vals = [] ∨ size = 0 ∨ 2 ^ 32 ≤ lastStart size vals.length) := by
    rintro (hnil | hzero | hle)
    · exact hne hnil
    · exact h.window.ne' hzero
    · exact absurd h.vid (Nat.not_lt.mpr hle)
  obtain ⟨s, hs, hkept⟩ := first_spec rand h.buffer (min_le_right ntop vals.length)
  unfold getTopVerticesIn
  rw [if_neg hbound, hs, Option.bind_some]
  by_cases hlong : vals.length ≤ size
  · rw [List.drop_eq_nil_of_le hlong]
    rw [List.take_of_length_le hlong] at hkept
    refine ⟨s.topbuf, ?_, TopOf.of_min (by rw [length_entries]; exact hkept.top)⟩
    obtain ⟨n, hn⟩ : ∃ n, vals.length = n + 1 := ⟨vals.length - 1, by have := h.pos; omega⟩
    rw [hn]
    rfl
  · have hlength : (vals.take size).length = size := by
      rw [List.length_take]
      omega
    have hpos : 0 < min ntop vals.length ∨ vals.drop size = [] :=
      Or.inl (lt_min (h.asked.resolve_right hlong) h.pos)
    have hfuel : (vals.drop size).length ≤ vals.length := by
      rw [List.length_drop]
      exact Nat.sub_le _ _
    obtain ⟨s', hs', hkept'⟩ := hkept.windows hpos rand h.window hfuel
    rw [hlength] at hs'
    rw [hs']
    rw [List.take_append_drop] at hkept'
    exact ⟨s'.topbuf, rfl, TopOf.of_min (by rw [length_entries]; exact hkept'.top)⟩

theorem getTopVertices_spec (h : Listable ntop vals.length) :
    ∃ l, getTopVertices rand ntop vals = some l
      ∧ TopOf VertexValue.value ntop l (entries 0 vals) :=
  getTopVerticesIn_spec rand h

/-- **It returns for no other file**: without a value, or with a first window
that has too few, it reads what is not there. -/
theorem isSome_getTopVerticesIn_iff :
    (getTopVerticesIn rand size ntop vals).isSome ↔ ListableIn size ntop vals.length := by
  refine ⟨fun h => ?_, fun h => ?_⟩
  · unfold getTopVerticesIn at h
    split at h
    · exact absurd h Bool.false_ne_true
    · next hbound =>
      rw [not_or, not_or] at hbound
      rw [Option.isSome_map] at h
      obtain ⟨s', hs'⟩ := Option.isSome_iff_exists.mp h
      obtain ⟨s, hs, hs'⟩ := Option.bind_eq_some_iff.mp hs'
      have hpos := List.length_pos_iff.mpr hbound.1
      unfold first at hs
      split at hs
      · next hbuffer =>
        refine ⟨hpos, Nat.pos_of_ne_zero hbound.2.1, Nat.not_le.mp hbound.2.2, hbuffer, ?_⟩
        by_contra hnone
        rw [not_or, Nat.not_lt, Nat.not_le] at hnone
        obtain rfl : ntop = 0 := by omega
        -- the second window has nothing to merge with
        rw [Option.some.injEq] at hs
        subst hs
        have hdrop : vals.drop size ≠ [] := by
          rw [← List.length_pos_iff, List.length_drop]
          omega
        obtain ⟨n, hn⟩ : ∃ n, vals.length = n + 1 := ⟨vals.length - 1, by omega⟩
        rw [hn] at hs'
        unfold TopVertices.windows at hs'
        rw [if_neg hdrop] at hs'
        obtain ⟨s₂, hs₂, -⟩ := Option.bind_eq_some_iff.mp hs'
        unfold Selection.window at hs₂
        obtain ⟨l, hl, -⟩ := Option.map_eq_some_iff.mp hs₂
        rw [Nat.zero_min, List.take_zero] at hl
        exact absurd hl.symm (Option.some_ne_none l)
      · exact absurd hs.symm (Option.some_ne_none s)
  · obtain ⟨l, hl, -⟩ := getTopVerticesIn_spec rand h
    rw [hl]
    rfl

theorem isSome_getTopVertices_iff :
    (getTopVertices rand ntop vals).isSome ↔ Listable ntop vals.length :=
  isSome_getTopVerticesIn_iff rand

/-! ## What is asked for -/

/-- **The largest entries of a file**: as many as are asked for or there are,
the largest first, no vertex twice and each with its own value. -/
structure Best (ntop : ℕ) (vals : List V) (l : List (VertexValue V)) : Prop where
  top : TopOf VertexValue.value ntop l (entries 0 vals)
  /-- No vertex is listed twice. -/
  nodup : (l.map VertexValue.vertex).Nodup
  /-- A vertex is listed with its own value. -/
  own : ∀ e ∈ l, vals[e.vertex]? = some e.value

omit [LinearOrder V] [Zero V] in
/-- The entries of a file are its places. -/
theorem map_vertex_entries (idx : ℕ) (vals : List V) :
    (entries idx vals).map VertexValue.vertex = List.range' idx vals.length := by
  unfold entries
  rw [List.map_map, ← List.zipIdx_map_snd idx vals]
  rfl

omit [LinearOrder V] [Zero V] in
theorem getElem?_of_mem_entries {e : VertexValue V} (h : e ∈ entries 0 vals) :
    vals[e.vertex]? = some e.value := by
  unfold entries at h
  obtain ⟨q, hq, rfl⟩ := List.mem_map.mp h
  exact List.mem_zipIdx_iff_getElem?.mp hq

omit [Zero V] in
/-- The largest entries are different places of the file. -/
theorem best_of_topOf {l : List (VertexValue V)}
    (h : TopOf VertexValue.value ntop l (entries 0 vals)) : Best ntop vals l where
  top := h
  nodup := by
    obtain ⟨rest, hperm, -⟩ := h.split
    have hall : ((l ++ rest).map VertexValue.vertex).Nodup := by
      rw [(hperm.map VertexValue.vertex).nodup_iff, map_vertex_entries]
      exact List.nodup_range'
    rw [List.map_append] at hall
    exact (List.nodup_append.mp hall).1
  own e he := getElem?_of_mem_entries (h.subset he)

omit [LinearOrder V] [Zero V] in
/-- With windows of `2 ^ 20` values the loop counter suffices for all but the
last `2 ^ 20` numbers of values. -/
theorem lastStart_readwindow_lt_iff {n : ℕ} :
    lastStart readwindow n < 2 ^ 32 ↔ n ≤ 2 ^ 32 - 2 ^ 20 := by
  unfold lastStart readwindow
  omega

/-- **Whatever the size of a window**, as long as the loop counter does not
wrap around, the largest entries are returned, if there is a value, the first
window has as many as are copied from it, and it is the only one when none is
asked for. -/
theorem returnsBest_iff (hfits : lastStart size vals.length < 2 ^ 32) :
    (∃ l, getTopVerticesIn rand size ntop vals = some l ∧ Best ntop vals l)
      ↔ 0 < vals.length ∧ 0 < size ∧ min ntop vals.length ≤ size
        ∧ (0 < ntop ∨ vals.length ≤ size) := by
  constructor
  · rintro ⟨l, hl, -⟩
    have hlist : ListableIn size ntop vals.length :=
      (isSome_getTopVerticesIn_iff rand).mp (by rw [hl]; rfl)
    exact ⟨hlist.pos, hlist.window, hlist.buffer, hlist.asked⟩
  · rintro ⟨hpos, hsize, hbuffer, hasked⟩
    obtain ⟨l, hl, htop⟩ :=
      getTopVerticesIn_spec rand ⟨hpos, hsize, hfits, hbuffer, hasked⟩
    exact ⟨l, hl, best_of_topOf htop⟩

/-- Five values in windows of two, of which two are asked for. -/
theorem returnsBest_fiveValues :
    ∃ l, getTopVerticesIn (fun _ => 0) 2 2 [3, 1, 4, 1, 5] = some l
      ∧ Best 2 ([3, 1, 4, 1, 5] : List ℤ) l :=
  (returnsBest_iff (fun _ => 0) (by decide)).mpr (by decide)

/-- One value more than a window holds, and all are asked for: the copy from
the first window reads beyond its buffer. -/
theorem not_returnsBest_oneMore :
    ¬∃ l, getTopVerticesIn (fun _ => 0) readwindow (readwindow + 1)
        (List.replicate (readwindow + 1) 0) = some l
      ∧ Best (readwindow + 1) (List.replicate (readwindow + 1) (0 : ℤ)) l := by
  rintro ⟨l, hl, -⟩
  have hlist := (isSome_getTopVerticesIn_iff fun _ => 0).mp (by rw [hl]; rfl)
  have hbuffer := hlist.buffer
  rw [List.length_replicate, min_self] at hbuffer
  omega

end Whole

end TopVertices
