import Mathlib

/-!
# Cutting an interval into windows

The partitioner goes through the vertices of an interval in windows that fit
a memory budget. `determine_next_window` adds up what the vertices need and
stops before the one that exceeds the budget; `create_partition_files` asks
for the next window from there on.

A vertex that alone exceeds the budget makes an empty window: the last vertex
is the one before the first. The partitioner asserts that it is not. An
`int` counts the vertices, and their degrees are added as such.
-/

namespace WindowChoice

/-- What the windows are chosen by. -/
structure Params where
  /-- `sizeof(CE_Graph_vertex<int, dummy_t>)` -/
  vertexBytes : ℕ
  /-- `sizeof(dummy_t) + sizeof(vid_t) + sizeof(CE_Graph_edge<dummy_t>)` -/
  edgeBytes : ℕ
  membudget : ℕ
  /-- `degrees[i].indegree` -/
  indegree : ℕ → ℕ
  /-- `degrees[i].outdegree` -/
  outdegree : ℕ → ℕ

namespace Params

variable (c : Params)

/-- `inc + outc` -/
def degree (v : ℕ) : ℕ := c.indegree v + c.outdegree v

/-- What a vertex adds to `memreq`, a `size_t`. -/
def need (v : ℕ) : ℕ := (c.vertexBytes + c.edgeBytes * c.degree v) % 2 ^ 64

/-- The vertices of the window from `first` to `last`. -/
def vertices (first last : ℕ) : List ℕ := List.range' first (last + 1 - first)

/-- The edges of the window from `first` to `last`. -/
def edgesOf (first last : ℕ) : ℕ := ((vertices first last).map c.degree).sum

/-! ## The code -/

/-- The loop of `determine_next_window` from `i` on, with `left` vertices
left up to `maxvid`. None where an `int` does not hold the vertex, the next
one, or the sum of the degrees. -/
def nextFrom (maxvid : ℕ) : ℕ → ℕ → ℕ → ℕ → Option (ℕ × ℕ)
  | 0, _, _, edges => some (maxvid, edges)
  | left + 1, i, memreq, edges =>
    if 2 ^ 31 ≤ i ∨ 2 ^ 31 ≤ c.degree i then none
    else if c.membudget < (memreq + c.need i) % 2 ^ 64 then
      -- `i - 1` as a `vid_t`
      some ((i + (2 ^ 32 - 1)) % 2 ^ 32, edges)
    else if i + 1 = 2 ^ 31 then none
    else nextFrom maxvid left (i + 1) ((memreq + c.need i) % 2 ^ 64) (edges + c.degree i)

/-- **`determine_next_window`**: the last vertex of the window and the edges
in it. -/
def determineNextWindow (fromvid maxvid : ℕ) : Option (ℕ × ℕ) :=
  c.nextFrom maxvid (maxvid + 1 - fromvid) fromvid 0 0

/-- A window, with the edges reported. -/
structure Window where
  first : ℕ
  last : ℕ
  edges : ℕ
deriving DecidableEq

/-- The loop of `create_partition_files` over an interval, from `st` on, with
a bound on its rounds. None where the assertion on the window fails. -/
def windowsFrom (last : ℕ) : ℕ → ℕ → Option (List Window)
  | 0, _ => none
  | fuel + 1, st =>
    if st ≤ last then
      (c.determineNextWindow st last).bind fun x =>
        if st ≤ x.1 ∧ x.1 ≤ last then
          (windowsFrom last fuel ((x.1 + 1) % 2 ^ 32)).map fun ws => ⟨st, x.1, x.2⟩ :: ws
        else none
    else some []

/-- The windows of an interval. Each has a vertex, so that the rounds are
enough. -/
def windows (first last : ℕ) : Option (List Window) :=
  c.windowsFrom last (last + 1 - first + 1) first

/-! ## What is asked for -/

/-- **The windows are right**: each call from a vertex of the interval
returns one that is not before it, and the edges up to there; and the windows
are, one after the other, the vertices of the interval. -/
structure WindowsRight (first last : ℕ) : Prop where
  /-- Each call gives a window that begins where it is asked to. -/
  call : ∀ v, first ≤ v → v ≤ last → ∃ w,
    c.determineNextWindow v last = some (w, c.edgesOf v w) ∧ v ≤ w ∧ w ≤ last
  /-- The windows are the interval, one behind the other. -/
  cover : ∃ ws, c.windows first last = some ws
    ∧ ws.flatMap (fun w => vertices w.first w.last) = vertices first last
    ∧ ∀ w ∈ ws, w.first ≤ w.last ∧ w.edges = c.edgesOf w.first w.last

/-- **Every vertex fits**: the budget, and the `int`s. -/
def Fits (first last : ℕ) : Prop :=
  ∀ v, first ≤ v → v ≤ last →
    v + 1 < 2 ^ 31 ∧ c.degree v < 2 ^ 31 ∧ c.need v ≤ c.membudget

/-! ## The sum over a window -/

section Sums

variable {c} {first last v w : ℕ}

theorem vertices_cons (h : first ≤ last) :
    vertices first last = first :: vertices (first + 1) last := by
  unfold vertices
  rw [show last + 1 - first = (last - first) + 1 by omega, List.range'_succ,
    show last + 1 - (first + 1) = last - first by omega]

theorem vertices_of_lt (h : last < first) : vertices first last = [] := by
  unfold vertices
  rw [show last + 1 - first = 0 by omega, List.range'_zero]

/-- Two windows, one after the other. -/
theorem vertices_append (hv : first ≤ v) (hlast : v ≤ last) :
    vertices first v ++ vertices (v + 1) last = vertices first last := by
  have happend := @List.range'_append_1 first (v + 1 - first) (last - v)
  rw [show first + (v + 1 - first) = v + 1 by omega,
    show v + 1 - first + (last - v) = last + 1 - first by omega] at happend
  unfold vertices
  rw [show last + 1 - (v + 1) = last - v by omega]
  exact happend

theorem edgesOf_cons (h : first ≤ last) :
    c.edgesOf first last = c.degree first + c.edgesOf (first + 1) last := by
  unfold edgesOf
  rw [vertices_cons h, List.map_cons, List.sum_cons]

theorem edgesOf_of_lt (h : last < first) : c.edgesOf first last = 0 := by
  unfold edgesOf
  rw [vertices_of_lt h]
  rfl

end Sums

/-! ## One window -/

section Window

variable {c} {first last v maxvid left memreq edges : ℕ}

/-- **From the second vertex on** the loop stops at `maxvid` or before the
vertex that is too much. -/
theorem nextFrom_spec (hfits : c.Fits v maxvid) (hpos : 0 < v)
    (hleft : v + left = maxvid + 1) :
    ∃ w, c.nextFrom maxvid left v memreq edges = some (w, edges + c.edgesOf v w)
      ∧ v ≤ w + 1 ∧ w ≤ maxvid := by
  induction left generalizing v memreq edges with
  | zero =>
    refine ⟨maxvid, ?_, by omega, le_rfl⟩
    rw [nextFrom, edgesOf_of_lt (by omega), Nat.add_zero]
  | succ left ih =>
    obtain ⟨hint, hdegree, -⟩ := hfits v le_rfl (by omega)
    rw [nextFrom, if_neg (by omega)]
    by_cases hbudget : c.membudget < (memreq + c.need v) % 2 ^ 64
    · rw [if_pos hbudget]
      refine ⟨v - 1, ?_, by omega, by omega⟩
      rw [edgesOf_of_lt (by omega), Nat.add_zero,
        show (v + (2 ^ 32 - 1)) % 2 ^ 32 = v - 1 by omega]
    · rw [if_neg hbudget, if_neg (by omega)]
      have hfits' : c.Fits (v + 1) maxvid := fun u hu => hfits u (by omega)
      obtain ⟨w, hw, hlow, hhigh⟩ : ∃ w, c.nextFrom maxvid left (v + 1)
          ((memreq + c.need v) % 2 ^ 64) (edges + c.degree v)
          = some (w, edges + c.degree v + c.edgesOf (v + 1) w) ∧ v + 1 ≤ w + 1 ∧ w ≤ maxvid :=
        ih hfits' (Nat.succ_pos v) (by omega)
      refine ⟨w, ?_, by omega, hhigh⟩
      rw [hw, edgesOf_cons (show v ≤ w by omega), Nat.add_assoc]

/-- **Where every vertex fits, a window has its first one.** -/
theorem Fits.call (hfits : c.Fits first last) (hv : first ≤ v) (hlast : v ≤ last) :
    ∃ w, c.determineNextWindow v last = some (w, c.edgesOf v w) ∧ v ≤ w ∧ w ≤ last := by
  obtain ⟨hint, hdegree, hneed⟩ := hfits v hv hlast
  have hfits' : c.Fits (v + 1) last := fun u hu => hfits u (by omega)
  have hlt : c.need v < 2 ^ 64 := Nat.mod_lt _ (by norm_num)
  obtain ⟨w, hw, hlow, hhigh⟩ : ∃ w, c.nextFrom last (last - v) (v + 1) (c.need v) (c.degree v)
      = some (w, c.degree v + c.edgesOf (v + 1) w) ∧ v + 1 ≤ w + 1 ∧ w ≤ last :=
    nextFrom_spec hfits' (Nat.succ_pos v) (by omega)
  refine ⟨w, ?_, by omega, hhigh⟩
  unfold determineNextWindow
  rw [show last + 1 - v = (last - v) + 1 by omega, nextFrom, if_neg (by omega),
    Nat.zero_add, Nat.zero_add, Nat.mod_eq_of_lt hlt, if_neg (by omega), if_neg (by omega), hw,
    edgesOf_cons (show v ≤ w by omega)]

/-- **A call that returns a window with its first vertex** has one that
fits. -/
theorem fits_of_call {w n : ℕ} (hv : v ≤ last) (hlast : last + 1 < 2 ^ 31)
    (hcall : c.determineNextWindow v last = some (w, n)) (hw : v ≤ w) (hwlast : w ≤ last) :
    c.degree v < 2 ^ 31 ∧ c.need v ≤ c.membudget := by
  have hlt : c.need v < 2 ^ 64 := Nat.mod_lt _ (by norm_num)
  unfold determineNextWindow at hcall
  rw [show last + 1 - v = (last - v) + 1 by omega, nextFrom] at hcall
  split at hcall
  · exact absurd hcall (by simp)
  · next hint =>
    rw [not_or, not_le, not_le] at hint
    refine ⟨hint.2, ?_⟩
    split at hcall
    · -- the window would be empty
      obtain ⟨hback, -⟩ := Prod.mk.inj (Option.some.inj hcall)
      omega
    · next hbudget =>
      rw [Nat.zero_add, Nat.mod_eq_of_lt hlt] at hbudget
      omega

/-- The last vertex of the interval, and the one after it, are `int`s. -/
theorem last_lt_of_call {w n : ℕ} (hcall : c.determineNextWindow last last = some (w, n))
    (hw : last ≤ w) (hwlast : w ≤ last) : last + 1 < 2 ^ 31 := by
  unfold determineNextWindow at hcall
  rw [show last + 1 - last = 0 + 1 by omega, nextFrom] at hcall
  split at hcall
  · exact absurd hcall (by simp)
  · next hint =>
    rw [not_or, not_le, not_le] at hint
    split at hcall
    · obtain ⟨hback, -⟩ := Prod.mk.inj (Option.some.inj hcall)
      omega
    · split at hcall
      · exact absurd hcall (by simp)
      · omega

end Window

/-! ## All windows -/

section Cover

variable {c} {first last st fuel : ℕ}

/-- **The windows from `st` on** are the vertices from there on, one window
behind the other, with the sum of the degrees that is counted for each. -/
theorem Fits.windowsFrom (hfits : c.Fits first last) (hst : first ≤ st)
    (hfuel : last + 1 < st + fuel) (hpos : 0 < fuel) :
    ∃ ws, c.windowsFrom last fuel st = some ws
      ∧ ws.flatMap (fun w => vertices w.first w.last) = vertices st last
      ∧ ∀ w ∈ ws, w.first ≤ w.last ∧ w.edges = c.edgesOf w.first w.last := by
  induction fuel generalizing st with
  | zero => exact absurd hpos (lt_irrefl 0)
  | succ fuel ih =>
    rw [Params.windowsFrom]
    by_cases hle : st ≤ last
    · obtain ⟨w, hcall, hlow, hhigh⟩ := hfits.call hst hle
      have hint := (hfits w (by omega) hhigh).1
      rw [if_pos hle, hcall, Option.bind_some]
      dsimp only
      rw [if_pos ⟨hlow, hhigh⟩, Nat.mod_eq_of_lt (by omega)]
      obtain ⟨ws, hws, hcover, hall⟩ := @ih (w + 1) (by omega) (by omega) (by omega)
      refine ⟨_, by rw [hws]; rfl, ?_, ?_⟩
      · rw [List.flatMap_cons, hcover]
        exact vertices_append hlow hhigh
      · intro x hx
        rcases List.mem_cons.mp hx with rfl | hx
        · exact ⟨hlow, rfl⟩
        · exact hall x hx
    · rw [if_neg hle]
      refine ⟨[], rfl, ?_, by simp⟩
      rw [vertices_of_lt (by omega)]
      rfl

end Cover

/-- **The windows of an interval are right** exactly when each of its
vertices fits the budget alone, and the `int`s. -/
theorem windowsRight_iff_fits (c : Params) (first last : ℕ) :
    c.WindowsRight first last ↔ c.Fits first last := by
  constructor
  · intro h v hv hlast
    obtain ⟨w, hcall, hlow, hhigh⟩ := h.call v hv hlast
    obtain ⟨w', hcall', hlow', hhigh'⟩ := h.call last (hv.trans hlast) le_rfl
    have hint := last_lt_of_call hcall' hlow' hhigh'
    obtain ⟨hdegree, hneed⟩ := fits_of_call hlast hint hcall hlow hhigh
    exact ⟨by omega, hdegree, hneed⟩
  · intro hfits
    refine ⟨fun v hv hlast => hfits.call hv hlast, ?_⟩
    exact hfits.windowsFrom le_rfl (by omega) (Nat.succ_pos _)

/-- Three vertices, of which the second one needs more than the budget. -/
def heavyVertex : Params where
  vertexBytes := 40
  edgeBytes := 21
  membudget := 1000
  indegree v := if v = 1 then 30 else 1
  outdegree v := if v = 1 then 30 else 1

/-- The window that starts at it is empty. -/
theorem not_windowsRight_heavyVertex : ¬heavyVertex.WindowsRight 0 2 := by
  intro h
  have hnone : heavyVertex.windows 0 2 = none := by decide
  obtain ⟨ws, hws, -⟩ := h.cover
  rw [hnone] at hws
  exact absurd hws (by simp)

end Params

end WindowChoice
