import Mathlib
import DpdkGraph.VertexProgram

/-!
# Calls that answer to what they found

In one iteration a call of `update` may write to edges from both of its
sides, and other calls write to them too. If it reads no edge that it has
written itself, it finds in every edge what the edge held when the iteration
began: the writes of the others do not show before the next one. What comes
of the call is then a function of these values and of the vertex data
(`Update.play`), and it is the same however the calls are mixed.

`play` is computed by the recursion on the call; its rules for `bind` and for
the two loops of a program are at the beginning.
-/

namespace VertexProgram

/-- The neighbours of a vertex on a side. -/
def Vertex.neighbors (vertex : Vertex) : Side → List ℕ
  | .inedge => vertex.inedges
  | .outedge => vertex.outedges

/-- The number of edges of a vertex on a side. -/
def Vertex.count (vertex : Vertex) (side : Side) : ℕ := (vertex.neighbors side).length

namespace Update

variable {V E α β : Type}

/-- The writes of a call to edges, the last one first. -/
abbrev Writes (E : Type) := List (Side × ℕ × E)

/-- What has been written last to an edge. -/
def look (ws : Writes E) (side : Side) (i : ℕ) : Option E :=
  (ws.find? fun y => decide (y.1 = side ∧ y.2.1 = i)).map fun y => y.2.2

/-- **What comes of a call** whose reads of edges are answered by `read`, at
a vertex of value `d`, after the writes `ws`. -/
def play (read : Side → ℕ → E) : Update V E α → V → Writes E → α × V × Writes E
  | done a, d, ws => (a, d, ws)
  | getData next, d, ws => (next d).play read d ws
  | setData d next, _, ws => next.play read d ws
  | getEdge side i next, d, ws => (next (read side i)).play read d ws
  | setEdge side i x next, d, ws => next.play read d ((side, i, x) :: ws)

/-- The calls that ask only for edges that are there, `count` on each side,
and read none that they have written. -/
def Fresh (count : Side → ℕ) : Writes E → Update V E α → Prop
  | _, done _ => True
  | ws, getData next => ∀ d, (next d).Fresh count ws
  | ws, setData _ next => next.Fresh count ws
  | ws, getEdge side i next =>
    (i < count side ∧ look ws side i = none) ∧ ∀ x, (next x).Fresh count ws
  | ws, setEdge side i x next =>
    i < count side ∧ next.Fresh count ((side, i, x) :: ws)

theorem look_cons_self (ws : Writes E) (side : Side) (i : ℕ) (x : E) :
    look ((side, i, x) :: ws) side i = some x := by
  unfold look
  rw [List.find?_cons_of_pos (by simp)]
  rfl

theorem look_cons_of_ne {ws : Writes E} {side side' : Side} {i i' : ℕ} {x : E}
    (h : ¬(side' = side ∧ i' = i)) :
    look ((side', i', x) :: ws) side i = look ws side i := by
  unfold look
  rw [List.find?_cons_of_neg (by simpa using h)]

/-- One call after the other. -/
theorem play_bind (read : Side → ℕ → E) (u : Update V E α) (f : α → Update V E β) :
    ∀ d ws, (u.bind f).play read d ws =
      (f (u.play read d ws).1).play read (u.play read d ws).2.1 (u.play read d ws).2.2 := by
  induction u with
  | done a => exact fun _ _ => rfl
  | getData next ih => exact fun d ws => ih d d ws
  | setData d next ih => exact fun _ ws => ih d ws
  | getEdge side i next ih => exact fun d ws => ih (read side i) d ws
  | setEdge side i x next ih => exact fun d ws => ih d ((side, i, x) :: ws)

/-- A loop of reads. -/
theorem play_foldlM {ι : Type} {read : Side → ℕ → E} {f : α → ι → Update V E α}
    {g : α → ι → α} (hf : ∀ a i d ws, (f a i).play read d ws = (g a i, d, ws)) (l : List ι) :
    ∀ a d ws, (l.foldlM f a : Update V E α).play read d ws = (l.foldl g a, d, ws) := by
  induction l with
  | nil => exact fun _ _ _ => rfl
  | cons i l ih =>
    intro a d ws
    rw [List.foldlM_cons, List.foldl_cons]
    refine (play_bind read (f a i) _ d ws).trans ?_
    rw [hf]
    exact ih (g a i) d ws

/-- A loop of writes. -/
theorem play_forM {ι : Type} {read : Side → ℕ → E} {f : ι → Update V E Unit}
    {g : Writes E → ι → Writes E} (hf : ∀ i d ws, (f i).play read d ws = ((), d, g ws i))
    (l : List ι) : ∀ d ws, (l.forM f : Update V E Unit).play read d ws
      = ((), d, l.foldl g ws) := by
  induction l with
  | nil => exact fun _ _ => rfl
  | cons i l ih =>
    intro d ws
    refine (play_bind read (f i) _ d ws).trans ?_
    rw [hf]
    exact ih d (g ws i)

end Update

/-! ## Connected components -/

namespace ConnectedComponents

open Update

variable (read : Side → ℕ → ℕ) (iteration : ℕ) (vertex : Vertex)

/-- What a vertex takes edge `i` for: in the first iteration its neighbour,
later the value of the edge. -/
def offer (i : ℕ) : ℕ :=
  if iteration = 0 then vertex.neighbor i else read (vertex.edge i).1 (vertex.edge i).2

/-- **The label that a vertex gets**, whose value is `d`. -/
def newLabel (d : ℕ) : ℕ :=
  (List.range vertex.numEdges).foldl (fun curmin i => min (offer read iteration vertex i) curmin)
    (if iteration = 0 then vertex.id else d)

/-- The edges that it writes its label to. -/
def marked (d : ℕ) : List (Side × ℕ) :=
  if iteration = 0 then (List.range vertex.outedges.length).map (Side.outedge, ·)
  else ((List.range vertex.numEdges).map vertex.edge).filter fun e =>
    newLabel read iteration vertex d < read e.1 e.2

/-- The writes of a label to edges. -/
def marks (label : ℕ) (ws : Writes ℕ) (edges : List (Side × ℕ)) : Writes ℕ :=
  edges.foldl (fun ws e => (e.1, e.2, label) :: ws) ws

theorem play_minLabel (d : ℕ) (ws : Writes ℕ) (curmin : ℕ) :
    (minLabel iteration vertex curmin).play read d ws =
      ((List.range vertex.numEdges).foldl
        (fun curmin i => min (offer read iteration vertex i) curmin) curmin, d, ws) := by
  unfold minLabel
  exact play_foldlM (fun _ _ _ _ => rfl) _ _ _ _

/-- The writes of the loop over all edges. -/
theorem foldl_ite_marks (label : ℕ) (l : List ℕ) (ws : Writes ℕ) :
    l.foldl (fun ws i => if label < read (vertex.edge i).1 (vertex.edge i).2 then
        ((vertex.edge i).1, (vertex.edge i).2, label) :: ws else ws) ws =
      marks label ws ((l.map vertex.edge).filter fun e => label < read e.1 e.2) := by
  induction l generalizing ws with
  | nil => rfl
  | cons i l ih =>
    rw [List.foldl_cons, List.map_cons, List.filter_cons, ih]
    by_cases h : label < read (vertex.edge i).1 (vertex.edge i).2
    · rw [if_pos h, if_pos (decide_eq_true h)]
      rfl
    · rw [if_neg h, if_neg (by simpa using h)]

/-- What has been written, where the marks are the last writes. -/
theorem look_marks (label : ℕ) (edges : List (Side × ℕ)) (side : Side) (i : ℕ) :
    ∀ ws, look (marks label ws edges) side i =
      if (side, i) ∈ edges then some label else look ws side i := by
  induction edges with
  | nil => exact fun ws => (if_neg List.not_mem_nil).symm
  | cons e edges ih =>
    intro ws
    show look (marks label ((e.1, e.2, label) :: ws) edges) side i = _
    rw [ih]
    by_cases hmem : (side, i) ∈ edges
    · rw [if_pos hmem, if_pos (List.mem_cons_of_mem _ hmem)]
    · rw [if_neg hmem]
      by_cases he : e = (side, i)
      · subst he
        rw [if_pos List.mem_cons_self, look_cons_self]
      · rw [if_neg fun h => (List.mem_cons.mp h).elim (fun h => he h.symm) hmem,
          look_cons_of_ne fun h => he (Prod.ext h.1 h.2)]

/-- The loop that passes the label on. -/
def passOn (label : ℕ) : Update ℕ ℕ Unit :=
  if 0 < iteration then
    (List.range vertex.numEdges).forM fun i =>
      getEdge (vertex.edge i).1 (vertex.edge i).2 fun x =>
        if label < x then setEdge (vertex.edge i).1 (vertex.edge i).2 label (done ()) else done ()
  else (List.range vertex.outedges.length).forM fun i => setEdge .outedge i label (done ())

/-- `update` after the vertex has a value. -/
def relabel : Update ℕ ℕ Unit :=
  getData fun d => (minLabel iteration vertex d).bind fun curmin =>
    setData curmin (getData fun label => passOn iteration vertex label)

theorem update_eq : update iteration vertex =
    if iteration = 0 then setData vertex.id (relabel iteration vertex)
    else relabel iteration vertex := by
  have hpass : ∀ label, (if 0 < iteration then
      (List.range vertex.numEdges).forM fun i => do
        if label < (← readEdge vertex i) then
          writeEdge vertex i label
      else (List.range vertex.outedges.length).forM fun i =>
        setEdge .outedge i label (done ())) = passOn iteration vertex label := fun _ => rfl
  unfold update relabel
  by_cases h : iteration = 0
  · rw [if_pos h, if_pos h]
    rfl
  · rw [if_neg h, if_neg h]
    rfl

theorem play_passOn (label d : ℕ) (ws : Writes ℕ) :
    (passOn iteration vertex label).play read d ws = ((), d, marks label ws
      (if iteration = 0 then (List.range vertex.outedges.length).map (Side.outedge, ·)
        else ((List.range vertex.numEdges).map vertex.edge).filter fun e =>
          label < read e.1 e.2)) := by
  unfold passOn
  by_cases h : iteration = 0
  · rw [if_neg (by omega), if_pos h]
    refine (play_forM (g := fun ws i => (.outedge, i, label) :: ws) (fun _ _ _ => rfl) _ d
      ws).trans ?_
    unfold marks
    rw [List.foldl_map]
  · rw [if_pos (Nat.pos_of_ne_zero h), if_neg h, ← foldl_ite_marks]
    refine play_forM (fun i d ws => ?_) _ d ws
    show (if _ then _ else _ : Update ℕ ℕ Unit).play read d ws = _
    split
    · rfl
    · rfl

/-- **What comes of `update`.** -/
theorem play_update (d : ℕ) :
    (update iteration vertex).play read d [] = ((), newLabel read iteration vertex d,
      marks (newLabel read iteration vertex d) [] (marked read iteration vertex d)) := by
  have hrelabel : ∀ d, (relabel iteration vertex).play read d [] = (passOn iteration vertex
      ((List.range vertex.numEdges).foldl
        (fun curmin i => min (offer read iteration vertex i) curmin) d)).play read
      ((List.range vertex.numEdges).foldl
        (fun curmin i => min (offer read iteration vertex i) curmin) d) [] := fun d => by
    refine (play_bind read _ _ d []).trans ?_
    rw [play_minLabel]
    rfl
  rw [update_eq]
  unfold marked newLabel
  by_cases h : iteration = 0
  · rw [if_pos h, if_pos h, if_pos h]
    refine (hrelabel vertex.id).trans ?_
    rw [play_passOn, if_pos h]
  · rw [if_neg h, if_neg h, if_neg h, hrelabel d, play_passOn, if_neg h]

/-! ### The edges of a vertex -/

section Edges

variable {iteration : ℕ} {vertex : Vertex}

theorem edge_lt {i : ℕ} (h : i < vertex.numEdges) :
    (vertex.edge i).2 < vertex.count (vertex.edge i).1 := by
  unfold Vertex.numEdges at h
  unfold Vertex.edge
  split
  · next hin => exact hin
  · show i - vertex.inedges.length < vertex.outedges.length
    omega

theorem edge_injective {i j : ℕ} (h : vertex.edge i = vertex.edge j) : i = j := by
  unfold Vertex.edge at h
  split at h
  · split at h
    · exact congrArg Prod.snd h
    · cases congrArg Prod.fst h
  · split at h
    · cases congrArg Prod.fst h
    · have hsub : i - vertex.inedges.length = j - vertex.inedges.length := congrArg Prod.snd h
      omega

theorem exists_edge {side : Side} {k : ℕ} (h : k < vertex.count side) :
    ∃ i, i < vertex.numEdges ∧ vertex.edge i = (side, k) := by
  unfold Vertex.numEdges Vertex.edge
  cases side with
  | inedge =>
    have hk : k < vertex.inedges.length := h
    exact ⟨k, by omega, if_pos hk⟩
  | outedge =>
    have hk : k < vertex.outedges.length := h
    refine ⟨vertex.inedges.length + k, by omega, ?_⟩
    rw [if_neg (by omega), Nat.add_sub_cancel_left]

/-- The neighbour at the other end of an edge. -/
theorem neighbor_eq {i k : ℕ} {side : Side} (h : vertex.edge i = (side, k)) :
    vertex.neighbor i = (vertex.neighbors side).getD k 0 := by
  unfold Vertex.edge at h
  unfold Vertex.neighbor
  split at h
  · next hlt =>
    obtain ⟨rfl, rfl⟩ := Prod.ext_iff.mp h
    exact List.getD_append _ _ _ _ hlt
  · next hle =>
    obtain ⟨rfl, rfl⟩ := Prod.ext_iff.mp h
    exact List.getD_append_right _ _ _ _ (not_lt.mp hle)

/-- The loop over the neighbours reads only. -/
theorem fresh_minLabel {f : ℕ → Update ℕ ℕ Unit} (hf : ∀ a, (f a).Fresh vertex.count [])
    (curmin : ℕ) : ((minLabel iteration vertex curmin).bind f).Fresh vertex.count [] := by
  unfold minLabel
  have hall : ∀ i ∈ List.range vertex.numEdges, i < vertex.numEdges :=
    fun i hi => List.mem_range.mp hi
  generalize List.range vertex.numEdges = l at hall
  induction l generalizing curmin with
  | nil => exact hf curmin
  | cons i l ih =>
    rw [List.foldlM_cons]
    exact ⟨⟨edge_lt (hall i List.mem_cons_self), rfl⟩,
      fun x => ih _ fun j hj => hall j (List.mem_cons_of_mem _ hj)⟩

/-- The loop that passes the label on reads each edge before it writes it. -/
theorem fresh_passOn (label : ℕ) : (passOn iteration vertex label).Fresh vertex.count [] := by
  unfold passOn
  split
  · have hall : ∀ i ∈ List.range vertex.numEdges, i < vertex.numEdges ∧
        look ([] : Writes ℕ) (vertex.edge i).1 (vertex.edge i).2 = none :=
      fun i hi => ⟨List.mem_range.mp hi, rfl⟩
    have hnodup := List.nodup_range (n := vertex.numEdges)
    generalize List.range vertex.numEdges = l at hall hnodup
    generalize ([] : Writes ℕ) = ws at hall ⊢
    induction l generalizing ws with
    | nil => trivial
    | cons i l ih =>
      obtain ⟨hlt, hlook⟩ := hall i List.mem_cons_self
      obtain ⟨hi, hnodup⟩ := List.nodup_cons.mp hnodup
      refine ⟨⟨edge_lt hlt, hlook⟩, fun x => ?_⟩
      show (Update.bind (if label < x then _ else _) _).Fresh _ _
      split
      · refine ⟨edge_lt hlt, ih hnodup _ fun j hj => ⟨(hall j (List.mem_cons_of_mem _ hj)).1, ?_⟩⟩
        have hne : ¬((vertex.edge i).1 = (vertex.edge j).1 ∧
            (vertex.edge i).2 = (vertex.edge j).2) := fun h => by
          obtain rfl := edge_injective (Prod.ext h.1 h.2)
          exact hi hj
        rw [look_cons_of_ne hne]
        exact (hall j (List.mem_cons_of_mem _ hj)).2
      · exact ih hnodup _ fun j hj => hall j (List.mem_cons_of_mem _ hj)
  · have hall : ∀ i ∈ List.range vertex.outedges.length, i < vertex.outedges.length :=
      fun i hi => List.mem_range.mp hi
    generalize List.range vertex.outedges.length = l at hall
    generalize ([] : Writes ℕ) = ws
    induction l generalizing ws with
    | nil => trivial
    | cons i l ih =>
      exact ⟨hall i List.mem_cons_self, ih (fun j hj => hall j (List.mem_cons_of_mem _ hj)) _⟩

/-- **`update` reads no edge that it has written.** -/
theorem fresh_update (iteration : ℕ) (vertex : Vertex) :
    (update iteration vertex).Fresh vertex.count [] := by
  have hrelabel : (relabel iteration vertex).Fresh vertex.count [] := fun d =>
    fresh_minLabel (f := fun curmin => setData curmin (getData fun label =>
      passOn iteration vertex label)) (fun _ label => fresh_passOn label) d
  rw [update_eq]
  split
  · exact hrelabel
  · exact hrelabel

end Edges

/-! ### The label -/

/-- A minimum by a loop. -/
theorem foldl_min_spec {ι : Type*} (g : ι → ℕ) (l : List ι) (a : ℕ) :
    l.foldl (fun curmin i => min (g i) curmin) a ≤ a ∧
      (∀ i ∈ l, l.foldl (fun curmin i => min (g i) curmin) a ≤ g i) ∧
      (l.foldl (fun curmin i => min (g i) curmin) a = a ∨
        ∃ i ∈ l, l.foldl (fun curmin i => min (g i) curmin) a = g i) := by
  induction l generalizing a with
  | nil => exact ⟨le_rfl, fun i hi => absurd hi List.not_mem_nil, Or.inl rfl⟩
  | cons i l ih =>
    rw [List.foldl_cons]
    obtain ⟨hle, hall, hmem⟩ := ih (min (g i) a)
    refine ⟨hle.trans (min_le_right _ _), fun j hj => ?_, ?_⟩
    · rcases List.mem_cons.mp hj with rfl | hj
      · exact hle.trans (min_le_left _ _)
      · exact hall j hj
    · rcases hmem with hmem | ⟨j, hj, hmem⟩
      · rw [hmem]
        rcases min_choice (g i) a with h | h
        · exact Or.inr ⟨i, List.mem_cons_self, h⟩
        · exact Or.inl h
      · exact Or.inr ⟨j, List.mem_cons_of_mem _ hj, hmem⟩

variable {read iteration vertex} {d : ℕ}

theorem newLabel_le_start :
    newLabel read iteration vertex d ≤ if iteration = 0 then vertex.id else d :=
  (foldl_min_spec _ _ _).1

theorem newLabel_le_offer {i : ℕ} (h : i < vertex.numEdges) :
    newLabel read iteration vertex d ≤ offer read iteration vertex i :=
  (foldl_min_spec _ _ _).2.1 i (List.mem_range.mpr h)

theorem newLabel_cases :
    (newLabel read iteration vertex d = if iteration = 0 then vertex.id else d) ∨
      ∃ i, i < vertex.numEdges ∧
        newLabel read iteration vertex d = offer read iteration vertex i := by
  rcases (foldl_min_spec (offer read iteration vertex) (List.range vertex.numEdges)
    (if iteration = 0 then vertex.id else d)).2.2 with h | ⟨i, hi, h⟩
  · exact Or.inl h
  · exact Or.inr ⟨i, List.mem_range.mp hi, h⟩

end ConnectedComponents

end VertexProgram
