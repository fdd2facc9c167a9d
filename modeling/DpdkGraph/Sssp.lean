import Mathlib
import DpdkGraph.HopDistance
import DpdkGraph.VertexProgram

/-!
# Single-source shortest paths

In iteration 0 everything is marked with `-1`, in iteration 1 the source
vertex gets its `0`, and from then on a vertex takes one more than the least
value that comes in, if it has none yet or a larger one. The values are taken
as exact integers.

Where the vertices of an iteration read what the iterations before it have
left on the edges, the values are the hop distances up to a bound that grows
with the iterations (`Known`): an edge always has the value of its source, a
vertex gets its value when the bound reaches its distance, and no smaller one
comes in later.
-/

namespace VertexProgram

open Update

/-! ## What a call comes to -/

namespace Update

variable {V E α β : Type}

/-- One call after the other, let alone. -/
theorem outcome_bind (u : Update V E α) (f : α → Update V E β) (ins outs : List E) :
    ∀ d new, (u.bind f).outcome d ins outs new =
      (u.outcome d ins outs new).bind fun r =>
        (f r.1).outcome r.2.1 ins outs r.2.2 := by
  induction u with
  | done a => exact fun _ _ => rfl
  | getData next ih => exact fun d new => ih d d new
  | setData d next ih => exact fun _ new => ih d new
  | getEdge side i next ih =>
    intro d new
    cases side with
    | inedge =>
      show (ins[i]?.bind _) = (ins[i]?.bind _).bind _
      cases ins[i]? with
      | none => rfl
      | some y => exact ih y d new
    | outedge =>
      show (outs[i]?.bind _) = (outs[i]?.bind _).bind _
      cases outs[i]? with
      | none => rfl
      | some y => exact ih y d new
  | setEdge side i y next ih =>
    intro d new
    cases side with
    | inedge => rfl
    | outedge =>
      show (if _ then _ else _) = (if _ then _ else none : Option _).bind _
      split
      · exact ih d (new.set i y)
      · rfl

end Update

namespace Sssp

/-! ## The program -/

/-- Sets all out-edges to `x`. -/
def writeOut (vertex : Vertex) (x : ℤ) : Update ℤ ℤ Unit :=
  (List.range vertex.outedges.length).forM fun i =>
    setEdge .outedge i x (done ())

/-- One turn of the loop over the in-edges. -/
def smaller (min : ℤ) (i : ℕ) : Update ℤ ℤ ℤ := do
  if (← getEdge .inedge i done) > -1 then
    if min = -1 then getEdge .inedge i done
    else if min > (← getEdge .inedge i done) then getEdge .inedge i done
    else pure min
  else pure min

/-- `sel_v==v.id() && sel_v!=0`. -/
def Selected (selV id : ℕ) : Prop := selV = id ∧ selV ≠ 0

instance (selV id : ℕ) : Decidable (Selected selV id) :=
  inferInstanceAs (Decidable (_ ∧ _))

/-- **`update` of `sssp.cpp`**, with the source vertex that has been selected.
The bits that tell which vertices have converged change no value and are left
out. -/
def update (selV iteration : ℕ) (vertex : Vertex) : Update ℤ ℤ Unit :=
  if iteration = 0 then do
    setData (-1) (done ())
    writeOut vertex (-1)
  else if iteration = 1 then
    if Selected selV vertex.id then do
      setData 0 (done ())
      writeOut vertex 0
    else done ()
  else if ¬Selected selV vertex.id then do
    let min ← (List.range vertex.inedges.length).foldlM smaller (-1)
    if min > -1 then
      let value ← getData done
      if value = -1 ∨ min + 1 < value then
        setData (min + 1) (done ())
        writeOut vertex (min + 1)
  else done ()

/-! ## What an update comes to -/

/-- The least of the values above `-1`, and `-1` if there is none. -/
def least (min x : ℤ) : ℤ :=
  if x > -1 then if min = -1 then x else if min > x then x else min else min

theorem outcome_smaller {ins : List ℤ} {i : ℕ} {y : ℤ} (hy : ins[i]? = some y)
    (min d : ℤ) (outs new : List ℤ) :
    (smaller min i).outcome d ins outs new = some (least min y, d, new) := by
  have hread : ∀ f : ℤ → Update ℤ ℤ ℤ,
      (getEdge .inedge i f).outcome d ins outs new =
        (f y).outcome d ins outs new := by
    intro f
    show ins[i]?.bind _ = _
    rw [hy]
    rfl
  show (getEdge .inedge i _).outcome _ _ _ _ = _
  rw [hread]
  unfold least
  show (ite _ _ _ : Update ℤ ℤ ℤ).outcome _ _ _ _ = _
  split
  · split
    · rw [hread]
      rfl
    · show (getEdge .inedge i _).outcome _ _ _ _ = _
      rw [hread]
      show (ite _ _ _ : Update ℤ ℤ ℤ).outcome _ _ _ _ = _
      split
      · rw [hread]
        rfl
      · rfl
  · rfl

/-- The loop over the in-edges. -/
theorem outcome_foldlM_smaller {ins : List ℤ} (d : ℤ) (outs new : List ℤ)
    (l : List ℕ) : ∀ min : ℤ, (∀ i ∈ l, i < ins.length) →
      (l.foldlM smaller min).outcome d ins outs new =
        some ((l.map fun i => ins.getD i 0).foldl least min, d, new) := by
  induction l with
  | nil => intro min _; rfl
  | cons i l ih =>
    intro min hl
    have hi : ins[i]? = some (ins.getD i 0) := by
      rw [List.getD_eq_getElem?_getD,
        List.getElem?_eq_getElem (hl i List.mem_cons_self)]
      rfl
    rw [List.foldlM_cons]
    show (Update.bind _ _).outcome _ _ _ _ = _
    rw [outcome_bind, outcome_smaller hi, Option.bind_some,
      ih _ fun j hj => hl j (List.mem_cons_of_mem _ hj)]
    rfl

/-- The loop over the out-edges. -/
theorem outcome_forM_setEdge (y d : ℤ) (ins outs : List ℤ) (l : List ℕ) :
    ∀ new : List ℤ, (∀ i ∈ l, i < new.length) →
      (l.forM fun i =>
        (setEdge .outedge i y (done ()) : Update ℤ ℤ Unit)).outcome d ins outs
          new = some ((), d, l.foldl (fun new i => new.set i y) new) := by
  induction l with
  | nil => intro new _; rfl
  | cons i l ih =>
    intro new hl
    show (if i < new.length then _ else _) = _
    rw [if_pos (hl i List.mem_cons_self)]
    refine ih (new.set i y) fun j hj => ?_
    rw [List.length_set]
    exact hl j (List.mem_cons_of_mem _ hj)

/-- All places are set. -/
theorem foldl_set_range (y : ℤ) (new : List ℤ) :
    ∀ n ≤ new.length, (List.range n).foldl (fun new i => new.set i y) new =
      List.replicate n y ++ new.drop n := by
  intro n
  induction n with
  | zero => intro _; rfl
  | succ n ih =>
    intro hn
    rw [List.range_succ, List.foldl_append, ih (by omega)]
    show (List.replicate n y ++ new.drop n).set n y = _
    have hdrop : new.drop n = new[n] :: new.drop (n + 1) :=
      List.drop_eq_getElem_cons hn
    rw [List.set_append_right _ _ (by rw [List.length_replicate]),
      List.length_replicate, Nat.sub_self, hdrop, List.set_cons_zero,
      List.replicate_succ', List.append_assoc]
    rfl

theorem outcome_writeOut {vertex : Vertex} (y d : ℤ) (ins outs : List ℤ)
    {new : List ℤ} (hlen : vertex.outedges.length = new.length) :
    (writeOut vertex y).outcome d ins outs new =
      some ((), d, List.replicate new.length y) := by
  unfold writeOut
  rw [hlen, outcome_forM_setEdge, foldl_set_range y new _ le_rfl,
    List.drop_length, List.append_nil]
  exact fun i hi => List.mem_range.mp hi

/-- The value that an update gives to its vertex and its out-edges, if
any. -/
def written (selV iteration id : ℕ) (d : ℤ) (ins : List ℤ) : Option ℤ :=
  if iteration = 0 then some (-1)
  else if iteration = 1 then if Selected selV id then some 0 else none
  else if ¬Selected selV id then
    let min := ins.foldl least (-1)
    if min > -1 ∧ (d = -1 ∨ min + 1 < d) then some (min + 1) else none
  else none

/-- **What an update comes to** that is let alone. -/
theorem outcome_update (selV iteration : ℕ) (vertex : Vertex) (d : ℤ)
    {ins outs new : List ℤ} (hins : vertex.inedges.length = ins.length)
    (hnew : vertex.outedges.length = new.length) :
    (update selV iteration vertex).outcome d ins outs new =
      some ((), (written selV iteration vertex.id d ins).getD d,
        ((written selV iteration vertex.id d ins).map
          (List.replicate new.length)).getD new) := by
  -- the values that the loop over the in-edges gets
  have hvalues : ((List.range vertex.inedges.length).map fun i =>
      ins.getD i 0) = ins := by
    refine List.ext_getElem? fun i => ?_
    rw [hins, List.getElem?_map]
    by_cases hi : i < ins.length
    · rw [List.getElem?_range hi, Option.map_some, List.getD_eq_getElem?_getD,
        List.getElem?_eq_getElem hi]
      rfl
    · rw [List.getElem?_eq_none (by simpa using hi),
        List.getElem?_eq_none (by simpa using hi)]
      rfl
  unfold update written
  split
  · -- before the first iteration of the search nothing is reached
    show (writeOut vertex (-1)).outcome (-1) ins outs new = _
    rw [outcome_writeOut _ _ _ _ hnew]
    rfl
  · split
    · split
      · -- the vertex that was selected has distance 0
        show (writeOut vertex 0).outcome 0 ins outs new = _
        rw [outcome_writeOut _ _ _ _ hnew]
        rfl
      · rfl
    · split
      · show (Update.bind _ _).outcome _ _ _ _ = _
        rw [outcome_bind, outcome_foldlM_smaller, hvalues, Option.bind_some]
        · dsimp only
          -- later the least value of the in-edges counts, if one has been reached
          by_cases hmin : ins.foldl least (-1) > -1
          · rw [if_pos hmin]
            show (ite _ _ _ : Update ℤ ℤ Unit).outcome d _ _ _ = _
            -- and it is written only where it is an improvement
            by_cases hd : d = -1 ∨ ins.foldl least (-1) + 1 < d
            · rw [if_pos hd, if_pos ⟨hmin, hd⟩]
              show (writeOut vertex _).outcome _ _ _ _ = _
              rw [outcome_writeOut _ _ _ _ hnew]
              rfl
            · rw [if_neg hd, if_neg fun hc => hd hc.2]
              rfl
          · rw [if_neg hmin, if_neg fun hc => hmin hc.1]
            rfl
        · intro i hi
          rw [← hins]
          exact List.mem_range.mp hi
      · rfl

/-- **The least value that comes in**, where `-1` stands for none: what the loop
over the in-edges keeps is one of the values, and none that counts is
smaller. -/
theorem foldl_least (ins : List ℤ) :
    ∀ min ≥ -1, (ins.foldl least min = min ∨
        ins.foldl least min ∈ ins ∧ ins.foldl least min > -1) ∧
      (min > -1 → ins.foldl least min > -1 ∧ ins.foldl least min ≤ min) ∧
      ∀ y ∈ ins, y > -1 → ins.foldl least min > -1 ∧ ins.foldl least min ≤ y := by
  induction ins with
  | nil =>
    intro min hmin
    exact ⟨Or.inl rfl, fun h => ⟨h, le_rfl⟩, fun y hy => absurd hy List.not_mem_nil⟩
  | cons z ins ih =>
    intro min hmin
    have hleast : (least min z = min ∨ least min z = z ∧ z > -1) ∧
        (min > -1 → least min z ≤ min) ∧
        (z > -1 → least min z > -1 ∧ least min z ≤ z) := by
      unfold least
      split_ifs <;> omega
    obtain ⟨hor, hmono, hz⟩ := hleast
    obtain ⟨hmem, hle, hall⟩ := ih (least min z) (by omega)
    rw [List.foldl_cons]
    refine ⟨?_, fun h => ?_, fun y hy hpos => ?_⟩
    · rcases hmem with heq | ⟨hin, hpos⟩
      · rcases hor with hor | ⟨hor, hzpos⟩
        · exact Or.inl (heq.trans hor)
        · refine Or.inr ⟨?_, by omega⟩
          rw [heq, hor]
          exact List.mem_cons_self
      · exact Or.inr ⟨List.mem_cons_of_mem _ hin, hpos⟩
    · obtain ⟨hpos, hle⟩ := hle (by omega)
      have := hmono h
      exact ⟨hpos, by omega⟩
    · rcases List.mem_cons.mp hy with rfl | hy
      · obtain ⟨hpos', hle'⟩ := hz hpos
        obtain ⟨hpos'', hle''⟩ := hle hpos'
        exact ⟨hpos'', by omega⟩
      · exact hall y hy hpos

/-! ## Synchronous iterations -/

/-- A directed graph, with the numbers of the in- and out-edges of a vertex
in the order in which it has them. There may be loops and parallel edges. -/
structure Graph where
  /-- The sources and destinations. -/
  edges : List (ℕ × ℕ)
  inedges : ℕ → List ℕ
  outedges : ℕ → List ℕ
  mem_inedges : ∀ v k, k ∈ inedges v ↔ ∃ u, edges[k]? = some (u, v)
  mem_outedges : ∀ v k, k ∈ outedges v ↔ ∃ u, edges[k]? = some (v, u)

namespace Graph

variable (g : Graph)

/-- There is an edge. -/
def Adj (u v : ℕ) : Prop := (u, v) ∈ g.edges

/-- What `update` knows of a vertex. -/
def vertex (v : ℕ) : Vertex where
  id := v
  inedges := (g.inedges v).map fun k => (g.edges.getD k (0, 0)).1
  outedges := (g.outedges v).map fun k => (g.edges.getD k (0, 0)).2

end Graph

/-- The values of the vertices and of the edges, by their numbers. -/
structure Values where
  value : ℕ → ℤ
  edge : ℕ → ℤ

/-- **An iteration**, from `l` to `l'`, in which a read of an in-edge returns
what the source has written last before the iteration. -/
def Iterates (g : Graph) (selV iteration : ℕ) (l l' : Values) : Prop :=
  ∀ v, (update selV iteration (g.vertex v)).outcome (l.value v)
      ((g.inedges v).map l.edge) ((g.outedges v).map l.edge)
      ((g.outedges v).map l.edge) =
    some ((), l'.value v, (g.outedges v).map l'.edge)

variable {g : Graph} {selV iteration : ℕ} {l l' : Values}

/-- A vertex and its out-edges after an iteration. -/
theorem Iterates.written_eq (h : Iterates g selV iteration l l') (v : ℕ) :
    l'.value v = (written selV iteration v (l.value v)
        ((g.inedges v).map l.edge)).getD (l.value v) ∧
      ∀ k ∈ g.outedges v, l'.edge k = (written selV iteration v (l.value v)
        ((g.inedges v).map l.edge)).getD (l.edge k) := by
  have hv := h v
  rw [outcome_update _ _ _ _ (by simp [Graph.vertex])
    (by simp [Graph.vertex])] at hv
  obtain ⟨hvalue, hedges⟩ := Prod.mk.inj (Prod.mk.inj (Option.some.inj hv)).2
  refine ⟨hvalue.symm, fun k hk => ?_⟩
  obtain ⟨j, hj⟩ := List.mem_iff_getElem?.mp hk
  have hnew := congrArg (·[j]?) hedges
  rw [List.getElem?_map, hj] at hnew
  have hid : (g.vertex v).id = v := rfl
  rw [hid] at hnew
  cases hwritten : written selV iteration v (l.value v)
      ((g.inedges v).map l.edge) with
  | none =>
    rw [hwritten] at hnew
    have hold : ((g.outedges v).map l.edge)[j]? = some (l'.edge k) := hnew
    rw [List.getElem?_map, hj] at hold
    exact (Option.some.inj hold).symm
  | some y =>
    rw [hwritten] at hnew
    have hold : (List.replicate ((g.outedges v).map l.edge).length y)[j]? =
      some (l'.edge k) := hnew
    have hlt : j < ((g.outedges v).map l.edge).length := by
      rw [List.length_map]
      exact (List.getElem?_eq_some_iff.mp hj).1
    rw [List.getElem?_replicate_of_lt hlt] at hold
    exact (Option.some.inj hold).symm

/-- The edges have the values of their sources. -/
def OnEdges (g : Graph) (l : Values) : Prop :=
  ∀ v, ∀ k ∈ g.outedges v, l.edge k = l.value v

theorem Iterates.onEdges (h : Iterates g selV iteration l l')
    (hold : iteration = 0 ∨ OnEdges g l) : OnEdges g l' := by
  intro v k hk
  obtain ⟨hvalue, hedge⟩ := h.written_eq v
  rw [hvalue, hedge k hk]
  rcases hold with rfl | hold
  · rfl
  · rw [hold v k hk]

/-! ## The distances -/

open HopDistance

/-- A distance as a value, as far as it is known. -/
noncomputable def known (m : ℕ) (d : ℕ∞) : ℤ := if d ≤ m then d.toNat else -1

theorem known_of_le {m : ℕ} {d : ℕ∞} (h : d ≤ m) : known m d = d.toNat :=
  if_pos h

theorem known_of_not_le {m : ℕ} {d : ℕ∞} (h : ¬d ≤ m) : known m d = -1 :=
  if_neg h

theorem known_gt_iff {m : ℕ} {d : ℕ∞} : known m d > -1 ↔ d ≤ m := by
  unfold known
  split
  · next h => exact ⟨fun _ => h, fun _ => by omega⟩
  · next h => exact ⟨fun hlt => absurd hlt (by omega), fun hle => absurd hle h⟩

/-- A known distance is bounded by a number as the value is. -/
theorem known_le_iff {m n : ℕ} {d : ℕ∞} (h : d ≤ m) :
    known m d ≤ n ↔ d ≤ n := by
  rw [known_of_le h]
  have hd : ((d.toNat : ℕ) : ℕ∞) = d :=
    ENat.natCast_toNat (ne_top_of_le_ne_top (ENat.natCast_ne_top m) h)
  rw [← hd, ENat.toNat_natCast, Nat.cast_le, Nat.cast_le]

/-- **The values are the distances up to a bound.** -/
def Known (g : Graph) (selV m : ℕ) (l : Values) : Prop :=
  ∀ v, l.value v = known m (dist g.Adj selV v)

/-- In iteration 0 everything is marked. -/
theorem Iterates.marked (h : Iterates g selV 0 l l') (v : ℕ) :
    l'.value v = -1 := (h.written_eq v).1

/-- In iteration 1 the source vertex is found. -/
theorem Iterates.known_zero (h : Iterates g selV 1 l l') (hsel : selV ≠ 0)
    (hmarked : ∀ v, l.value v = -1) : Known g selV 0 l' := by
  intro v
  rw [(h.written_eq v).1, hmarked v]
  unfold written
  rw [if_neg one_ne_zero, if_pos rfl]
  by_cases hv : selV = v
  · subst hv
    rw [if_pos ⟨rfl, hsel⟩, dist_self]
    rfl
  · rw [if_neg fun hc => hv hc.1, known_of_not_le fun hle => ?_]
    · rfl
    · exact hv (dist_le_zero_iff.mp hle).symm

/-- **One more iteration** takes the bound one further: a vertex at distance
`m + 1` has an in-neighbour at distance `m`, whose value is on the edge, and no
in-edge has less than `m`. -/
theorem Iterates.known_succ {m : ℕ} (h : Iterates g selV iteration l l')
    (hsel : selV ≠ 0) (hiter : 2 ≤ iteration) (hedges : OnEdges g l)
    (hknown : Known g selV m l) : Known g selV (m + 1) l' := by
  intro v
  rw [(h.written_eq v).1]
  unfold written
  rw [if_neg (by omega), if_neg (by omega)]
  by_cases hv : selV = v
  · -- the source vertex keeps its value
    subst hv
    rw [if_neg (not_not.mpr ⟨rfl, hsel⟩), Option.getD_none, hknown, dist_self]
    rfl
  have hne : v ≠ selV := fun heq => hv heq.symm
  rw [if_pos fun hc => hv hc.1]
  dsimp only
  obtain ⟨hmem, -, hall⟩ := foldl_least ((g.inedges v).map l.edge) (-1) le_rfl
  -- what comes in are the values of the neighbours
  have hins : ∀ y, y ∈ (g.inedges v).map l.edge ↔
      ∃ u, g.Adj u v ∧ y = known m (dist g.Adj selV u) := by
    intro y
    rw [List.mem_map]
    constructor
    · rintro ⟨k, hk, rfl⟩
      obtain ⟨u, hu⟩ := (g.mem_inedges v k).mp hk
      refine ⟨u, List.mem_of_getElem? hu, ?_⟩
      rw [hedges u k ((g.mem_outedges u k).mpr ⟨v, hu⟩), hknown]
    · rintro ⟨u, hu, rfl⟩
      obtain ⟨k, hk⟩ := List.mem_iff_getElem?.mp hu
      refine ⟨k, (g.mem_inedges v k).mpr ⟨u, hk⟩, ?_⟩
      rw [hedges u k ((g.mem_outedges u k).mpr ⟨v, hk⟩), hknown]
  generalize ((g.inedges v).map l.edge).foldl least (-1) = min at hmem hall ⊢
  have hreach : min > -1 ↔ dist g.Adj selV v ≤ (m + 1 : ℕ) := by
    rw [dist_le_succ_iff hne]
    constructor
    · intro hpos
      rcases hmem with heq | ⟨hin, -⟩
      · omega
      · obtain ⟨u, hu, heq⟩ := (hins _).mp hin
        rw [heq] at hpos
        exact ⟨u, hu, known_gt_iff.mp hpos⟩
    · rintro ⟨u, hu, hle⟩
      exact (hall _ ((hins _).mpr ⟨u, hu, rfl⟩) (known_gt_iff.mpr hle)).1
  by_cases hle : dist g.Adj selV v ≤ (m + 1 : ℕ)
  · have hpos := hreach.mpr hle
    -- the least value is that of the last step of a shortest walk
    have hmin : min + 1 = known (m + 1) (dist g.Adj selV v) := by
      obtain ⟨d, hd⟩ := ENat.ne_top_iff_exists.mp
        (ne_top_of_le_ne_top (ENat.natCast_ne_top _) hle)
      rw [← hd, Nat.cast_le] at hle
      obtain ⟨d, rfl⟩ : ∃ d', d = d' + 1 := by
        refine Nat.exists_eq_succ_of_ne_zero ?_
        rintro rfl
        exact hne (dist_le_zero_iff.mp hd.ge)
      have hupper : min ≤ d := by
        obtain ⟨u, hu, hle'⟩ := (dist_le_succ_iff hne).mp hd.ge
        have hm : dist g.Adj selV u ≤ m :=
          hle'.trans (Nat.cast_le.mpr (by omega))
        exact (hall _ ((hins _).mpr ⟨u, hu, rfl⟩) (known_gt_iff.mpr hm)).2.trans
          ((known_le_iff hm).mpr hle')
      have hlower : (d : ℤ) ≤ min := by
        rcases hmem with heq | ⟨hin, -⟩
        · omega
        · obtain ⟨u, hu, heq⟩ := (hins _).mp hin
          have hm : dist g.Adj selV u ≤ m := by
            rw [heq] at hpos
            exact known_gt_iff.mp hpos
          have hnat : min = ((dist g.Adj selV u).toNat : ℕ) := by
            rw [heq, known_of_le hm]
          have hwalk := (known_le_iff hm).mp (heq ▸ hnat.le)
          have hv := (dist_le_succ_iff hne).mpr ⟨u, hu, hwalk⟩
          rw [← hd, Nat.cast_le] at hv
          omega
      rw [← hd, known_of_le (Nat.cast_le.mpr hle), ENat.toNat_natCast]
      omega
    split
    · exact hmin
    · next hnone =>
      -- the vertex has its distance already
      have hold : l.value v > -1 := by
        rw [hknown]
        by_contra hnot
        refine hnone ⟨hpos, Or.inl ?_⟩
        rw [hknown]
        unfold known at hnot ⊢
        split
        · next hc =>
          rw [if_pos hc] at hnot
          omega
        · rfl
      have hm : dist g.Adj selV v ≤ m := by
        rw [hknown] at hold
        exact known_gt_iff.mp hold
      rw [Option.getD_none, hknown, known_of_le hm, known_of_le hle]
  · have hnot : ¬dist g.Adj selV v ≤ m := fun hc =>
      hle (hc.trans (by exact_mod_cast Nat.le_succ m))
    rw [if_neg fun hc => hle (hreach.mp hc.1), Option.getD_none, hknown,
      known_of_not_le hle, known_of_not_le hnot]

/-- The values after iteration `i`. -/
theorem known_of_iterates (hsel : selV ≠ 0) {l : ℕ → Values}
    (h : ∀ i, Iterates g selV i (l i) (l (i + 1))) (m : ℕ) :
    OnEdges g (l (m + 2)) ∧ Known g selV m (l (m + 2)) := by
  induction m with
  | zero =>
    have hedges : OnEdges g (l 1) := (h 0).onEdges (Or.inl rfl)
    exact ⟨(h 1).onEdges (Or.inr hedges), (h 1).known_zero hsel (h 0).marked⟩
  | succ m ih =>
    exact ⟨(h (m + 2)).onEdges (Or.inr ih.1),
      (h (m + 2)).known_succ hsel (by omega) ih.1 ih.2⟩

/-- The finite distances are bounded. -/
theorem exists_bound (g : Graph) (selV : ℕ) :
    ∃ n : ℕ, ∀ v, dist g.Adj selV v ≠ ⊤ → dist g.Adj selV v ≤ n := by
  refine ⟨((g.edges.map Prod.snd).toFinset).sup
    fun v => (dist g.Adj selV v).toNat, fun v hv => ?_⟩
  by_cases hself : v = selV
  · rw [hself, dist_self]
    exact zero_le
  · obtain ⟨u, hu⟩ := exists_last hself hv
    have hmem : v ∈ (g.edges.map Prod.snd).toFinset :=
      List.mem_toFinset.mpr (List.mem_map_of_mem hu)
    rw [← ENat.natCast_toNat hv, Nat.cast_le]
    exact Finset.le_sup (f := fun v => (dist g.Adj selV v).toNat) hmem

/-- **The values are the hop distances**: after iteration `i` those up to
`i - 1`, and in the end all of them. -/
theorem values_eq_dist (hsel : selV ≠ 0) {l : ℕ → Values}
    (h : ∀ i, Iterates g selV i (l i) (l (i + 1))) :
    (∀ i ≥ 1, ∀ v, (l (i + 1)).value v =
      if dist g.Adj selV v ≤ (i - 1 : ℕ) then
        ((dist g.Adj selV v).toNat : ℤ)
      else -1) ∧
    ∃ n, ∀ i ≥ n, ∀ v, (l i).value v =
      if dist g.Adj selV v = ⊤ then -1 else ((dist g.Adj selV v).toNat : ℤ) := by
  constructor
  · intro i hi v
    obtain ⟨m, rfl⟩ : ∃ m, i = m + 1 := ⟨i - 1, by omega⟩
    exact (known_of_iterates hsel h m).2 v
  · obtain ⟨n, hn⟩ := exists_bound g selV
    refine ⟨n + 2, fun i hi v => ?_⟩
    obtain ⟨m, rfl⟩ : ∃ m, i = m + 2 := ⟨i - 2, by omega⟩
    rw [(known_of_iterates hsel h m).2 v]
    by_cases htop : dist g.Adj selV v = ⊤
    · rw [if_pos htop, htop, known_of_not_le (not_le.mpr (ENat.natCast_lt_top m))]
    · rw [if_neg htop, known_of_le ((hn v htop).trans
        (Nat.cast_le.mpr (by omega)))]

/-- The values after an iteration. -/
def iterate (g : Graph) (selV iteration : ℕ) (l : Values) : Values where
  value v := (written selV iteration v (l.value v)
    ((g.inedges v).map l.edge)).getD (l.value v)
  edge k :=
    match g.edges[k]? with
    | some (u, _) => (written selV iteration u (l.value u)
        ((g.inedges u).map l.edge)).getD (l.edge k)
    | none => l.edge k

theorem iterates_iterate (g : Graph) (selV iteration : ℕ) (l : Values) :
    Iterates g selV iteration l (iterate g selV iteration l) := by
  intro v
  rw [outcome_update _ _ _ _ (by simp [Graph.vertex])
    (by simp [Graph.vertex])]
  refine congrArg some (Prod.ext rfl (Prod.ext rfl ?_))
  have hedge : ∀ k ∈ g.outedges v, (iterate g selV iteration l).edge k =
      (written selV iteration v (l.value v)
        ((g.inedges v).map l.edge)).getD (l.edge k) := by
    intro k hk
    obtain ⟨u, hu⟩ := (g.mem_outedges v k).mp hk
    unfold iterate
    dsimp only
    rw [hu]
  rw [List.map_congr_left hedge]
  show (Option.map _ (written selV iteration v _ _)).getD _ = _
  cases written selV iteration v (l.value v) ((g.inedges v).map l.edge) with
  | none => rfl
  | some y =>
    show List.replicate _ y = (g.outedges v).map fun _ => y
    rw [List.map_const', List.length_map]

/-- The values before iteration `i`. -/
def run (g : Graph) (selV : ℕ) (l : Values) : ℕ → Values
  | 0 => l
  | i + 1 => iterate g selV i (run g selV l i)

/-- The graph of a list of edges, which the vertices have in this order. -/
def Graph.ofEdges (edges : List (ℕ × ℕ)) : Graph where
  edges := edges
  inedges v := (List.range edges.length).filter fun k =>
    edges[k]?.map Prod.snd = some v
  outedges v := (List.range edges.length).filter fun k =>
    edges[k]?.map Prod.fst = some v
  mem_inedges v k := by
    rw [List.mem_filter, List.mem_range, decide_eq_true_eq,
      Option.map_eq_some_iff]
    constructor
    · rintro ⟨-, ⟨u, v⟩, h, rfl⟩
      exact ⟨u, h⟩
    · rintro ⟨u, h⟩
      exact ⟨(List.getElem?_eq_some_iff.mp h).1, _, h, rfl⟩
  mem_outedges v k := by
    rw [List.mem_filter, List.mem_range, decide_eq_true_eq,
      Option.map_eq_some_iff]
    constructor
    · rintro ⟨-, ⟨v, u⟩, h, rfl⟩
      exact ⟨u, h⟩
    · rintro ⟨u, h⟩
      exact ⟨(List.getElem?_eq_some_iff.mp h).1, _, h, rfl⟩

/-- A vertex with two ways to it, behind a circle and with a loop. -/
def twoWays : Graph :=
  .ofEdges [(1, 2), (2, 1), (2, 3), (3, 3), (1, 4), (4, 5), (5, 3)]

/-- From vertex 1. -/
theorem values_eq_dist_twoWays :
    (∀ i ≥ 1, ∀ v, (run twoWays 1 ⟨fun _ => 0, fun _ => 0⟩ (i + 1)).value v =
      if dist twoWays.Adj 1 v ≤ (i - 1 : ℕ) then
        ((dist twoWays.Adj 1 v).toNat : ℤ)
      else -1) ∧
    ∃ n, ∀ i ≥ n, ∀ v, (run twoWays 1 ⟨fun _ => 0, fun _ => 0⟩ i).value v =
      if dist twoWays.Adj 1 v = ⊤ then -1
      else ((dist twoWays.Adj 1 v).toNat : ℤ) :=
  values_eq_dist one_ne_zero fun i => iterates_iterate _ _ i _

end Sssp

end VertexProgram
