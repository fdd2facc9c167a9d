import Mathlib
import DpdkGraph.PartitionTransparency
import DpdkGraph.Sssp

/-!
# Shortest paths with several workers

`update` of `sssp.cpp` reads its in-edges and writes its out-edges, all of
them with the same value, so that the partition does not show. What the
workers of a job compute are therefore the hop distances, in any order of
their requests.
-/

namespace VertexProgram

namespace Update

variable {V E α β : Type}

/-- The calls that read in-edges and write out-edges only. -/
def OneWay : Update V E α → Prop
  | done _ => True
  | getData next => ∀ d, (next d).OneWay
  | setData _ next => next.OneWay
  | getEdge side _ next => side = .inedge ∧ ∀ y, (next y).OneWay
  | setEdge side _ _ next => side = .outedge ∧ next.OneWay

theorem OneWay.outOnly {u : Update V E α} (h : u.OneWay) : u.OutOnly := by
  induction u with
  | done a => trivial
  | getData next ih => exact fun d => ih d (h d)
  | setData d next ih => exact ih h
  | getEdge side i next ih => exact fun y => ih y (h.2 y)
  | setEdge side i y next ih => exact ⟨h.1, ih h.2⟩

theorem OneWay.readsFirst {u : Update V E α} (h : u.OneWay) :
    ∀ written, u.ReadsFirst written := by
  induction u with
  | done a => exact fun _ => trivial
  | getData next ih => exact fun written d => ih d (h d) written
  | setData d next ih => exact ih h
  | getEdge side i next ih =>
    intro written
    refine ⟨fun hout => ?_, fun y => ih y (h.2 y) written⟩
    rw [h.1] at hout
    cases hout
  | setEdge side i y next ih => exact fun written => ih h.2 _

theorem OneWay.bind {u : Update V E α} {f : α → Update V E β} (hu : u.OneWay)
    (hf : ∀ a, (f a).OneWay) : (u.bind f).OneWay := by
  induction u with
  | done a => exact hf a
  | getData next ih => exact fun d => ih d (hu d)
  | setData d next ih => exact ih hu
  | getEdge side i next ih => exact ⟨hu.1, fun y => ih y (hu.2 y)⟩
  | setEdge side i y next ih => exact ⟨hu.1, ih hu.2⟩

theorem OneWay.foldlM {ι : Type} {f : α → ι → Update V E α}
    (hf : ∀ a i, (f a i).OneWay) (l : List ι) :
    ∀ a, (l.foldlM f a).OneWay := by
  induction l with
  | nil => exact fun _ => trivial
  | cons i l ih =>
    intro a
    rw [List.foldlM_cons]
    exact (hf a i).bind ih

theorem OneWay.forM {ι : Type} {f : ι → Update V E Unit}
    (hf : ∀ i, (f i).OneWay) (l : List ι) : (l.forM f).OneWay := by
  induction l with
  | nil => trivial
  | cons i l ih => exact (hf i).bind fun _ => ih

end Update

namespace Sssp

open Update

theorem writeOut_oneWay (vertex : Vertex) (y : ℤ) :
    (writeOut vertex y).OneWay := by
  unfold writeOut
  refine OneWay.forM (fun i => ?_) _
  exact ⟨rfl, trivial⟩

theorem smaller_oneWay (min : ℤ) (i : ℕ) : (smaller min i).OneWay := by
  refine ⟨rfl, fun y => ?_⟩
  show (ite _ _ _ : Update ℤ ℤ ℤ).OneWay
  split
  · split
    · exact ⟨rfl, fun _ => trivial⟩
    · refine ⟨rfl, fun z => ?_⟩
      show (ite _ _ _ : Update ℤ ℤ ℤ).OneWay
      split
      · exact ⟨rfl, fun _ => trivial⟩
      · trivial
  · trivial

theorem update_oneWay (selV iteration : ℕ) (vertex : Vertex) :
    (update selV iteration vertex).OneWay := by
  unfold update
  split
  · exact writeOut_oneWay vertex (-1)
  · split
    · split
      · exact writeOut_oneWay vertex 0
      · trivial
    · split
      · refine OneWay.bind (OneWay.foldlM smaller_oneWay _ _) fun min => ?_
        show (ite _ _ _ : Update ℤ ℤ Unit).OneWay
        split
        · intro value
          show (ite _ _ _ : Update ℤ ℤ Unit).OneWay
          split
          · exact writeOut_oneWay vertex (min + 1)
          · trivial
        · trivial
      · trivial

theorem update_orderFree (selV : ℕ) : OrderFree (update selV) := by
  intro iteration id d ins outs outs' hperm _ d₁ new h
  rw [outcome_update _ _ _ _ (by simp) (by simp)] at h
  obtain ⟨rfl, rfl⟩ := Prod.mk.inj (Prod.mk.inj (Option.some.inj h)).2
  refine ⟨_, outcome_update _ _ _ _ (by simp) (by simp), ?_⟩
  have hzip : ∀ (l : List (ℕ × ℕ × ℤ)) (f : ℕ × ℕ × ℤ → ℤ),
      (l.map Prod.fst).zip (l.map f) = l.map fun o => (o.1, f o) :=
    fun l f => by rw [List.zip_map']
  have hconst : ∀ (l : List (ℕ × ℕ × ℤ)) (y : ℤ),
      List.replicate (l.map fun o => o.2.2).length y = l.map fun _ => y :=
    fun l y => by rw [List.map_const', List.length_map]
  dsimp only
  cases written selV iteration id d (ins.map Prod.snd) with
  | none =>
    show ((outs.map Prod.fst).zip (outs.map fun o => o.2.2)).Perm
      ((outs'.map Prod.fst).zip (outs'.map fun o => o.2.2))
    rw [hzip, hzip]
    exact hperm.map _
  | some y =>
    show ((outs.map Prod.fst).zip (List.replicate _ y)).Perm
      ((outs'.map Prod.fst).zip (List.replicate _ y))
    rw [hconst, hconst, hzip, hzip]
    exact hperm.map _

end Sssp

end VertexProgram

namespace Engine

open VertexProgram
open Transition (Run)

variable {x : Input ℤ ℤ} {selV : ℕ}

/-- The graph of the edges, which a vertex has in their order. -/
def Input.graph (x : Input ℤ ℤ) : Sssp.Graph where
  edges := x.edges.map fun e => (e.src, e.dst)
  inedges v := (x.edgesAt .inedge v).map Prod.snd
  outedges v := (x.edgesAt .outedge v).map Prod.snd
  mem_inedges v k := by
    rw [List.mem_map, List.getElem?_map]
    constructor
    · rintro ⟨n, hn, rfl⟩
      obtain ⟨hmem, hdst⟩ := mem_edgesAt.mp hn
      have hdst : n.1.dst = v := hdst
      rw [List.mem_zipIdx_iff_getElem?.mp hmem, ← hdst]
      exact ⟨n.1.src, rfl⟩
    · rintro ⟨u, hu⟩
      obtain ⟨e, he, heq⟩ := Option.map_eq_some_iff.mp hu
      exact ⟨(e, k), mem_edgesAt.mpr ⟨List.mem_zipIdx_iff_getElem?.mpr he,
        (Prod.mk.inj heq).2⟩, rfl⟩
  mem_outedges v k := by
    rw [List.mem_map, List.getElem?_map]
    constructor
    · rintro ⟨n, hn, rfl⟩
      obtain ⟨hmem, hsrc⟩ := mem_edgesAt.mp hn
      have hsrc : n.1.src = v := hsrc
      rw [List.mem_zipIdx_iff_getElem?.mp hmem, ← hsrc]
      exact ⟨n.1.dst, rfl⟩
    · rintro ⟨u, hu⟩
      obtain ⟨e, he, heq⟩ := Option.map_eq_some_iff.mp hu
      exact ⟨(e, k), mem_edgesAt.mpr ⟨List.mem_zipIdx_iff_getElem?.mpr he,
        (Prod.mk.inj heq).1⟩, rfl⟩

end Engine
