import Mathlib
import DpdkGraph.MainShard

/-!
# Where the edge objects of a main shard point to

The engine loads a worker's main shard with the worker's own interval as the
window, so that no row is left early. `records_eq` says what is added: for
each edge, in the order of the file, the objects made with the cursor there.

The cursor is right at an edge when it has passed an edge for each block it
had to pass, counted from any earlier block (`KeepsUp`). An empty block with
an object behind it takes that away: the cursor is then still in the empty
block, and so are the pointers. The second pointers are right as long as
`edgeptr_syn`, an `int`, can count to them (`mapped_iff`).
-/

namespace MainShard

open SparseRows
open LaggingCursor (At time_le_iff)
open Reshard (toInt32)
open VertexProgram (Side)

/-- **A main shard that is loaded as the engine does**: the window is the
interval of the worker. -/
structure OwnShard extends Shard where
  /-- `exec_interval`. -/
  exec : ℕ
  exec_lt : exec < blocks.length
  /-- All destinations are vertices of the worker. -/
  dst : ∀ q ∈ expand 0 items, loader.inWindow q.2 = true
  /-- The sources that are vertices of the worker are those of its own
  block. -/
  src : ∀ q ∈ (expand 0 items).zipIdx, loader.inWindow q.1.1 =
    decide (toShard.ends exec ≤ q.2 ∧ q.2 < toShard.ends (exec + 1))

namespace OwnShard

variable (x : OwnShard)

/-- The edges of the file, as pairs of a source and a destination. -/
def pairs : List (ℕ × ℕ) := expand 0 x.items

theorem length_pairs : x.pairs.length = x.edges := by
  unfold pairs Shard.edges
  rw [← map_snd_expand 0, List.length_map]

/-- The number of an edge of the file. -/
theorem lt_edges {q : (ℕ × ℕ) × ℕ} (hq : q ∈ x.pairs.zipIdx) :
    q.2 < x.edges := by
  rw [← x.length_pairs]
  exact List.snd_lt_of_mem_zipIdx hq

/-- The slot of an edge in its block, as `data_ptr` addresses it. -/
def place (e : ℕ) : ℕ × ℕ :=
  (x.blockOf e, x.loader.edgeSize * (e - x.ends (x.blockOf e)))

/-- The same slot of `main_to_main_buf`, for an edge of the worker's own
block. -/
def placeSyn (e : ℕ) : ℤ := x.loader.edgeSize * ((e - x.ends x.exec : ℕ) : ℤ)

/-- Whether an edge has an out-edge object at its source. -/
def hasOut (src : ℕ) : Bool := x.loader.hasVertex src && x.loader.outedges

/-- Whether an edge has an in-edge object at its destination. -/
def hasIn (dst : ℕ) : Bool :=
  x.loader.inWindow dst && x.loader.inedges && x.loader.scheduled dst

/-- The objects that an edge, given with its number, should have. -/
def objects (q : (ℕ × ℕ) × ℕ) : List Record :=
  (if x.hasOut q.1.1 then
    [⟨q.2, .outedge, q.1.1, q.1.2, x.place q.2,
      if x.loader.synchronous then some (x.placeSyn q.2) else none⟩]
  else []) ++
  if x.hasIn q.1.2 then
    [⟨q.2, .inedge, q.1.2, q.1.1, x.place q.2,
      if x.loader.inWindow q.1.1 && x.loader.synchronous then
        some (x.placeSyn q.2)
      else none⟩]
  else []

/-- **Every edge object points to the slot of its edge**, and in synchronous
mode the objects of the edges inside the window also to that of
`main_to_main_buf`. -/
def Mapped : Prop :=
  ∃ l, x.load = some l ∧ l.records = x.pairs.zipIdx.flatMap x.objects

/-! ## The cursor at an edge -/

/-- The block under the cursor after `e` edges. -/
def bidAt : ℕ → ℕ
  | 0 => 0
  | e + 1 =>
    if x.ends (bidAt e + 1) ≤ e + 1 then bidAt e + 1 else bidAt e

/-- `edgeptr_syn` after `e` edges. -/
def synAt : ℕ → ℤ
  | 0 => 0
  | e + 1 =>
    if x.ends x.exec ≤ e ∧ e < x.ends (x.exec + 1) then
      toInt32 (synAt e + x.loader.edgeSize)
    else synAt e

theorem bidAt_succ (e : ℕ) : x.bidAt (e + 1) =
    if x.ends (x.bidAt e + 1) ≤ e + 1 then x.bidAt e + 1 else x.bidAt e := rfl

theorem synAt_succ (e : ℕ) : x.synAt (e + 1) =
    if x.ends x.exec ≤ e ∧ e < x.ends (x.exec + 1) then
      toInt32 (x.synAt e + x.loader.edgeSize)
    else x.synAt e := rfl

/-- The cursor after `e` edges. -/
def cursorAt (e : ℕ) : Cursor :=
  ⟨x.loader.edgeSize * e, x.synAt e, x.bidAt e,
    x.loader.edgeSize * x.ends (x.bidAt e + 1)⟩

theorem at_bidAt (e : ℕ) : At x.ends 0 0 e (x.bidAt e) := by
  induction e with
  | zero => exact At.start _ _ _
  | succ e ih => exact ih.next

theorem ends_bidAt_le (e : ℕ) : x.ends (x.bidAt e) ≤ e := by
  induction e with
  | zero => exact le_rfl
  | succ e ih =>
    unfold bidAt
    split
    · next h => exact h
    · exact ih.trans (Nat.le_succ e)

/-- While there are edges left the cursor is in a block. -/
theorem bidAt_lt {e : ℕ} (he : e < x.edges) : x.bidAt e < x.P := by
  by_contra hle
  have hmono := x.ends_mono (not_lt.mp hle)
  have hend := x.ends_bidAt_le e
  rw [x.ends_P] at hmono
  omega

theorem tracks_cursorAt {e : ℕ} (hbid : x.bidAt e < x.P) :
    x.Tracks e (x.cursorAt e) :=
  ⟨rfl, rfl, hbid, x.ends_bidAt_le e⟩

/-- **The cursor behind edge `e`**, unless it is lost: it moves by the size of a
value, and by one block if it has come to the end of its own. -/
theorem advance_cursorAt {q : (ℕ × ℕ) × ℕ} (hq : q ∈ x.pairs.zipIdx) :
    x.loader.advance q.1.1 (x.cursorAt q.2) =
      if x.bidAt (q.2 + 1) < x.P then some (x.cursorAt (q.2 + 1)) else none := by
  have he := x.lt_edges hq
  have hbid := x.bidAt_lt he
  have hwindow : (x.loader.inWindow q.1.1 = true) =
      (x.ends x.exec ≤ q.2 ∧ q.2 < x.ends (x.exec + 1)) := by
    rw [x.src q hq, decide_eq_true_eq]
  have hsyn : (if x.loader.inWindow q.1.1 = true then
      toInt32 ((x.cursorAt q.2).edgeptrSyn + x.loader.edgeSize)
      else (x.cursorAt q.2).edgeptrSyn) = x.synAt (q.2 + 1) := by
    rw [x.synAt_succ]
    simp only [hwindow]
    rfl
  have hnext := x.bidAt_succ q.2
  rw [x.advance_eq q.1.1 (x.tracks_cursorAt hbid), hsyn]
  show (if x.ends (x.bidAt q.2 + 1) ≤ q.2 + 1 ∧ x.bidAt q.2 + 1 = x.P then none
    else some (Cursor.mk (x.loader.edgeSize * (q.2 + 1)) (x.synAt (q.2 + 1))
      (if x.ends (x.bidAt q.2 + 1) ≤ q.2 + 1 then x.bidAt q.2 + 1
        else x.bidAt q.2)
      (x.loader.edgeSize * x.ends ((if x.ends (x.bidAt q.2 + 1) ≤ q.2 + 1
        then x.bidAt q.2 + 1 else x.bidAt q.2) + 1)))) = _
  rw [← hnext]
  by_cases hlost : x.ends (x.bidAt q.2 + 1) ≤ q.2 + 1 ∧ x.bidAt q.2 + 1 = x.P
  · rw [if_pos hlost.1] at hnext
    rw [if_pos hlost, if_neg (by omega)]
  · have hlt : x.bidAt (q.2 + 1) < x.P := by
      split at hnext
      · next hend =>
        have : ¬x.bidAt q.2 + 1 = x.P := fun hl => hlost ⟨hend, hl⟩
        omega
      · omega
    rw [if_neg hlost, if_pos hlt]
    rfl

/-! ## What is added -/

/-- What is added for an edge with the cursor there. -/
def added (q : (ℕ × ℕ) × ℕ) : List Record :=
  x.loader.outRecord q.1.1 q.1.2 (x.cursorAt q.2) ++
    x.loader.inRecord q.1.1 q.1.2 (x.cursorAt q.2)

/-- No row is left early. -/
theorem leaves_eq_false {q : ℕ × ℕ} (hq : q ∈ x.pairs) (vid : ℕ) :
    x.loader.leaves vid q.2 = false := by
  have hdst := of_decide_eq_true (x.dst q hq)
  unfold Loader.leaves
  rw [decide_eq_false (by omega), Bool.false_and]

/-- One row: `done` are the edges before it. The cursor is where it is after as
many edges, as long as there is a block left; so the records of the row are
those of its edges, one slot after the other. -/
theorem loadRow_eq {vid : ℕ} (ts : List ℕ) :
    ∀ (done rest : List (ℕ × ℕ)),
      x.pairs = done ++ ts.map (fun t => (vid, t)) ++ rest →
      x.bidAt done.length < x.P →
      (x.loader.loadRow vid (x.cursorAt done.length) ts).records =
          ((ts.map fun t => (vid, t)).zipIdx done.length).flatMap x.added ∧
        (x.loader.loadRow vid (x.cursorAt done.length) ts).cursor =
          if x.bidAt (done.length + ts.length) < x.P then
            some (x.cursorAt (done.length + ts.length))
          else none := by
  induction ts with
  | nil =>
    intro done rest _ hbid
    rw [List.length_nil, Nat.add_zero, if_pos hbid]
    exact ⟨rfl, rfl⟩
  | cons t ts ih =>
    intro done rest hx hbid
    have hx' : x.pairs = (done ++ [(vid, t)]) ++ ts.map (fun t => (vid, t)) ++
        rest := by
      rw [hx]
      simp
    have hget : ((vid, t), done.length) ∈ x.pairs.zipIdx := by
      rw [List.mk_mem_zipIdx_iff_getElem?, hx, List.append_assoc,
        List.getElem?_append_right le_rfl, Nat.sub_self]
      rfl
    have hmem : (vid, t) ∈ x.pairs := List.fst_mem_of_mem_zipIdx hget
    have hadv := x.advance_cursorAt hget
    have hlen : (done ++ [(vid, t)]).length = done.length + 1 := by
      rw [List.length_append, List.length_singleton]
    have hsum : done.length + (t :: ts).length =
        done.length + 1 + ts.length := by
      rw [List.length_cons]
      omega
    -- where no block is left, no edge is left in the row
    have hall : x.bidAt (done.length + 1) < x.P ∨ ts = [] := by
      cases ts with
      | nil => exact Or.inr rfl
      | cons u us =>
        refine Or.inl (x.bidAt_lt ?_)
        rw [← x.length_pairs, hx]
        simp only [List.length_append, List.length_map, List.length_cons]
        omega
    unfold Loader.loadRow
    rw [if_neg (by rw [x.leaves_eq_false hmem]; decide), hadv, hsum,
      List.map_cons, List.zipIdx_cons, List.flatMap_cons]
    by_cases hnext : x.bidAt (done.length + 1) < x.P
    · obtain ⟨hrec, hcur⟩ := ih (done ++ [(vid, t)]) rest hx'
        (by rw [hlen]; exact hnext)
      rw [hlen] at hrec hcur
      rw [if_pos hnext]
      exact ⟨congrArg (x.added ((vid, t), done.length) ++ ·) hrec, hcur⟩
    · have hnil := hall.resolve_left hnext
      subst hnil
      rw [if_neg hnext]
      refine ⟨(List.append_nil _).symm, ?_⟩
      rw [List.length_nil, Nat.add_zero, if_neg hnext]

/-- **What is added**: for each edge, with the cursor there. The loop goes item
by item, and the cursor of an edge depends on the number of edges before it
only. -/
theorem loadItems_eq (its : List Item) :
    ∀ (vid : ℕ) (done : List (ℕ × ℕ)), x.pairs = done ++ expand vid its →
      x.bidAt done.length < x.P →
      (x.loader.loadItems vid (x.cursorAt done.length) its).records =
        ((expand vid its).zipIdx done.length).flatMap x.added := by
  induction its with
  | nil => exact fun vid done _ _ => rfl
  | cons it its ih =>
    intro vid done hx hbid
    have hx' : x.pairs = (done ++ it.targets.map fun t => (vid, t)) ++
        expand (vid + it.span) its := by
      rw [hx, expand, List.append_assoc]
    have hlen : (done ++ it.targets.map fun t => (vid, t)).length =
        done.length + it.targets.length := by
      rw [List.length_append, List.length_map]
    obtain ⟨hrec, hcur⟩ := x.loadRow_eq it.targets done _ hx' hbid
    unfold Loader.loadItems
    rw [hcur, expand, List.zipIdx_append, List.flatMap_append,
      List.length_map]
    by_cases hnext : x.bidAt (done.length + it.targets.length) < x.P
    · have hrest := ih (vid + it.span) _ hx' (by rw [hlen]; exact hnext)
      rw [hlen] at hrest
      rw [if_pos hnext]
      show _ ++ (x.loader.loadItems (vid + it.span) _ its).records = _
      rw [hrec, hrest]
    · -- the last block ends here, and with it the file
      have hnil : expand (vid + it.span) its = [] := by
        by_contra hne
        have hpos := List.length_pos_iff.mpr hne
        refine hnext (x.bidAt_lt ?_)
        rw [← x.length_pairs, hx', List.length_append, hlen]
        omega
      rw [if_neg hnext, hnil]
      show (x.loader.loadRow vid _ it.targets).records = _ ++ []
      rw [hrec, List.append_nil]

theorem records_eq {l : Loaded} (h : x.load = some l) :
    l.records = x.pairs.zipIdx.flatMap x.added := by
  have hload := x.load_eq
  rw [h, Option.some.injEq] at hload
  rw [hload]
  exact x.loadItems_eq x.items 0 [] rfl x.P_pos

/-! ## When the pointers are right -/

/-- **The cursor has not fallen behind** at an edge: counted from any earlier
block, there is an edge before it for each block to pass. -/
def KeepsUp (e : ℕ) : Prop :=
  ∀ k < x.blockOf e, x.ends k + (x.blockOf e - k) ≤ e

theorem bidAt_eq_iff {e : ℕ} (he : e < x.edges) :
    x.bidAt e = x.blockOf e ↔ x.KeepsUp e := by
  obtain ⟨-, hbelow, habove⟩ := x.blockOf_spec he
  rw [(x.at_bidAt e).eq_iff (Nat.zero_le _) habove, time_le_iff]
  unfold KeepsUp
  constructor
  · rintro ⟨hfirst, hall⟩ k hk
    rcases Nat.eq_zero_or_pos k with rfl | hpos
    · rw [x.ends_zero]
      omega
    · have := hall k hpos (by omega)
      rw [Nat.zero_add] at this
      omega
  · intro h
    refine ⟨?_, fun k hpos hk => ?_⟩
    · rcases Nat.eq_zero_or_pos (x.blockOf e) with hzero | hpos
      · omega
      · have := h 0 hpos
        rw [x.ends_zero] at this
        omega
    · rw [Nat.zero_add]
      rcases hk.eq_or_lt with hlast | hlt
      · rw [hlast, Nat.sub_zero, Nat.sub_self]
        exact hbelow
      · exact h k hlt

/-- The second pointer, as far as the own block goes. -/
theorem synAt_eq {e : ℕ} (he : e ≤ x.ends (x.exec + 1)) :
    x.synAt e = toInt32 (x.placeSyn e) := by
  induction e with
  | zero => simp [synAt, placeSyn, toInt32]
  | succ e ih =>
    unfold synAt
    rw [ih (by omega)]
    split
    · next hin =>
      have hplace : x.placeSyn (e + 1) = x.placeSyn e + x.loader.edgeSize := by
        unfold placeSyn
        rw [Nat.succ_sub hin.1, Nat.cast_succ, mul_add, mul_one]
      unfold toInt32
      rw [hplace, Int.bmod_add_bmod]
    · next hout =>
      have hplace : x.placeSyn (e + 1) = x.placeSyn e := by
        unfold placeSyn
        rw [Nat.sub_eq_zero_of_le (by omega), Nat.sub_eq_zero_of_le (by omega)]
      rw [hplace]

/-- The second pointer is right as long as an `int` can count to it. -/
theorem synAt_eq_iff {e : ℕ} (he : e ≤ x.ends (x.exec + 1)) :
    x.synAt e = x.placeSyn e ↔
      x.loader.edgeSize * (e - x.ends x.exec) < 2 ^ 31 := by
  have hcast : x.placeSyn e =
      ((x.loader.edgeSize * (e - x.ends x.exec) : ℕ) : ℤ) := by
    unfold placeSyn
    rw [Nat.cast_mul]
  rw [x.synAt_eq he, hcast]
  unfold toInt32
  constructor
  · intro h
    have hlt := Int.bmod_lt (m := 2 ^ 32) (by decide)
      (x := ((x.loader.edgeSize * (e - x.ends x.exec) : ℕ) : ℤ))
    omega
  · exact fun h => Int.bmod_eq_of_le (by omega) (by omega)

/-- Whether an edge has an object. -/
def Recorded (q : ℕ × ℕ) : Prop := x.hasOut q.1 = true ∨ x.hasIn q.2 = true

/-- The pointer under the cursor. -/
theorem eptr_cursorAt {e : ℕ} (hbid : x.bidAt e < x.P) :
    x.loader.eptr (x.cursorAt e) =
      (x.bidAt e, x.loader.edgeSize * (e - x.ends (x.bidAt e))) := by
  have hsize : x.loader.blocksizes.getD (x.bidAt e) 0 =
      x.loader.edgeSize * x.blocks[x.bidAt e] := by
    rw [List.getD_eq_getElem?_getD, x.getElem?_blocksizes,
      List.getElem?_eq_getElem hbid]
    rfl
  unfold Loader.eptr cursorAt
  dsimp only
  rw [hsize, x.ends_succ hbid, Nat.mul_add, Nat.add_sub_cancel, Nat.mul_sub]

/-- **One edge**: its objects are right if and only if it has none, or the
cursor has kept up and `edgeptr_syn` has not overflowed. -/
theorem added_eq_iff {q : (ℕ × ℕ) × ℕ} (hq : q ∈ x.pairs.zipIdx) :
    x.added q = x.objects q ↔
      (x.Recorded q.1 → x.KeepsUp q.2 ∧
        (x.loader.synchronous = true → x.loader.inWindow q.1.1 = true →
          x.loader.edgeSize * (q.2 - x.ends x.exec) < 2 ^ 31)) := by
  have he := x.lt_edges hq
  have hplace : x.loader.eptr (x.cursorAt q.2) = x.place q.2 ↔
      x.KeepsUp q.2 := by
    rw [x.eptr_cursorAt (x.bidAt_lt he), ← x.bidAt_eq_iff he]
    unfold place
    constructor
    · exact fun h => congrArg Prod.fst h
    · exact fun h => by rw [h]
  have hnumber : (x.cursorAt q.2).edgeptr / x.loader.edgeSize = q.2 :=
    Nat.mul_div_cancel_left _ x.edgeSize_pos
  have hsyn : x.loader.inWindow q.1.1 = true →
      (x.synAt q.2 = x.placeSyn q.2 ↔
        x.loader.edgeSize * (q.2 - x.ends x.exec) < 2 ^ 31) := by
    intro hin
    rw [x.src q hq, decide_eq_true_eq] at hin
    exact x.synAt_eq_iff (by omega)
  have hcur : (x.cursorAt q.2).edgeptrSyn = x.synAt q.2 := rfl
  have hown : x.hasOut q.1.1 = true → x.loader.inWindow q.1.1 = true := by
    unfold hasOut Loader.hasVertex
    simp only [Bool.and_eq_true]
    exact fun h => h.1.1
  unfold added objects Recorded Loader.outRecord Loader.inRecord
  rw [hnumber, hcur]
  change ((if x.hasOut q.1.1 = true then _ else _) ++
    (if x.hasIn q.1.2 = true then _ else _)) = _ ↔ _
  rw [← hplace]
  by_cases hout : x.hasOut q.1.1 = true <;>
    by_cases hin : x.hasIn q.1.2 = true <;>
    by_cases hw : x.loader.inWindow q.1.1 = true <;>
    by_cases hs : x.loader.synchronous = true <;>
    simp_all

/-- Lists put together from pieces of the same lengths. -/
theorem flatMap_eq_flatMap_iff {α β : Type} {f g : α → List β} (l : List α)
    (h : ∀ a ∈ l, (f a).length = (g a).length) :
    l.flatMap f = l.flatMap g ↔ ∀ a ∈ l, f a = g a := by
  induction l with
  | nil => simp
  | cons a l ih =>
    have ih' := ih fun b hb => h b (List.mem_cons_of_mem a hb)
    rw [List.flatMap_cons, List.flatMap_cons, List.forall_mem_cons, ← ih']
    constructor
    · exact fun heq => List.append_inj heq (h a List.mem_cons_self)
    · rintro ⟨ha, hl⟩
      rw [ha, hl]

theorem length_added (q : (ℕ × ℕ) × ℕ) :
    (x.added q).length = (x.objects q).length := by
  unfold added objects Loader.outRecord Loader.inRecord hasOut hasIn
  rw [List.length_append, List.length_append]
  congr 1
  · split <;> rfl
  · split <;> rfl

/-- What is added is compared edge by edge. -/
theorem mapped_iff_added (x : OwnShard) :
    x.Mapped ↔ ∀ q ∈ x.pairs.zipIdx, x.added q = x.objects q := by
  rw [← flatMap_eq_flatMap_iff _ fun q _ => x.length_added q]
  constructor
  · rintro ⟨l, hl, hrec⟩
    rw [← x.records_eq hl, hrec]
  · intro h
    exact ⟨_, x.load_eq, (x.records_eq x.load_eq).trans h⟩

/-- **When every edge object points to the slot of its edge.** -/
theorem mapped_iff (x : OwnShard) :
    x.Mapped ↔ ∀ q ∈ x.pairs.zipIdx, x.Recorded q.1 → x.KeepsUp q.2 ∧
      (x.loader.synchronous = true → x.loader.inWindow q.1.1 = true →
        x.loader.edgeSize * (q.2 - x.ends x.exec) < 2 ^ 31) := by
  rw [mapped_iff_added]
  exact forall₂_congr fun q hq => x.added_eq_iff hq

/-- Two workers, the second of which owns the vertices 1 and 2 and has no
edges from the first: its edge from 1 to 2 is looked for in the empty
block. -/
theorem not_mapped_emptyBlock : ¬∀ x : OwnShard, x.Mapped := by
  intro h
  have hadded := (mapped_iff_added
    { loader := ⟨1, 2, fun _ => true, true, true, true, 4, [0, 4]⟩
      edgeSize_pos := by decide
      items := [.skip 0, .row [2]]
      valid := by simp [Item.Valid]
      short := by simp [Item.targets]
      blocks := [0, 1]
      blocks_ne_nil := by decide
      blocksizes := by decide
      sum_blocks := by decide
      exec := 1
      exec_lt := by decide
      dst := by decide
      src := by decide }).mp (h _) ((1, 2), 0) (by decide)
  exact absurd hadded (by decide)

end OwnShard

end MainShard
