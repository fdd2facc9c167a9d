import Mathlib
import DpdkGraph.ReshardFiles

/-!
# Reading a shard's adjacency back

The engine reads the main adjacency file with `load_vertices_XG`, which
counts the vertices from 0, and the adjacency file of a destination shard
with `read_next_vertices_XG`, which starts at the first vertex of the
interval and checks what it reads. Both turn the count of a row into an
`int`, so a row of `2 ^ 31` edges or more would be read as empty.

On bytes that stand for a list of pairs, with rows below that bound, both
return the pairs.
-/

namespace Reshard

open SparseRows

/-- The destinations of a row whose first byte is `ns`; the count is an
`int`. -/
def readRow (ns : UInt8) (ptr : List UInt8) : Option (List ℕ × List UInt8) :=
  (readCount ns ptr).bind fun n => readTargets (toInt32 n.1).toNat n.2

/-- The byte that says how many further vertices have no edges. -/
def readZeros : List UInt8 → Option (ℕ × List UInt8)
  | [] => none
  | nz :: ptr => some (nz.toNat, ptr)

/-- The loop of `load_vertices_XG`, at vertex `vid`, for at most `fuel`
items: the pairs of a source and a destination. -/
def loadVerticesFrom : ℕ → ℕ → List UInt8 → Option (List (ℕ × ℕ))
  | _, _, [] => some []
  | 0, _, _ :: _ => none
  | fuel + 1, vid, ns :: ptr =>
    if ns = 0x00 then
      (readZeros ptr).bind fun nz => loadVerticesFrom fuel (vid + 1 + nz.1) nz.2
    else
      (readRow ns ptr).bind fun row =>
        (loadVerticesFrom fuel (vid + 1) row.2).map fun l =>
          row.1.map (fun target => (vid, target)) ++ l

/-- **`load_vertices_XG`**: the edges of the main adjacency file. An item
takes at least a byte, so the length bounds the rounds. -/
def loadVerticesXG (adjdata : List UInt8) : Option (List (ℕ × ℕ)) :=
  loadVerticesFrom adjdata.length 0 adjdata

/-- The loop of `read_next_vertices_XG`, for the vertices from `start` on:
`i` counts the vertices, `curvid` is the one under the cursor, and `slots`
the edge values left. The checks fail as the assertions do: a file that
ends within an item, a vertex other than the one under the cursor, a
destination outside the range, or no edge value left. -/
def readNextFrom (rangeSt rangeEnd nvecs start : ℕ) :
    ℕ → ℕ → ℕ → ℕ → List UInt8 → Option (List (ℕ × ℕ))
  | _, _, _, _, [] => some []
  | 0, _, _, _, _ :: _ => none
  | fuel + 1, i, curvid, slots, ns :: adj =>
    if i < nvecs then
      if ns = 0x00 then
        (readZeros adj).bind fun nz =>
          readNextFrom rangeSt rangeEnd nvecs start fuel (i + nz.1 + 1)
            (curvid + 1 + nz.1) slots nz.2
      else
        (readRow ns adj).bind fun row =>
          if start + i = curvid ∧ row.1.length ≤ slots
              ∧ ∀ target ∈ row.1, rangeSt ≤ target ∧ target ≤ rangeEnd then
            (readNextFrom rangeSt rangeEnd nvecs start fuel (i + 1) (curvid + 1)
                (slots - row.1.length) row.2).map fun l =>
              row.1.map (fun target => (curvid, target)) ++ l
          else none
    else some []

/-- **`read_next_vertices_XG`**: the edges of a destination shard's
adjacency file, for `nvecs` vertices from `start` on, all of them
scheduled, with `slots` edge values. -/
def readNextVerticesXG (rangeSt rangeEnd nvecs start slots : ℕ)
    (adj : List UInt8) : Option (List (ℕ × ℕ)) :=
  readNextFrom rangeSt rangeEnd nvecs start adj.length 0 start slots adj

/-! ## Reading what the items stand for -/

/-- A row of fewer than `2 ^ 31` edges is read back. -/
theorem readRow_spec {ts : List ℕ} (hv : (Item.row ts).Valid)
    (hlt : ts.length < 2 ^ 31) (rest : List UInt8) :
    ∃ ns ptr, encodeItem (.row ts) ++ rest = ns :: ptr ∧ ns ≠ 0
      ∧ readRow ns ptr = some (ts, rest) := by
  obtain ⟨hne, hlen, hts⟩ := hv
  obtain ⟨ns, ptr, happ, hns, hcount⟩ := countBytes_spec (List.length_pos_iff.mpr hne) hlen
    (ts.flatMap u32le ++ rest)
  refine ⟨ns, ptr, ?_, hns, ?_⟩
  · rw [encodeItem, List.append_assoc, happ]
  · have hint : (toInt32 ts.length).toNat = ts.length := by
      rw [Reshard.toInt32_natCast (by omega)]
      rfl
    unfold readRow
    rw [hcount, Option.bind_some, hint, readTargets_flatMap hts]

/-- A run of vertices without edges, by its two bytes. -/
theorem encode_skip {more : ℕ} (hmore : more < 256) :
    ∃ nz : UInt8, nz.toNat = more ∧ encodeItem (.skip more) = [0, nz] := by
  refine ⟨UInt8.ofNat more, ?_, rfl⟩
  rw [UInt8.toNat_ofNat']
  exact Nat.mod_eq_of_lt hmore

/-- The pairs of a sequence bound its rows. -/
theorem length_row_le {v : ℕ} {ts : List ℕ} {its : List Item} :
    ts.length ≤ (expand v (.row ts :: its)).length := by
  simp [expand, Item.targets]

/-- A row is no longer than the pairs. -/
theorem length_targets_le {v : ℕ} {it : Item} {its : List Item} (h : it ∈ its) :
    it.targets.length ≤ (expand v its).length := by
  rw [← List.length_map Prod.snd, map_snd_expand]
  rw [List.flatMap]
  exact (List.sublist_flatten_of_mem (List.mem_map_of_mem h)).length_le

theorem length_expand_cons (v : ℕ) (it : Item) (its : List Item) :
    (expand v (it :: its)).length
      = it.targets.length + (expand (v + it.span) its).length := by
  simp [expand]

/-- `load_vertices_XG` reads what the items stand for. -/
theorem loadVerticesFrom_encode {its : List Item} (hv : ∀ it ∈ its, it.Valid)
    {fuel v : ℕ} (hfuel : (encode its).length ≤ fuel)
    (hshort : (expand v its).length < 2 ^ 31) :
    loadVerticesFrom fuel v (encode its) = some (expand v its) := by
  induction its generalizing fuel v with
  | nil => cases fuel <;> rfl
  | cons it its ih =>
    have hit : it.Valid := hv it List.mem_cons_self
    have hits : ∀ i ∈ its, i.Valid := fun i hi => hv i (List.mem_cons_of_mem _ hi)
    have hpos : 0 < (encodeItem it).length :=
      List.length_pos_iff.mpr (encodeItem_ne_nil hit)
    rw [encode_cons, List.length_append] at hfuel
    obtain ⟨f, rfl⟩ : ∃ f, fuel = f + 1 := ⟨fuel - 1, by omega⟩
    have hlen := length_expand_cons v it its
    have ih' := @ih hits f (v + it.span) (by omega) (by omega)
    rw [encode_cons]
    cases it with
    | skip more =>
      obtain ⟨nz, hnz, henc⟩ := encode_skip hit
      rw [henc]
      show loadVerticesFrom f (v + 1 + nz.toNat) (encode its) = _
      rw [hnz, Nat.add_assoc v]
      exact ih'
    | row ts =>
      obtain ⟨ns, ptr, happ, hns, hrow⟩ := readRow_spec hit
        (lt_of_le_of_lt length_row_le hshort) (encode its)
      rw [happ, loadVerticesFrom, if_neg hns, hrow, Option.bind_some]
      show (loadVerticesFrom f (v + (Item.row ts).span) (encode its)).map _ = _
      rw [ih']
      rfl

/-- `read_next_vertices_XG` reads what the items stand for, when that lies
in the given ranges. -/
theorem readNextFrom_encode {rangeSt rangeEnd nvecs start : ℕ} {its : List Item}
    (hv : ∀ it ∈ its, it.Valid) {fuel i slots : ℕ} (hfuel : (encode its).length ≤ fuel)
    (hshort : ∀ it ∈ its, it.targets.length < 2 ^ 31)
    (hslots : (expand (start + i) its).length ≤ slots)
    (hsrc : ∀ q ∈ expand (start + i) its, q.1 < start + nvecs)
    (hdst : ∀ q ∈ expand (start + i) its, rangeSt ≤ q.2 ∧ q.2 ≤ rangeEnd) :
    readNextFrom rangeSt rangeEnd nvecs start fuel i (start + i) slots (encode its)
      = some (expand (start + i) its) := by
  induction its generalizing fuel i slots with
  | nil => cases fuel <;> rfl
  | cons it its ih =>
    have hit : it.Valid := hv it List.mem_cons_self
    have hits : ∀ i ∈ its, i.Valid := fun i hi => hv i (List.mem_cons_of_mem _ hi)
    have hpos : 0 < (encodeItem it).length :=
      List.length_pos_iff.mpr (encodeItem_ne_nil hit)
    rw [encode_cons, List.length_append] at hfuel
    obtain ⟨f, rfl⟩ : ∃ f, fuel = f + 1 := ⟨fuel - 1, by omega⟩
    have hlen := length_expand_cons (start + i) it its
    have hsub : ∀ q ∈ expand (start + (i + it.span)) its,
        q ∈ expand (start + i) (it :: its) := by
      intro q hq
      rw [← Nat.add_assoc] at hq
      exact List.mem_append_right _ hq
    rw [Nat.add_assoc] at hlen
    have hrows : ∀ i ∈ its, i.targets.length < 2 ^ 31 :=
      fun i hi => hshort i (List.mem_cons_of_mem _ hi)
    have ih' := @ih hits f (i + it.span) (slots - it.targets.length) (by omega) hrows
      (by omega) (fun q hq => hsrc q (hsub q hq)) (fun q hq => hdst q (hsub q hq))
    obtain ⟨b, bs, hb⟩ := List.exists_cons_of_ne_nil (encodeItem_ne_nil hit)
    by_cases hi : i < nvecs
    · rw [encode_cons]
      cases it with
      | skip more =>
        obtain ⟨nz, hnz, henc⟩ := encode_skip hit
        rw [henc]
        have hstep : readNextFrom rangeSt rangeEnd nvecs start (f + 1) i (start + i) slots
            ([0, nz] ++ encode its)
          = readNextFrom rangeSt rangeEnd nvecs start f (i + nz.toNat + 1)
              (start + i + 1 + nz.toNat) slots (encode its) := if_pos hi
        have hcount : i + nz.toNat + 1 = i + (Item.skip more).span := by
          simp only [Item.span, hnz]
          omega
        have hcur : start + i + 1 + nz.toNat = start + (i + (Item.skip more).span) := by
          simp only [Item.span, hnz]
          omega
        rw [hstep, hcount, hcur]
        refine ih'.trans ?_
        rw [← Nat.add_assoc]
        rfl
      | row ts =>
        obtain ⟨ns, ptr, happ, hns, hrow⟩ := readRow_spec hit
          (hshort (.row ts) List.mem_cons_self) (encode its)
        have hcheck : start + i = start + i ∧ ts.length ≤ slots
            ∧ ∀ target ∈ ts, rangeSt ≤ target ∧ target ≤ rangeEnd := by
          refine ⟨rfl, length_row_le.trans hslots, fun t ht => ?_⟩
          exact hdst (start + i, t) (List.mem_append_left _ (List.mem_map_of_mem ht))
        rw [happ, readNextFrom, if_pos hi, if_neg hns, hrow, Option.bind_some, if_pos hcheck]
        show (readNextFrom rangeSt rangeEnd nvecs start f (i + (Item.row ts).span)
          (start + (i + (Item.row ts).span)) (slots - (Item.row ts).targets.length)
          (encode its)).map _ = _
        rw [ih']
        rfl
    · -- past the last vertex nothing is left to read
      have hnil : expand (start + i) (it :: its) = [] := by
        refine List.eq_nil_iff_forall_not_mem.mpr fun q hq => ?_
        have h1 := (mem_expand_bounds hq).1
        have h2 := hsrc q hq
        omega
      rw [hnil, encode_cons, hb, List.cons_append, readNextFrom, if_neg hi]

/-- Whatever `read_next_vertices_XG` reads, it reads in order from what the
items stand for: it may leave rows out, but it makes up no edge. -/
theorem readNextFrom_sublist {rangeSt rangeEnd nvecs start : ℕ} {its : List Item}
    (hv : ∀ it ∈ its, it.Valid) (hshort : (its.flatMap Item.targets).length < 2 ^ 31)
    {fuel i curvid slots : ℕ} {l : List (ℕ × ℕ)}
    (h : readNextFrom rangeSt rangeEnd nvecs start fuel i curvid slots (encode its)
      = some l) :
    l.Sublist (expand curvid its) := by
  induction its generalizing fuel i curvid slots l with
  | nil =>
    cases fuel with
    | zero =>
      obtain rfl : [] = l := Option.some.inj h
      exact List.Sublist.refl _
    | succ fuel =>
      obtain rfl : [] = l := Option.some.inj h
      exact List.Sublist.refl _
  | cons it its ih =>
    have hit : it.Valid := hv it List.mem_cons_self
    have hits : ∀ i ∈ its, i.Valid := fun i hi => hv i (List.mem_cons_of_mem _ hi)
    rw [List.flatMap_cons, List.length_append] at hshort
    obtain ⟨b, bs, hb⟩ := List.exists_cons_of_ne_nil (encodeItem_ne_nil hit)
    cases fuel with
    | zero =>
      rw [encode_cons, hb, List.cons_append, readNextFrom] at h
      exact absurd h (by simp)
    | succ fuel =>
      by_cases hi : i < nvecs
      · cases it with
        | skip more =>
          obtain ⟨nz, hnz, henc⟩ := encode_skip hit
          rw [encode_cons, henc] at h
          have hstep : readNextFrom rangeSt rangeEnd nvecs start (fuel + 1) i curvid slots
              ([0, nz] ++ encode its)
            = readNextFrom rangeSt rangeEnd nvecs start fuel (i + nz.toNat + 1)
                (curvid + 1 + nz.toNat) slots (encode its) := if_pos hi
          rw [hstep] at h
          -- vertices without edges: the reader counts them as the writer did
          have hcur : curvid + 1 + nz.toNat = curvid + (Item.skip more).span := by
            simp only [Item.span, hnz]
            omega
          rw [hcur] at h
          exact ih hits (by omega) h
        -- the row is read, or the loop fails in it
        | row ts =>
          have hts : ts.length < 2 ^ 31 :=
            lt_of_le_of_lt (Nat.le_add_right _ _) hshort
          obtain ⟨ns, ptr, happ, hns, hrow⟩ := readRow_spec hit hts (encode its)
          rw [encode_cons, happ, readNextFrom, if_pos hi, if_neg hns, hrow,
            Option.bind_some] at h
          split at h
          · obtain ⟨l', hl', rfl⟩ := Option.map_eq_some_iff.mp h
            exact (List.Sublist.refl _).append (ih hits (by omega) hl')
          · exact absurd h (by simp)
      · -- the loop is over; what is ahead is left out
        rw [encode_cons, hb, List.cons_append, readNextFrom, if_neg hi] at h
        obtain rfl := Option.some.inj h
        exact List.nil_sublist _

/-- Whatever it reads is in the range of the file's shard. -/
theorem readNextFrom_range {rangeSt rangeEnd nvecs start fuel i curvid slots : ℕ}
    {adj : List UInt8} {l : List (ℕ × ℕ)}
    (h : readNextFrom rangeSt rangeEnd nvecs start fuel i curvid slots adj = some l) :
    ∀ d ∈ l.map Prod.snd, rangeSt ≤ d ∧ d ≤ rangeEnd := by
  induction fuel generalizing i curvid slots adj l with
  | zero =>
    cases adj with
    | nil =>
      obtain rfl : [] = l := Option.some.inj h
      exact fun d hd => absurd hd List.not_mem_nil
    | cons ns adj => exact absurd h (by simp [readNextFrom])
  | succ fuel ih =>
    cases adj with
    | nil =>
      obtain rfl : [] = l := Option.some.inj h
      exact fun d hd => absurd hd List.not_mem_nil
    | cons ns adj =>
      rw [readNextFrom] at h
      split at h
      · split at h
        · obtain ⟨nz, -, hrest⟩ := Option.bind_eq_some_iff.mp h
          exact ih hrest
        · obtain ⟨row, -, hrest⟩ := Option.bind_eq_some_iff.mp h
          split at hrest
          · next hrow =>
            obtain ⟨l', hl', rfl⟩ := Option.map_eq_some_iff.mp hrest
            intro d hd
            rw [List.map_append, List.map_map] at hd
            rcases List.mem_append.mp hd with hd | hd
            · obtain ⟨t, ht, rfl⟩ := List.mem_map.mp hd
              exact hrow.2.2 t ht
            · exact ih hl' d hd
          · exact absurd hrest (by simp)
      · obtain rfl : [] = l := Option.some.inj h
        exact fun d hd => absurd hd List.not_mem_nil

/-- A first row with a destination outside the range is refused. -/
theorem readNextVerticesXG_row {rangeSt rangeEnd nvecs start slots : ℕ} {ts : List ℕ}
    (hv : (Item.row ts).Valid) (hlt : ts.length < 2 ^ 31) (hnvecs : 0 < nvecs)
    (hbad : ∃ t ∈ ts, ¬(rangeSt ≤ t ∧ t ≤ rangeEnd)) :
    readNextVerticesXG rangeSt rangeEnd nvecs start slots (encodeItem (.row ts))
      = none := by
  obtain ⟨ns, ptr, happ, hns, hrow⟩ := readRow_spec hv hlt []
  rw [List.append_nil] at happ
  unfold readNextVerticesXG
  rw [happ, List.length_cons, readNextFrom, if_pos hnvecs, if_neg hns, hrow,
    Option.bind_some, if_neg]
  rintro ⟨-, -, hall⟩
  obtain ⟨t, ht, hout⟩ := hbad
  exact hout (hall t ht)

section Spec

variable {start : ℕ} {l : List (ℕ × ℕ)} {bytes : List UInt8}

/-- **`load_vertices_XG` reads the main file.** -/
theorem loadVerticesXG_reads (h : Reads 0 l bytes) (hshort : l.length < 2 ^ 31) :
    loadVerticesXG bytes = some l := by
  obtain ⟨its, hv, rfl, rfl⟩ := h
  exact loadVerticesFrom_encode hv le_rfl hshort

/-- **`read_next_vertices_XG` reads the file of a destination shard.** -/
theorem readNextVerticesXG_reads {rangeSt rangeEnd nvecs slots : ℕ}
    (h : Reads start l bytes) (hshort : l.length < 2 ^ 31) (hslots : l.length ≤ slots)
    (hsrc : ∀ q ∈ l, q.1 < start + nvecs)
    (hdst : ∀ q ∈ l, rangeSt ≤ q.2 ∧ q.2 ≤ rangeEnd) :
    readNextVerticesXG rangeSt rangeEnd nvecs start slots bytes = some l := by
  obtain ⟨its, hv, rfl, rfl⟩ := h
  exact readNextFrom_encode (i := 0) hv le_rfl
    (fun it hit => lt_of_le_of_lt (length_targets_le hit) hshort) hslots hsrc hdst

/-- Pairs that bytes stand for are in the order of their sources. -/
theorem Reads.sorted (h : Reads start l bytes) : l.Pairwise fun a b => a.1 ≤ b.1 := by
  obtain ⟨its, -, -, rfl⟩ := h
  exact expand_sorted start its

end Spec

end Reshard
