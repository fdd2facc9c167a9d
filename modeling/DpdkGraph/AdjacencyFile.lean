import Mathlib
import DpdkGraph.Reshard

/-!
# What one adjacency file holds

The bytes of an adjacency file are always a sequence of well-formed items:
`Carries` says so and names the destinations they carry, whatever the
cursor does. `Wrote` adds which pairs of a source and a destination the
items stand for, counted from the vertex the file starts at.

These are the pairs written, as long as no run of vertices without edges is
too long for the `int` that counts it. From `2 ^ 31` vertices on, one byte
pair is all that is left of a run, and every later row is read under too
low a source. `cut v` stands for "such a run ends at `v` or before"; where
it holds of a row's source, the row is read under a lower one (`ReadAs`), so
that one of the pairs written is not among those that are read
(`ReadAs.exists_lost`).

A row written under a cursor that has not been written yet, and a cursor
move that skips no written row, keep `Wrote`; any row and any move keep
`Carries`.
-/

namespace Reshard

/-- Where `v` is meant, `d` is found: `v` itself, or behind a cut something
lower. -/
structure EndsAt (cut : ℕ → Prop) (d v : ℕ) : Prop where
  same : ¬cut v → d = v
  low : cut v → d < v

theorem EndsAt.le {cut : ℕ → Prop} {d v : ℕ} (h : EndsAt cut d v) : d ≤ v := by
  by_cases hcut : cut v
  · exact (h.low hcut).le
  · exact (h.same hcut).le

/-- **What is read where `l` was written**: pair for pair the same
destination, under the same source, or behind a cut under a lower one. -/
def ReadAs (cut : ℕ → Prop) (l' l : List (ℕ × ℕ)) : Prop :=
  List.Forall₂ (fun q' q => q'.2 = q.2 ∧ EndsAt cut q'.1 q.1) l' l

namespace ReadAs

variable {cut : ℕ → Prop} {l' l : List (ℕ × ℕ)}

theorem length_eq (h : ReadAs cut l' l) : l'.length = l.length := List.Forall₂.length_eq h

/-- Without a cut, what was written. -/
theorem same (h : ReadAs cut l' l) (hcut : ∀ q ∈ l, ¬cut q.1) : l' = l := by
  unfold ReadAs at h
  induction h with
  | nil => rfl
  | @cons q' q l' l hq _ ih =>
    have hhead : q' = q := Prod.ext (hq.2.same (hcut q List.mem_cons_self)) hq.1
    rw [hhead, ih fun q hq => hcut q (List.mem_cons_of_mem _ hq)]

/-- What is read comes from a pair that was written. -/
theorem exists_of_mem (h : ReadAs cut l' l) {q' : ℕ × ℕ} (hq' : q' ∈ l') :
    ∃ q ∈ l, q'.2 = q.2 ∧ EndsAt cut q'.1 q.1 := by
  unfold ReadAs at h
  induction h with
  | nil => exact absurd hq' List.not_mem_nil
  | @cons a b l' l hab _ ih =>
    rcases List.mem_cons.mp hq' with rfl | hq'
    · exact ⟨b, List.mem_cons_self, hab⟩
    · obtain ⟨q, hq, hends⟩ := ih hq'
      exact ⟨q, List.mem_cons_of_mem _ hq, hends⟩

/-- **Behind a cut a pair is lost**, one with the largest source: nothing is
read under a source as large. -/
theorem exists_lost (h : ReadAs cut l' l) (hmono : ∀ {v v' : ℕ}, cut v → v ≤ v' → cut v')
    (hcut : ∃ q ∈ l, cut q.1) : ∃ q ∈ l, q ∉ l' := by
  obtain ⟨q₀, hq₀, hcut⟩ := hcut
  obtain ⟨q, hq, hmax⟩ := l.toFinset.exists_max_image Prod.fst
    ⟨q₀, List.mem_toFinset.mpr hq₀⟩
  have hmax : ∀ q' ∈ l, q'.1 ≤ q.1 := fun q' hq' => hmax q' (List.mem_toFinset.mpr hq')
  refine ⟨q, List.mem_toFinset.mp hq, fun hmem => ?_⟩
  obtain ⟨p, hp, -, hends⟩ := h.exists_of_mem hmem
  have hpq : p.1 = q.1 := le_antisymm (hmax p hp) hends.le
  have hlow := hends.low (hmono hcut (hpq.symm ▸ hmax q₀ hq₀))
  omega

/-- **One more row**, of the vertex `v`, read at `d`. -/
theorem append (h : ReadAs cut l' l) {v d : ℕ} (hends : EndsAt cut d v) (ts : List ℕ) :
    ReadAs cut (l' ++ ts.map fun t => (d, t)) (l ++ ts.map fun t => (v, t)) := by
  refine List.rel_append h ?_
  rw [List.forall₂_map_left_iff, List.forall₂_map_right_iff, List.forall₂_same]
  exact fun t _ => ⟨rfl, hends⟩

end ReadAs

end Reshard

namespace Reshard.WriteSliding

open SparseRows

variable {V : Type}

/-- The file's bytes are well-formed items that carry the destinations
`ds`. -/
def Carries (w : WriteSliding) (ds : List ℕ) : Prop :=
  ∃ its : List Item, (∀ it ∈ its, it.Valid) ∧ w.s.contents = encode its
    ∧ its.flatMap Item.targets = ds

/-- `vid_written`, as a number. -/
def written (w : WriteSliding) : ℕ := if w.vidWritten then 1 else 0

/-- **The file's bytes stand for the pairs `l`**, counted from `start`, and
end under the cursor, up to the runs that are cut. -/
def Wrote (w : WriteSliding) (start : ℕ) (cut : ℕ → Prop) (l : List (ℕ × ℕ)) : Prop :=
  ∃ its : List Item, (∀ it ∈ its, it.Valid) ∧ w.s.contents = encode its
    ∧ ReadAs cut (expand start its) l
    ∧ (w.curvid + w.written < 2 ^ 32 →
        EndsAt cut (start + span its) (w.curvid + w.written))

/-- Files start empty. -/
theorem carries_empty (start : ℕ) : Carries ⟨.empty, start, false⟩ [] :=
  ⟨[], by simp, rfl, rfl⟩

/-- A new file holds nothing. -/
theorem wrote_empty {start : ℕ} {cut : ℕ → Prop} (hcut : ¬cut start) :
    Wrote ⟨.empty, start, false⟩ start cut [] :=
  ⟨[], by simp, rfl, .nil, fun _ => ⟨fun _ => rfl, fun h => absurd h hcut⟩⟩

theorem unwritten_add_written (w : WriteSliding) : w.unwritten + w.written = 1 := by
  unfold unwritten written
  split <;> rfl

/-! ## Rows -/

@[simp] theorem curvid_writeRow (cap : ℕ) (es : List (EdgeWithValue V))
    (w : WriteSliding) : (w.writeRow cap es).curvid = w.curvid := rfl

/-- Writing a row writes one item. -/
theorem contents_writeRow (cap : ℕ) (es : List (EdgeWithValue V))
    (w : WriteSliding) :
    (w.writeRow cap es).s.contents
      = w.s.contents ++ encodeItem (.row (es.map EdgeWithValue.dst)) := by
  unfold writeRow
  simp [encodeItem, List.flatMap_map]

@[simp] theorem writePending_nil (cap : ℕ) (w : WriteSliding) :
    w.writePending cap ([] : List (EdgeWithValue V)) = w := rfl

@[simp] theorem curvid_writePending (cap : ℕ) (es : List (EdgeWithValue V))
    (w : WriteSliding) : (w.writePending cap es).curvid = w.curvid := by
  unfold writePending
  split <;> rfl

theorem written_writePending (cap : ℕ) {es : List (EdgeWithValue V)} (hes : es ≠ [])
    (w : WriteSliding) : (w.writePending cap es).written = 1 := by
  unfold writePending
  rw [if_neg hes]
  rfl

/-- Edges that one row of the format can hold. -/
def RowFits (es : List (EdgeWithValue V)) : Prop :=
  es.length < 2 ^ 32 ∧ ∀ e ∈ es, e.dst < 2 ^ 32

theorem RowFits.valid {es : List (EdgeWithValue V)} (h : RowFits es) (hes : es ≠ []) :
    (Item.row (es.map EdgeWithValue.dst)).Valid := by
  refine ⟨by simpa using hes, by simpa using h.1, ?_⟩
  intro t ht
  obtain ⟨e, he, rfl⟩ := List.mem_map.mp ht
  exact h.2 e he

/-- A row of edges adds their destinations. -/
theorem Carries.writeRow {cap : ℕ} {es : List (EdgeWithValue V)} (hes : es ≠ [])
    (hfit : RowFits es) {w : WriteSliding} {ds : List ℕ} (h : w.Carries ds) :
    (w.writeRow cap es).Carries (ds ++ es.map EdgeWithValue.dst) := by
  obtain ⟨its, hv, hbytes, htargets⟩ := h
  refine ⟨its ++ [.row (es.map EdgeWithValue.dst)], ?_, ?_, ?_⟩
  · intro it hit
    rcases List.mem_append.mp hit with hit | hit
    · exact hv it hit
    · rw [List.mem_singleton.mp hit]
      exact hfit.valid hes
  · rw [contents_writeRow, hbytes, encode_append, encode_singleton]
  · simp [htargets, Item.targets]

/-- The pending edges add their destinations. -/
theorem Carries.writePending {cap : ℕ} {es : List (EdgeWithValue V)}
    (hfit : RowFits es) {w : WriteSliding} {ds : List ℕ} (h : w.Carries ds) :
    (w.writePending cap es).Carries (ds ++ es.map EdgeWithValue.dst) := by
  unfold WriteSliding.writePending
  split
  · next hes =>
    subst hes
    simpa using h
  · next hes => exact h.writeRow hes hfit

/-- **A row under a cursor that has not been written**: its edges, all with
the cursor's vertex as their source, are added under it. -/
theorem Wrote.writeRow {cap : ℕ} {es : List (EdgeWithValue V)} (hes : es ≠ [])
    (hfit : RowFits es) {w : WriteSliding} {start : ℕ} {cut : ℕ → Prop}
    {l : List (ℕ × ℕ)} (h : w.Wrote start cut l) (hw : w.written = 0)
    (hlt : w.curvid < 2 ^ 32) (hsrc : ∀ e ∈ es, e.src = w.curvid)
    (hcut : cut (w.curvid + 1) → cut w.curvid)
    (hmono : cut w.curvid → cut (w.curvid + 1)) :
    ({ w.writeRow cap es with vidWritten := true } : WriteSliding).Wrote start cut
      (l ++ es.map EdgeWithValue.ends) := by
  obtain ⟨its, hv, hbytes, hread, hend⟩ := h
  have hend' := hend (by rwa [hw])
  rw [hw, Nat.add_zero] at hend'
  have hends : es.map EdgeWithValue.ends
      = (es.map EdgeWithValue.dst).map fun t => (w.curvid, t) := by
    rw [List.map_map]
    refine List.map_congr_left fun e he => ?_
    show (e.src, e.dst) = (w.curvid, e.dst)
    rw [hsrc e he]
  refine ⟨its ++ [.row (es.map EdgeWithValue.dst)], ?_, ?_, ?_, fun _ => ?_⟩
  · intro it hit
    rcases List.mem_append.mp hit with hit | hit
    · exact hv it hit
    · rw [List.mem_singleton.mp hit]
      exact hfit.valid hes
  · show (w.writeRow cap es).s.contents = _
    rw [contents_writeRow, hbytes, encode_append, encode_singleton]
  · rw [expand_append, hends]
    simp only [expand, Item.targets, List.append_nil]
    exact hread.append hend' _
  · rw [span_append, ← Nat.add_assoc]
    show EndsAt cut (start + span its + 1) (w.curvid + 1)
    exact ⟨fun h => by rw [hend'.same fun hc => h (hmono hc)],
      fun h => Nat.succ_lt_succ (hend'.low (hcut h))⟩

/-- The pending edges, under a cursor that has not been written. -/
theorem Wrote.writePending {cap : ℕ} {es : List (EdgeWithValue V)}
    (hfit : RowFits es) {w : WriteSliding} {start : ℕ} {cut : ℕ → Prop}
    {l : List (ℕ × ℕ)} (h : w.Wrote start cut l)
    (hcur : es ≠ [] → w.written = 0 ∧ w.curvid < 2 ^ 32 ∧ (∀ e ∈ es, e.src = w.curvid)
      ∧ (cut (w.curvid + 1) ↔ cut w.curvid)) :
    (w.writePending cap es).Wrote start cut (l ++ es.map EdgeWithValue.ends) := by
  unfold WriteSliding.writePending
  split
  · next hes =>
    subst hes
    simpa using h
  · next hes =>
    obtain ⟨hw, hlt, hsrc, hcut⟩ := hcur hes
    exact h.writeRow hes hfit hw hlt hsrc hcut.mp hcut.mpr

/-! ## Runs of vertices without edges -/

/-- The byte that a number is stored as, as an item's count. -/
theorem exists_byte (t : ℤ) :
    ∃ m, m < 256 ∧ UInt8.ofNat m = UInt8.ofInt t
      ∧ (0 ≤ t → t < 256 → (m : ℤ) = t) := by
  refine ⟨(UInt8.ofInt t).toNat, UInt8.toNat_lt _, UInt8.ofNat_toNat, ?_⟩
  intro h0 h256
  lift t to ℕ using h0
  unfold UInt8.ofInt
  rw [UInt8.toNat_ofNat']
  omega

/-- Items without destinations stand for no pairs. -/
theorem expand_eq_nil {its : List Item} (h : its.flatMap Item.targets = []) (v : ℕ) :
    expand v its = [] := by
  rw [← map_snd_expand v, List.map_eq_nil_iff] at h
  exact h

/-- The pairs of a run are items without destinations, and pass over as many
vertices as asked. A pair passes over at least one vertex and 255 at most, so a
number that is not positive still gives one pair. The induction is on the fuel,
one pair a round. -/
theorem zeroRun_spec (fuel : ℕ) (nz : ℤ) :
    ∃ its : List Item, (∀ it ∈ its, it.Valid) ∧ (zeroRun fuel nz).flatMap id = encode its
      ∧ its.flatMap Item.targets = []
      ∧ (0 < nz → nz ≤ fuel → (span its : ℤ) = nz)
      ∧ (nz ≤ 0 → span its ≤ 256) := by
  induction fuel generalizing nz with
  | zero =>
    refine ⟨[], by simp, rfl, rfl, ?_, fun _ => Nat.zero_le _⟩
    intro h h'
    exact absurd h (by push_cast at h'; omega)
  | succ fuel ih =>
    -- the loop goes on with what is left behind a pair, 1 + min 254 (nz - 1)
    -- vertices later
    obtain ⟨its, hv, hbytes, htargets, hspan, -⟩ := ih (nz - 1 - min 254 (nz - 1))
    obtain ⟨m, hm, hbyte, hmt⟩ := exists_byte (min 254 (nz - 1))
    have hmz : 0 < nz → (m : ℤ) = min 254 (nz - 1) := fun hz =>
      hmt (le_min (by norm_num) (by omega))
        (lt_of_le_of_lt (min_le_left _ _) (by norm_num))
    unfold zeroRun
    dsimp only
    by_cases hmore : 0 < nz - 1 - min 254 (nz - 1)
    · rw [if_pos hmore]
      refine ⟨.skip m :: its, ?_, ?_, ?_, ?_, fun hz => ?_⟩
      · intro it hit
        rcases List.mem_cons.mp hit with rfl | hit
        · exact hm
        · exact hv it hit
      · rw [List.flatMap_cons, hbytes, encode_cons, encodeItem, hbyte]
        rfl
      · simpa [Item.targets] using htargets
      · intro hz hfuel
        have hspan' := hspan hmore (by push_cast at hfuel; omega)
        have hmz' := hmz hz
        rw [span_cons]
        simp only [Item.span]
        push_cast
        omega
      · omega
    · -- the last pair; it is also all that is written where nz is not positive
      rw [if_neg hmore]
      refine ⟨[.skip m], ?_, ?_, rfl, ?_, fun _ => ?_⟩
      · intro it hit
        rw [List.mem_singleton.mp hit]
        exact hm
      · simp [encode, encodeItem, hbyte]
      · intro hz _
        have hmz' := hmz hz
        simp only [span_cons, span_nil, Item.span]
        push_cast
        omega
      · simp only [span_cons, span_nil, Item.span]
        omega

/-- Skipping vertices adds items without destinations. -/
theorem exists_writeZeros (cap src : ℕ) (w : WriteSliding) :
    ∃ its : List Item, (∀ it ∈ its, it.Valid)
      ∧ (w.writeZeros cap src).s.contents = w.s.contents ++ encode its
      ∧ its.flatMap Item.targets = [] := by
  unfold WriteSliding.writeZeros
  split
  · obtain ⟨its, hv, hbytes, htargets, -⟩ := zeroRun_spec
      ((toInt32 ((src : ℤ) - w.curvid - 1 + w.unwritten)).toNat + 1)
      (toInt32 ((src : ℤ) - w.curvid - 1 + w.unwritten))
    exact ⟨its, hv, by simp only [BufferedFile.contents_putAll, hbytes], htargets⟩
  · exact ⟨[], by simp, by simp, rfl⟩

/-- Skipping vertices writes no destination. -/
theorem Carries.writeZeros (cap src : ℕ) {w : WriteSliding} {ds : List ℕ}
    (h : w.Carries ds) : (w.writeZeros cap src).Carries ds := by
  obtain ⟨its, hv, hbytes, htargets⟩ := h
  obtain ⟨its', hv', hbytes', htargets'⟩ := exists_writeZeros cap src w
  refine ⟨its ++ its', ?_, ?_, ?_⟩
  · intro it hit
    rcases List.mem_append.mp hit with hit | hit
    · exact hv it hit
    · exact hv' it hit
  · rw [hbytes', hbytes, encode_append]
  · rw [List.flatMap_append, htargets, htargets', List.append_nil]

/-- **Moving to a vertex that skips no written row** writes the run of
vertices in between, if an `int` counts it. -/
theorem Wrote.writeZeros (cap : ℕ) {src : ℕ} (hsrc : src < 2 ^ 32) {w : WriteSliding}
    {start : ℕ} {cut : ℕ → Prop} {l : List (ℕ × ℕ)} (h : w.Wrote start cut l)
    (hcur : w.curvid + w.written ≤ src)
    (hcut : cut src ↔ cut (w.curvid + w.written) ∨ 2 ^ 31 ≤ src - (w.curvid + w.written)) :
    ∃ its : List Item, (∀ it ∈ its, it.Valid)
      ∧ (w.writeZeros cap src).s.contents = encode its
      ∧ ReadAs cut (expand start its) l ∧ EndsAt cut (start + span its) src := by
  obtain ⟨its, hv, hbytes, hread, hend⟩ := h
  have hend' := hend (lt_of_le_of_lt hcur hsrc)
  have hle := hend'.le
  have hun := w.unwritten_add_written
  have hmod : (w.curvid + 1 - w.unwritten) % 2 ^ 32 = w.curvid + w.written := by
    rw [Nat.mod_eq_of_lt (by omega)]
    omega
  unfold WriteSliding.writeZeros
  by_cases hlt : (w.curvid + 1 - w.unwritten) % 2 ^ 32 < src
  · rw [if_pos hlt]
    rw [hmod] at hlt
    have hrun : (src : ℤ) - w.curvid - 1 + w.unwritten
        = ((src - (w.curvid + w.written) : ℕ) : ℤ) := by
      push_cast [Nat.cast_sub hcur]
      omega
    rw [hrun]
    obtain ⟨its', hv', hbytes', htargets', hspan, hshort⟩ := zeroRun_spec
      ((toInt32 ((src - (w.curvid + w.written) : ℕ) : ℤ)).toNat + 1)
      (toInt32 ((src - (w.curvid + w.written) : ℕ) : ℤ))
    refine ⟨its ++ its', ?_, ?_, ?_, ?_⟩
    · intro it hit
      rcases List.mem_append.mp hit with hit | hit
      · exact hv it hit
      · exact hv' it hit
    · simp only [BufferedFile.contents_putAll, hbytes, hbytes', encode_append]
    · rwa [expand_append, expand_eq_nil htargets', List.append_nil]
    · rw [span_append, ← Nat.add_assoc]
      by_cases hlong : 2 ^ 31 ≤ src - (w.curvid + w.written)
      · -- the `int` is negative: one pair is written for the whole run
        have hneg : toInt32 ((src - (w.curvid + w.written) : ℕ) : ℤ) ≤ 0 := by
          unfold toInt32
          rw [Int.bmod_def]
          omega
        have hone := hshort hneg
        exact ⟨fun h => absurd (hcut.mpr (Or.inr hlong)) h, fun _ => by omega⟩
      · rw [toInt32_natCast (by omega)] at hspan
        have hspan' := hspan (by omega) (by omega)
        refine ⟨fun h => ?_, fun h => ?_⟩
        · have := hend'.same fun hc => h (hcut.mpr (Or.inl hc))
          omega
        · have := hend'.low ((hcut.mp h).resolve_right hlong)
          omega
  · rw [if_neg hlt]
    rw [hmod] at hlt
    obtain rfl : src = w.curvid + w.written := by omega
    exact ⟨its, hv, hbytes, hread, hend'⟩

/-! ## Cursor moves -/

@[simp] theorem curvid_switchTo (cap src i : ℕ) (w : WriteSliding) :
    (w.switchTo cap src i).curvid = src := rfl

@[simp] theorem curvid_moveTo (cap src : ℕ) (w : WriteSliding) :
    (w.moveTo cap src).curvid = src := rfl

@[simp] theorem written_moveTo (cap src : ℕ) (w : WriteSliding) :
    (w.moveTo cap src).written = 0 := rfl

theorem Carries.switchTo {cap src i : ℕ} {w : WriteSliding} {ds : List ℕ}
    (h : w.Carries ds) : (w.switchTo cap src i).Carries ds :=
  h.writeZeros cap src

theorem Carries.moveTo {cap src : ℕ} {w : WriteSliding} {ds : List ℕ}
    (h : w.Carries ds) : (w.moveTo cap src).Carries ds :=
  h.writeZeros cap src

/-- Moving the main file's cursor forward. -/
theorem Wrote.moveTo {cap src : ℕ} (hsrc : src < 2 ^ 32) {w : WriteSliding}
    {start : ℕ} {cut : ℕ → Prop} {l : List (ℕ × ℕ)} (h : w.Wrote start cut l)
    (hcur : w.curvid + w.written ≤ src)
    (hcut : cut src ↔ cut (w.curvid + w.written) ∨ 2 ^ 31 ≤ src - (w.curvid + w.written)) :
    (w.moveTo cap src).Wrote start cut l := by
  obtain ⟨its, hv, hbytes, hread, hend⟩ := h.writeZeros cap hsrc hcur hcut
  exact ⟨its, hv, hbytes, hread, fun _ => hend⟩

/-- Leaving a file whose cursor is elsewhere. -/
theorem Wrote.switchTo_of_ne (cap : ℕ) {src i : ℕ} (hsrc : src < 2 ^ 32)
    {w : WriteSliding} {start : ℕ} {cut : ℕ → Prop} {l : List (ℕ × ℕ)}
    (h : w.Wrote start cut l) (hcur : w.curvid + w.written ≤ src)
    (hcut : cut src ↔ cut (w.curvid + w.written) ∨ 2 ^ 31 ≤ src - (w.curvid + w.written))
    (hne : i = 0 ∨ w.curvid ≠ src) :
    (w.switchTo cap src i).Wrote start cut l ∧ (w.switchTo cap src i).written = 0 := by
  obtain ⟨its, hv, hbytes, hread, hend⟩ := h.writeZeros cap hsrc hcur hcut
  have hflag : (w.switchTo cap src i).vidWritten = false := by
    rcases hne with rfl | hne
    · simp [WriteSliding.switchTo]
    · simp [WriteSliding.switchTo, hne]
  have hw : (w.switchTo cap src i).written = 0 := by
    unfold written
    rw [hflag]
    rfl
  exact ⟨⟨its, hv, hbytes, hread, fun _ => by rw [hw]; exact hend⟩, hw⟩

/-- Leaving a file whose cursor is at the source, with its row written.
Behind the last id of all, this adds a pair that nothing comes after. -/
theorem Wrote.switchTo_of_eq (cap : ℕ) {src i : ℕ} {w : WriteSliding} {start : ℕ}
    {cut : ℕ → Prop} {l : List (ℕ × ℕ)} (h : w.Wrote start cut l) (hcur : w.curvid = src)
    (hw : w.written = 1) (hi : i ≠ 0) :
    (w.switchTo cap src i).Wrote start cut l ∧ (w.switchTo cap src i).written = 1 := by
  have hflag : (w.switchTo cap src i).written = 1 := by
    simp [WriteSliding.switchTo, written, hcur, hi]
  refine ⟨?_, hflag⟩
  obtain ⟨its, hv, hbytes, hread, hend⟩ := h
  have hun := w.unwritten_add_written
  by_cases hlast : src + 1 < 2 ^ 32
  · have hzero : w.writeZeros cap src = w := by
      unfold WriteSliding.writeZeros
      rw [if_neg (by rw [Nat.mod_eq_of_lt (by omega)]; omega)]
    refine ⟨its, hv, ?_, hread, ?_⟩
    · show (w.writeZeros cap src).s.contents = _
      rw [hzero]
      exact hbytes
    · rw [hflag, curvid_switchTo, ← hcur, ← hw]
      exact hend
  · have hout : ¬(w.switchTo cap src i).curvid + (w.switchTo cap src i).written < 2 ^ 32 := by
      rwa [hflag, curvid_switchTo]
    obtain ⟨its', hv', hbytes', htargets'⟩ := exists_writeZeros cap src w
    refine ⟨its ++ its', ?_, ?_, ?_, fun h => absurd h hout⟩
    · intro it hit
      rcases List.mem_append.mp hit with hit | hit
      · exact hv it hit
      · exact hv' it hit
    · show (w.writeZeros cap src).s.contents = _
      rw [hbytes', hbytes, encode_append]
    · rwa [expand_append, expand_eq_nil htargets', List.append_nil]

end Reshard.WriteSliding
