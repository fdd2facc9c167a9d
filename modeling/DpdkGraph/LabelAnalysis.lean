import DpdkGraph.QuickSort

/-!
# The sizes of the components

`analyze_labels` reads the label file in windows, counts the labels of a
window by sorting it, and merges the counts of the window into those of the
windows before. The vertex whose label is its own id is left out of the
counts, and every label is reported with one more than was counted.

That one more is right where the vertex with the number of the label carries
the label itself. The condition `Rooted` says it of every label that another
vertex carries, and with it every report is right (`countsRight_iff`). A
label that only other vertices carry is reported with one too many.

What is kept between the windows are sorted lists of counts. `total` is the
count of a label in such a list, and what the collection and the merge do is
said by what they do to the totals.
-/

namespace LabelAnalysis

/-! ## Lists of counts -/

/-- `labelcount_t`. -/
structure LabelCount (L : Type) where
  /-- The label. -/
  label : L
  /-- The vertices that carry it, without the one that has it as its own id. -/
  count : ℕ
deriving Repr, DecidableEq

section Counts

variable {L : Type} [LinearOrder L]

/-- `label_count_greater`. -/
def labelCountGreater (a b : LabelCount L) : Bool := decide (b.count < a.count)

/-- `newlabels[newlabels.size() - 1].count++`. -/
def countLast (cs : List (LabelCount L)) : List (LabelCount L) :=
  cs.modifyLast fun c => { c with count := c.count + 1 }

/-- One round of the collection: `skip` is the mark of the values that are
left out, and the second component is `lastlabel`. -/
def collectStep (skip : L) (s : List (LabelCount L) × L) (l : L) :
    List (LabelCount L) × L :=
  if l ≠ skip then
    (if l ≠ s.2 then s.1 ++ [⟨l, 1⟩] else countLast s.1, l)
  else s

/-- The collection of a sorted buffer. -/
def collect (skip : L) (buffer : List L) : List (LabelCount L) :=
  (buffer.foldl (collectStep skip) ([], skip)).1

/-- The merge of the current with the new label counts. -/
def mergeCounts : List (LabelCount L) → List (LabelCount L) → List (LabelCount L)
  | [], newlabels => newlabels
  | c :: curlabels, [] => c :: curlabels
  | c :: curlabels, n :: newlabels =>
    if n.label = c.label then
      ⟨n.label, n.count + c.count⟩ :: mergeCounts curlabels newlabels
    else if n.label < c.label then n :: mergeCounts (c :: curlabels) newlabels
    else c :: mergeCounts curlabels (n :: newlabels)
termination_by curlabels newlabels => curlabels.length + newlabels.length

/-- What is counted for a label. -/
def total (cs : List (LabelCount L)) (l : L) : ℕ :=
  (cs.map fun c => if c.label = l then c.count else 0).sum

@[simp] theorem total_nil (l : L) : total [] l = 0 := rfl

@[simp] theorem total_cons (c : LabelCount L) (cs : List (LabelCount L)) (l : L) :
    total (c :: cs) l = (if c.label = l then c.count else 0) + total cs l := rfl

@[simp] theorem total_append (cs ds : List (LabelCount L)) (l : L) :
    total (cs ++ ds) l = total cs l + total ds l := by
  unfold total
  rw [List.map_append, List.sum_append]

/-- A label that is not in the list has no count. -/
theorem total_eq_zero {cs : List (LabelCount L)} {l : L}
    (h : l ∉ cs.map LabelCount.label) : total cs l = 0 := by
  induction cs with
  | nil => rfl
  | cons c cs ih =>
    rw [List.map_cons, List.mem_cons, not_or] at h
    rw [total_cons, if_neg (Ne.symm h.1), ih h.2]

/-- **A list that counts the labels**: each label stands once, in order, and
with its number, and no label is left out. -/
structure Tally (cs : List (LabelCount L)) (f : L → ℕ) : Prop where
  /-- The labels ascend. -/
  sorted : (cs.map LabelCount.label).Pairwise (· < ·)
  /-- Nothing is listed that was not counted. -/
  pos : ∀ c ∈ cs, 0 < c.count
  /-- The counts. -/
  total : ∀ l, total cs l = f l

/-- The count of an entry is the number of its label. -/
theorem Tally.count_eq {cs : List (LabelCount L)} {f : L → ℕ} (h : Tally cs f)
    {c : LabelCount L} (hc : c ∈ cs) : c.count = f c.label := by
  rw [← h.total]
  have hsorted := h.sorted
  clear h
  induction cs with
  | nil => exact absurd hc List.not_mem_nil
  | cons d cs ih =>
    rw [List.map_cons, List.pairwise_cons] at hsorted
    rw [total_cons]
    rcases List.mem_cons.mp hc with rfl | hc
    · have hout : c.label ∉ cs.map LabelCount.label :=
        fun hmem => lt_irrefl _ (hsorted.1 _ hmem)
      rw [if_pos rfl, total_eq_zero hout, Nat.add_zero]
    · have hne : d.label ≠ c.label := (hsorted.1 _ (List.mem_map_of_mem hc)).ne
      rw [if_neg hne, Nat.zero_add]
      exact ih hc hsorted.2

/-- The labels that are listed are those with a number. -/
theorem Tally.mem_iff {cs : List (LabelCount L)} {f : L → ℕ} (h : Tally cs f) (l : L) :
    l ∈ cs.map LabelCount.label ↔ 0 < f l := by
  constructor
  · intro hl
    obtain ⟨c, hc, rfl⟩ := List.mem_map.mp hl
    rw [← h.count_eq hc]
    exact h.pos c hc
  · intro hl
    by_contra hout
    rw [← h.total, total_eq_zero hout] at hl
    exact lt_irrefl 0 hl

theorem Tally.nodup {cs : List (LabelCount L)} {f : L → ℕ} (h : Tally cs f) :
    (cs.map LabelCount.label).Nodup :=
  h.sorted.imp fun hlt => hlt.ne

theorem Tally.nil : Tally ([] : List (LabelCount L)) fun _ => 0 :=
  ⟨List.Pairwise.nil, fun _ h => absurd h List.not_mem_nil, fun _ => rfl⟩

/-! ### The merge -/

theorem total_mergeCounts (cs ds : List (LabelCount L)) (l : L) :
    total (mergeCounts cs ds) l = total cs l + total ds l := by
  induction cs, ds using mergeCounts.induct with
  | case1 ds => rw [mergeCounts, total_nil, Nat.zero_add]
  | case2 c cs => rw [mergeCounts, total_nil, Nat.add_zero]
  | case3 c cs n ds heq ih =>
    rw [mergeCounts, if_pos heq]
    simp only [total_cons, ih, heq]
    split <;> omega
  | case4 c cs n ds hne hlt ih =>
    rw [mergeCounts, if_neg hne, if_pos hlt]
    simp only [total_cons, ih]
    omega
  | case5 c cs n ds hne hnlt ih =>
    rw [mergeCounts, if_neg hne, if_neg hnlt]
    simp only [total_cons, ih]
    omega

theorem mem_mergeCounts {cs ds : List (LabelCount L)} {l : L}
    (h : l ∈ (mergeCounts cs ds).map LabelCount.label) :
    l ∈ cs.map LabelCount.label ∨ l ∈ ds.map LabelCount.label := by
  induction cs, ds using mergeCounts.induct with
  | case1 ds =>
    rw [mergeCounts] at h
    exact Or.inr h
  | case2 c cs =>
    rw [mergeCounts] at h
    exact Or.inl h
  | case3 c cs n ds heq ih =>
    rw [mergeCounts, if_pos heq] at h
    simp only [List.map_cons, List.mem_cons] at h ⊢
    rcases h with h | h
    · exact Or.inr (Or.inl h)
    · exact (ih h).imp Or.inr Or.inr
  | case4 c cs n ds hne hlt ih =>
    rw [mergeCounts, if_neg hne, if_pos hlt] at h
    simp only [List.map_cons, List.mem_cons] at h ih ⊢
    rcases h with h | h
    · exact Or.inr (Or.inl h)
    · exact (ih h).imp id Or.inr
  | case5 c cs n ds hne hnlt ih =>
    rw [mergeCounts, if_neg hne, if_neg hnlt] at h
    simp only [List.map_cons, List.mem_cons] at h ih ⊢
    rcases h with h | h
    · exact Or.inl (Or.inl h)
    · exact (ih h).imp Or.inr id

/-- The merge of ascending lists ascends. Of the two front labels the lesser one
goes first, or both at once where they are equal; the cases are those of the
merge. -/
theorem sorted_mergeCounts {cs ds : List (LabelCount L)}
    (hcs : (cs.map LabelCount.label).Pairwise (· < ·))
    (hds : (ds.map LabelCount.label).Pairwise (· < ·)) :
    ((mergeCounts cs ds).map LabelCount.label).Pairwise (· < ·) := by
  induction cs, ds using mergeCounts.induct with
  | case1 ds =>
    rw [mergeCounts]
    exact hds
  | case2 c cs =>
    rw [mergeCounts]
    exact hcs
  | case3 c cs n ds heq ih =>
    rw [mergeCounts, if_pos heq]
    rw [List.map_cons, List.pairwise_cons] at hcs hds ⊢
    -- the label of both lists is followed by greater ones in either
    refine ⟨fun l hl => ?_, ih hcs.2 hds.2⟩
    rcases mem_mergeCounts hl with hl | hl
    · exact heq.trans_lt (hcs.1 l hl)
    · exact hds.1 l hl
  | case4 c cs n ds hne hlt ih =>
    rw [mergeCounts, if_neg hne, if_pos hlt, List.map_cons, List.pairwise_cons]
    rw [List.map_cons, List.pairwise_cons] at hds
    refine ⟨fun l hl => ?_, ih hcs hds.2⟩
    -- the least label goes first, and the other list begins with a greater one
    rcases mem_mergeCounts hl with hl | hl
    · rw [List.map_cons, List.mem_cons] at hl
      rcases hl with rfl | hl
      · exact hlt
      · exact hlt.trans ((List.pairwise_cons.mp hcs).1 l hl)
    · exact hds.1 l hl
  | case5 c cs n ds hne hnlt ih =>
    rw [mergeCounts, if_neg hne, if_neg hnlt, List.map_cons, List.pairwise_cons]
    rw [List.map_cons, List.pairwise_cons] at hcs
    have hlt : c.label < n.label := lt_of_le_of_ne (not_lt.mp hnlt) (Ne.symm hne)
    refine ⟨fun l hl => ?_, ih hcs.2 hds⟩
    rcases mem_mergeCounts hl with hl | hl
    · exact hcs.1 l hl
    · rw [List.map_cons, List.mem_cons] at hl
      rcases hl with rfl | hl
      · exact hlt
      · exact hlt.trans ((List.pairwise_cons.mp hds).1 l hl)

theorem pos_mergeCounts {cs ds : List (LabelCount L)} (hcs : ∀ c ∈ cs, 0 < c.count)
    (hds : ∀ c ∈ ds, 0 < c.count) : ∀ c ∈ mergeCounts cs ds, 0 < c.count := by
  induction cs, ds using mergeCounts.induct with
  | case1 ds =>
    rw [mergeCounts]
    exact hds
  | case2 c cs =>
    rw [mergeCounts]
    exact hcs
  | case3 c cs n ds heq ih =>
    rw [mergeCounts, if_pos heq]
    rw [List.forall_mem_cons] at hcs hds ⊢
    exact ⟨Nat.add_pos_left hds.1 _, ih hcs.2 hds.2⟩
  | case4 c cs n ds hne hlt ih =>
    rw [mergeCounts, if_neg hne, if_pos hlt]
    rw [List.forall_mem_cons] at hds ⊢
    exact ⟨hds.1, ih hcs hds.2⟩
  | case5 c cs n ds hne hnlt ih =>
    rw [mergeCounts, if_neg hne, if_neg hnlt]
    rw [List.forall_mem_cons] at hcs ⊢
    exact ⟨hcs.1, ih hcs.2 hds⟩

/-- **The merge adds the numbers.** -/
theorem Tally.merge {cs ds : List (LabelCount L)} {f g : L → ℕ} (h : Tally cs f)
    (h' : Tally ds g) : Tally (mergeCounts cs ds) fun l => f l + g l where
  sorted := sorted_mergeCounts h.sorted h'.sorted
  pos := pos_mergeCounts h.pos h'.pos
  total l := by rw [total_mergeCounts, h.total, h'.total]

/-! ### The collection -/

/-- How often a label stands in a buffer, without the mark. -/
def kept (skip : L) (buffer : List L) (l : L) : ℕ :=
  if l = skip then 0 else buffer.count l

theorem kept_append (skip : L) (buffer buffer' : List L) (l : L) :
    kept skip (buffer ++ buffer') l = kept skip buffer l + kept skip buffer' l := by
  unfold kept
  split
  · rfl
  · rw [List.count_append]

theorem kept_perm {skip : L} {buffer buffer' : List L} (h : buffer.Perm buffer') :
    kept skip buffer = kept skip buffer' := by
  funext l
  unfold kept
  rw [h.count_eq]

theorem kept_pos_iff {skip : L} {buffer : List L} {l : L} :
    0 < kept skip buffer l ↔ l ≠ skip ∧ l ∈ buffer := by
  unfold kept
  split
  · next heq => exact iff_of_false (lt_irrefl 0) fun h => h.1 heq
  · next hne =>
    rw [List.count_pos_iff]
    exact (and_iff_right hne).symm

/-- **The collection so far**: the labels of the part of the buffer that was
read, and the last of them. -/
structure Collected (skip : L) (done : List L) (s : List (LabelCount L) × L) : Prop where
  tally : Tally s.1 (kept skip done)
  last : s = ([], skip) ∨ ∃ cs k, s.1 = cs ++ [⟨s.2, k⟩]

/-- **One round**: the next label is not below those that were read, so that a
label that differs from the last one is new, and the count of the last one is
complete. -/
theorem Collected.step {skip : L} {done : List L} {s : List (LabelCount L) × L}
    (h : Collected skip done s) {x : L} (hx : ∀ y ∈ done, y ≤ x) :
    Collected skip (done ++ [x]) (collectStep skip s x) := by
  obtain ⟨cs, last⟩ := s
  have hone : ∀ l, kept skip [x] l = if l ≠ skip ∧ x = l then 1 else 0 := by
    intro l
    unfold kept
    by_cases hl : l = skip
    · rw [if_pos hl, if_neg fun hand => hand.1 hl]
    · rw [if_neg hl]
      by_cases hxl : x = l
      · subst hxl
        rw [if_pos ⟨hl, rfl⟩, List.count_singleton_self]
      · rw [if_neg fun hand => hxl hand.2,
          List.count_eq_zero_of_not_mem (List.mem_singleton.not.mpr (Ne.symm hxl))]
  unfold collectStep
  by_cases hskip : x = skip
  · rw [if_neg (not_not.mpr hskip)]
    refine ⟨⟨h.tally.sorted, h.tally.pos, fun l => ?_⟩, h.last⟩
    rw [h.tally.total, kept_append, hone, if_neg, Nat.add_zero]
    rintro ⟨hl, rfl⟩
    exact hl hskip
  · rw [if_pos hskip]
    by_cases hlast : x = last
    · rw [if_neg (not_not.mpr hlast)]
      rcases h.last with hnil | ⟨cs', k, hcs⟩
      · exact absurd (hlast.trans (Prod.mk.inj hnil).2) hskip
      · have hcs : cs = cs' ++ [⟨last, k⟩] := hcs
        subst hcs hlast
        have hcount : countLast (cs' ++ [⟨x, k⟩]) = cs' ++ [⟨x, k + 1⟩] :=
          List.modifyLast_concat _ _ _
        rw [hcount]
        refine ⟨⟨?_, fun c hc => ?_, fun l => ?_⟩, Or.inr ⟨cs', k + 1, rfl⟩⟩
        · have hsorted := h.tally.sorted
          rw [List.map_append] at hsorted ⊢
          exact hsorted
        · rcases List.mem_append.mp hc with hc | hc
          · exact h.tally.pos c (List.mem_append_left _ hc)
          · rw [List.mem_singleton.mp hc]
            exact Nat.succ_pos k
        · have htotal := h.tally.total l
          simp only [total_append, total_cons, total_nil] at htotal ⊢
          rw [kept_append, hone, ← htotal]
          by_cases hxl : x = l
          · subst hxl
            simp only [if_pos, hskip, ne_eq, not_false_eq_true, and_self]
            omega
          · rw [if_neg hxl, if_neg hxl, if_neg fun hand => hxl hand.2]
    · rw [if_pos hlast]
      -- the labels that are listed are below the new one
      have hbelow : ∀ l ∈ cs.map LabelCount.label, l < x := by
        intro l hl
        rcases h.last with hnil | ⟨cs', k, hcs⟩
        · rw [(Prod.mk.inj hnil).1] at hl
          exact absurd hl List.not_mem_nil
        · have hcs : cs = cs' ++ [⟨last, k⟩] := hcs
          subst hcs
          have hmem : last ∈ (cs' ++ [(⟨last, k⟩ : LabelCount L)]).map LabelCount.label := by
            rw [List.map_append]
            exact List.mem_append_right _ (List.mem_singleton.mpr rfl)
          have hle : last ≤ x := hx last (kept_pos_iff.mp ((h.tally.mem_iff last).mp hmem)).2
          have hlt : last < x := lt_of_le_of_ne hle (Ne.symm hlast)
          have hsorted := h.tally.sorted
          rw [List.map_append, List.pairwise_append] at hsorted
          rw [List.map_append, List.mem_append] at hl
          rcases hl with hl | hl
          · exact (hsorted.2.2 l hl last (List.mem_singleton.mpr rfl)).trans hlt
          · rw [List.mem_singleton.mp hl]
            exact hlt
      refine ⟨⟨?_, fun c hc => ?_, fun l => ?_⟩, Or.inr ⟨cs, 1, rfl⟩⟩
      · rw [List.map_append, List.pairwise_append]
        refine ⟨h.tally.sorted, List.pairwise_singleton _ _, fun l hl m hm => ?_⟩
        rw [List.mem_singleton.mp hm]
        exact hbelow l hl
      · rcases List.mem_append.mp hc with hc | hc
        · exact h.tally.pos c hc
        · rw [List.mem_singleton.mp hc]
          exact Nat.one_pos
      · rw [total_append, h.tally.total, kept_append, hone, total_cons, total_nil, Nat.add_zero]
        congr 1
        by_cases hxl : x = l
        · subst hxl
          rw [if_pos rfl, if_pos ⟨hskip, rfl⟩]
        · rw [if_neg hxl, if_neg fun hand => hxl hand.2]

theorem Collected.foldl {skip : L} {done rest : List L} {s : List (LabelCount L) × L}
    (h : Collected skip done s) (hsorted : (done ++ rest).Pairwise (· ≤ ·)) :
    Collected skip (done ++ rest) (rest.foldl (collectStep skip) s) := by
  induction rest generalizing done s with
  | nil =>
    rw [List.append_nil]
    exact h
  | cons x rest ih =>
    have hx : ∀ y ∈ done, y ≤ x := fun y hy =>
      (List.pairwise_append.mp hsorted).2.2 y hy x List.mem_cons_self
    rw [List.append_cons] at hsorted ⊢
    exact ih (h.step hx) hsorted

/-- **A sorted buffer is counted.** -/
theorem collect_spec (skip : L) {buffer : List L} (hsorted : buffer.Pairwise (· ≤ ·)) :
    Tally (collect skip buffer) (kept skip buffer) := by
  have hnil : Collected skip [] (([], skip) : List (LabelCount L) × L) := by
    refine ⟨⟨List.Pairwise.nil, fun _ h => absurd h List.not_mem_nil, fun l => ?_⟩,
      Or.inl rfl⟩
    unfold kept
    rw [List.count_nil, ite_self]
    rfl
  exact (hnil.foldl hsorted).tally

end Counts

/-! ## The analysis -/

/-- `0xffffffff`. -/
def mark : ℕ := 2 ^ 32 - 1

/-- The buffer of a window that begins at the vertex `curvid`: a vertex with
its own label is marked. -/
def marks (curvid : ℕ) (vals : List ℕ) : List ℕ :=
  (vals.zipIdx curvid).map fun q => if q.1 = q.2 then mark else q.1

/-- What the loops with an `int` index see of a list: a length that does not
fit is negative. -/
def reach {E : Type} (l : List E) : List E := if l.length < 2 ^ 31 then l else []

/-- What is kept between the windows. -/
structure Counting where
  /-- `curlabels`. -/
  curlabels : List (LabelCount ℕ)
  /-- How many random numbers have been drawn. -/
  drawn : ℕ

section Analysis

variable (rand : ℕ → ℕ) (size : ℕ)

/-- `quickSort` of the buffer. -/
def sorted (drawn : ℕ) (buffer : List ℕ) : List ℕ × ℕ :=
  Qsort.quickSort (fun a b => decide (a < b)) rand buffer.length drawn buffer

/-- A window. Nothing is there to merge with in the first. -/
def Counting.window (s : Counting) (first : Bool) (curvid : ℕ) (vals : List ℕ) : Counting :=
  ⟨if first then collect mark (sorted rand s.drawn (marks curvid vals)).1
    else mergeCounts (reach s.curlabels)
      (collect mark (sorted rand s.drawn (marks curvid vals)).1),
    (sorted rand s.drawn (marks curvid vals)).2⟩

/-- The loop over the windows; the fuel covers them. -/
def windows : ℕ → Bool → Counting → ℕ → List ℕ → Counting
  | 0, _, s, _, _ => s
  | fuel + 1, first, s, curvid, vals =>
    if vals = [] then s
    else windows fuel false (s.window rand first curvid (vals.take size)) (curvid + size)
      (vals.drop size)

/-- The lines of the output file. -/
def report (curlabels : List (LabelCount ℕ)) : List (ℕ × ℕ) :=
  (reach (curlabels.mergeSort fun a b => !labelCountGreater b a)).map fun c =>
    (c.label, (c.count + 1) % 2 ^ 32)

/-- **`analyze_labels`** for the labels in the vertex file. It does not come
to its end without a vertex, with windows of none, when the first place
after the windows does not fit in a `vid_t`, and when a window has more
values than an `int` counts (`reserve` of a negative number). -/
def analyzeLabels (labels : List ℕ) : Option (List (ℕ × ℕ)) :=
  if labels = [] ∨ size = 0 ∨ 2 ^ 32 ≤ (labels.length + size - 1) / size * size
      ∨ 2 ^ 31 ≤ min size labels.length then none
  else some (report (windows rand size labels.length true ⟨[], 0⟩ 0 labels).curlabels)

end Analysis

/-! ### What is counted -/

theorem sorted_spec (rand : ℕ → ℕ) (drawn : ℕ) (buffer : List ℕ) :
    (sorted rand drawn buffer).1.Perm buffer
      ∧ (sorted rand drawn buffer).1.Pairwise (· ≤ ·) := by
  have hkey : ∀ a b : ℕ, decide (a < b) = true ↔ id a < id b :=
    fun _ _ => decide_eq_true_iff
  exact Qsort.quickSort_spec hkey rand buffer.length drawn buffer le_rfl

@[simp] theorem length_marks (curvid : ℕ) (vals : List ℕ) :
    (marks curvid vals).length = vals.length := by
  unfold marks
  rw [List.length_map, List.length_zipIdx]

theorem marks_append (curvid : ℕ) (vals vals' : List ℕ) :
    marks curvid (vals ++ vals') = marks curvid vals ++ marks (curvid + vals.length) vals' := by
  unfold marks
  rw [List.zipIdx_append, List.map_append]

/-- The labels that a vertex of another number carries, which are the ones
that are listed. -/
def foreign (labels : List ℕ) : Finset ℕ := (marks 0 labels).toFinset.erase mark

theorem mem_foreign_iff {labels : List ℕ} {l : ℕ} :
    l ∈ foreign labels ↔ l ≠ mark ∧ ∃ v, labels[v]? = some l ∧ l ≠ v := by
  unfold foreign marks
  rw [Finset.mem_erase, List.mem_toFinset, List.mem_map]
  refine and_congr_right fun hl => ⟨?_, ?_⟩
  · rintro ⟨q, hq, hql⟩
    split at hql
    · exact absurd hql.symm hl
    · next hne =>
      subst hql
      exact ⟨q.2, List.mem_zipIdx_iff_getElem?.mp hq, hne⟩
  · rintro ⟨v, hv, hne⟩
    exact ⟨(l, v), List.mem_zipIdx_iff_getElem?.mpr hv, if_neg hne⟩

theorem mem_foreign_iff_kept {labels : List ℕ} {l : ℕ} :
    l ∈ foreign labels ↔ 0 < kept mark (marks 0 labels) l := by
  unfold foreign
  rw [kept_pos_iff, Finset.mem_erase, List.mem_toFinset]

/-- **A vertex with its own label is not counted**: its cell is overwritten by a
mark, which leaves the count of every other label as it is. -/
theorem count_eq {labels : List ℕ} {l : ℕ} (hl : l ≠ mark) (curvid : ℕ) :
    labels.count l = kept mark (marks curvid labels) l
      + if curvid ≤ l ∧ labels[l - curvid]? = some l then 1 else 0 := by
  unfold kept
  rw [if_neg hl]
  induction labels generalizing curvid with
  | nil =>
    rw [List.getElem?_nil, if_neg fun h => absurd h.2.symm (Option.some_ne_none l)]
    rfl
  | cons x labels ih =>
    have hmarks : marks curvid (x :: labels)
        = (if x = curvid then mark else x) :: marks (curvid + 1) labels := rfl
    rw [hmarks, List.count_cons, List.count_cons, ih (curvid + 1)]
    simp only [beq_iff_eq]
    rcases lt_trichotomy l curvid with hlt | rfl | hlt
    · have hhead : (if x = curvid then mark else x) = l ↔ x = l := by
        split <;> omega
      rw [if_neg (c := curvid + 1 ≤ l ∧ _) (by omega),
        if_neg (c := curvid ≤ l ∧ _) (by omega)]
      simp only [hhead]
      omega
    · rw [if_neg (c := l + 1 ≤ l ∧ _) (by omega), Nat.sub_self, List.getElem?_cons_zero]
      by_cases hx : x = l
      · subst hx
        rw [if_pos rfl, if_pos rfl, if_neg (Ne.symm hl), if_pos ⟨le_rfl, rfl⟩]
      · rw [if_neg hx, if_neg hx, if_neg hx,
          if_neg fun h => hx (Option.some.inj h.2)]
    · have hhead : (if x = curvid then mark else x) = l ↔ x = l := by
        split <;> omega
      obtain ⟨d, rfl⟩ : ∃ d, l = curvid + 1 + d := ⟨l - (curvid + 1), by omega⟩
      rw [show curvid + 1 + d - (curvid + 1) = d by omega,
        show curvid + 1 + d - curvid = d + 1 by omega, List.getElem?_cons_succ]
      simp only [hhead, Nat.le_add_right, true_and, hlt.le]
      omega

theorem foreign_append_subset (labels labels' : List ℕ) :
    foreign labels ⊆ foreign (labels ++ labels') := by
  intro l hl
  rw [mem_foreign_iff_kept] at hl ⊢
  rw [marks_append, kept_append]
  exact Nat.add_pos_left hl _

/-- No more labels are listed than are carried by a vertex of another
number. -/
theorem Tally.length_le {cs : List (LabelCount ℕ)} {labels : List ℕ}
    (h : Tally cs (kept mark (marks 0 labels))) : cs.length ≤ (foreign labels).card := by
  rw [← List.length_map LabelCount.label, ← List.toFinset_card_of_nodup h.nodup]
  refine Finset.card_le_card fun l hl => ?_
  rw [mem_foreign_iff_kept, ← h.mem_iff]
  exact List.mem_toFinset.mp hl

theorem reach_of_lt {E : Type} {l : List E} (h : l.length < 2 ^ 31) : reach l = l :=
  if_pos h

section Runs

variable (rand : ℕ → ℕ) {size : ℕ}

/-- **One window** adds its labels to the counts: it is sorted, its labels are
counted, and the two sorted lists are merged. -/
theorem Counting.window_spec {s : Counting} {done vals : List ℕ} {first : Bool}
    (h : Tally s.curlabels (kept mark (marks 0 done))) (hfirst : first = true → done = [])
    (hfew : (foreign done).card < 2 ^ 31) :
    Tally (s.window rand first done.length vals).curlabels
      (kept mark (marks 0 (done ++ vals))) := by
  obtain ⟨hperm, hsorted⟩ := sorted_spec rand s.drawn (marks done.length vals)
  have hnew := collect_spec mark hsorted
  rw [kept_perm hperm] at hnew
  have hsplit : kept mark (marks 0 (done ++ vals))
      = fun l => kept mark (marks 0 done) l + kept mark (marks done.length vals) l := by
    funext l
    rw [marks_append, kept_append, Nat.zero_add]
  rw [hsplit]
  unfold Counting.window
  cases first with
  | true =>
    obtain rfl := hfirst rfl
    have hnone : ∀ l, kept mark (marks 0 []) l = 0 := fun l => ite_self 0
    simp only [hnone, Nat.zero_add, if_true]
    exact hnew
  | false =>
    rw [reach_of_lt (h.length_le.trans_lt hfew)]
    exact h.merge hnew

/-- **All windows**, by induction on the fuel: each begins at the vertex where
the one before has ended. -/
theorem windows_spec {fuel curvid : ℕ} {s : Counting} {done vals : List ℕ} {first : Bool}
    (h : Tally s.curlabels (kept mark (marks 0 done))) (hfirst : first = true → done = [])
    (hplace : vals = [] ∨ curvid = done.length)
    (hfew : (foreign (done ++ vals)).card < 2 ^ 31) (hsize : 0 < size)
    (hfuel : vals.length ≤ fuel) :
    Tally (windows rand size fuel first s curvid vals).curlabels
      (kept mark (marks 0 (done ++ vals))) := by
  induction fuel generalizing s done vals first curvid with
  | zero =>
    obtain rfl : vals = [] := List.length_eq_zero_iff.mp (by omega)
    rw [List.append_nil]
    exact h
  | succ fuel ih =>
    unfold windows
    by_cases hvals : vals = []
    · subst hvals
      rw [if_pos rfl, List.append_nil]
      exact h
    · rw [if_neg hvals]
      obtain rfl := hplace.resolve_left hvals
      have hsub := Finset.card_le_card (foreign_append_subset done vals)
      have hwin : Tally (s.window rand first done.length (vals.take size)).curlabels
          (kept mark (marks 0 (done ++ vals.take size))) :=
        Counting.window_spec rand h hfirst (by omega)
      have hall : done ++ vals = (done ++ vals.take size) ++ vals.drop size := by
        rw [List.append_assoc, List.take_append_drop]
      have hpos := List.length_pos_iff.mpr hvals
      rw [hall] at hfew ⊢
      refine ih hwin (fun hfalse => absurd hfalse Bool.false_ne_true) ?_ hfew ?_
      · rw [List.drop_eq_nil_iff, List.length_append, List.length_take]
        omega
      · rw [List.length_drop]
        omega

/-! ## The report -/

/-- **The files whose sizes are reported right**: the analysis comes to its
end, and a label that a vertex of another number carries is carried by the
vertex with its number too. -/
structure Rooted (size : ℕ) (labels : List ℕ) : Prop where
  /-- There is a vertex. -/
  pos : labels ≠ []
  /-- A window has a vertex. -/
  window : 0 < size
  /-- The place after the last window is a `vid_t`. -/
  counter : (labels.length + size - 1) / size * size < 2 ^ 32
  /-- An `int` counts the values of a window. -/
  int : min size labels.length < 2 ^ 31
  /-- The vertex with the number of a label carries it. -/
  root : ∀ v l, labels[v]? = some l → l ≠ v → l ≠ mark → labels[l]? = some l

/-- **What is asked of a report**: it exists, no label stands twice, and with
each stands the number of the vertices that carry it. -/
def CountsRight (size : ℕ) (labels : List ℕ) : Prop :=
  ∃ r, analyzeLabels rand size labels = some r ∧ (r.map Prod.fst).Nodup
    ∧ ∀ q ∈ r, q.2 = labels.count q.1

/-- When the analysis comes to its end. -/
theorem analyzeLabels_eq_some_iff {labels : List ℕ} {r : List (ℕ × ℕ)} :
    analyzeLabels rand size labels = some r ↔
      labels ≠ [] ∧ 0 < size ∧ (labels.length + size - 1) / size * size < 2 ^ 32
        ∧ min size labels.length < 2 ^ 31
        ∧ report (windows rand size labels.length true ⟨[], 0⟩ 0 labels).curlabels = r := by
  unfold analyzeLabels
  split
  · next hbad =>
    refine iff_of_false (Option.some_ne_none r).symm ?_
    rintro ⟨hpos, hsize, hcounter, hint, -⟩
    rcases hbad with h | h | h | h
    · exact hpos h
    · omega
    · omega
    · omega
  · next hgood =>
    rw [not_or, not_or, not_or, Nat.not_le, Nat.not_le] at hgood
    obtain ⟨hpos, hsize, hcounter, hint⟩ := hgood
    rw [Option.some.injEq]
    exact ⟨fun h => ⟨hpos, Nat.pos_of_ne_zero hsize, hcounter, hint, h⟩, fun h => h.2.2.2.2⟩

/-- The labels of a report with what is written beside them. -/
theorem report_spec {cs : List (LabelCount ℕ)} {f : ℕ → ℕ} (h : Tally cs f)
    (hfew : cs.length < 2 ^ 31) :
    ((report cs).map Prod.fst).Nodup
      ∧ ∀ q, q ∈ report cs ↔ 0 < f q.1 ∧ q.2 = (f q.1 + 1) % 2 ^ 32 := by
  have hperm : (cs.mergeSort fun a b => !labelCountGreater b a).Perm cs :=
    List.mergeSort_perm _ _
  unfold report
  rw [reach_of_lt (by rw [hperm.length_eq]; exact hfew)]
  refine ⟨?_, fun q => ?_⟩
  · rw [List.map_map]
    exact (hperm.map LabelCount.label).nodup_iff.mpr h.nodup
  · rw [List.mem_map]
    constructor
    · rintro ⟨c, hc, rfl⟩
      have hc := hperm.mem_iff.mp hc
      rw [← h.count_eq hc]
      exact ⟨h.pos c hc, rfl⟩
    · rintro ⟨hpos, hcount⟩
      obtain ⟨c, hc, hlabel⟩ := List.mem_map.mp ((h.mem_iff q.1).mpr hpos)
      refine ⟨c, hperm.mem_iff.mpr hc, Prod.ext hlabel ?_⟩
      rw [hcount, h.count_eq hc, hlabel]

/-- The vertices fit in a `vid_t`. -/
theorem length_lt_of_counter {n size : ℕ} (hsize : 0 < size)
    (hcounter : (n + size - 1) / size * size < 2 ^ 32) : n < 2 ^ 32 := by
  have hdiv := Nat.div_add_mod (n + size - 1) size
  have hmod := Nat.mod_lt (n + size - 1) hsize
  rw [mul_comm] at hdiv
  omega

/-- Where each label has its own vertex besides another one, there are at
most half as many labels as vertices. -/
theorem Rooted.card_foreign {labels : List ℕ} (h : Rooted size labels) :
    2 * (foreign labels).card ≤ labels.length := by
  have hown : foreign labels
      ⊆ (Finset.range labels.length).filter fun v => labels[v]? = some v := by
    intro l hl
    obtain ⟨hmark, v, hv, hne⟩ := mem_foreign_iff.mp hl
    have hroot := h.root v l hv hne hmark
    rw [Finset.mem_filter, Finset.mem_range]
    exact ⟨(List.getElem?_eq_some_iff.mp hroot).1, hroot⟩
  have hother : foreign labels
      ⊆ ((Finset.range labels.length).filter fun v => ¬labels[v]? = some v).image
        fun v => labels.getD v 0 := by
    intro l hl
    obtain ⟨-, v, hv, hne⟩ := mem_foreign_iff.mp hl
    refine Finset.mem_image.mpr ⟨v, ?_, ?_⟩
    · rw [Finset.mem_filter, Finset.mem_range]
      refine ⟨(List.getElem?_eq_some_iff.mp hv).1, fun hself => hne ?_⟩
      exact Option.some.inj (hv.symm.trans hself)
    · rw [List.getD_eq_getElem?_getD, hv]
      rfl
  have hsplit := Finset.card_filter_add_card_filter_not (s := Finset.range labels.length)
    fun v => labels[v]? = some v
  rw [Finset.card_range] at hsplit
  have h₁ := Finset.card_le_card hown
  have h₂ := (Finset.card_le_card hother).trans Finset.card_image_le
  omega

/-- The counts that the windows leave. -/
theorem tally_windows {labels : List ℕ} (hsize : 0 < size)
    (hfew : (foreign labels).card < 2 ^ 31) :
    Tally (windows rand size labels.length true ⟨[], 0⟩ 0 labels).curlabels
      (kept mark (marks 0 labels)) := by
  have hnil : Tally (⟨[], 0⟩ : Counting).curlabels (kept mark (marks 0 [])) :=
    ⟨List.Pairwise.nil, fun _ h => absurd h List.not_mem_nil, fun _ => (ite_self 0).symm⟩
  have hall : Tally (windows rand size labels.length true ⟨[], 0⟩ 0 labels).curlabels
      (kept mark (marks 0 ([] ++ labels))) :=
    windows_spec rand hnil (fun _ => rfl) (Or.inr rfl) hfew hsize le_rfl
  exact hall

/-- The vertices of a label in the whole file. -/
theorem count_eq_kept {labels : List ℕ} {l : ℕ} (hl : l ≠ mark) :
    labels.count l = kept mark (marks 0 labels) l
      + if labels[l]? = some l then 1 else 0 := by
  have hcount : labels.count l = _ := count_eq hl 0
  simpa only [Nat.zero_le, true_and, Nat.sub_zero] using hcount

/-- Where each label that is listed has its own vertex, the one that is added
is that vertex. -/
theorem Rooted.countsRight {labels : List ℕ} (h : Rooted size labels) :
    CountsRight rand size labels := by
  have hlt := length_lt_of_counter h.window h.counter
  have hfew : (foreign labels).card < 2 ^ 31 := by
    have := h.card_foreign
    omega
  have htally := tally_windows rand h.window hfew
  obtain ⟨hnodup, hmem⟩ := report_spec htally (htally.length_le.trans_lt hfew)
  refine ⟨_, (analyzeLabels_eq_some_iff rand).mpr
    ⟨h.pos, h.window, h.counter, h.int, rfl⟩, hnodup, fun q hq => ?_⟩
  obtain ⟨hpos, hq⟩ := (hmem q).mp hq
  obtain ⟨hmark, v, hv, hne⟩ := mem_foreign_iff.mp (mem_foreign_iff_kept.mpr hpos)
  have hcount : labels.count q.1 = _ := count_eq_kept hmark
  rw [if_pos (h.root v q.1 hv hne hmark)] at hcount
  have hle := List.count_le_length (a := q.1) (l := labels)
  rw [hq, hcount]
  exact Nat.mod_eq_of_lt (by omega)

/-- A label without its own vertex is reported with one too many. -/
theorem CountsRight.rooted {labels : List ℕ} (h : CountsRight rand size labels)
    (hfew : (foreign labels).card < 2 ^ 31) : Rooted size labels := by
  obtain ⟨r, hr, -, hright⟩ := h
  obtain ⟨hpos, hsize, hcounter, hint, rfl⟩ := (analyzeLabels_eq_some_iff rand).mp hr
  have hlt := length_lt_of_counter hsize hcounter
  have htally := tally_windows rand hsize hfew
  obtain ⟨-, hmem⟩ := report_spec htally (htally.length_le.trans_lt hfew)
  refine ⟨hpos, hsize, hcounter, hint, fun v l hv hne hmark => ?_⟩
  have hl : 0 < kept mark (marks 0 labels) l :=
    mem_foreign_iff_kept.mp (mem_foreign_iff.mpr ⟨hmark, v, hv, hne⟩)
  have hsame := hright (l, (kept mark (marks 0 labels) l + 1) % 2 ^ 32)
    ((hmem _).mpr ⟨hl, rfl⟩)
  have hcount : labels.count l = _ := count_eq_kept hmark
  have hle := List.count_le_length (a := l) (l := labels)
  by_contra hroot
  rw [if_neg hroot] at hcount
  have hsame : (kept mark (marks 0 labels) l + 1) % 2 ^ 32 = labels.count l := hsame
  omega

/-- **Each listed label is reported with the number of its vertices** where
each vertex that is named by another one's label carries its own number;
and, as long as an `int` counts the labels that are listed, nowhere else. -/
theorem countsRight_iff (rand : ℕ → ℕ) (size : ℕ) (labels : List ℕ) :
    (Rooted size labels → CountsRight rand size labels)
      ∧ ((foreign labels).card < 2 ^ 31 → CountsRight rand size labels →
        Rooted size labels) :=
  ⟨Rooted.countsRight rand, fun hfew h => h.rooted rand hfew⟩

/-- Two components in windows of two vertices. -/
theorem countsRight_twoComponents : CountsRight (fun _ => 0) 2 [0, 0, 2, 0, 2] := by
  refine (countsRight_iff (fun _ => 0) 2 [0, 0, 2, 0, 2]).1
    ⟨by decide, by decide, by decide, by decide, fun v l hv hne _ => ?_⟩
  match v with
  | 0 | 1 | 2 | 3 | 4 =>
    obtain rfl := Option.some.inj hv
    rfl
  | v + 5 => exact absurd hv (Option.some_ne_none l).symm

/-- Three vertices: the labels of two of them are exchanged, and the third
one carries one of the two. No vertex has its own label. -/
theorem not_countsRight_exchanged :
    ¬CountsRight (fun _ => 0) (1024 * 1024) [1, 0, 1] := by
  intro h
  have hroot := (h.rooted (fun _ => 0) (by decide)).root 0 1 rfl (by decide) (by decide)
  exact absurd hroot (by decide)

end Runs

end LabelAnalysis
