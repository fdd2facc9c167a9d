import DpdkGraph.SparseRows

/-!
# The adjacency file of the first sharding

`finish_shard` writes the edges of a shard, sorted by source, as sparse
rows: the destinations of a source are its row, and the sources without
edges between two rows are skipped, at most 255 with each pair of bytes. A
row is written when the next source comes, or with the stopper at the end.

The file stands for the edges that it was written from
(`expand_adjacency`), also as bytes (`decodeFrom_adjacency`), and ends with
the row of the last source (`span_adjacency_le`).
-/

namespace ShardAdjacency

open SparseRows

/-- The `do … while` loop that skips `nz` sources; the fuel covers them. -/
def zeroItems : ℕ → ℕ → List Item
  | 0, _ => []
  | fuel + 1, nz =>
    .skip (min 254 (nz - 1)) ::
      if 0 < nz - 1 - min 254 (nz - 1) then
        zeroItems fuel (nz - 1 - min 254 (nz - 1))
      else []

/-- The state of the loop of `finish_shard`. -/
structure Writer where
  /-- `curvid`: the source whose row is under way. -/
  curvid : ℕ
  /-- The destinations of the edges from `istart` on. -/
  pending : List ℕ
  /-- What has been written. -/
  items : List Item

/-- The row under way; a source without edges has none. -/
def Writer.row (w : Writer) : List Item :=
  if w.pending = [] then [] else [.row w.pending]

/-- How many sources are skipped before `src`: with the first edge
(`i == 0`) all before it, else those behind `curvid`. -/
def Writer.zeros (w : Writer) (first : Bool) (src : ℕ) : List Item :=
  if first = true ∧ 0 < src then zeroItems src src
  else if 1 < src - w.curvid then
    zeroItems (src - w.curvid - 1) (src - w.curvid - 1)
  else []

/-- One round of the loop, for an edge. -/
def Writer.add (first : Bool) (w : Writer) (e : ℕ × ℕ) : Writer :=
  if e.1 = w.curvid then { w with pending := w.pending ++ [e.2] }
  else ⟨e.1, [e.2], w.items ++ w.row ++ w.zeros first e.1⟩

/-- The last round, for the stopper. -/
def Writer.stop (w : Writer) : List Item := w.items ++ w.row

/-- **The adjacency file** that `finish_shard` writes for the sorted edges
of a shard, given as pairs of source and destination. -/
def adjacency : List (ℕ × ℕ) → List Item
  | [] => Writer.stop ⟨0, [], []⟩
  | e :: es => (es.foldl (Writer.add false) (Writer.add true ⟨0, [], []⟩ e)).stop

/-! ## What it stands for -/

/-- An item as the loop writes it: a skip that fits its byte, or a row that
is not empty. -/
def Written : Item → Prop
  | .skip more => more < 256
  | .row ts => ts ≠ []

/-- The skips of a run pass over as many sources as asked. -/
theorem zeroItems_spec {fuel nz : ℕ} (hnz : 0 < nz) (hfuel : nz ≤ fuel) :
    span (zeroItems fuel nz) = nz ∧ (∀ v, expand v (zeroItems fuel nz) = [])
      ∧ ∀ it ∈ zeroItems fuel nz, Written it := by
  induction fuel generalizing nz with
  | zero => omega
  | succ fuel ih =>
    have hskip : Written (.skip (min 254 (nz - 1))) := by
      show min 254 (nz - 1) < 256
      omega
    unfold zeroItems
    split
    · next hmore =>
      obtain ⟨hspan, hexpand, hwritten⟩ :=
        ih hmore (show nz - 1 - min 254 (nz - 1) ≤ fuel by omega)
      refine ⟨?_, fun v => ?_, ?_⟩
      · rw [span_cons, hspan]
        show 1 + min 254 (nz - 1) + _ = nz
        omega
      · rw [expand, hexpand]
        rfl
      · exact List.forall_mem_cons.mpr ⟨hskip, hwritten⟩
    · next hmore =>
      refine ⟨?_, fun v => rfl, ?_⟩
      · show (1 + min 254 (nz - 1)) + 0 = nz
        omega
      · exact List.forall_mem_cons.mpr ⟨hskip, fun it hit => absurd hit List.not_mem_nil⟩

/-- What the loop has written and has under way are the edges so far. -/
structure Writes (w : Writer) (done : List (ℕ × ℕ)) : Prop where
  /-- The file and the row under way are the edges so far. -/
  edges : expand 0 w.items ++ w.pending.map (fun t => (w.curvid, t)) = done
  /-- The file ends before the row under way. -/
  ends : span w.items = w.curvid
  /-- The row under way has an edge, once there is one. -/
  pending : w.pending ≠ []
  /-- The items are as the loop writes them. -/
  written : ∀ it ∈ w.items, Written it

/-- The first edge. -/
theorem writes_first (e : ℕ × ℕ) : Writes (Writer.add true ⟨0, [], []⟩ e) [e] := by
  obtain ⟨src, dst⟩ := e
  unfold Writer.add
  split
  · next hsrc =>
    have hsrc : src = 0 := hsrc
    subst hsrc
    exact ⟨rfl, rfl, List.cons_ne_nil _ _, fun it hit => absurd hit List.not_mem_nil⟩
  · next hsrc =>
    have hpos : 0 < src := Nat.pos_of_ne_zero hsrc
    obtain ⟨hspan, hexpand, hwritten⟩ := zeroItems_spec hpos (le_refl src)
    have hzeros : Writer.zeros ⟨0, [], []⟩ true src = zeroItems src src :=
      if_pos ⟨rfl, hpos⟩
    refine ⟨?_, ?_, List.cons_ne_nil _ _, ?_⟩
    · show expand 0 ([] ++ [] ++ Writer.zeros ⟨0, [], []⟩ true src) ++ [(src, dst)] = _
      rw [hzeros, List.append_nil, List.nil_append, hexpand]
      rfl
    · show span ([] ++ [] ++ Writer.zeros ⟨0, [], []⟩ true src) = src
      rw [hzeros, List.append_nil, List.nil_append, hspan]
    · show ∀ it ∈ [] ++ [] ++ Writer.zeros ⟨0, [], []⟩ true src, Written it
      rw [hzeros]
      exact hwritten

/-- The sources between the row under way and the next one are skipped. -/
theorem zeros_spec {w : Writer} {src : ℕ} (h : w.curvid < src) :
    span (w.zeros false src) = src - w.curvid - 1
      ∧ (∀ v, expand v (w.zeros false src) = [])
      ∧ ∀ it ∈ w.zeros false src, Written it := by
  unfold Writer.zeros
  rw [if_neg fun hf => Bool.false_ne_true hf.1]
  split
  · exact zeroItems_spec (by omega) le_rfl
  · refine ⟨?_, fun v => rfl, fun it hit => absurd hit List.not_mem_nil⟩
    rw [span_nil]
    omega

/-- A further edge. -/
theorem Writes.add {w : Writer} {done : List (ℕ × ℕ)} (h : Writes w done)
    {e : ℕ × ℕ} (he : w.curvid ≤ e.1) :
    Writes (w.add false e) (done ++ [e]) := by
  obtain ⟨src, dst⟩ := e
  unfold Writer.add
  split
  · next hsrc =>
    have hsrc : src = w.curvid := hsrc
    subst hsrc
    refine ⟨?_, h.ends, ?_, h.written⟩
    · show expand 0 w.items ++ (w.pending ++ [dst]).map _ = _
      rw [List.map_append, ← List.append_assoc, h.edges]
      rfl
    · exact List.append_ne_nil_of_right_ne_nil _ (List.cons_ne_nil _ _)
  · next hsrc =>
    have hlt : w.curvid < src := lt_of_le_of_ne he fun heq => hsrc heq.symm
    obtain ⟨hspan, hexpand, hwritten⟩ := zeros_spec hlt
    have hrow : w.row = [.row w.pending] := if_neg h.pending
    refine ⟨?_, ?_, List.cons_ne_nil _ _, ?_⟩
    · show expand 0 (w.items ++ w.row ++ w.zeros false src) ++ [(src, dst)] = _
      rw [hrow, expand_append, hexpand, List.append_nil, expand_append, h.ends,
        Nat.zero_add, ← h.edges]
      show expand 0 w.items ++ (w.pending.map _ ++ []) ++ _ = _
      rw [List.append_nil]
    · show span (w.items ++ w.row ++ w.zeros false src) = src
      rw [hrow, span_append, span_append, hspan, h.ends]
      show w.curvid + 1 + _ = src
      omega
    · show ∀ it ∈ w.items ++ w.row ++ w.zeros false src, Written it
      intro it hit
      rcases List.mem_append.mp hit with hit | hit
      · rcases List.mem_append.mp hit with hit | hit
        · exact h.written it hit
        · rw [hrow, List.mem_singleton] at hit
          subst hit
          exact h.pending
      · exact hwritten it hit

/-- The row under way is that of the last edge. -/
theorem curvid_add (first : Bool) (w : Writer) (e : ℕ × ℕ) :
    (w.add first e).curvid = e.1 := by
  unfold Writer.add
  split
  · next h => exact h.symm
  · rfl

/-- All edges behind the first one. -/
theorem Writes.addAll {w : Writer} {done : List (ℕ × ℕ)} (h : Writes w done)
    {es : List (ℕ × ℕ)} (hsorted : es.Pairwise fun a b => a.1 ≤ b.1)
    (hcur : ∀ e ∈ es, w.curvid ≤ e.1) :
    Writes (es.foldl (Writer.add false) w) (done ++ es) := by
  induction es generalizing w done with
  | nil =>
    rw [List.append_nil]
    exact h
  | cons e es ih =>
    obtain ⟨hfirst, hsorted⟩ := List.pairwise_cons.mp hsorted
    rw [List.foldl_cons, ← List.singleton_append, ← List.append_assoc]
    refine ih (h.add (hcur e List.mem_cons_self)) hsorted fun e' he' => ?_
    rw [curvid_add]
    exact hfirst e' he'

/-- What the stopper leaves behind. -/
theorem Writes.stop {w : Writer} {done : List (ℕ × ℕ)} (h : Writes w done) :
    expand 0 w.stop = done ∧ span w.stop = w.curvid + 1
      ∧ ∀ it ∈ w.stop, Written it := by
  have hrow : w.row = [.row w.pending] := if_neg h.pending
  unfold Writer.stop
  rw [hrow]
  refine ⟨?_, ?_, fun it hit => ?_⟩
  · rw [expand_append, h.ends, Nat.zero_add, ← h.edges]
    show _ ++ (w.pending.map _ ++ []) = _
    rw [List.append_nil]
  · rw [span_append, h.ends]
    rfl
  · rcases List.mem_append.mp hit with hit | hit
    · exact h.written it hit
    · rw [List.mem_singleton] at hit
      subst hit
      exact h.pending

variable {l : List (ℕ × ℕ)}

/-- The loop is through with all edges. -/
theorem adjacency_writes {e : ℕ × ℕ} {es : List (ℕ × ℕ)}
    (hsorted : (e :: es).Pairwise fun a b => a.1 ≤ b.1) :
    Writes (es.foldl (Writer.add false) (Writer.add true ⟨0, [], []⟩ e)) (e :: es) := by
  obtain ⟨hfirst, hsorted⟩ := List.pairwise_cons.mp hsorted
  refine (writes_first e).addAll hsorted fun e' he' => ?_
  rw [curvid_add]
  exact hfirst e' he'

/-- **The file stands for the edges of the shard.** -/
theorem expand_adjacency (hsorted : l.Pairwise fun a b => a.1 ≤ b.1) :
    expand 0 (adjacency l) = l := by
  cases l with
  | nil => rfl
  | cons e es => exact (adjacency_writes hsorted).stop.1

/-- **The file ends with a row**: it is no longer than the sources go. -/
theorem span_adjacency_le {last : ℕ} (hsorted : l.Pairwise fun a b => a.1 ≤ b.1)
    (hlast : ∀ e ∈ l, e.1 ≤ last) : span (adjacency l) ≤ last + 1 := by
  cases l with
  | nil => exact Nat.zero_le _
  | cons e es =>
    refine (adjacency_writes hsorted).stop.2.1.trans_le (Nat.succ_le_succ ?_)
    have hcur : ∀ (es : List (ℕ × ℕ)) (w : Writer), w.curvid ≤ last →
        (∀ e ∈ es, e.1 ≤ last) → (es.foldl (Writer.add false) w).curvid ≤ last := by
      intro es
      induction es with
      | nil => exact fun w hw _ => hw
      | cons e es ih =>
        intro w _ hes
        refine ih _ ?_ fun e' he' => hes e' (List.mem_cons_of_mem _ he')
        rw [curvid_add]
        exact hes e List.mem_cons_self
    refine hcur es _ ?_ fun e' he' => hlast e' (List.mem_cons_of_mem _ he')
    rw [curvid_add]
    exact hlast e List.mem_cons_self

/-- The items are as the loop writes them. -/
theorem written_of_mem_adjacency (hsorted : l.Pairwise fun a b => a.1 ≤ b.1)
    {it : Item} (hit : it ∈ adjacency l) : Written it := by
  cases l with
  | nil => exact absurd hit List.not_mem_nil
  | cons e es => exact (adjacency_writes hsorted).stop.2.2 it hit

/-- A row has no more destinations than the shard has edges. -/
theorem valid_of_mem_adjacency (hsorted : l.Pairwise fun a b => a.1 ≤ b.1)
    (hlength : l.length < 2 ^ 32) (hdst : ∀ e ∈ l, e.2 < 2 ^ 32) {it : Item}
    (hit : it ∈ adjacency l) : it.Valid := by
  have hwritten := written_of_mem_adjacency hsorted hit
  have hsub : it.targets.Sublist (l.map Prod.snd) := by
    rw [← expand_adjacency hsorted, map_snd_expand]
    exact List.sublist_flatten_of_mem (List.mem_map_of_mem hit)
  cases it with
  | skip more => exact hwritten
  | row ts =>
    refine ⟨hwritten, ?_, fun t ht => ?_⟩
    · refine lt_of_le_of_lt hsub.length_le ?_
      rw [List.length_map]
      exact hlength
    · obtain ⟨e, he, rfl⟩ := List.mem_map.mp (hsub.subset ht)
      exact hdst e he

/-- **The bytes of the file stand for the edges of the shard**, as long as
a row length fits the four bytes it gets. -/
theorem decodeFrom_adjacency (hsorted : l.Pairwise fun a b => a.1 ≤ b.1)
    (hlength : l.length < 2 ^ 32) (hdst : ∀ e ∈ l, e.2 < 2 ^ 32) :
    decodeFrom (encode (adjacency l)).length 0 (encode (adjacency l)) = some l := by
  rw [decodeFrom_encode
    (fun it hit => valid_of_mem_adjacency hsorted hlength hdst hit) le_rfl,
    expand_adjacency hsorted]

end ShardAdjacency
