import Mathlib
import DpdkGraph.DynamicRuns
import DpdkGraph.RoundTrip

/-!
# The sizes of blocks with several values

The number in a `.size` file tells the engine how many vectors to build for a
block, one for each edge. It should be that of the pairs whose vectors
`reshard` wrote there.

It is not where rows are misplaced, nor at the end: the stopper books what
is left on the block of the second cursor, which has only followed to the
edge before the last. If the last edge goes to the own shard and is the only
one from its interval, it is missed in its block (`Stale`).
-/

namespace DynamicReshard

open Reshard

variable {V W : Type}

/-! ## The statement -/

/-- The distinct pairs with vectors in a block, among those that `p` is about. -/
def pairs (block : List (EdgeWithValue (List V))) (p : ℕ × ℕ → Bool) : ℕ :=
  ((block.map EdgeWithValue.ends).filter p).dedup.length

/-- **The sizes are those of the blocks**: a size, divided by 4, counts the
pairs from the source shard, or to the destination shard. The block loader
builds as many vectors as the size says, and the block has these. -/
structure SizesRight (c : Params) (f : Files V) : Prop where
  /-- Of an in-block, the edges that come from its interval … -/
  inSize : ∀ k, k < c.intervals.nshards →
    f.inSize k / 4 = pairs (f.inBlock k) fun x => decide (c.intervals.Mem k x.1)
  /-- … which are its vectors. -/
  inVectors : ∀ k, k < c.intervals.nshards → f.inSize k / 4 = (f.inBlock k).length
  /-- Of an out-block, the edges that go to its interval … -/
  outSize : ∀ k, k < c.intervals.nshards → k ≠ c.shard →
    f.outSize k / 4 = pairs (f.outBlock k) fun x => decide (c.intervals.Mem k x.2)
  /-- … which are its vectors. -/
  outVectors : ∀ k, k < c.intervals.nshards → k ≠ c.shard →
    f.outSize k / 4 = (f.outBlock k).length

/-- **The second cursor is stale at the end**: the last source has a single
edge from its interval, to the own shard, and that interval is not the first
one. -/
def Stale (c : Params) (L : List (EdgeWithValue W)) : Prop :=
  ∃ l ∈ L, ∃ k, k ≠ 0 ∧ c.intervals.Mem k l.src ∧ c.intervals.Mem c.shard l.dst
    ∧ ∀ a ∈ L, a.src ≤ l.src ∧ (c.intervals.Mem k a.src → a.ends = l.ends)

section Conditions

variable {c : Params} {L L' : List (EdgeWithValue W)} {a : EdgeWithValue W}

theorem Clash.perm (hperm : L.Perm L') : Clash L ↔ Clash L' := by
  unfold Clash
  simp only [hperm.mem_iff]

theorem Stale.perm (hperm : L.Perm L') : Stale c L ↔ Stale c L' := by
  unfold Stale
  simp only [hperm.mem_iff]

/-- The edge of a stale cursor is the last one. -/
theorem Stale.last (hsorted : L.Pairwise fun a b => a.sortKey ≤ b.sortKey)
    (hlast : L.getLast? = some a) (h : Stale c L) :
    ∃ k, k ≠ 0 ∧ c.intervals.Mem k a.src ∧ c.intervals.Mem c.shard a.dst
      ∧ ∀ b ∈ L, c.intervals.Mem k b.src → b.ends = a.ends := by
  obtain ⟨l, hl, k, hk0, hk, hdst, hall⟩ := h
  have ha := List.mem_of_getLast? hlast
  have hsrc : a.src = l.src := le_antisymm (hall a ha).1
    (EdgeWithValue.src_le_of_sortKey_le (le_getLast hsorted hlast hl))
  have hends : a.ends = l.ends := (hall a ha).2 (hsrc ▸ hk)
  refine ⟨k, hk0, hsrc ▸ hk, ?_, fun b hb hmem => ?_⟩
  · rwa [show a.dst = l.dst from congrArg Prod.snd hends]
  · rw [hends]
    exact (hall b hb).2 hmem

end Conditions

/-! ## The counters at the end -/

/-- The numbers of the files are those of the edges. -/
def Right (c : Params) (L : List (EdgeWithValue W)) (b : Books) : Prop :=
  (∀ k, k < c.intervals.nshards → b.uniqEdges k = L.countP (toBlock c k))
  ∧ ∀ k, k < c.intervals.nshards → k ≠ c.shard →
    b.wslUniqEdges k = L.countP (toFile c k)

section Final

variable {c : Params} {L : List (EdgeWithValue W)} {log : Log W} {w : Walk W} {b : Books}
  {a : EdgeWithValue W} {j k : ℕ}

/-- With nothing pending, counted is right. -/
theorem Counted.right (h : Counted c L [] b) : Right c L b :=
  ⟨fun k _ => h.block k, fun k _ hk => h.file k hk⟩

/-- **Held edges** are booked on the file of shard 0, and the one from
vertex 0 does not belong there. -/
theorem held_not_right (hat : w.At c L log) (hlegal : ∀ a ∈ L, Legal c a)
    (h : Held c L log w) (hcounted : Counted c L w.pending b) :
    ¬Right c L (b.book c w.currentMemoryShard w.pending.length) := by
  rintro ⟨-, hfile⟩
  obtain ⟨a, ha, hzero⟩ := h.zero
  obtain ⟨k, hk⟩ := (hlegal a ha).src
  have h0 := hfile 0 (lt_of_le_of_lt (Nat.zero_le _) hk.1) h.shard.symm
  have hcount := hcounted.file 0 h.shard.symm
  have hlt : L.countP (toFile c 0) < L.length := by
    refine List.countP_lt_length_iff.mpr ⟨a, ha, ?_⟩
    rw [toFile, decide_eq_false_iff_not]
    exact fun hmem => h.shard (shard_of_zero hmem.1 hzero)
  rw [h.current, wslUniqEdges_book_of_ne h.shard.symm, Function.update_self,
    h.pending_eq hat] at h0
  rw [h.pending_eq hat] at hcount
  omega

/-- **The last row, when the rows are right.** It is booked right unless the
second cursor is stale. -/
theorem sound_right_iff (hat : w.At c L log) (hlegal : ∀ a ∈ L, Legal c a)
    (hstrict : L.Pairwise fun a b => a.sortKey < b.sortKey) (h : Sound c L [] log w)
    (hcounted : Counted c L w.pending b)
    (htrail : L ≠ [] → ∃ k, b.currentWritingShard = some k
      ∧ c.intervals.Mem k (lastSrc L.dropLast)) :
    Right c L (b.book c w.currentMemoryShard w.pending.length) ↔ ¬Stale c L := by
  have hsorted : L.Pairwise fun a b => a.sortKey ≤ b.sortKey := hstrict.imp fun hab => hab.le
  rcases hat.init_or_last with ⟨rfl, rfl, -⟩ | ⟨a, hlast, hpend, ha, hcur, k, -, hk⟩
  · have hnone : ¬Stale c ([] : List (EdgeWithValue W)) := by
      rintro ⟨l, hl, -⟩
      exact absurd hl List.not_mem_nil
    refine iff_of_true ?_ hnone
    show Right c [] (b.book c 0 0)
    rw [Books.book_zero]
    exact hcounted.right
  · have hadst := h.placed.pendDst a hpend
    by_cases hcms : w.currentMemoryShard = c.shard
    · obtain ⟨j, hcws, hj⟩ := htrail (List.ne_nil_of_mem ha)
      rw [hcms] at hadst ⊢
      have hle : j ≤ k := hj.mono hk (lastSrc_dropLast_le hsorted hlast)
      have hsplit := List.dropLast_append_getLast? a hlast
      by_cases hjk : j = k
      · -- the second cursor is where it should be
        subst hjk
        refine iff_of_true (hcounted.book_self hcws (fun b hb => ?_) fun b hb => ?_).right
          fun hstale => ?_
        · rw [h.placed.pendSrc b hb, hcur]
          exact hk
        · exact hcms ▸ h.placed.pendDst b hb
        · obtain ⟨k', hk0, hk', -, hall⟩ := hstale.last hsorted hlast
          obtain rfl := hk'.unique hk
          rcases hdrop : L.dropLast.getLast? with _ | b
          · have hzero : lastSrc L.dropLast = 0 := by
              unfold lastSrc
              rw [hdrop]
              rfl
            rw [hzero] at hj
            exact hk0 (hj.unique (IntervalPartition.mem_zero
              (lt_of_le_of_lt (Nat.zero_le _) hk.1)))
          · rw [lastSrc_of_getLast? hdrop] at hj
            have hb := List.mem_of_getLast? hdrop
            have hends := hall b (List.dropLast_subset _ hb) hj
            rw [← hsplit] at hstrict
            have hlt := (List.pairwise_append.mp hstrict).2.2 b hb a
              (List.mem_singleton_self a)
            exact hlt.ne (congrArg toLex hends)
      · refine iff_of_false (fun hright => ?_) (not_not.mpr ?_)
        · have hblock := hright.1 k hk.1
          have hcount := hcounted.block k
          have hpos : 0 < w.pending.countP (toBlock c k) :=
            List.countP_pos_iff.mpr ⟨a, hpend, decide_eq_true ⟨hk, hadst⟩⟩
          rw [uniqEdges_book_self hcws, Function.update_of_ne (Ne.symm hjk)] at hblock
          omega
        · refine ⟨a, ha, k, by omega, hk, hadst, fun b hb => ⟨EdgeWithValue.src_le_of_sortKey_le
            (le_getLast hsorted hlast hb), fun hmem => ?_⟩⟩
          -- the edges before the last are not beyond the second cursor
          rw [← hsplit] at hb
          rcases List.mem_append.mp hb with hb | hb
          · refine absurd (hmem.mono hj ?_) (by omega)
            have hm := List.getLast?_eq_some_getLast (List.ne_nil_of_mem hb)
            rw [lastSrc_of_getLast? hm]
            exact EdgeWithValue.src_le_of_sortKey_le
              (le_getLast (hsorted.sublist (List.dropLast_sublist L)) hm hb)
          · rw [List.mem_singleton.mp hb]
    · refine iff_of_true (hcounted.book_of_ne hcms
        (fun b hb => hlegal b (hat.mem_done_of_pending hb)) h.placed.pendDst).right
        fun hstale => ?_
      obtain ⟨-, -, -, hdst, -⟩ := hstale.last hsorted hlast
      exact hcms (hadst.unique hdst)

/-- **What the stopper books is right** unless the edges are of one of the
three kinds. -/
theorem Standing.right_iff (hat : w.At c L log) (hlegal : ∀ a ∈ L, Legal c a)
    (hstrict : L.Pairwise fun a b => a.sortKey < b.sortKey)
    (h : Standing c L [] log w b)
    (htrail : L ≠ [] → ∃ k, b.currentWritingShard = some k
      ∧ c.intervals.Mem k (lastSrc L.dropLast)) :
    Right c L (b.book c w.currentMemoryShard w.pending.length)
      ↔ ¬ZeroHead c L ∧ ¬Jump c L ∧ ¬Stale c L := by
  cases h with
  | off beyond hcond hwrong =>
    refine iff_of_false (fun hright => ?_) fun hnone => hcond.elim hnone.1 hnone.2.1
    obtain ⟨t, ht, hts, hbad⟩ := hwrong
    have hfile := hright.2 t ht hts
    rw [beyond.current, wslUniqEdges_book_self] at hfile
    exact hbad hfile
  | good hmode hcounted =>
    rcases hmode with hsound | hheld
    · rw [sound_right_iff hat hlegal hstrict hsound hcounted htrail]
      exact ⟨fun hstale => ⟨hsound.noZeroHead, hsound.noJump, hstale⟩, fun hnone => hnone.2.2⟩
    · refine iff_of_false (held_not_right hat hlegal hheld hcounted) fun hnone => hnone.1 ?_
      refine ⟨hheld.shard, hheld.zero, hheld.bounds, ?_⟩
      by_cases hout : ∃ e ∈ L, c.intervals.Mem c.shard e.src
      · exact Or.inl hout
      · exact Or.inr fun e he =>
          (hheld.others e he).resolve_right fun ho => hout ⟨e, he, ho.1⟩

end Final

/-! ## The whole call -/

section Whole

variable {c : Params} {s : Shovel V} {L : List (MultiEdge V)}
  {w : Walk (Bool × List V)} {st st' : State V} {k : ℕ}

/-- The pairs of a block are its edges. -/
theorem pairs_eq {block : List (EdgeWithValue (List V))} {q : MultiEdge V → Bool}
    {p : ℕ × ℕ → Bool}
    (hblock : block.map EdgeWithValue.ends = (L.filter q).map EdgeWithValue.ends)
    (hdistinct : (L.map EdgeWithValue.ends).Nodup)
    (hp : ∀ e ∈ L, q e = true → p e.ends = true) : pairs block p = L.countP q := by
  have hall : ((L.filter q).map EdgeWithValue.ends).filter p
      = (L.filter q).map EdgeWithValue.ends := by
    refine List.filter_eq_self.mpr fun x hx => ?_
    obtain ⟨e, he, rfl⟩ := List.mem_map.mp hx
    exact hp e (List.mem_filter.mp he).1 (List.mem_filter.mp he).2
  have hnodup : ((L.filter q).map EdgeWithValue.ends).Nodup :=
    hdistinct.sublist (List.filter_sublist.map _)
  unfold pairs
  rw [hblock, hall, hnodup.dedup, List.length_map, List.countP_eq_length_filter]

/-- And its vectors are one for each. -/
theorem length_block {block : List (EdgeWithValue (List V))} {q : MultiEdge V → Bool}
    (hblock : block.map EdgeWithValue.ends = (L.filter q).map EdgeWithValue.ends) :
    block.length = L.countP q := by
  rw [← List.length_map EdgeWithValue.ends, hblock, List.length_map,
    List.countP_eq_length_filter]

/-- The block of a source shard. -/
theorem Loop.ends_inBlock (h : Loop c s L [] w st) (hstop : Stopped c st st') (k : ℕ) :
    ((finish c st').inBlock k).map EdgeWithValue.ends
      = (L.filter (toBlock c k)).map EdgeWithValue.ends := by
  show (if k = c.shard then st'.outBlock k else st'.inBlock k).map _ = _
  split
  · next hk =>
    rw [hstop.outBlock, h.outBlock, hk]
    rfl
  · next hk => rw [hstop.inBlock, h.inBlock k hk]

/-- That of a destination shard. -/
theorem Loop.ends_outBlock (h : Loop c s L [] w st) (hstop : Stopped c st st') (k : ℕ) :
    ((finish c st').outBlock k).map EdgeWithValue.ends
      = (L.filter (toFile c k)).map EdgeWithValue.ends := by
  show (st'.outBlock k).map _ = _
  rw [hstop.outBlock, h.outBlock]

/-- **The sizes are right when the counters are**: each is four bytes for each
edge that a counter has, and different edges are different pairs of ends. -/
theorem Loop.sizesRight_iff_right (h : Loop c s L [] w st) (hstop : Stopped c st st')
    (hdistinct : (L.map EdgeWithValue.ends).Nodup) :
    SizesRight c (finish c st') ↔ Right c L st'.books := by
  have hin : ∀ k, (finish c st').inSize k / 4 = st'.books.uniqEdges k := fun k =>
    Nat.mul_div_cancel _ (by norm_num)
  have hout : ∀ k, (finish c st').outSize k / 4 = st'.books.wslUniqEdges k := fun k =>
    Nat.mul_div_cancel _ (by norm_num)
  have hinBlock := fun k => pairs_eq (p := fun x => decide (c.intervals.Mem k x.1))
    (h.ends_inBlock hstop k) hdistinct
    fun e _ hq => decide_eq_true (of_decide_eq_true hq).1
  have houtBlock := fun k => pairs_eq (p := fun x => decide (c.intervals.Mem k x.2))
    (h.ends_outBlock hstop k) hdistinct
    fun e _ hq => decide_eq_true (of_decide_eq_true hq).2
  constructor
  · intro hright
    refine ⟨fun k hk => ?_, fun k hk hks => ?_⟩
    · rw [← hin, hright.inSize k hk, hinBlock]
    · rw [← hout, hright.outSize k hk hks, houtBlock]
  · rintro ⟨hblock, hfile⟩
    refine ⟨fun k hk => ?_, fun k hk => ?_, fun k hk hks => ?_, fun k hk hks => ?_⟩
    · rw [hin, hblock k hk, hinBlock]
    · rw [hin, hblock k hk, length_block (h.ends_inBlock hstop k)]
    · rw [hout, hfile k hk hks, houtBlock]
    · rw [hout, hfile k hk hks, length_block (h.ends_outBlock hstop k)]

/-- The first records are no more than the records. -/
theorem length_le_records (hrec : ∀ e ∈ L, Recordable e) :
    L.length ≤ (L.flatMap records).length := by
  induction L with
  | nil => exact le_rfl
  | cons e L ih =>
    have hpos : 0 < e.value.2.length :=
      List.length_pos_iff.mpr (hrec e List.mem_cons_self).ne
    have hle := ih fun a ha => hrec a (List.mem_cons_of_mem e ha)
    rw [List.flatMap_cons, List.length_append, length_records, List.length_cons]
    omega

/-- **The sizes that `reshard` records are right** exactly when none of four
things happens: the first edge is taken for a duplicate, the edges from
vertex 0 or the last out-edges are misplaced, or the second cursor is stale
at the end. -/
theorem sizesRight_iff (x : MultiShard c V) (rand : ℕ → ℕ) (behind : ℕ → ChivecEdge V)
    (hfew : x.edges.length < 2 ^ 31) :
    (∃ f, reshard c rand behind x.edges = some f ∧ SizesRight c f)
      ↔ ¬Clash x.multi ∧ ¬ZeroHead c x.multi ∧ ¬Jump c x.multi ∧ ¬Stale c x.multi := by
  have hperm := sortedMulti_perm x.multi
  have hstrict := sortedMulti_sorted x.distinct
  have hrec : ∀ e ∈ sortedMulti x.multi, Recordable e := fun e he =>
    x.recordable e (hperm.mem_iff.mp he)
  have hlegal : ∀ e ∈ sortedMulti x.multi, Legal c e := fun e he =>
    x.legal e (hperm.mem_iff.mp he)
  have hsort := sortEdges_eq x rand hfew
  have hlay : Layout ⟨sortEdges rand x.edges, behind⟩ (sortedMulti x.multi) := ⟨hsort, hrec⟩
  have hlen : ((sortedMulti x.multi).flatMap records).length = x.edges.length :=
    ((hperm.flatMap_right records).trans x.perm.symm).length_eq
  have hscan : Scan c (sortedMulti x.multi) :=
    ⟨hstrict.imp fun hab => hab.le, hlegal,
      (length_le_records hrec).trans_lt (by rwa [hlen])⟩
  have hdistinct : ((sortedMulti x.multi).map EdgeWithValue.ends).Nodup :=
    (hperm.map _).nodup_iff.mpr x.distinct
  rw [Clash.perm hperm.symm, ZeroHead.perm hperm.symm, Jump.perm hperm.symm,
    Stale.perm hperm.symm]
  unfold reshard
  -- the first edge is taken for a copy of the one before it, and the loop stops
  -- short
  by_cases hclash : Clash (sortedMulti x.multi)
  · rw [run_clash hlay hstrict hlegal hclash]
    refine iff_of_false ?_ fun hnone => hnone.1 hclash
    rintro ⟨f, hf, -⟩
    exact absurd hf (by simp)
  · rw [and_iff_right hclash]
    have hfuel : (⟨sortEdges rand x.edges, behind⟩ : Shovel V).numedges
        < x.edges.length + 1 := by
      unfold Shovel.numedges
      rw [hsort, hlen]
      exact Nat.lt_succ_self _
    rcases run_init hlay hscan hstrict hclash hfuel with
      ⟨w, log, st, st', hrun, hat, hloop, hstand', hstop⟩ | ⟨hrun, hzero⟩
    · -- the run comes to its end, where the sizes are right if and only if the walk
      -- has been right throughout
      rw [hrun, Option.map_some]
      have hright := hstand'.right_iff hat hlegal hstrict hloop.trail
      rw [← hright, ← hloop.count, ← hloop.memory, ← hstop.books,
        ← hloop.sizesRight_iff_right hstop hdistinct]
      constructor
      · rintro ⟨f, hf, hsizes⟩
        obtain rfl := Option.some.inj hf
        exact hsizes
      · exact fun hsizes => ⟨_, rfl, hsizes⟩
    · rw [hrun]
      refine iff_of_false ?_ fun hnone => hnone.1 hzero
      rintro ⟨f, hf, -⟩
      exact absurd hf (by simp)

end Whole

/-- A record that may be behind the buffer. -/
def blank : ChivecEdge ℕ := ⟨⟨0, 0, 0⟩, false, 0⟩

/-- Edges of shard 0, both from one interval: one with two values, one with
one. -/
def lastAmongOthers : MultiShard (callFor 0) ℕ where
  multi := [⟨10, 0, (true, [7, 8])⟩, ⟨10, 1, (true, [9])⟩]
  edges := [⟨⟨10, 1, 9⟩, true, 0⟩, ⟨⟨10, 0, 7⟩, true, 0⟩, ⟨⟨10, 0, 8⟩, true, 1⟩]
  perm := @List.perm_append_comm (ChivecEdge ℕ) [⟨⟨10, 1, 9⟩, true, 0⟩]
    [⟨⟨10, 0, 7⟩, true, 0⟩, ⟨⟨10, 0, 8⟩, true, 1⟩]
  distinct := by decide
  recordable e he := by
    simp only [List.mem_cons, List.not_mem_nil, or_false] at he
    rcases he with rfl | rfl
    · exact ⟨by simp, by simp, by simp⟩
    · exact ⟨by simp, by simp, by simp⟩
  legal e he := by
    simp only [List.mem_cons, List.not_mem_nil, or_false] at he
    rcases he with rfl | rfl
    · exact ⟨by decide, by decide, ⟨1, by decide⟩, ⟨0, by decide⟩⟩
    · exact ⟨by decide, by decide, ⟨1, by decide⟩, ⟨0, by decide⟩⟩

/-- The sizes for them are right. -/
theorem sizesRight_lastAmongOthers :
    ∃ f, reshard (callFor 0) (fun _ => 0) (fun _ => blank) lastAmongOthers.edges = some f
      ∧ SizesRight (callFor 0) f := by
  refine (sizesRight_iff lastAmongOthers (fun _ => 0) (fun _ => blank) (by decide)).mpr
    ⟨?_, ?_, ?_, ?_⟩
  · rintro ⟨⟨e, he, hzero⟩, -⟩
    simp only [lastAmongOthers, List.mem_cons, List.not_mem_nil, or_false] at he
    rcases he with rfl | rfl
    · exact absurd hzero (by decide)
    · exact absurd hzero (by decide)
  · exact fun h => h.1 rfl
  · exact fun h => h.2.2 ⟨10, 0, (true, [7, 8])⟩ (by decide) (by decide)
  · rintro ⟨l, hl, k, -, hk, -, hall⟩
    simp only [lastAmongOthers, List.mem_cons, List.not_mem_nil, or_false] at hl
    rcases hl with rfl | rfl
    · exact absurd ((hall ⟨10, 1, (true, [9])⟩ (by decide)).2 hk) (by decide)
    · exact absurd ((hall ⟨10, 0, (true, [7, 8])⟩ (by decide)).2 hk) (by decide)

/-- Edges of shard 0, each from an interval of its own. -/
def lastAlone : MultiShard (callFor 0) ℕ where
  multi := [⟨10, 0, (true, [7, 8])⟩, ⟨20, 1, (true, [9])⟩]
  edges := [⟨⟨10, 0, 7⟩, true, 0⟩, ⟨⟨10, 0, 8⟩, true, 1⟩, ⟨⟨20, 1, 9⟩, true, 0⟩]
  perm := List.Perm.refl _
  distinct := by decide
  recordable e he := by
    simp only [List.mem_cons, List.not_mem_nil, or_false] at he
    rcases he with rfl | rfl
    · exact ⟨by simp, by simp, by simp⟩
    · exact ⟨by simp, by simp, by simp⟩
  legal e he := by
    simp only [List.mem_cons, List.not_mem_nil, or_false] at he
    rcases he with rfl | rfl
    · exact ⟨by decide, by decide, ⟨1, by decide⟩, ⟨0, by decide⟩⟩
    · exact ⟨by decide, by decide, ⟨2, by decide⟩, ⟨0, by decide⟩⟩

/-- The last one is missed in its block, and booked on the block before. -/
theorem not_sizesRight_lastAlone :
    ¬∃ f, reshard (callFor 0) (fun _ => 0) (fun _ => blank) lastAlone.edges = some f
      ∧ SizesRight (callFor 0) f := by
  have hrun : (reshard (callFor 0) (fun _ => 0) (fun _ => blank) lastAlone.edges).map
      (fun f => (f.inSize 2 / 4,
        pairs (f.inBlock 2) fun x => decide ((callFor 0).intervals.Mem 2 x.1)))
      = some (0, 1) := by
    decide +kernel
  rintro ⟨f, hf, hright⟩
  have hsize := hright.inSize 2 (by decide)
  rw [hf, Option.map_some, Option.some_inj, Prod.mk.injEq] at hrun
  omega

end DynamicReshard
