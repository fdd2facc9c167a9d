import Mathlib
import DpdkGraph.DynamicRecords
import DpdkGraph.DynamicCounts

/-!
# Whole runs with several values

`Loop` is the invariant between two rounds, after the records of the edges
`done` and before those of `rest`: the loop is where the walk is, its
position is that of the next record, and the blocks have the vectors of the
edges taken. The second cursor has come to the source of the edge before the
last, so it is one edge behind.

A round fails for two reasons. The first edge is taken for a duplicate if it
goes from vertex 0 to the vertex that `lastdst` starts with (`Clash`), and
the assertion on a row fails as for the static builds. Else the loop comes to
the stopper, which books what is left without moving the second cursor.
-/

namespace DynamicReshard

open Reshard

variable {V W : Type}

/-- The source of the last edge; at the start, that of the walk. -/
def lastSrc (l : List (EdgeWithValue W)) : ℕ :=
  (l.getLast?.map EdgeWithValue.src).getD 0

/-- **The first edge is taken for a duplicate**: it goes from vertex 0 to the
last vertex id there is, the value before the loop of `lastdst`. -/
def Clash (L : List (EdgeWithValue W)) : Prop :=
  (∃ e ∈ L, e.src = 0) ∧ ∀ e ∈ L, e.src = 0 → e.dst = 0xffffffff

/-- **The loop between two rounds**: how its variables stand to the edges that
are done and to the walk of `reshard` on the edges alone, with which it goes in
step. -/
structure Loop (c : Params) (s : Shovel V) (done rest : List (MultiEdge V))
    (w : Walk (Bool × List V)) (st : State V) : Prop extends Between w st where
  /-- What is written has been counted. -/
  le : st.books.lastEdgeCount ≤ st.books.numUniqEdges
  bound : st.i ≤ s.numedges
  /-- The records jumped over are those of the last edge taken. -/
  here : rest ≠ [] → st.i + st.jumpover = offset done
  past : rest = [] → s.numedges ≤ st.i + st.jumpover
  start : st.istart ≤ st.i + st.jumpover
  /-- The edges that are pending are the ones from `istart` on. -/
  span : rest ≠ [] → ∀ P : ℕ → Prop,
    (∀ j, st.istart ≤ j → j < offset done → P (s.get j).dst) ↔ ∀ a ∈ w.pending, P a.dst
  /-- `lastdst` is the destination of the last edge. -/
  lastdst : st.lastdst = (done.getLast?.map EdgeWithValue.dst).getD 0xffffffff
  /-- Before the first edge no shard is being written. -/
  unset : done = [] → st.books.currentWritingShard = none
  /-- The second cursor is one edge behind. -/
  trail : done ≠ [] → ∃ k, st.books.currentWritingShard = some k
    ∧ c.intervals.Mem k (lastSrc done.dropLast)
  /-- The vectors of the in-edges, by the shard of their source. -/
  inBlock : ∀ k, k ≠ c.shard → (st.inBlock k).map EdgeWithValue.ends
    = (done.filter (toBlock c k)).map EdgeWithValue.ends
  /-- The vectors of the out-edges, by the shard of their destination. -/
  outBlock : ∀ k, (st.outBlock k).map EdgeWithValue.ends
    = (done.filter (toFile c k)).map EdgeWithValue.ends

theorem lastSrc_of_getLast? {l : List (EdgeWithValue W)} {a : EdgeWithValue W}
    (h : l.getLast? = some a) : lastSrc l = a.src := by
  unfold lastSrc
  rw [h]
  rfl

/-- The source before the last is not above it. -/
theorem lastSrc_dropLast_le {l : List (EdgeWithValue W)} {a : EdgeWithValue W}
    (hsorted : l.Pairwise fun a b => a.sortKey ≤ b.sortKey) (h : l.getLast? = some a) :
    lastSrc l.dropLast ≤ a.src := by
  rcases hdrop : l.dropLast.getLast? with _ | b
  · unfold lastSrc
    rw [hdrop]
    exact Nat.zero_le _
  · rw [lastSrc_of_getLast? hdrop]
    have hb : b ∈ l := List.dropLast_subset _ (List.mem_of_getLast? hdrop)
    exact EdgeWithValue.src_le_of_sortKey_le (le_getLast hsorted h hb)

/-- The walk is at the source of the last edge. -/
theorem curvid_eq_lastSrc {c : Params} {done : List (EdgeWithValue W)} {log : Log W}
    {w : Walk W} (hat : w.At c done log) : w.curvid = lastSrc done := by
  rcases hat.init_or_last with ⟨rfl, rfl, -⟩ | ⟨a, hlast, -, -, hcur, -⟩
  · rfl
  · rw [hcur, lastSrc_of_getLast? hlast]

namespace Loop

variable {c : Params} {s : Shovel V} {done rest : List (MultiEdge V)}
  {log : Log (Bool × List V)} {w w' : Walk (Bool × List V)} {st st' : State V}
  {e : MultiEdge V} {j k d fuel : ℕ}

/-- Before the first round. -/
theorem init (hlay : Layout s rest) :
    Loop c s [] rest (Walk.init c) (State.init c) where
  cursor _ := rfl
  sliding := rfl
  memory := rfl
  curvid := rfl
  willout := rfl
  index := rfl
  count := rfl
  le := le_rfl
  bound := Nat.zero_le _
  here _ := rfl
  past hnil := by
    unfold Shovel.numedges
    rw [hlay.edges, hnil]
    rfl
  start := le_rfl
  span _ P := by
    constructor
    · exact fun _ a ha => absurd ha List.not_mem_nil
    · exact fun _ j _ hj => absurd hj (Nat.not_lt_zero j)
  lastdst := rfl
  unset _ := rfl
  trail h := absurd rfl h
  inBlock _ _ := rfl
  outBlock _ := rfl

/-- The second cursor finds the shard of the last source. -/
theorem advance (h : Loop c s done (e :: rest) w st) (hat : w.At c done log)
    (hscan : Scan c (done ++ e :: rest)) :
    ∃ j, c.intervals.Mem j w.curvid
      ∧ c.intervals.advance st.books.currentWritingShard st.curvid = some j := by
  rw [h.curvid]
  rcases hat.init_or_last with ⟨rfl, rfl, -⟩ | ⟨a, hlast, -, ha, hcur, k, -, hmem⟩
  · obtain ⟨k, hk⟩ := hscan.here.src
    have hzero := IntervalPartition.mem_zero (lt_of_le_of_lt (Nat.zero_le _) hk.1)
    exact ⟨0, hzero, IntervalPartition.advance_eq_some hzero
      (by rw [h.unset rfl, Option.getD_none])⟩
  · rw [hcur]
    obtain ⟨k', hcws, hk'⟩ := h.trail (List.ne_nil_of_mem ha)
    refine ⟨k, hmem, IntervalPartition.advance_eq_some hmem ?_⟩
    rw [hcws]
    exact hk'.mono hmem (lastSrc_dropLast_le hscan.sorted_done hlast)

/-- **No later edge is taken for a duplicate.** The code compares the last
destination and the current vertex; in edges that are sorted and different both
agree with the edge at hand for none but the first. -/
theorem new (h : Loop c s done (e :: rest) w st) (hat : w.At c done log)
    (hscan : Scan c (done ++ e :: rest))
    (hstrict : (done ++ e :: rest).Pairwise fun a b => a.sortKey < b.sortKey)
    (hclash : ¬Clash (done ++ e :: rest)) : ¬(st.lastdst = e.dst ∧ e.src = st.curvid) := by
  rintro ⟨hdst, hsrc⟩
  rw [h.lastdst] at hdst
  rw [h.curvid] at hsrc
  rcases hat.init_or_last with ⟨rfl, rfl, -⟩ | ⟨a, hlast, -, ha, hcur, -⟩
  · refine hclash ⟨⟨e, by simp, hsrc⟩, fun b hb hzero => ?_⟩
    have hlt : b.dst < 2 ^ 32 := by
      obtain ⟨k, hk⟩ := (hscan.legal b hb).dst
      exact hk.lt
    rcases List.mem_cons.mp hb with rfl | hb
    · exact hdst.symm
    · have hle := EdgeWithValue.dst_le_of_sortKey_le (hscan.ge hb) (hsrc.trans hzero.symm)
      have hmax : (0xffffffff : ℕ) = e.dst := hdst
      omega
  · rw [hlast] at hdst
    have hlt := (List.pairwise_append.mp hstrict).2.2 a ha e List.mem_cons_self
    refine hlt.ne ?_
    unfold EdgeWithValue.sortKey
    rw [show a.src = e.src from (hsrc.trans hcur).symm, show a.dst = e.dst from hdst]

/-! ### A round -/

/-- The jump to the record of the next edge. -/
theorem jump (h : Loop c s done rest w st) : Between w st.jump :=
  { h.toBetween with }

/-- The pending edges are before that record. -/
theorem jump_span (h : Loop c s done (e :: rest) w st) (P : ℕ → Prop) :
    (∀ j, st.jump.istart ≤ j → j < st.jump.i → P (s.get j).dst)
      ↔ ∀ a ∈ w.pending, P a.dst := by
  have hi : st.jump.i = offset done := h.here (by simp)
  rw [hi]
  exact h.span (by simp) P

/-- A block that has got the vector of an edge. -/
theorem ends_update {f : ℕ → List (EdgeWithValue (List V))} {p : MultiEdge V → Bool}
    {x : EdgeWithValue (List V)} {t : ℕ}
    (h : (f k).map EdgeWithValue.ends = (done.filter p).map EdgeWithValue.ends)
    (hx : x.ends = e.ends) (hp : p e = decide (k = t)) :
    (Function.update f t (f t ++ [x]) k).map EdgeWithValue.ends
      = ((done ++ [e]).filter p).map EdgeWithValue.ends := by
  rw [List.filter_append, List.map_append, ← h, List.filter_singleton, hp]
  by_cases hk : k = t
  · rw [hk, Function.update_self, List.map_append]
    simp [hx]
  · rw [Function.update_of_ne hk]
    simp [hk]

/-- A block that has got none. -/
theorem ends_same {l : List (EdgeWithValue (List V))} {p : MultiEdge V → Bool}
    (h : l.map EdgeWithValue.ends = (done.filter p).map EdgeWithValue.ends)
    (hp : p e = false) :
    l.map EdgeWithValue.ends = ((done ++ [e]).filter p).map EdgeWithValue.ends := by
  rw [List.filter_append, List.filter_singleton, hp]
  simpa using h

/-- The vector of the edge goes with its endpoints. -/
theorem ends_vector (hlay : Layout s (done ++ e :: rest)) :
    (s.vector (offset done)).ends = e.ends := by
  have hget := hlay.get hlay.pos
  unfold Shovel.vector EdgeWithValue.ends
  rw [Nat.add_zero] at hget
  rw [hget]

/-- **What taking an edge leads to**: the loop is at the next edge, with the
records of this one in its block and its destination remembered. -/
theorem taken (h : Loop c s done (e :: rest) w st)
    (hlay : Layout s (done ++ e :: rest)) (hscan : Scan c (done ++ e :: rest))
    (hat : w.At c done log) (hk : c.intervals.Mem k e.src) (hd : c.intervals.Mem d e.dst)
    (hj : c.intervals.Mem j w.curvid) (hb : Between w' st')
    (ht : Taken c s k d j e w w' st.jump st') :
    Loop c s (done ++ [e]) rest w' { st' with i := st'.i + 1 } := by
  have hi : st.jump.i = offset done := h.here (by simp)
  have hpos := hlay.pos
  have hle := hlay.le_edgeValues
  have hoff := offset_append done e
  have hi' : st'.i = offset done := ht.i.trans hi
  have hjump : st'.jumpover = s.edgeValues (offset done) - 1 := by rw [ht.jumpover, hi]
  have hends := ends_vector hlay
  have hstart : st.istart ≤ offset done := (h.here (by simp)) ▸ h.start
  have hstart' : st'.istart ≤ offset done
      ∨ st'.istart = offset done + (s.edgeValues (offset done) - 1) := by
    rw [← hi]
    exact ht.istart.imp (fun heq => by rw [heq, hi]; exact hstart) id
  have hlast : (done ++ [e]).getLast? = some e := List.getLast?_concat
  refine
    { hb with
      le := ?_, bound := ?_, here := fun hrest => ?_, past := fun hrest => ?_, start := ?_
      span := fun hrest P => ?_, lastdst := ?_, unset := fun hnil => absurd hnil (by simp)
      trail := fun _ => ⟨j, ?_, ?_⟩, inBlock := fun k' hk' => ?_
      outBlock := fun k' => ?_ }
  · show st'.books.lastEdgeCount ≤ st'.books.numUniqEdges
    rw [ht.books]
    exact (lastEdgeCount_stepBooks (Nat.lt_succ_of_le h.le)).le
  · show st'.i + 1 ≤ s.numedges
    rw [hi']
    exact hlay.offset_lt
  · have hvalues := hlay.edgeValues_eq hrest
    show st'.i + 1 + st'.jumpover = offset (done ++ [e])
    omega
  · have hnum := hlay.numedges
    rw [hrest, List.flatMap_nil, List.length_nil] at hnum
    show s.numedges ≤ st'.i + 1 + st'.jumpover
    omega
  · show st'.istart ≤ st'.i + 1 + st'.jumpover
    omega
  · -- the records of the edge have its destination
    have hvalues := hlay.edgeValues_eq hrest
    obtain ⟨p, hpend, hspan⟩ := ht.span
    have hspan' := hspan P
    rw [hi] at hspan'
    have hown : ∀ j, offset done ≤ j → j < offset (done ++ [e]) → (s.get j).dst = e.dst := by
      intro j hge hlt
      obtain ⟨n, rfl⟩ := Nat.exists_eq_add_of_le hge
      rw [hlay.get (by omega)]
    show (∀ j, st'.istart ≤ j → j < offset (done ++ [e]) → P (s.get j).dst) ↔ _
    rw [hpend, List.forall_mem_append, ← hspan']
    constructor
    · intro hall
      refine ⟨fun j hge hlt => hall j hge (by omega), fun a ha => ?_⟩
      have hlastRec := hall (offset done + (e.value.2.length - 1)) (by omega) (by omega)
      rw [List.mem_singleton.mp ha]
      rwa [hown _ (by omega) (by omega)] at hlastRec
    · rintro ⟨hbefore, hself⟩ j hge hlt
      rcases Nat.lt_or_ge j (offset done) with hlt' | hge'
      · exact hbefore j hge hlt'
      · rw [hown j hge' hlt]
        exact hself e (List.mem_singleton_self e)
  · show st'.lastdst = _
    rw [hlast]
    exact ht.lastdst
  · show st'.books.currentWritingShard = some j
    rw [ht.books]
    exact currentWritingShard_stepBooks
  · rw [List.dropLast_concat, ← curvid_eq_lastSrc hat]
    exact hj
  · show (st'.inBlock k').map _ = _
    rw [ht.inBlock, hi]
    split
    · next hks =>
      refine ends_same (h.inBlock k' hk') (decide_eq_false fun hmem => ?_)
      exact hk' (hmem.1.unique (hks ▸ hk))
    · next hks =>
      refine ends_update (h.inBlock k' hk') hends (decide_eq_decide.mpr ?_)
      exact ⟨fun hmem => hmem.1.unique hk,
        fun heq => heq ▸ ⟨hk, hscan.here.dst_of_src hk hks⟩⟩
  · show (st'.outBlock k').map _ = _
    rw [ht.outBlock, hi]
    split
    · next hks =>
      refine ends_update (h.outBlock k') hends (decide_eq_decide.mpr ?_)
      exact ⟨fun hmem => hmem.2.unique hd, fun heq => heq ▸ ⟨hks ▸ hk, hd⟩⟩
    · next hks =>
      refine ends_same (h.outBlock k') (decide_eq_false fun hmem => ?_)
      exact hks (hk.unique hmem.1)

/-- **A round at an edge** is a step of the walk: both fail, or both go on, and
the counters change as `stepBooks` says. -/
theorem round (h : Loop c s done (e :: rest) w st)
    (hlay : Layout s (done ++ e :: rest)) (hscan : Scan c (done ++ e :: rest))
    (hstrict : (done ++ e :: rest).Pairwise fun a b => a.sortKey < b.sortKey)
    (hclash : ¬Clash (done ++ e :: rest)) (hat : w.At c done log)
    (hk : c.intervals.Mem k e.src) (hd : c.intervals.Mem d e.dst) :
    Both (fun st' w' => Loop c s (done ++ [e]) rest w' st' ∧ st.i < st'.i
        ∧ ∃ j, c.intervals.Mem j w.curvid
          ∧ st'.books = stepBooks c k d e.src w (st.books.counted j))
      (st.round c s) (w.step c e) := by
  obtain ⟨j, hj, hadv'⟩ := h.advance hat hscan
  have hi : st.jump.i = offset done := h.here (by simp)
  have hsrc : (s.get st.jump.i).src = e.src := by
    rw [hi, ← Nat.add_zero (offset done), hlay.get hlay.pos]
  have hdst : (s.get st.jump.i).dst = e.dst := by
    rw [hi, ← Nat.add_zero (offset done), hlay.get hlay.pos]
  have hboth := take_both (s := s) h.jump h.le h.jump_span hscan.here.stopper
    (h.new hat hscan hstrict hclash) (hat.advance hscan hk) hadv'
    (IntervalPartition.shardOf_eq_some hd)
  unfold State.round
  rw [if_pos (by rw [hi]; exact hlay.offset_lt), hsrc, hdst]
  refine hboth.map_left fun st' w' hst' => ?_
  have htaken := hst'.2
  refine ⟨h.taken hlay hscan hat hk hd hj hst'.1 htaken, ?_, j, hj, htaken.books⟩
  show st.i < st'.i + 1
  rw [htaken.i]
  show st.i < st.i + st.jumpover + 1
  omega

end Loop

/-! ## The end of the loop -/

/-- **What the stopper leaves**: the blocks, and what was not written booked
on the current file. -/
structure Stopped (c : Params) (st st' : State V) : Prop where
  inBlock : st'.inBlock = st.inBlock
  outBlock : st'.outBlock = st.outBlock
  /-- The row at the end has been counted. -/
  books : st'.books = st.books.book c st.currentMemoryShard
    (st.books.numUniqEdges - st.books.lastEdgeCount)

section Run

variable {c : Params} {s : Shovel V} {done rest : List (MultiEdge V)}
  {log : Log (Bool × List V)} {w w' : Walk (Bool × List V)} {st st' : State V}
  {e : MultiEdge V} {k fuel : ℕ}

theorem stopped_stop (st : State V) (d : ℕ) :
    Stopped c st (State.stop c s { st with lastdst := d }) := by
  unfold State.stop
  split
  · exact ⟨rfl, rfl, rfl⟩
  · next hnone =>
    refine ⟨rfl, rfl, ?_⟩
    have hzero : st.books.numUniqEdges - st.books.lastEdgeCount = 0 :=
      Nat.eq_zero_of_not_pos hnone
    rw [hzero, Books.book_zero]

theorem i_stop (st : State V) : (st.stop c s).i = st.i := by
  unfold State.stop
  split <;> rfl

/-- **The round of the stopper.** It is not taken for a duplicate. -/
theorem Loop.stop (h : Loop c s done [] w st) (hat : w.At c done log)
    (hlegal : ∀ a ∈ done, Legal c a) :
    ∃ st', st.round c s = some st' ∧ s.numedges < st'.i ∧ Stopped c st st' := by
  have hpast : s.numedges ≤ st.jump.i := h.past rfl
  have hdup : ¬(st.jump.lastdst = 0 ∧ 0 = st.jump.curvid) := by
    rintro ⟨hdst, hsrc⟩
    have hdst' : st.lastdst = 0 := hdst
    have hsrc' : w.curvid = 0 := h.curvid.symm.trans hsrc.symm
    rw [h.lastdst] at hdst'
    rcases hat.init_or_last with ⟨rfl, -, -⟩ | ⟨a, hlast, -, ha, hcur, -⟩
    · exact absurd hdst' (by simp)
    · rw [hlast] at hdst'
      exact (hlegal a ha).noloop ((hcur.symm.trans hsrc').trans hdst'.symm)
  unfold State.round State.take
  rw [if_neg (not_lt.mpr hpast), if_neg hdup, if_pos ⟨rfl, rfl⟩, Option.map_some]
  have hstop := stopped_stop (c := c) (s := s) st.jump 0
  refine ⟨_, rfl, ?_, hstop.inBlock, hstop.outBlock, hstop.books⟩
  show s.numedges < (State.stop c s { st.jump with lastdst := 0 }).i + 1
  rw [i_stop]
  exact Nat.lt_succ_of_le hpast

/-- A loop that is past the stopper has ended. -/
theorem State.run_of_lt (h : s.numedges < st.i) (fuel : ℕ) : st.run c s fuel = some st := by
  cases fuel with
  | zero => rw [State.run, if_neg (not_le.mpr h)]
  | succ fuel => rw [State.run, if_neg (not_le.mpr h)]

/-- Two cases of the counters' standing: only the edges from vertex 0 make a
step fail. -/
theorem Standing.zeroHead_of_none {b : Books} (hat : w.At c done log)
    (hscan : Scan c (done ++ e :: rest)) (h : Standing c done (e :: rest) log w b)
    (hstep : w.step c e = none) :
    c.intervals.Mem c.shard e.src ∧ ZeroHead c (done ++ [e]) := by
  cases h with
  | good hmode _ =>
    rcases (mode_of_good hmode).step hat hscan with ⟨w', log', hstep', -⟩ | ⟨-, hk, hz, -⟩
    · rw [hstep'] at hstep
      exact absurd hstep (by simp)
    · exact ⟨hk, hz⟩
  | off beyond _ _ =>
    obtain ⟨k, hk⟩ := hscan.here.src
    have hlt := (beyond.next hat hscan hk).1
    rw [Walk.step_of_ne hscan.here.stopper (hat.advance hscan hk) hlt.ne'] at hstep
    exact absurd hstep (by simp)

/-- Counting an edge changes no number of a file. -/
theorem Standing.counted {b : Books} (h : Standing c done rest log w b) (j : ℕ) :
    Standing c done rest log w (b.counted j) := by
  cases h with
  | good hmode hcounted => exact .good hmode (hcounted.congr rfl rfl)
  | off beyond hcond hwrong => exact .off beyond hcond hwrong

/-- **Every run** comes to the stopper, or fails on the edges from vertex 0. The
induction is on the edges that are left; a round takes one of them, with all its
records, in the loop and in the walk. -/
theorem Loop.run (h : Loop c s done rest w st) (hlay : Layout s (done ++ rest))
    (hscan : Scan c (done ++ rest))
    (hstrict : (done ++ rest).Pairwise fun a b => a.sortKey < b.sortKey)
    (hclash : ¬Clash (done ++ rest)) (hat : w.At c done log)
    (hstand : Standing c done rest log w st.books) (hfuel : s.numedges < st.i + fuel) :
    (∃ (w' : Walk (Bool × List V)) (log' : Log (Bool × List V)) (st₁ st' : State V),
        st.run c s fuel = some st' ∧ w'.At c (done ++ rest) log'
          ∧ Loop c s (done ++ rest) [] w' st₁
          ∧ Standing c (done ++ rest) [] log' w' st₁.books ∧ Stopped c st₁ st')
      ∨ st.run c s fuel = none ∧ ZeroHead c (done ++ rest) := by
  have hbound := h.bound
  induction rest generalizing done log w st fuel with
  | nil =>
    obtain ⟨n, rfl⟩ : ∃ n, fuel = n + 1 := ⟨fuel - 1, by omega⟩
    obtain ⟨st', hround, hlt, hstop⟩ := h.stop hat fun a ha => hscan.legal a (by simpa using ha)
    refine Or.inl ⟨w, log, st, st', ?_, ?_, ?_, ?_, hstop⟩
    · rw [State.run, if_pos hbound, hround, Option.bind_some, State.run_of_lt hlt]
    · rwa [List.append_nil]
    · rwa [List.append_nil]
    · rwa [List.append_nil]
  | cons e rest ih =>
    obtain ⟨n, rfl⟩ : ∃ n, fuel = n + 1 := ⟨fuel - 1, by omega⟩
    obtain ⟨k, hk⟩ := hscan.here.src
    obtain ⟨d, hd⟩ := hscan.here.dst
    have happend : done ++ e :: rest = (done ++ [e]) ++ rest := by simp
    rw [State.run, if_pos hbound]
    -- one round of the loop is one step of the walk, with the edges of a shard
    -- counted as they pass
    rcases h.round hlay hscan hstrict hclash hat hk hd with
      ⟨hround, hstep⟩ | ⟨st', w', hround, hstep, hloop, hlt, j, hj, hbooks⟩
    · -- both fail, which only the edges from vertex 0 bring about
      obtain ⟨hout, hzero⟩ := hstand.zeroHead_of_none hat hscan hstep
      rw [hround, Option.bind_none]
      exact Or.inr ⟨rfl, hzero.extend hscan hout⟩
    · have hcount : (st.books.counted j).count = w.pending.length := by
        rw [← h.count]
        show st.books.numUniqEdges + 1 - 1 - st.books.lastEdgeCount = _
        rw [Nat.add_sub_cancel]
      obtain ⟨log', hat', hstand'⟩ :=
        (hstand.counted j).step hat hscan hcount rfl hj hk hd hstep
      rw [← hbooks] at hstand'
      rw [hround, Option.bind_some, happend]
      rw [happend] at hlay hscan hstrict hclash
      exact ih hloop hlay hscan hstrict hclash hat' hstand' (by omega) hloop.bound

/-- A run from the start. -/
theorem run_init (hlay : Layout s rest) (hscan : Scan c rest)
    (hstrict : rest.Pairwise fun a b => a.sortKey < b.sortKey) (hclash : ¬Clash rest)
    (hfuel : s.numedges < fuel) :
    (∃ (w : Walk (Bool × List V)) (log : Log (Bool × List V)) (st st' : State V),
        (State.init c).run c s fuel = some st' ∧ w.At c rest log
          ∧ Loop c s rest [] w st ∧ Standing c rest [] log w st.books ∧ Stopped c st st')
      ∨ (State.init c).run c s fuel = none ∧ ZeroHead c rest := by
  have hstand : Standing c [] rest [] (Walk.init c) (State.init c : State V).books :=
    .good (Or.inl (.init hscan)) .init
  have hfuel' : s.numedges < (State.init c : State V).i + fuel := by
    rw [show (State.init c : State V).i = 0 from rfl, Nat.zero_add]
    exact hfuel
  have hlay' : Layout s ([] ++ rest) := hlay
  have hscan' : Scan c ([] ++ rest) := hscan
  exact (Loop.init hlay).run hlay' hscan' hstrict hclash .init hstand hfuel'

/-- **An edge that is taken for a duplicate** ends the run: it is the first one,
and the loop does not get past its round. -/
theorem run_clash (hlay : Layout s rest)
    (hstrict : rest.Pairwise fun a b => a.sortKey < b.sortKey)
    (hlegal : ∀ a ∈ rest, Legal c a) (hclash : Clash rest) (fuel : ℕ) :
    (State.init c).run c s (fuel + 1) = none := by
  obtain ⟨⟨a, ha, hzero⟩, hall⟩ := hclash
  obtain ⟨e, more, rfl⟩ := List.exists_cons_of_ne_nil (List.ne_nil_of_mem ha)
  have hsrc : e.src = 0 := by
    rcases List.mem_cons.mp ha with rfl | ha
    · exact hzero
    · have hle := EdgeWithValue.src_le_of_sortKey_le
        ((List.pairwise_cons.mp hstrict).1 a ha).le
      omega
  have hdst := hall e List.mem_cons_self hsrc
  have hlay' : Layout s ([] ++ e :: more) := hlay
  have hget : s.get (State.init c : State V).jump.i = _ := hlay'.get hlay'.pos
  have hlt : (State.init c : State V).jump.i < s.numedges := hlay'.offset_lt
  have htake : (State.init c : State V).jump.take c s e.src e.dst = none := by
    unfold State.take
    exact if_pos ⟨hdst.symm, hsrc⟩
  have hround : (State.init c : State V).round c s = none := by
    unfold State.round
    rw [if_pos hlt, hget]
    rw [htake]
    rfl
  rw [State.run, if_pos (show (State.init c : State V).i ≤ s.numedges from Nat.zero_le _),
    hround, Option.bind_none]

end Run

end DynamicReshard
