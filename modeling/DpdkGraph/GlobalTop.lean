import DpdkGraph.Intervals
import DpdkGraph.TopVertices

/-!
# The global top list

When the iterations are over, each worker sends the list of its largest
values to the master as `ntop` raw structs, and the master prints `ntop`
times the largest of the values at the front of the workers' queues.

The list is right as long as it comes from the first worker alone: the ids
in the lists are the workers' own numbers, which are those of the graph
only where the interval starts at 0; the search for the largest front
starts at the value 0, so that the first worker is taken where no front is
above it; and behind the values of a worker with fewer than `ntop` vertices
comes whatever the memory holds. So the master prints the right list if the
first worker has `ntop` of the largest values (`lawful_of_onFirstWorker`),
and only then, unless a vertex of another worker has the same value as the
vertex of the graph that its own number stands for (`lawful_iff`).
-/

namespace TopVertices

/-- What the vertex values are, `vt` in the messages. -/
inductive ValueType where
  /-- `0`: floats. -/
  | float
  /-- `1`: integers. -/
  | int
deriving Repr, DecidableEq

/-- A line that the master prints: a vertex, unless it is left out, and its
value. -/
structure Line (V : Type) where
  /-- The vertex. -/
  vid : Option ℕ
  /-- The value. -/
  value : V
deriving Repr, DecidableEq

/-- **A finished run**: the workers' intervals, the values of the vertices,
and how the list is asked for. -/
structure Job (V : Type) where
  /-- The intervals of the workers. -/
  part : IntervalPartition
  /-- `M`, the number of workers, is not zero. -/
  workers_pos : 0 < part.nshards
  /-- The value of a vertex. -/
  value : ℕ → V
  /-- `ntop`. -/
  ntop : ℕ
  /-- The type of the values. -/
  vt : ValueType
  /-- What the vertex file under `base_filename` holds; it is the one read
  where the values are integers. -/
  baseFile : ℕ → V
  /-- The option `reorder`. -/
  reorder : Bool
  /-- The `.map` file: the original id of a vertex. -/
  oldvid : ℕ → ℕ
  /-- How many whole records `recv` returns of the message of a worker. -/
  received : ℕ → ℕ
  /-- It returns one at least. -/
  received_pos : ∀ p, 0 < received p

/-- What memory holds that is not written, and the random numbers. -/
structure Memory (V : Type) where
  /-- The message buffer of a worker, by records. -/
  worker : ℕ → ℕ → VertexValue V
  /-- The receive buffer of the master for a worker. -/
  master : ℕ → ℕ → VertexValue V
  /-- `rand()` of a worker. -/
  rand : ℕ → ℕ → ℕ

/-- The worker whose front is the largest: the search starts with worker
`0` and the value `0`. -/
def pick {V : Type} [LinearOrder V] [Zero V] (M : ℕ) (fronts : ℕ → V) : ℕ :=
  ((List.range M).foldl (fun best p => if best.2 < fronts p then (p, fronts p) else best)
    (0, 0)).1

/-- The records that the master takes, `n` of them; `heads` is how many of
each queue it has popped. -/
def mergeTops {V : Type} [LinearOrder V] [Zero V] (entry : ℕ → ℕ → VertexValue V)
    (M : ℕ) : ℕ → (ℕ → ℕ) → List (VertexValue V)
  | 0, _ => []
  | n + 1, heads =>
    entry (pick M fun p => (entry p (heads p)).value)
        (heads (pick M fun p => (entry p (heads p)).value)) ::
      mergeTops entry M n
        (Function.update heads (pick M fun p => (entry p (heads p)).value)
          (heads (pick M fun p => (entry p (heads p)).value) + 1))

namespace Job

variable {V : Type} (x : Job V)

/-- The vertices of a worker. -/
def vertices (p : ℕ) : List ℕ :=
  List.range' (x.part.first p) (x.part.second p + 1 - x.part.first p)

/-- The vertex file that a worker reads its list from. -/
def file (p : ℕ) : List V :=
  (x.vertices p).map fun v =>
    match x.vt with
    | .float => x.value v
    | .int => x.baseFile v

/-- All vertices of all workers with their values. -/
def all : List (VertexValue V) :=
  (List.range x.part.nshards).flatMap fun p =>
    (x.vertices p).map fun v => ⟨v, x.value v⟩

/-- What is printed for a record: with `reorder` a line with the original
id; and then a line that has the id where the values are floats. -/
def print (r : VertexValue V) : List (Line V) :=
  (if x.reorder then [⟨some (x.oldvid r.vertex), r.value⟩] else []) ++
    [⟨match x.vt with
      | .float => some r.vertex
      | .int => none, r.value⟩]

/-- The line of a vertex as it is meant. -/
def line (r : VertexValue V) : Line V :=
  ⟨some (if x.reorder then x.oldvid r.vertex else r.vertex), r.value⟩

variable [LinearOrder V] [Zero V]

/-- The list of a worker. -/
def tops (mem : Memory V) (p : ℕ) : Option (List (VertexValue V)) :=
  getTopVertices (mem.rand p) x.ntop (x.file p)

/-- The record `j` in the queue of worker `p`: behind the list of the
worker, what its message buffer held; behind what has been received, what
the receive buffer held. -/
def entry (mem : Memory V) (p j : ℕ) : VertexValue V :=
  if j < x.received p then ((x.tops mem p).getD []).getD j (mem.worker p j)
  else mem.master p j

/-- **What the master prints**, once each worker has made its list. There
are 50 queues. -/
def run (mem : Memory V) : Option (List (Line V)) :=
  if ((List.range x.part.nshards).all fun p => (x.tops mem p).isSome) = true
      ∧ (x.part.nshards ≤ 50 ∨ x.ntop = 0) then
    some ((mergeTops (x.entry mem) x.part.nshards x.ntop fun _ => 0).flatMap x.print)
  else none

/-- **The list is right**: it has the `ntop` largest values of all vertices
with their vertices, the largest first. -/
def TopLaw (lines : List (Line V)) : Prop :=
  ∃ l, TopOf VertexValue.value x.ntop l x.all ∧ lines = l.map x.line

/-- The list is right whatever the memory holds. -/
def Lawful : Prop := ∀ mem, ∃ lines, x.run mem = some lines ∧ x.TopLaw lines

/-- **The first worker has the largest values**: all `ntop` of them, of
which each vertex of another worker is no larger. -/
structure FromFirst : Prop where
  /-- There are queues for the workers. -/
  queues : x.part.nshards ≤ 50
  /-- The values are floats. -/
  float : x.vt = .float
  /-- The ids are printed as they are. -/
  plain : x.reorder = false
  /-- The records of the first worker are received. -/
  received : x.ntop ≤ x.received 0
  /-- The first worker has as many vertices. -/
  enough : x.ntop ≤ (x.vertices 0).length
  /-- The vertices of the others are no larger. -/
  largest : ∀ p, 0 < p → p < x.part.nshards → ∀ v ∈ x.vertices p,
    x.ntop ≤ (x.vertices 0).countP fun u => decide (x.value v ≤ x.value u)

/-- Each worker can make its list, and if one is asked for it comes from
the first. -/
def OnFirstWorker : Prop :=
  (∀ p < x.part.nshards, Listable x.ntop (x.vertices p).length)
    ∧ (x.ntop = 0 ∨ x.FromFirst)

/-- No vertex of another worker has the same value as the vertex of the
graph that has its number there. -/
def NoMirror : Prop :=
  ∀ p, 0 < p → p < x.part.nshards → ∀ v ∈ x.vertices p,
    x.value (v - x.part.first p) ≠ x.value v

end Job

/-! ## The merge of the master -/

section Merge

variable {V : Type} [LinearOrder V] [Zero V] {M : ℕ}

theorem pick_lt (hM : 0 < M) (fronts : ℕ → V) : pick M fronts < M := by
  have hfold : ∀ (l : List ℕ) (best : ℕ × V), best.1 < M → (∀ p ∈ l, p < M) →
      (l.foldl (fun best p => if best.2 < fronts p then (p, fronts p) else best) best).1
        < M := by
    intro l
    induction l with
    | nil => exact fun best hbest _ => hbest
    | cons p l ih =>
      intro best hbest hl
      obtain ⟨hp, hl⟩ := List.forall_mem_cons.mp hl
      refine ih _ ?_ hl
      show (if best.2 < fronts p then (p, fronts p) else best).1 < M
      split
      · exact hp
      · exact hbest
  exact hfold _ _ hM fun p hp => List.mem_range.mp hp

/-- **The first worker is taken** when no front is above its own: the search
begins with it, and another one must be larger. -/
theorem pick_eq_zero {fronts : ℕ → V} (h : ∀ p < M, fronts p ≤ fronts 0) :
    pick M fronts = 0 := by
  have hfold : ∀ (l : List ℕ) (best : ℕ × V), best.1 = 0 →
      (best.2 = fronts 0 ∨ fronts 0 ≤ best.2) → (∀ p ∈ l, p < M) → 0 ∉ l →
      (l.foldl (fun best p => if best.2 < fronts p then (p, fronts p) else best) best).1
        = 0 := by
    intro l
    induction l with
    | nil => exact fun best hbest _ _ _ => hbest
    | cons p l ih =>
      intro best hbest hle hl h0
      obtain ⟨hp, hl⟩ := List.forall_mem_cons.mp hl
      rw [List.foldl_cons, if_neg (not_lt.mpr ((h p hp).trans (hle.elim Eq.ge id)))]
      exact ih best hbest hle hl fun hmem => h0 (List.mem_cons_of_mem _ hmem)
  unfold pick
  cases M with
  | zero => rfl
  | succ M =>
    rw [List.range_eq_range', List.range'_succ, List.foldl_cons]
    refine hfold _ _ ?_ ?_ (fun p hp => ?_) ?_
    · split <;> rfl
    · split
      · exact Or.inl rfl
      · next hle => exact Or.inr (not_lt.mp hle)
    · have := (List.mem_range'_1.mp hp).2
      omega
    · intro hmem
      have := (List.mem_range'_1.mp hmem).1
      omega

variable {entry : ℕ → ℕ → VertexValue V}

/-- **The records of the first worker are taken**, when those at the front
of the others are not above them. -/
theorem mergeTops_of_le {n : ℕ} {heads : ℕ → ℕ}
    (h : ∀ t < n, ∀ p < M, p ≠ 0 →
      (entry p (heads p)).value ≤ (entry 0 (heads 0 + t)).value) :
    mergeTops entry M n heads = (List.range' (heads 0) n).map (entry 0) := by
  induction n generalizing heads with
  | zero => rfl
  | succ n ih =>
    have hpick : (pick M fun p => (entry p (heads p)).value) = 0 := by
      refine pick_eq_zero fun p hp => ?_
      by_cases hp0 : p = 0
      · rw [hp0]
      · exact h 0 (Nat.succ_pos n) p hp hp0
    unfold mergeTops
    rw [hpick, List.range'_succ, List.map_cons, ih]
    · rw [Function.update_self]
    · intro t ht p hp hp0
      rw [Function.update_of_ne hp0, Function.update_self, Nat.add_right_comm]
      exact h (t + 1) (Nat.succ_lt_succ ht) p hp hp0

/-- If no record of another worker may be taken, those of the first are. -/
theorem mergeTops_of_good (hM : 0 < M) {Good : VertexValue V → Prop} {n : ℕ}
    {heads : ℕ → ℕ} (hother : ∀ p < M, p ≠ 0 → ∀ j, ¬Good (entry p j))
    (h : ∀ r ∈ mergeTops entry M n heads, Good r) :
    mergeTops entry M n heads = (List.range' (heads 0) n).map (entry 0) := by
  induction n generalizing heads with
  | zero => rfl
  | succ n ih =>
    unfold mergeTops at h ⊢
    obtain ⟨hfirst, hrest⟩ := List.forall_mem_cons.mp h
    have hpick : (pick M fun p => (entry p (heads p)).value) = 0 := by
      by_contra hne
      exact hother _ (pick_lt hM _) hne _ hfirst
    rw [hpick] at hrest ⊢
    rw [List.range'_succ, List.map_cons, ih hrest, Function.update_self]

theorem length_mergeTops (entry : ℕ → ℕ → VertexValue V) (M n : ℕ) (heads : ℕ → ℕ) :
    (mergeTops entry M n heads).length = n := by
  induction n generalizing heads with
  | zero => rfl
  | succ n ih =>
    unfold mergeTops
    rw [List.length_cons, ih]

end Merge

/-! ## The lists of the workers -/

namespace Job

variable {V : Type} {x : Job V}

@[simp] theorem length_file (p : ℕ) : (x.file p).length = (x.vertices p).length :=
  List.length_map _

/-- The entries of a worker have its own numbers. -/
theorem entries_file (hvt : x.vt = .float) (p : ℕ) :
    entries 0 (x.file p)
      = (x.vertices p).map fun v => ⟨v - x.part.first p, x.value v⟩ := by
  have hfile : x.file p = (x.vertices p).map x.value := by
    unfold Job.file
    rw [hvt]
  rw [hfile]
  unfold entries Job.vertices
  refine List.ext_getElem ?_ fun i h₁ h₂ => ?_
  · rw [List.length_map, List.length_zipIdx, List.length_map, List.length_map]
  rw [List.getElem_map, List.getElem_map, List.getElem_zipIdx, List.getElem_map,
    List.getElem_range', Nat.one_mul, Nat.zero_add, Nat.add_sub_cancel_left]

/-- Those of the first worker are those of the graph. -/
theorem entries_file_zero (hvt : x.vt = .float) :
    entries 0 (x.file 0) = (x.vertices 0).map fun v => ⟨v, x.value v⟩ := by
  rw [entries_file hvt, IntervalPartition.first_zero]
  rfl

/-- All vertices, those of the first worker first. -/
theorem all_eq (x : Job V) : x.all
    = ((x.vertices 0).map fun v => ⟨v, x.value v⟩)
      ++ (List.range' 1 (x.part.nshards - 1)).flatMap fun p =>
        (x.vertices p).map fun v => ⟨v, x.value v⟩ := by
  obtain ⟨n, hn⟩ : ∃ n, x.part.nshards = n + 1 :=
    ⟨x.part.nshards - 1, by have := x.workers_pos; omega⟩
  unfold Job.all
  rw [hn, List.range_eq_range', List.range'_succ, List.flatMap_cons,
    Nat.add_sub_cancel]

/-- A vertex is listed with its value. -/
theorem value_of_mem_all {r : VertexValue V} (h : r ∈ x.all) :
    r.value = x.value r.vertex ∧ r.vertex < 2 ^ 32 := by
  obtain ⟨p, hp, h⟩ := List.mem_flatMap.mp h
  obtain ⟨v, hv, rfl⟩ := List.mem_map.mp h
  refine ⟨rfl, ?_⟩
  have hv := (List.mem_range'_1.mp hv).2
  have := IntervalPartition.second_lt (List.mem_range.mp hp)
  have := IntervalPartition.first_le (List.mem_range.mp hp)
  show v < 2 ^ 32
  omega

variable [LinearOrder V] [Zero V]

/-- The list of a worker that can make one. -/
theorem tops_spec (mem : Memory V) {p : ℕ}
    (h : Listable x.ntop (x.vertices p).length) :
    ∃ l, x.tops mem p = some l
      ∧ TopOf VertexValue.value x.ntop l (entries 0 (x.file p)) :=
  getTopVertices_spec (mem.rand p) (by rw [length_file]; exact h)

/-- The queue of the first worker, when all of it is received. -/
theorem map_entry_zero (mem : Memory V) {l : List (VertexValue V)}
    (hl : x.tops mem 0 = some l) (hlength : l.length = x.ntop)
    (hreceived : x.ntop ≤ x.received 0) :
    (List.range' 0 x.ntop).map (x.entry mem 0) = l := by
  refine List.ext_getElem (by rw [List.length_map, List.length_range', hlength])
    fun i h₁ h₂ => ?_
  rw [List.getElem_map, List.getElem_range', Nat.zero_add, Nat.one_mul]
  unfold Job.entry
  rw [if_pos (lt_of_lt_of_le h₂ (hlength.trans_le hreceived)), hl, Option.getD_some,
    List.getD_eq_getElem _ _ h₂]

/-- A record in the queue of another worker is one of its own, or memory. -/
theorem entry_cases (mem : Memory V) {p j : ℕ}
    (h : Listable x.ntop (x.vertices p).length) (hvt : x.vt = .float) :
    (∃ v ∈ x.vertices p, x.entry mem p j = ⟨v - x.part.first p, x.value v⟩
        ∧ j < x.received p ∧ j < min x.ntop (x.vertices p).length)
      ∨ x.entry mem p j = mem.worker p j ∨ x.entry mem p j = mem.master p j := by
  obtain ⟨l, hl, htop⟩ := tops_spec mem h
  unfold Job.entry
  split
  · next hj =>
    rw [hl, Option.getD_some]
    by_cases hlength : j < l.length
    · rw [List.getD_eq_getElem _ _ hlength]
      have hmem := htop.subset (List.getElem_mem hlength)
      rw [entries_file hvt] at hmem
      obtain ⟨v, hv, heq⟩ := List.mem_map.mp hmem
      rw [htop.length, length_entries, length_file] at hlength
      exact Or.inl ⟨v, hv, heq.symm, hj, hlength⟩
    · exact Or.inr (Or.inl (List.getD_eq_default _ _ (Nat.not_lt.mp hlength)))
  · exact Or.inr (Or.inr rfl)

omit [LinearOrder V] [Zero V] in
/-- Where ids are printed as they are, a record is printed as it is
meant. -/
theorem print_eq (hvt : x.vt = .float) (hplain : x.reorder = false)
    (l : List (VertexValue V)) : l.flatMap x.print = l.map x.line := by
  have hone : ∀ r : VertexValue V, x.print r = [x.line r] := by
    intro r
    unfold Job.print Job.line
    rw [hvt, hplain]
    rfl
  induction l with
  | nil => rfl
  | cons r l ih => rw [List.flatMap_cons, hone, ih, List.map_cons, List.singleton_append]

omit [Zero V] in
/-- Lists of the first worker are right, when no other vertex is larger. -/
theorem FromFirst.topOf (h : x.FromFirst) {l : List (VertexValue V)}
    (htop : TopOf VertexValue.value x.ntop l (entries 0 (x.file 0))) :
    TopOf VertexValue.value x.ntop l x.all := by
  rw [entries_file_zero h.float] at htop
  rw [all_eq]
  refine htop.append fun c hc => ?_
  obtain ⟨p, hp, hc⟩ := List.mem_flatMap.mp hc
  obtain ⟨v, hv, rfl⟩ := List.mem_map.mp hc
  obtain ⟨hp1, hpM⟩ := List.mem_range'_1.mp hp
  rw [List.countP_map]
  exact h.largest p (by omega) (by omega) v hv

/-- **The list is right if it comes from the first worker**: its fronts stay the
largest for as many rounds as there are, and its numbers need no offset. -/
theorem lawful_of_onFirstWorker (h : x.OnFirstWorker) : x.Lawful := by
  intro mem
  obtain ⟨hready, hfirst⟩ := h
  have hall : ((List.range x.part.nshards).all fun p => (x.tops mem p).isSome) = true := by
    rw [List.all_eq_true]
    intro p hp
    obtain ⟨l, hl, -⟩ := tops_spec mem (hready p (List.mem_range.mp hp))
    rw [hl]
    rfl
  have hqueues : x.part.nshards ≤ 50 ∨ x.ntop = 0 :=
    hfirst.elim Or.inr fun hf => Or.inl hf.queues
  refine ⟨_, if_pos ⟨hall, hqueues⟩, ?_⟩
  by_cases hntop : x.ntop = 0
  · refine ⟨[], ⟨⟨x.all, List.Perm.refl _, fun a ha => absurd ha List.not_mem_nil⟩, ?_,
      List.Pairwise.nil⟩, ?_⟩
    · rw [hntop, Nat.zero_min]
      rfl
    · rw [hntop]
      rfl
  · have hf := hfirst.resolve_left hntop
    obtain ⟨l, hl, htop⟩ := tops_spec mem (hready 0 x.workers_pos)
    have hlength : l.length = x.ntop := by
      rw [htop.length, length_entries, length_file, min_eq_left hf.enough]
    have hmap := map_entry_zero mem hl hlength hf.received
    -- no front is above those of the first worker
    have hle : ∀ t < x.ntop, ∀ p < x.part.nshards, p ≠ 0 →
        (x.entry mem p 0).value ≤ (x.entry mem 0 (0 + t)).value := by
      intro t ht p hp hp0
      obtain ⟨lp, hlp, htopp⟩ := tops_spec mem (hready p hp)
      have hpos : 0 < lp.length := by
        rw [htopp.length, length_entries, length_file]
        exact lt_min (Nat.pos_of_ne_zero hntop) (hready p hp).pos
      have hentry : x.entry mem p 0 = lp[0] := by
        unfold Job.entry
        rw [if_pos (x.received_pos p), hlp, Option.getD_some, List.getD_eq_getElem _ _ hpos]
      have hmem := htopp.subset (List.getElem_mem hpos)
      rw [entries_file hf.float] at hmem
      obtain ⟨v, hv, heq⟩ := List.mem_map.mp hmem
      have hcount := hf.largest p (Nat.pos_of_ne_zero hp0) hp v hv
      rw [hentry, ← heq]
      refine htop.le (m := x.value v) ?_ _ ?_
      · rw [entries_file_zero hf.float, List.countP_map]
        exact hcount
      · rw [← hmap]
        exact List.mem_map_of_mem (List.mem_range'_1.mpr ⟨Nat.zero_le _, by omega⟩)
    refine ⟨l, hf.topOf htop, ?_⟩
    rw [mergeTops_of_le hle, hmap, print_eq hf.float hf.plain]

/-- Memory whose records are for no vertex. -/
def noVertex (V : Type) [Zero V] : Memory V where
  worker := fun _ _ => ⟨2 ^ 32, 0⟩
  master := fun _ _ => ⟨2 ^ 32, 0⟩
  rand := fun _ _ => 0

omit [LinearOrder V] [Zero V] in
/-- Lines for one list of vertices are for no other. -/
theorem line_injective (hplain : x.reorder = false) : Function.Injective x.line := by
  intro r r' h
  unfold Job.line at h
  rw [hplain, Line.mk.injEq, if_neg Bool.false_ne_true, if_neg Bool.false_ne_true,
    Option.some.injEq] at h
  obtain ⟨v, a⟩ := r
  obtain ⟨v', a'⟩ := r'
  rw [VertexValue.mk.injEq]
  exact h

omit [LinearOrder V] [Zero V] in
/-- Two lines for each record are too many. -/
theorem reorder_eq_false {records l : List (VertexValue V)} (hne : records ≠ [])
    (hlen : l.length ≤ records.length)
    (h : records.flatMap x.print = l.map x.line) : x.reorder = false := by
  by_contra hreorder
  have htwo : ∀ r ∈ records, (x.print r).length = 2 := by
    intro r _
    unfold Job.print
    rw [if_pos (Bool.not_eq_false _ ▸ hreorder)]
    rfl
  have hlength := congrArg List.length h
  rw [List.length_flatMap, List.map_congr_left htwo, List.map_const', List.sum_replicate,
    List.length_map, smul_eq_mul] at hlength
  have hpos := List.length_pos_iff.mpr hne
  omega

omit [LinearOrder V] [Zero V] in
/-- An integer's line says no vertex. -/
theorem vt_eq_float {records l : List (VertexValue V)} (hne : records ≠ [])
    (h : records.flatMap x.print = l.map x.line) : x.vt = .float := by
  cases hvt : x.vt with
  | float => rfl
  | int =>
    obtain ⟨r, rest, hr⟩ := List.exists_cons_of_ne_nil hne
    have hmem : (⟨none, r.value⟩ : Line V) ∈ l.map x.line := by
      rw [← h, hr, List.flatMap_cons]
      refine List.mem_append_left _ (List.mem_append_right _ ?_)
      rw [hvt]
      exact List.mem_cons_self
    obtain ⟨r', -, hr'⟩ := List.mem_map.mp hmem
    exact absurd (congrArg Line.vid hr') (Option.some_ne_none _)

/-- **No record of another worker is one of the graph**: its number is the
local one, and the vertex with that number has another value. -/
theorem entry_notMem_all (hmirror : x.NoMirror) (hvt : x.vt = .float) {p : ℕ}
    (hp : p < x.part.nshards) (hp0 : p ≠ 0)
    (hready : Listable x.ntop (x.vertices p).length) (j : ℕ) :
    x.entry (noVertex V) p j ∉ x.all := by
  intro hmem
  obtain ⟨hvalue, hlt⟩ := value_of_mem_all hmem
  rcases entry_cases (noVertex V) (j := j) hready hvt with ⟨v, hv, heq, -⟩ | heq | heq
  · rw [heq] at hvalue
    exact hmirror p (Nat.pos_of_ne_zero hp0) hp v hv hvalue.symm
  · rw [heq] at hlt
    exact lt_irrefl _ hlt
  · rw [heq] at hlt
    exact lt_irrefl _ hlt

/-- A record of the graph in a queue is one that has been listed and
received, as memory has none. -/
theorem lt_of_entry_mem_all (hvt : x.vt = .float) {p j : ℕ}
    (hready : Listable x.ntop (x.vertices p).length)
    (hmem : x.entry (noVertex V) p j ∈ x.all) :
    j < x.received p ∧ j < min x.ntop (x.vertices p).length := by
  have hlt := (value_of_mem_all hmem).2
  rcases entry_cases (noVertex V) (j := j) hready hvt with
    ⟨v, -, -, hreceived, hlength⟩ | heq | heq
  · exact ⟨hreceived, hlength⟩
  · rw [heq] at hlt
    exact absurd hlt (lt_irrefl _)
  · rw [heq] at hlt
    exact absurd hlt (lt_irrefl _)

omit [Zero V] in
/-- **A vertex of another worker is not listed**, and so not larger than
`ntop` of those of the first one. -/
theorem countP_of_topOf {records : List (VertexValue V)}
    (htop : TopOf VertexValue.value x.ntop records x.all)
    (hfirst : TopOf VertexValue.value x.ntop records
      ((x.vertices 0).map fun v => ⟨v, x.value v⟩)) {p : ℕ} (hp0 : 0 < p)
    (hp : p < x.part.nshards) {v : ℕ} (hv : v ∈ x.vertices p) :
    x.ntop ≤ (x.vertices 0).countP fun u => decide (x.value v ≤ x.value u) := by
  obtain ⟨rest, hrest, hsmaller⟩ := htop.split
  have hmem : (⟨v, x.value v⟩ : VertexValue V) ∈ records ++ rest :=
    hrest.mem_iff.mpr (List.mem_flatMap.mpr
      ⟨p, List.mem_range.mpr hp, List.mem_map_of_mem hv⟩)
  have hnot : (⟨v, x.value v⟩ : VertexValue V) ∉ records := by
    intro hin
    obtain ⟨u, hu, heq⟩ := List.mem_map.mp (hfirst.subset hin)
    have huv : u = v := congrArg VertexValue.vertex heq
    subst huv
    have h₀ := (List.mem_range'_1.mp hu).2
    have h₁ := (List.mem_range'_1.mp hv).1
    have := IntervalPartition.first_le x.workers_pos
    have := IntervalPartition.second_lt_first hp0 hp
    omega
  have hin := (List.mem_append.mp hmem).resolve_left hnot
  have hcount := htop.le_countP hrest hsmaller hin
  obtain ⟨rest₀, hrest₀, -⟩ := hfirst.split
  refine hcount.trans ?_
  have hmap : ((x.vertices 0).map fun v => (⟨v, x.value v⟩ : VertexValue V)).countP
      (fun a => decide (x.value v ≤ a.value))
      = (x.vertices 0).countP fun u => decide (x.value v ≤ x.value u) := by
    rw [List.countP_map]
    rfl
  rw [← hmap, ← hrest₀.countP_eq, List.countP_append]
  exact Nat.le_add_right _ _

/-- **The list is right only if it comes from the first worker**, where no
vertex of another one has its mirror. -/
theorem onFirstWorker_of_lawful (hmirror : x.NoMirror) (h : x.Lawful) :
    x.OnFirstWorker := by
  obtain ⟨lines, hrun, l, htop, hlines⟩ := h (noVertex V)
  unfold Job.run at hrun
  split at hrun
  swap
  · exact absurd hrun.symm (Option.some_ne_none lines)
  next hguard =>
  have hready : ∀ p < x.part.nshards, Listable x.ntop (x.vertices p).length := by
    intro p hp
    have hsome := List.all_eq_true.mp hguard.1 p (List.mem_range.mpr hp)
    rw [← length_file]
    exact (isSome_getTopVertices_iff _).mp hsome
  refine ⟨hready, ?_⟩
  by_cases hntop : x.ntop = 0
  · exact Or.inl hntop
  refine Or.inr ?_
  rw [Option.some.injEq, hlines] at hrun
  have hlength := length_mergeTops (x.entry (noVertex V)) x.part.nshards x.ntop fun _ => 0
  have hle : l.length ≤ x.ntop := htop.length.trans_le (min_le_left _ _)
  generalize hrecords :
    mergeTops (x.entry (noVertex V)) x.part.nshards x.ntop (fun _ => 0) = records
    at hrun hlength
  have hne : records ≠ [] := List.length_pos_iff.mp (by omega)
  have hplain : x.reorder = false := reorder_eq_false hne (by omega) hrun
  have hvt : x.vt = .float := vt_eq_float hne hrun
  rw [print_eq hvt hplain] at hrun
  obtain rfl := (line_injective hplain).list_map hrun
  -- the records that are taken are all of the graph, hence of the first worker
  have hzero := mergeTops_of_good x.workers_pos
    (fun p hp hp0 j => entry_notMem_all hmirror hvt hp hp0 (hready p hp) j)
    (by rw [hrecords]; exact fun r hr => htop.subset hr)
  rw [hrecords] at hzero
  -- and not of memory behind its list: the last of them is in the graph too
  have hlast : x.entry (noVertex V) 0 (x.ntop - 1) ∈ x.all := by
    refine htop.subset ?_
    rw [hzero]
    exact List.mem_map_of_mem (List.mem_range'_1.mpr ⟨Nat.zero_le _, by omega⟩)
  have hbounds := lt_of_entry_mem_all hvt (hready 0 x.workers_pos) hlast
  have hreceived : x.ntop ≤ x.received 0 := by omega
  have henough : x.ntop ≤ (x.vertices 0).length := by omega
  obtain ⟨l₀, hl₀, htop₀⟩ := tops_spec (noVertex V) (hready 0 x.workers_pos)
  have hlength₀ : l₀.length = x.ntop := by
    rw [htop₀.length, length_entries, length_file, min_eq_left henough]
  rw [map_entry_zero _ hl₀ hlength₀ hreceived] at hzero
  subst hzero
  rw [entries_file_zero hvt] at htop₀
  exact ⟨hguard.2.resolve_right hntop, hvt, hplain, hreceived, henough,
    fun p hp0 hp v hv => countP_of_topOf htop htop₀ hp0 hp hv⟩

end Job

/-- **When the master prints the right list**: if each worker can make its
list and the first one has `ntop` of the largest values; and only then,
unless a vertex of another worker has the same value as the vertex of the
graph that has its number there. -/
theorem lawful_iff_onFirstWorker {V : Type} [LinearOrder V] [Zero V] (x : Job V) :
    (x.OnFirstWorker → x.Lawful) ∧ (x.NoMirror → x.Lawful → x.OnFirstWorker) :=
  ⟨Job.lawful_of_onFirstWorker, Job.onFirstWorker_of_lawful⟩

/-- Two workers with two and four vertices, the values larger the larger the
id; the largest value is asked for. -/
def secondLargest : Job ℤ where
  part := ⟨[(0, 1), (2, 5)], rfl, by decide, by decide, by decide⟩
  workers_pos := by decide
  value := fun v => v + 1
  ntop := 1
  vt := .float
  baseFile := fun _ => 0
  reorder := false
  oldvid := id
  received := fun _ => 1
  received_pos := fun _ => Nat.one_pos

/-- **The vertex that the second worker sends is not printed with its id.** -/
theorem not_lawful_secondLargest : ¬secondLargest.Lawful := by
  intro h
  have hmirror : secondLargest.NoMirror := by
    intro p hp0 hp v hv
    obtain rfl : p = 1 := by
      have hp : p < 2 := hp
      omega
    -- the number of a vertex on its worker is less by two
    have hshift : ∀ v ∈ [2, 3, 4, 5],
        secondLargest.value (v - secondLargest.part.first 1) ≠ secondLargest.value v := by
      decide
    exact hshift v hv
  obtain ⟨-, hnone | hfirst⟩ := Job.onFirstWorker_of_lawful hmirror h
  · exact absurd hnone Nat.one_ne_zero
  · have hle := hfirst.largest 1 Nat.one_pos (by decide) 5 (by decide)
    exact absurd hle (by decide)

end TopVertices
