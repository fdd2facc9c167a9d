import DpdkGraph.FirstSharding
import DpdkGraph.ShovelBuffer

/-!
# The memory of the merge's sink

`FirstSharding` keeps the edges of the shard under way in a list. The code
has memory for them, `shard_capacity` edges of it, which grows by a fifth
when it is full, and `finish_shard` gets as many edges from its start as
have been counted. Every new shard gets memory of the same capacity.

The two run side by side (`Agree`) for a stream in any order, so that what
the merge hands on need not be what it should be.

The first capacity is half the edges of a shard, rounded down, times three.
From six edges on it grows whenever it should. But with less than three
edges for a shard it is three or nothing, which a fifth more, rounded down,
does not change, and the next edge is stored behind the end. `Small` says of
the destinations alone that no shard takes more than three edges.
-/

namespace Region

variable {α : Type*}

/-- A piece at the end of what has been filled. -/
theorem take_toList_write {n : ℕ} {r : Region α} (h : n < r.size) (a : α) :
    (r.write n [a]).toList.take (n + 1) = r.toList.take n ++ [a] := by
  refine List.ext_getElem ?_ fun i hi hi' => ?_
  · rw [List.length_append, List.length_take, List.length_take, length_toList,
      length_toList, size_write, min_eq_left (Nat.succ_le_of_lt h), min_eq_left h.le]
    rfl
  · rw [List.length_take, length_toList, size_write] at hi
    rw [List.getElem_take, getElem_toList]
    by_cases hlt : i < n
    · have htake : i < (r.toList.take n).length := by
        rw [List.length_take, length_toList]
        exact lt_min hlt (hlt.trans h)
      rw [List.getElem_append_left htake, List.getElem_take, getElem_toList]
      exact get_write_of_not_le (Nat.not_le_of_gt hlt) _ _
    · obtain rfl : i = n := by omega
      rw [List.getElem_append_right (by rw [List.length_take]; exact min_le_left _ _),
        List.getElem_singleton]
      have hwritten : (r.write i [a]).Holds i [a] := holds_write (Nat.succ_le_of_lt h)
      exact (hwritten 0 Nat.one_pos).2

/-- What has been filled stays when the region grows. -/
theorem take_toList_extend {n m : ℕ} {r : Region α} (hn : n ≤ r.size) (hm : r.size ≤ m)
    (fill : ℕ → α) : (r.extend m fill).toList.take n = r.toList.take n := by
  refine List.ext_getElem ?_ fun i hi hi' => ?_
  · rw [List.length_take, List.length_take, length_toList, length_toList, size_extend,
      min_eq_left hn, min_eq_left (hn.trans hm)]
  · have hlt : i < r.size := by
      rw [List.length_take, length_toList] at hi'
      exact lt_of_lt_of_le hi' (min_le_right _ _)
    rw [List.getElem_take, List.getElem_take, getElem_toList, getElem_toList]
    exact if_pos hlt

theorem length_take_toList {n : ℕ} {r : Region α} (h : n ≤ r.size) :
    (r.toList.take n).length = n := by
  rw [List.length_take, length_toList, min_eq_left h]

end Region

namespace FirstSharding

open SubNode (growth le_growth lt_growth growth_of_lt)

variable {V : Type}

/-! ## The sink with its memory -/

/-- How the sharding can fail. -/
inductive Fault where
  /-- An assertion. -/
  | assertion
  /-- An edge is stored behind the end of the memory. -/
  | outOfBounds
deriving DecidableEq

/-- What the sink is told, and what its memory has in it. -/
structure MemorySetup (V : Type) extends Setup where
  /-- What the memory of a shard has in it before it is filled. -/
  garbage : ℕ → ℕ → EdgeWithValue V

/-- **The state of the sink with its memory.** The books are those of
`FirstSharding`; here the edges are in cells, and a write behind the last one is
an error. -/
structure MemorySink (V : Type) where
  /-- What the sink keeps beside the memory; its own list of edges is
  empty. -/
  books : Sink V
  /-- `sinkbuffer`, whose size is `shard_capacity`. -/
  sinkbuffer : Region (EdgeWithValue V)
  /-- `cur_shard_counter`. -/
  curShardCounter : ℕ

namespace MemorySink

/-- The edges that `finish_shard` would get now. -/
def filled (b : MemorySink V) : List (EdgeWithValue V) :=
  b.sinkbuffer.toList.take b.curShardCounter

/-- The sink as it is without memory. -/
def view (b : MemorySink V) : Sink V := { b.books with sinkbuffer := b.filled }

/-- The edge is stored. -/
def store (b : MemorySink V) (e : EdgeWithValue V) : Except Fault (MemorySink V) :=
  if b.curShardCounter < b.sinkbuffer.size then
    .ok {
      books := { b.books with
        prevvid := e.dst
        shardedEdges := b.books.shardedEdges + 1 }
      sinkbuffer := b.sinkbuffer.write b.curShardCounter [e]
      curShardCounter := b.curShardCounter + 1 }
  else .error .outOfBounds

end MemorySink

namespace MemorySetup

variable (x : MemorySetup V)

/-- The first `shard_capacity`. -/
def shardCapacity : ℕ := (x.shoveledEdges / x.nshards + 1) / 2 * 3

/-- The sink as `write_shards` sets it up. -/
def start : MemorySink V := ⟨x.toSetup.start, ⟨x.shardCapacity, x.garbage 0⟩, 0⟩

/-- **`createnextshard`**: `finish_shard` gets what has been filled, and new
memory is taken. -/
def createnextshard (b : MemorySink V) : Except Fault (MemorySink V) :=
  match x.toSetup.createnextshard b.view with
  | none => .error .assertion
  | some books => .ok ⟨books, ⟨b.sinkbuffer.size, x.garbage books.shardnum⟩, 0⟩

/-- A full memory grows. -/
def grow (b : MemorySink V) : MemorySink V :=
  if b.curShardCounter = b.sinkbuffer.size then
    { b with sinkbuffer :=
        b.sinkbuffer.extend (growth b.sinkbuffer.size) (x.garbage b.books.shardnum) }
  else b

/-- **`add`.** -/
def add (b : MemorySink V) (e : EdgeWithValue V) : Except Fault (MemorySink V) :=
  (if b.books.edgesPerShard ≤ b.curShardCounter ∧ e.dst ≠ b.books.prevvid then
    x.createnextshard b
  else .ok b).bind fun b => (x.grow b).store e

/-- The calls of `add`. -/
def addAll : MemorySink V → List (EdgeWithValue V) → Except Fault (MemorySink V)
  | b, [] => .ok b
  | b, e :: es => (x.add b e).bind fun b => addAll b es

/-- **`done`.** -/
def done (b : MemorySink V) : Except Fault (MemorySink V) :=
  (x.createnextshard b).bind fun b =>
    if x.shoveledEdges = b.books.shardedEdges ∧ b.books.shardnum ≤ x.nshards then .ok b
    else .error .assertion

/-- The whole sharding of the edges that the merge hands on. -/
def shard (edges : List (EdgeWithValue V)) : Except Fault (MemorySink V) :=
  (x.addAll x.start edges).bind x.done

end MemorySetup

/-- The sharding of a job, with memory. -/
structure MemoryJob (V : Type) extends Job V where
  /-- What the memory of a shard has in it before it is filled. -/
  garbage : ℕ → ℕ → EdgeWithValue V

namespace MemoryJob

variable (x : MemoryJob V)

/-- What the sink is told. -/
def memory : MemorySetup V := ⟨x.setup, x.garbage⟩

/-- **The law of the memory**: no edge is stored behind its end, it has the
edges that have been added since the last shard, at any time, and so
`finish_shard` gets these. -/
structure CapacityLaw : Prop where
  /-- While the edges come. -/
  adding : ∀ added rest, x.edges = added ++ rest →
    ∃ b s, x.memory.addAll x.memory.start added = .ok b
      ∧ x.setup.addAll x.setup.start added = some s ∧ b.view = s
  /-- At the end. -/
  finished : ∃ b s, x.memory.shard x.edges = .ok b ∧ x.setup.shard x.edges = some s
    ∧ b.books.shards = s.shards

end MemoryJob

/-! ## The condition -/

/-- **No shard takes more than three edges**: the shard under way has `taken`
of them, and takes `share` more of the destinations `ds` and the rest of its
last one; there are `k` shards after it. -/
def Small : ℕ → ℕ → ℕ → ℕ → List ℕ → Prop
  | 0, _, taken, _, ds => taken + ds.length ≤ 3
  | k + 1, share, taken, prev, ds =>
    match afterShare share prev ds with
    | [] => taken + ds.length ≤ 3
    | d :: rest => taken + ds.length ≤ rest.length + 4
      ∧ Small k ((rest.length + 1) / (k + 1) - 1) 1 d rest

/-- **There is memory enough** for a sequence of destinations: at least three
edges for a shard, or at least one, and no shard takes more than three. -/
def Fits (nshards : ℕ) (ds : List ℕ) : Prop :=
  3 ≤ ds.length / nshards ∨ 1 ≤ ds.length / nshards
    ∧ match ds with
      | [] => False
      | d :: rest => Small (nshards - 1) (ds.length / nshards) 1 d rest

/-- There is memory enough for the edges of a job. -/
def MemoryJob.Fits (x : MemoryJob V) : Prop :=
  FirstSharding.Fits x.nshards (x.edges.map EdgeWithValue.dst)

theorem length_afterShare_le (share prev : ℕ) (ds : List ℕ) :
    (afterShare share prev ds).length ≤ ds.length := by
  induction ds generalizing share prev with
  | nil => cases share <;> exact le_rfl
  | cons d ds ih =>
    cases share with
    | zero =>
      unfold afterShare
      split
      · exact le_rfl
      · exact (ih 0 prev).trans (Nat.le_succ _)
    | succ share => exact (ih share d).trans (Nat.le_succ _)

/-- The shard under way does not take more than three either. -/
theorem Small.taken_le {k share taken prev : ℕ} {ds : List ℕ}
    (h : Small k share taken prev ds) : taken ≤ 3 := by
  cases k with
  | zero => exact (Nat.le_add_right _ _).trans h
  | succ k =>
    have hlen := length_afterShare_le share prev ds
    unfold Small at h
    split at h
    · exact (Nat.le_add_right _ _).trans h
    · next d rest hafter =>
      have := h.1
      rw [hafter, List.length_cons] at hlen
      omega

theorem small_nil {k share taken prev : ℕ} : Small k share taken prev [] ↔ taken ≤ 3 := by
  cases k with
  | zero => exact Iff.rfl
  | succ k =>
    have hafter : afterShare share prev [] = [] := by cases share <;> rfl
    unfold Small
    rw [hafter]
    exact Iff.rfl

/-- A destination that goes to the shard under way. -/
theorem small_cons_of_stay {k share taken prev d : ℕ} {ds : List ℕ}
    (h : ¬(share = 0 ∧ d ≠ prev)) :
    Small k share taken prev (d :: ds) ↔ Small k (share - 1) (taken + 1) d ds := by
  cases k with
  | zero =>
    show taken + (ds.length + 1) ≤ 3 ↔ taken + 1 + ds.length ≤ 3
    omega
  | succ k =>
    have hafter : afterShare share prev (d :: ds) = _ := afterShare_cons_of_stay h
    unfold Small
    rw [hafter, List.length_cons]
    split
    · omega
    · next rest _ =>
      exact and_congr (by omega) Iff.rfl

/-- A destination before which the shard is cut off. -/
theorem small_cons_of_cut {k taken prev d : ℕ} {ds : List ℕ} (h : d ≠ prev) :
    Small (k + 1) 0 taken prev (d :: ds)
      ↔ taken ≤ 3 ∧ Small k ((ds.length + 1) / (k + 1) - 1) 1 d ds := by
  have hafter : afterShare 0 prev (d :: ds) = d :: ds := by
    rw [afterShare, if_pos h]
  rw [Small, hafter, List.length_cons]
  exact and_congr (by omega) Iff.rfl

/-! ## One edge -/

/-- **The memory has what the sink has without it.** -/
structure Agree (b : MemorySink V) (s : Sink V) : Prop where
  /-- The edges and the rest. -/
  view : b.view = s
  /-- The edges lie within the memory. -/
  counter_le : b.curShardCounter ≤ b.sinkbuffer.size

/-- An edge can be stored, if need be after the memory has grown. -/
def MemorySink.Writable (b : MemorySink V) : Prop :=
  b.curShardCounter < b.sinkbuffer.size ∨ 5 ≤ b.sinkbuffer.size

section Step

variable {x : MemorySetup V} {b b' : MemorySink V} {s s' : Sink V} {e : EdgeWithValue V}

theorem Agree.counter_eq (h : Agree b s) : b.curShardCounter = s.sinkbuffer.length := by
  rw [← h.view]
  exact (Region.length_take_toList h.counter_le).symm

theorem agree_start (x : MemorySetup V) : Agree x.start x.toSetup.start :=
  ⟨rfl, Nat.zero_le _⟩

/-- `finish_shard` leaves no edges. -/
theorem sinkbuffer_of_createnextshard {x : Setup} (h : x.createnextshard s = some s') :
    s'.sinkbuffer = [] := by
  unfold Setup.createnextshard at h
  split at h
  · obtain rfl := Option.some.inj h
    unfold Setup.rebudget
    split <;> rfl
  · cases h

/-- **The next shard gets memory of the same size.** -/
theorem Agree.createnextshard (h : Agree b s) (hs : x.toSetup.createnextshard s = some s') :
    ∃ b', x.createnextshard b = .ok b' ∧ b'.books = s' ∧ Agree b' s'
      ∧ b'.sinkbuffer.size = b.sinkbuffer.size ∧ b'.curShardCounter = 0 := by
  refine ⟨⟨s', ⟨b.sinkbuffer.size, x.garbage s'.shardnum⟩, 0⟩, ?_, rfl, ⟨?_, Nat.zero_le _⟩,
    rfl, rfl⟩
  · unfold MemorySetup.createnextshard
    rw [h.view, hs]
  · show { s' with sinkbuffer := [] } = s'
    rw [← sinkbuffer_of_createnextshard hs]

/-- An edge for which there is room is stored. -/
theorem Agree.store (h : Agree b s) (hlt : b.curShardCounter < b.sinkbuffer.size) :
    ∃ b', b.store e = .ok b' ∧ Agree b' (s.put e)
      ∧ b'.sinkbuffer.size = b.sinkbuffer.size := by
  refine ⟨_, if_pos hlt, ⟨?_, Nat.succ_le_of_lt hlt⟩, rfl⟩
  unfold MemorySink.view MemorySink.filled
  simp only [Region.take_toList_write hlt]
  rw [← h.view]
  rfl

/-- Growing keeps the edges, and makes room unless the memory is too small
to grow. -/
theorem Agree.grow (h : Agree b s) : Agree (x.grow b) s
    ∧ (b.Writable → (x.grow b).curShardCounter < (x.grow b).sinkbuffer.size)
    ∧ b.sinkbuffer.size ≤ (x.grow b).sinkbuffer.size
    ∧ (b.sinkbuffer.size < 5 → (x.grow b).sinkbuffer.size = b.sinkbuffer.size) := by
  unfold MemorySetup.grow
  split
  · next hfull =>
    have hle := le_growth b.sinkbuffer.size
    refine ⟨⟨?_, h.counter_le.trans hle⟩, fun hw => ?_, hle, growth_of_lt⟩
    · rw [← h.view]
      unfold MemorySink.view MemorySink.filled
      simp only [Region.take_toList_extend h.counter_le hle]
    · have hfive := hw.resolve_left (Nat.not_lt_of_le hfull.ge)
      exact hfull.trans_lt (lt_growth hfive)
  · next hnot =>
    exact ⟨h, fun _ => lt_of_le_of_ne h.counter_le hnot, le_rfl, fun _ => rfl⟩

/-- **An edge is stored** if the memory is writable. -/
theorem Agree.store_grow (h : Agree b s) (hw : b.Writable) :
    ∃ b', (x.grow b).store e = .ok b' ∧ Agree b' (s.put e)
      ∧ b.sinkbuffer.size ≤ b'.sinkbuffer.size
      ∧ (b.sinkbuffer.size < 5 → b'.sinkbuffer.size = b.sinkbuffer.size) := by
  obtain ⟨hgrown, hlt, hle, hsame⟩ := h.grow (x := x)
  obtain ⟨b', hb', hagree, hsize⟩ := hgrown.store (e := e) (hlt hw)
  exact ⟨b', hb', hagree, hsize ▸ hle, fun hsmall => hsize.trans (hsame hsmall)⟩

/-- Otherwise it is stored behind the end. -/
theorem Agree.store_grow_error (h : Agree b s) (hw : ¬b.Writable) :
    (x.grow b).store e = .error .outOfBounds := by
  obtain ⟨hfull, hsmall⟩ := not_or.mp hw
  obtain ⟨-, -, -, hsame⟩ := h.grow (x := x)
  have hcounter : (x.grow b).curShardCounter = b.curShardCounter := by
    unfold MemorySetup.grow
    split <;> rfl
  refine if_neg ?_
  rw [hcounter, hsame (Nat.lt_of_not_le hsmall)]
  exact hfull

/-- The cut is made where it is made without memory. -/
theorem Agree.add_of_cut (h : Agree b s)
    (hcut : s.edgesPerShard ≤ s.sinkbuffer.length ∧ e.dst ≠ s.prevvid) :
    x.add b e = (x.createnextshard b).bind fun b => (x.grow b).store e := by
  rw [← h.counter_eq, ← h.view] at hcut
  exact congrArg (Except.bind · _) (if_pos hcut)

theorem Agree.add_of_stay (h : Agree b s)
    (hstay : ¬(s.edgesPerShard ≤ s.sinkbuffer.length ∧ e.dst ≠ s.prevvid)) :
    x.add b e = (x.grow b).store e := by
  rw [← h.counter_eq, ← h.view] at hstay
  exact congrArg (Except.bind · _) (if_neg hstay)

/-- What is stored agrees. -/
theorem Agree.of_store_grow (h : Agree b s) (hb : (x.grow b).store e = .ok b') :
    Agree b' (s.put e) := by
  by_cases hw : b.Writable
  · obtain ⟨b₁, hb₁, hagree, -⟩ := h.store_grow (x := x) (e := e) hw
    obtain rfl := Except.ok.inj (hb₁.symm.trans hb)
    exact hagree
  · rw [h.store_grow_error hw] at hb
    cases hb

/-- **A call of `add` that goes through** does what it does without memory. -/
theorem Agree.add (h : Agree b s) (hs : x.toSetup.add s e = some s')
    (hb : x.add b e = .ok b') : Agree b' s' := by
  unfold Setup.add at hs
  split at hs
  · next hcut =>
    obtain ⟨s₁, hs₁, rfl⟩ := Option.map_eq_some_iff.mp hs
    obtain ⟨b₁, hb₁, -, hagree, -⟩ := h.createnextshard hs₁
    rw [h.add_of_cut hcut, hb₁] at hb
    exact hagree.of_store_grow hb
  · next hstay =>
    obtain rfl := Option.some.inj hs
    rw [h.add_of_stay hstay] at hb
    exact h.of_store_grow hb

end Step

/-! ## All edges -/

section Run

variable {x : MemorySetup V} {b b' : MemorySink V} {s s' : Sink V}
  {rest : List (EdgeWithValue V)}

theorem MemorySetup.addAll_append (x : MemorySetup V) (b : MemorySink V)
    (es es' : List (EdgeWithValue V)) :
    x.addAll b (es ++ es') = (x.addAll b es).bind fun b => x.addAll b es' := by
  induction es generalizing b with
  | nil => rfl
  | cons e es ih =>
    rw [List.cons_append, addAll, addAll]
    cases x.add b e with
    | error f => rfl
    | ok b₁ => exact ih b₁

theorem Setup.addAll_append (x : Setup) (s : Sink V) (es es' : List (EdgeWithValue V)) :
    x.addAll s (es ++ es') = (x.addAll s es).bind fun s => x.addAll s es' := by
  induction es generalizing s with
  | nil => rfl
  | cons e es ih =>
    rw [List.cons_append, addAll, addAll]
    cases x.add s e with
    | none => rfl
    | some s₁ => exact ih s₁

/-- **Calls that go through** do what they do without memory. -/
theorem Agree.addAll {es : List (EdgeWithValue V)} (h : Agree b s)
    (hs : x.toSetup.addAll s es = some s') (hb : x.addAll b es = .ok b') : Agree b' s' := by
  induction es generalizing b s with
  | nil =>
    cases hs
    cases hb
    exact h
  | cons e es ih =>
    rw [Setup.addAll] at hs
    rw [MemorySetup.addAll] at hb
    obtain ⟨s₁, hs₁, hs⟩ := Option.bind_eq_some_iff.mp hs
    cases hb₁ : x.add b e with
    | error f =>
      rw [hb₁] at hb
      cases hb
    | ok b₁ =>
      rw [hb₁] at hb
      exact ih (h.add hs₁ hb₁) hs hb

/-- **Whether the calls go through**: a memory of five edges grows whenever it
must; with three there must be no more. The induction is on the calls, and a cut
begins a shard with the memory as large as it has become. -/
theorem Counting.exists_addAll_iff (rest : List (EdgeWithValue V)) :
    ∀ {b : MemorySink V} {s : Sink V}, Counting x.toSetup s rest → Agree b s →
      (b.sinkbuffer.size = 3 ∨ 5 ≤ b.sinkbuffer.size) →
      ((∃ b', x.addAll b rest = .ok b') ↔ 5 ≤ b.sinkbuffer.size
        ∨ Small (x.nshards - (s.shardnum + 1)) (s.edgesPerShard - s.sinkbuffer.length)
          s.sinkbuffer.length s.prevvid (rest.map EdgeWithValue.dst)) := by
  induction rest with
  | nil =>
    intro b s _ hagree hsize
    rw [List.map_nil, small_nil, ← hagree.counter_eq]
    have hle := hagree.counter_le
    exact iff_of_true ⟨b, rfl⟩ (by omega)
  | cons e rest ih =>
    intro b s h hagree hsize
    rw [List.map_cons, MemorySetup.addAll]
    -- the edge begins the next shard
    by_cases hcut : s.edgesPerShard ≤ s.sinkbuffer.length ∧ e.dst ≠ s.prevvid
    · obtain ⟨hs₁, hnext⟩ := h.cut hcut.1
      obtain ⟨b₁, hb₁, -, hagree₁, hsize₁, hzero⟩ := hagree.createnextshard hs₁
      have hw : b₁.Writable := Or.inl (by omega)
      obtain ⟨b₂, hb₂, hagree₂, hle, hsame⟩ := hagree₁.store_grow (x := x) (e := e) hw
      have hlast := h.not_last hcut.1
      obtain ⟨k, hk⟩ : ∃ k, x.nshards - (s.shardnum + 1) = k + 1 :=
        ⟨x.nshards - (s.shardnum + 1) - 1, by omega⟩
      have hk' : x.nshards - (s.shardnum + 1 + 1) = k := by omega
      have hih : (∃ b', x.addAll b₂ rest = .ok b') ↔ 5 ≤ b₂.sinkbuffer.size
          ∨ Small (x.nshards - (s.shardnum + 1 + 1))
            ((rest.length + 1) / (x.nshards - (s.shardnum + 1)) - 1) 1 e.dst
            (rest.map EdgeWithValue.dst) := ih hnext hagree₂ (by omega)
      rw [hk, hk'] at hih
      rw [hagree.add_of_cut hcut, hb₁]
      show (∃ b', (Except.bind ((x.grow b₁).store e) _) = .ok b') ↔ _
      rw [hb₂, hk, Nat.sub_eq_zero_of_le hcut.1, small_cons_of_cut hcut.2, List.length_map]
      have hcount := hagree.counter_eq
      have hcounter := hagree.counter_le
      cases hsize with
      -- with three edges of memory, the condition goes on with the next shard
      | inl hthree =>
        refine hih.trans (or_congr (by omega) ?_)
        exact (and_iff_right (by omega)).symm
      | inr hfive => exact hih.trans (iff_of_true (Or.inl (by omega)) (Or.inl hfive))
    · rw [hagree.add_of_stay hcut]
      have hstay : ¬(s.edgesPerShard - s.sinkbuffer.length = 0 ∧ e.dst ≠ s.prevvid) :=
        fun hc => hcut ⟨Nat.le_of_sub_eq_zero hc.1, hc.2⟩
      rw [small_cons_of_stay hstay]
      -- the edge goes to the shard that is filled
      by_cases hw : b.Writable
      · obtain ⟨b₂, hb₂, hagree₂, hle, hsame⟩ := hagree.store_grow (x := x) (e := e) hw
        have hih := ih h.stay hagree₂ (by omega)
        have hlen : (s.put e).sinkbuffer.length = s.sinkbuffer.length + 1 :=
          List.length_append
        rw [hlen, Nat.sub_add_eq] at hih
        rw [hb₂]
        exact hih.trans (or_congr (by omega) Iff.rfl)
      · -- there is no room, and three edges are not made five: the call dies
        rw [hagree.store_grow_error hw]
        obtain ⟨hfull, hsmall⟩ := not_or.mp hw
        have hcount := hagree.counter_eq
        refine iff_of_false (fun ⟨b', hb'⟩ => by cases hb') (not_or.mpr ⟨hsmall, fun h => ?_⟩)
        have := h.taken_le
        omega

/-- The end is reached in memory as it is without. -/
theorem Agree.done (h : Agree b s) (hs : x.toSetup.done s = some s') :
    ∃ b', x.done b = .ok b' ∧ b'.books = s' := by
  unfold Setup.done at hs
  obtain ⟨s₁, hs₁, hs⟩ := Option.bind_eq_some_iff.mp hs
  obtain ⟨b₁, hb₁, hbooks, -⟩ := h.createnextshard hs₁
  split at hs
  · next hcounts =>
    obtain rfl := Option.some.inj hs
    refine ⟨b₁, ?_, hbooks⟩
    unfold MemorySetup.done
    rw [hb₁]
    exact if_pos (by rw [hbooks]; exact hcounts)
  · cases hs

end Run

/-! ## The whole sharding -/

namespace MemorySetup

variable {x : MemorySetup V} {edges : List (EdgeWithValue V)}

/-- The first memory is for no edge, for three, or for five at least. -/
theorem shardCapacity_cases (x : MemorySetup V) :
    (x.shoveledEdges / x.nshards = 0 ∧ x.shardCapacity = 0)
      ∨ (1 ≤ x.shoveledEdges / x.nshards ∧ x.shoveledEdges / x.nshards < 3
        ∧ x.shardCapacity = 3)
      ∨ (3 ≤ x.shoveledEdges / x.nshards ∧ 5 ≤ x.shardCapacity) := by
  unfold shardCapacity
  generalize x.shoveledEdges / x.nshards = q
  omega

/-- **When all calls of `add` go through**, for edges in any order: only where
the destinations change matters, and how large the first capacity is. -/
theorem exists_addAll_iff (hpos : 0 < x.nshards) (hcount : x.shoveledEdges = edges.length)
    (hne : edges ≠ []) : (∃ b, x.addAll x.start edges = .ok b)
      ↔ Fits x.nshards (edges.map EdgeWithValue.dst) := by
  obtain ⟨e, rest, he⟩ := List.exists_cons_of_ne_nil hne
  have hcounting := Setup.start_counting hpos hcount he
  have hnocut : ¬((x.toSetup.start : Sink V).edgesPerShard
      ≤ (x.toSetup.start : Sink V).sinkbuffer.length
      ∧ e.dst ≠ (x.toSetup.start : Sink V).prevvid) := fun h =>
    absurd h.1 (Nat.not_succ_le_zero _)
  have hrun : x.addAll x.start edges
      = ((x.grow x.start).store e).bind fun b => x.addAll b rest := by
    rw [he, addAll, (agree_start x).add_of_stay hnocut]
  have hfits : Fits x.nshards (edges.map EdgeWithValue.dst)
      ↔ 3 ≤ x.shoveledEdges / x.nshards ∨ 1 ≤ x.shoveledEdges / x.nshards
      ∧ Small (x.nshards - 1) (x.shoveledEdges / x.nshards) 1 e.dst
        (rest.map EdgeWithValue.dst) := by
    have hmap : edges.map EdgeWithValue.dst = e.dst :: rest.map EdgeWithValue.dst := by
      rw [he, List.map_cons]
    unfold Fits
    rw [List.length_map, ← hcount, hmap]
  rw [hrun, hfits]
  have hsize : x.start.sinkbuffer.size = x.shardCapacity := rfl
  by_cases hzero : x.shoveledEdges / x.nshards = 0
  · -- nothing can be stored, and nothing grows
    have hw : ¬x.start.Writable := by
      have := x.shardCapacity_cases
      show ¬(0 < x.shardCapacity ∨ 5 ≤ x.shardCapacity)
      omega
    rw [(agree_start x).store_grow_error hw, hzero]
    exact iff_of_false (fun ⟨b', hb'⟩ => by cases hb') (by simp)
  · have hcases := x.shardCapacity_cases
    have hw : x.start.Writable := Or.inl (by show 0 < x.shardCapacity; omega)
    obtain ⟨b, hb, hagree, hle, hsame⟩ := (agree_start x).store_grow (x := x) (e := e) hw
    rw [hb]
    refine (hcounting.exists_addAll_iff rest hagree (by omega)).trans (or_congr ?_ ?_)
    · omega
    · exact (and_iff_right (Nat.one_le_iff_ne_zero.mpr hzero)).symm

/-- Without memory the sharding completes in any order. -/
theorem exists_shard (hpos : 0 < x.nshards) (hcount : x.shoveledEdges = edges.length)
    (hne : edges ≠ []) : ∃ s₁ s, x.toSetup.addAll x.toSetup.start edges = some s₁
      ∧ x.toSetup.done s₁ = some s := by
  obtain ⟨e, rest, he⟩ := List.exists_cons_of_ne_nil hne
  obtain ⟨s₁, hrun, hend, -⟩ := (Setup.start_counting hpos hcount he).addAll
  obtain ⟨s, hdone, -⟩ := hend.done
  refine ⟨s₁, s, ?_, hdone⟩
  rw [he, Setup.addAll, Setup.add_start]
  exact hrun

/-- **Where the memory is enough**, the sharding completes as it does without
memory. -/
theorem shard_of_fits (hpos : 0 < x.nshards) (hcount : x.shoveledEdges = edges.length)
    (hne : edges ≠ []) (hfits : Fits x.nshards (edges.map EdgeWithValue.dst)) :
    ∃ b s, x.shard edges = .ok b ∧ x.toSetup.shard edges = some s ∧ b.books = s := by
  obtain ⟨b₁, hb₁⟩ := (exists_addAll_iff hpos hcount hne).mpr hfits
  obtain ⟨s₁, s, hs₁, hdone⟩ := exists_shard (x := x) hpos hcount hne
  obtain ⟨b, hb, hbooks⟩ := ((agree_start x).addAll hs₁ hb₁).done hdone
  refine ⟨b, s, ?_, ?_, hbooks⟩
  · unfold shard
    rw [hb₁]
    exact hb
  · unfold Setup.shard
    rw [hs₁]
    exact hdone

/-- It completes only there. -/
theorem fits_of_shard (hpos : 0 < x.nshards) (hcount : x.shoveledEdges = edges.length)
    (hne : edges ≠ []) {b : MemorySink V} (hb : x.shard edges = .ok b) :
    Fits x.nshards (edges.map EdgeWithValue.dst) := by
  refine (exists_addAll_iff hpos hcount hne).mp ?_
  unfold shard at hb
  cases hadd : x.addAll x.start edges with
  | error f =>
    rw [hadd] at hb
    cases hb
  | ok b₁ => exact ⟨b₁, rfl⟩

end MemorySetup

/-- **When the memory of the sink is enough**: exactly when a shard has at
least three edges on average, or at least one, and none takes more than
three. -/
theorem MemoryJob.capacityLaw_iff (x : MemoryJob V) : x.CapacityLaw ↔ x.Fits := by
  have hiff := MemorySetup.exists_addAll_iff (x := x.memory) x.nshards_pos rfl x.edges_ne
  refine Iff.trans ⟨fun h => ?_, ?_⟩ hiff
  · obtain ⟨b, s, hb, -⟩ := h.adding x.edges [] (List.append_nil _).symm
    exact ⟨b, hb⟩
  · rintro ⟨b, hb⟩
    obtain ⟨s₁, s, hs₁, -⟩ :=
      MemorySetup.exists_shard (x := x.memory) x.nshards_pos rfl x.edges_ne
    constructor
    · intro added rest hsplit
      have hs₁ : x.setup.addAll x.setup.start x.edges = some s₁ := hs₁
      rw [hsplit, MemorySetup.addAll_append] at hb
      rw [hsplit, Setup.addAll_append] at hs₁
      obtain ⟨s', hs', -⟩ := Option.bind_eq_some_iff.mp hs₁
      cases hb' : x.memory.addAll x.memory.start added with
      | error f =>
        rw [hb'] at hb
        cases hb
      | ok b' => exact ⟨b', s', rfl, hs', ((agree_start x.memory).addAll hs' hb').view⟩
    · obtain ⟨b', s', hb', hs', hbooks⟩ :=
        MemorySetup.shard_of_fits x.nshards_pos rfl x.edges_ne (hiff.mp ⟨b, hb⟩)
      exact ⟨b', s', hb', hs', congrArg Sink.shards hbooks⟩

/-- Two edges to two destinations, for three shards. -/
def twoDestinations : MemoryJob Unit where
  nshards := 3
  nshards_pos := Nat.succ_pos'
  edges := [⟨2, 0, ()⟩, ⟨2, 1, ()⟩]
  edges_ne := by decide
  sorted := by decide
  vid := by decide
  garbage := fun _ _ => ⟨0, 0, ()⟩

example : twoDestinations.memory.shardCapacity = 0 := rfl

/-- **There is no memory for two edges in three shards.** -/
theorem not_capacityLaw_twoDestinations : ¬twoDestinations.CapacityLaw := by
  intro h
  obtain ⟨b, s, hb, -⟩ := h.adding twoDestinations.edges [] rfl
  cases hb

end FirstSharding
