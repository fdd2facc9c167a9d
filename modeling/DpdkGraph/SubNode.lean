import DpdkGraph.Redistribution
import DpdkGraph.ShovelBuffer

/-!
# Sharding on a sub node

The main node sends the edges of a shard in packets, one behind the other
(`packets`). The sub node stores them as they come, and hands the memory or
the file of each of its shards to `reshard`, with the number of edges that
it has worked out from the offsets.

That is what the main node would have handed to `reshard` itself, unless the
number of edges comes out wrong (it is an `int`, and the table of edge sizes
is wrong for `length16` to `length64`), a small estimate keeps the memory
from growing, or the file has been there before and is longer
(`agrees_iff_fits`).
-/

namespace SubNode

open Reshard (toInt32 toInt32_natCast)

/-! ## The main node's side -/

/-- The packets for a shard, from an offset on. -/
def packetsFrom (T : ValueType) (k : ℕ) : ℕ → List (List Edge) → List Packet
  | _, [] => []
  | off, es :: more =>
    ⟨k, off, records T es⟩ :: packetsFrom T k (off + es.length * T.recordSize) more

/-- The packets that `finish_reshovel_block` and `finish_reshovel` send for a
shard. -/
def packets (T : ValueType) (k : ℕ) (sent : List (List Edge)) : List Packet :=
  packetsFrom T k 0 sent

/-- What goes into the `.re` file of a shard of the main node itself. -/
def reFile (T : ValueType) (sent : List (List Edge)) : Region UInt8 :=
  Region.ofList 0 (sent.flatMap (records T))

/-- `reshard` for an array of edges. -/
def reshardArray (c : Reshard.Params) (rand : ℕ → ℕ) (T : ValueType)
    (r : Region UInt8) (edges : ℕ) : Option (Reshard.ShardFiles (List UInt8)) :=
  (readRecords T edges r.toList).bind (Reshard.reshard c rand)

/-- The main node reshards a shard itself. -/
def reshardHere (c : Reshard.Params) (rand : ℕ → ℕ) (T : ValueType)
    (sent : List (List Edge)) : Option (Reshard.ShardFiles (List UInt8)) :=
  reshardArray c rand T (reFile T sent) ((reFile T sent).size / T.recordSize)

/-! ## The sub node -/

/-- The slot of a shard gets something. -/
def onSlot (k : ℕ) (f : Slot → Option Slot) : List Slot → Option (List Slot)
  | [] => none
  | s :: slots =>
    if s.shard = k then (f s).map fun s' => s' :: slots
    else (onSlot k f slots).map fun slots' => s :: slots'

/-- **`write_shovel_data`.** -/
def writeShovelData (c : Config) (fuel : ℕ) (slots : List Slot) (p : Packet) :
    Option (List Slot) :=
  onSlot p.shard (fun s => s.receive c fuel p) slots

/-- `set_duties`: the memory is empty, while a file may have been there
before. -/
def newSlot (c : Config) (duty : ℕ → ℕ) (stale : ℕ → Region UInt8) (k : ℕ) : Slot :=
  ⟨k, duty k, if c.shovelInMem then ⟨duty k * c.edgeSize, fun _ => 0⟩ else stale k, 0, 0⟩

/-- **What `submode` hands to `reshard`**: the memory, or what it reads from
the file, if that has as many edges as it should. -/
def Slot.handOver (c : Config) (s : Slot) : Option (Region UInt8 × ℤ) :=
  if c.shovelInMem = true ∨ s.data.size / c.edgeSize = asSizeT s.edges then
    some (s.data, s.edges)
  else none

/-- **The packets for a sub node**, in the order in which they come: for each
shard all those that were sent, and between the shards in any order. -/
structure Shipment where
  /-- The sub node. -/
  config : Config
  /-- Its shards. -/
  shards : List ℕ
  /-- They are different. -/
  nodup : shards.Nodup
  /-- The number of edges of a shard, as the main node has estimated it. -/
  duty : ℕ → ℕ
  /-- The files that are there. -/
  stale : ℕ → Region UInt8
  /-- What the main node sends for a shard, packet by packet. -/
  sent : ℕ → List (List Edge)
  /-- It sends edges. -/
  isEdge : ∀ k, ∀ e ∈ (sent k).flatten, IsEdge config.edgeType.mainType e
  /-- What comes. -/
  arrivals : List Packet
  /-- It is for the shards of the sub node. -/
  shard_mem : ∀ p ∈ arrivals, p.shard ∈ shards
  /-- It is what has been sent, in any order. -/
  perm : ∀ k ∈ shards, (arrivals.filter fun p => p.shard = k).Perm
    (packets config.edgeType.mainType k (sent k))

namespace Shipment

variable (x : Shipment)

/-- The edges of a shard. -/
def edges (k : ℕ) : List Edge := (x.sent k).flatten

/-- The slots before the first packet. -/
def newSlots : List Slot := x.shards.map (newSlot x.config x.duty x.stale)

/-- The slots after all packets. -/
def receiveAll (fuel : ℕ) : Option (List Slot) :=
  x.arrivals.foldlM (writeShovelData x.config fuel) x.newSlots

/-- **A slot has what has been sent**, and the files of the shard are those
that the main node would have written. -/
structure SlotAgrees (s : Slot) : Prop where
  /-- The array and the number of edges. -/
  handed : s.handOver x.config = some (s.data, ((x.edges s.shard).length : ℤ))
  /-- The edges. -/
  array : readRecords x.config.edgeType.subType (x.edges s.shard).length s.data.toList
    = some (x.edges s.shard)
  /-- The files. -/
  files : ∀ c rand, (s.handOver x.config).bind (fun h =>
      reshardArray c rand x.config.edgeType.subType h.1 h.2.toNat)
    = reshardHere c rand x.config.edgeType.mainType (x.sent s.shard)

/-- **All packets are stored, and each shard has what has been sent.** -/
def Agrees : Prop :=
  ∃ fuel slots, x.receiveAll fuel = some slots
    ∧ ∀ k ∈ x.shards, ∃ s ∈ slots, s.shard = k ∧ x.SlotAgrees s

/-- **When a shard arrives as it was sent.** Each condition is for one way in
which the slot is wrong: the count, the size of an edge, the memory, and the
file that was there. -/
structure FitsAt (k : ℕ) : Prop where
  /-- The number of edges is an `int`. -/
  few : (x.edges k).length < 2 ^ 31
  /-- With a wrong edge size, the edges are too few to make one more. -/
  length : x.config.edgeType.isLength = true →
    8 * (x.edges k).length < x.config.edgeSize
  /-- The memory can grow, or is large enough. -/
  memory : x.config.shovelInMem = true → 5 ≤ x.duty k
    ∨ (x.edges k).length * x.config.edgeType.mainType.recordSize
      ≤ x.duty k * x.config.edgeSize
  /-- The file has not been there with more. -/
  file : x.config.shovelInMem = false →
    (x.stale k).size < ((x.edges k).length + 1) * x.config.edgeSize

/-- All shards do. -/
def Fits : Prop := ∀ k ∈ x.shards, x.FitsAt k

end Shipment

/-! ## What is sent -/

theorem map_piece_packetsFrom {T : ValueType} {k off : ℕ} {sent : List (List Edge)}
    (h : ∀ e ∈ sent.flatten, IsEdge T e) :
    (packetsFrom T k off sent).map Packet.piece
      = Region.placed off (sent.map (records T)) := by
  induction sent generalizing off with
  | nil => rfl
  | cons es more ih =>
    rw [List.flatten_cons, List.forall_mem_append] at h
    show (off, records T es) :: (packetsFrom T k _ more).map Packet.piece
      = (off, records T es) :: Region.placed _ (more.map (records T))
    rw [ih h.2, length_records h.1]

theorem records_flatten (T : ValueType) (sent : List (List Edge)) :
    (sent.map (records T)).flatten = records T sent.flatten := by
  induction sent with
  | nil => rfl
  | cons es more ih =>
    show records T es ++ (more.map (records T)).flatten = _
    rw [ih, List.flatten_cons]
    exact List.flatMap_append.symm

/-- A record is read alike where the layout is the same. -/
theorem readRecords_congr {T T' : ValueType} (hsize : T.size = T'.size)
    (hrecord : T.recordSize = T'.recordSize) (n : ℕ) (bs : List UInt8) :
    readRecords T n bs = readRecords T' n bs := by
  induction n generalizing bs with
  | zero => rfl
  | succ n ih =>
    have hone : readRecord T bs = readRecord T' bs := by
      unfold readRecord
      rw [hsize, hrecord]
    rw [readRecords, readRecords, hone]
    congr 1
    funext r
    rw [ih]

/-- The main node's `.re` file has all edges, and nothing else. -/
theorem reshardHere_eq (c : Reshard.Params) (rand : ℕ → ℕ) {T : ValueType}
    {sent : List (List Edge)} (h : ∀ e ∈ sent.flatten, IsEdge T e) :
    reshardHere c rand T sent = Reshard.reshard c rand sent.flatten := by
  have hpos : 0 < T.recordSize := lt_of_lt_of_le (by omega) T.size_le
  have hbytes : sent.flatMap (records T) = records T sent.flatten := by
    rw [← records_flatten, ← List.flatMap_def]
  have hsize : (reFile T sent).size = sent.flatten.length * T.recordSize := by
    show (sent.flatMap (records T)).length = _
    rw [hbytes, length_records h]
  unfold reshardHere reshardArray
  rw [hsize, Nat.mul_div_cancel _ hpos, reFile, Region.toList_ofList, hbytes,
    ← List.append_nil (records T sent.flatten), readRecords_records h, Option.bind_some]

/-! ## The number of edges -/

theorem asSizeT_natCast {n : ℕ} (h : n < 2 ^ 64) : asSizeT n = n := by
  show ((n : ℤ) % 2 ^ 64).toNat = n
  rw [Int.emod_eq_of_lt (Int.natCast_nonneg n) (by exact_mod_cast h), Int.toNat_natCast]

/-- The largest number, if it is an `int`. -/
theorem foldl_countEdges {edgeSize m M : ℕ} (hM : M < 2 ^ 31) {l : List Packet}
    (hle : ∀ p ∈ l, p.stop / edgeSize ≤ M) (hm : m ≤ M)
    (hex : m = M ∨ ∃ p ∈ l, p.stop / edgeSize = M) :
    l.foldl (countEdges edgeSize) (m : ℤ) = M := by
  induction l generalizing m with
  | nil =>
    obtain rfl | ⟨p, hp, -⟩ := hex
    · rfl
    · cases hp
  | cons p l ih =>
    obtain ⟨hp, hl⟩ := List.forall_mem_cons.mp hle
    have hstep : countEdges edgeSize m p = (max m (p.stop / edgeSize) : ℕ) := by
      unfold countEdges
      rw [asSizeT_natCast (by omega), toInt32_natCast (by omega)]
      split <;> omega
    rw [List.foldl_cons, hstep]
    refine ih hl (max_le hm hp) ?_
    obtain rfl | ⟨q, hq, heq⟩ := hex
    · exact Or.inl (max_eq_left hp)
    · cases List.mem_cons.mp hq with
      | inl hq => exact Or.inl (by rw [← hq, heq]; exact max_eq_right hm)
      | inr hq => exact Or.inr ⟨q, hq, heq⟩

/-- It is an `int`, whatever comes. -/
theorem foldl_countEdges_range {edgeSize : ℕ} {n : ℤ} (l : List Packet)
    (hn : -2 ^ 31 ≤ n ∧ n < 2 ^ 31) :
    -2 ^ 31 ≤ l.foldl (countEdges edgeSize) n
      ∧ l.foldl (countEdges edgeSize) n < 2 ^ 31 := by
  induction l generalizing n with
  | nil => exact hn
  | cons p l ih =>
    refine ih ?_
    unfold countEdges
    split
    · unfold toInt32
      rw [Int.bmod_def]
      omega
    · exact hn

/-- A number that is no `int` becomes negative, and stays so. -/
theorem foldl_countEdges_neg {edgeSize : ℕ} {n : ℤ} {l : List Packet}
    (hlt : ∀ p ∈ l, p.stop / edgeSize < 2 ^ 32) (hn : -2 ^ 31 ≤ n ∧ n < 2 ^ 31)
    (hex : n < 0 ∨ ∃ p ∈ l, 2 ^ 31 ≤ p.stop / edgeSize) :
    l.foldl (countEdges edgeSize) n < 0 := by
  induction l generalizing n with
  | nil =>
    obtain hneg | ⟨p, hp, -⟩ := hex
    · exact hneg
    · cases hp
  | cons p l ih =>
    obtain ⟨hp, hl⟩ := List.forall_mem_cons.mp hlt
    refine ih hl (foldl_countEdges_range [p] hn) ?_
    have hstep : n < 0 ∨ 2 ^ 31 ≤ p.stop / edgeSize → countEdges edgeSize n p < 0 := by
      intro h
      unfold countEdges asSizeT toInt32
      rw [Int.bmod_def]
      split <;> omega
    obtain hneg | ⟨q, hq, hle⟩ := hex
    · exact Or.inl (hstep (Or.inl hneg))
    · cases List.mem_cons.mp hq with
      | inl hq => exact Or.inl (hstep (Or.inr (hq ▸ hle)))
      | inr hq => exact Or.inr ⟨q, hq, hle⟩

/-- The length of a file after all packets. -/
theorem foldl_fileSize {M n : ℕ} {l : List Packet}
    (hle : ∀ p ∈ l, p.data ≠ [] → p.stop ≤ M)
    (hex : M ≤ n ∨ ∃ p ∈ l, p.data ≠ [] ∧ p.stop = M) :
    l.foldl fileSize n = max n M := by
  induction l generalizing n with
  | nil =>
    obtain hle | ⟨p, hp, -⟩ := hex
    · exact (max_eq_left hle).symm
    · cases hp
  | cons p l ih =>
    obtain ⟨hp, hl⟩ := List.forall_mem_cons.mp hle
    rw [List.foldl_cons]
    have hmax : max (fileSize n p) M = max n M := by
      unfold fileSize
      split
      · rfl
      · next hne => rw [max_assoc, max_eq_right (hp hne)]
    rw [← hmax]
    refine ih hl ?_
    obtain hle | ⟨q, hq, hne, heq⟩ := hex
    · refine Or.inl (le_trans hle ?_)
      unfold fileSize
      split
      · exact le_rfl
      · exact le_max_left _ _
    · cases List.mem_cons.mp hq with
      | inl hq =>
        refine Or.inl ?_
        unfold fileSize
        rw [← hq, if_neg hne, heq]
        exact le_max_right _ _
      | inr hq => exact Or.inr ⟨q, hq, hne, heq⟩

/-! ## All packets -/

theorem onSlot_eq_some {k : ℕ} {f : Slot → Option Slot} {slots slots' : List Slot}
    (h : onSlot k f slots = some slots') :
    ∃ before s after s', slots = before ++ s :: after ∧ s.shard = k ∧ f s = some s'
      ∧ slots' = before ++ s' :: after := by
  induction slots generalizing slots' with
  | nil => cases h
  | cons s slots ih =>
    rw [onSlot] at h
    split at h
    · next hk =>
      obtain ⟨s', hs', rfl⟩ := Option.map_eq_some_iff.mp h
      exact ⟨[], s, slots, s', rfl, hk, hs', rfl⟩
    · obtain ⟨more, hmore, rfl⟩ := Option.map_eq_some_iff.mp h
      obtain ⟨before, t, after, t', rfl, hk, ht', rfl⟩ := ih hmore
      exact ⟨s :: before, t, after, t', rfl, hk, ht', rfl⟩

theorem exists_onSlot {k : ℕ} {f : Slot → Option Slot} {slots : List Slot}
    (hk : k ∈ slots.map Slot.shard)
    (hf : ∀ s ∈ slots, s.shard = k → ∃ s', f s = some s') :
    ∃ slots', onSlot k f slots = some slots' := by
  induction slots with
  | nil => cases hk
  | cons s slots ih =>
    rw [onSlot]
    by_cases hs : s.shard = k
    · obtain ⟨s', hs'⟩ := hf s List.mem_cons_self hs
      rw [if_pos hs, hs']
      exact ⟨_, rfl⟩
    · rw [if_neg hs]
      rw [List.map_cons, List.mem_cons] at hk
      obtain ⟨slots', hslots'⟩ := ih (hk.resolve_left (Ne.symm hs))
        fun t ht => hf t (List.mem_cons_of_mem _ ht)
      rw [hslots']
      exact ⟨_, rfl⟩

namespace Shipment

variable {x : Shipment}

/-- **What the slots have after some packets.** -/
structure Have (x : Shipment) (done : List Packet) (slots : List Slot) : Prop where
  /-- There is one for each shard. -/
  shards : slots.map Slot.shard = x.shards
  /-- Each has the packets for its shard. -/
  has : ∀ s ∈ slots, s.Has x.config (x.duty s.shard) (x.stale s.shard)
    (done.filter fun p => p.shard = s.shard)

theorem have_newSlots (x : Shipment) : x.Have [] x.newSlots where
  shards := by
    unfold newSlots
    rw [List.map_map]
    exact List.map_id _
  has := by
    intro s hs
    obtain ⟨k, -, rfl⟩ := List.mem_map.mp hs
    refine ⟨fun p hp => absurd hp List.not_mem_nil, rfl, rfl, fun hmem => ?_, fun hfile => ?_⟩
    · refine ⟨?_, le_rfl, fun _ => rfl, fun p hp => absurd hp List.not_mem_nil⟩
      show (if x.config.shovelInMem then _ else _ : Region UInt8).size = _
      rw [if_pos hmem]
      rfl
    · show (if x.config.shovelInMem then _ else _ : Region UInt8).size = _
      rw [hfile]
      rfl

/-- A packet goes to the slot of its shard, and the others stay as they
are. -/
theorem Have.write {done : List Packet} {slots slots' : List Slot} {fuel : ℕ} {p : Packet}
    (h : x.Have done slots)
    (hapart : ∀ q ∈ done, q.shard = p.shard → Region.Apart q.piece p.piece)
    (hp : writeShovelData x.config fuel slots p = some slots') :
    x.Have (done ++ [p]) slots' := by
  obtain ⟨before, s, after, s', rfl, hs, hs', rfl⟩ := onSlot_eq_some hp
  have hsame := (h.has s (by simp)).receive
    (fun q hq => hapart q (List.mem_of_mem_filter hq)
      ((of_decide_eq_true (List.mem_filter.mp hq).2).trans hs)) hs'
  have hshards : (before ++ s' :: after).map Slot.shard = x.shards := by
    rw [← h.shards, List.map_append, List.map_append, List.map_cons, List.map_cons, hsame.1]
  refine ⟨hshards, fun t ht => ?_⟩
  have hnodup : ((before ++ s :: after).map Slot.shard).Nodup := h.shards ▸ x.nodup
  rw [List.map_append, List.map_cons] at hnodup
  have hother : ∀ u ∈ before ++ after, u.shard ≠ p.shard := by
    intro u hu heq
    have hout := (List.nodup_middle.mp hnodup).notMem
    rw [← List.map_append, hs, ← heq] at hout
    exact hout (List.mem_map_of_mem hu)
  rw [List.filter_append]
  by_cases heq : t = s'
  · subst heq
    rw [List.filter_singleton, hsame.1, hs, decide_eq_true rfl]
    have hnew := hsame.2
    rw [hs] at hnew
    exact hnew
  · have ht : t ∈ before ++ after := by
      rw [List.mem_append, List.mem_cons] at ht
      rw [List.mem_append]
      exact ht.imp_right fun h => h.resolve_left heq
    rw [List.filter_singleton, decide_eq_false (Ne.symm (hother t ht))]
    refine (List.append_nil _).symm ▸ h.has t ?_
    rw [List.mem_append] at ht
    exact List.mem_append.mpr (ht.imp_right (List.mem_cons_of_mem _))

/-- The pieces of a shard, as they come and as they are sent. -/
theorem piece_perm {k : ℕ} (hk : k ∈ x.shards) :
    ((x.arrivals.filter fun p => p.shard = k).map Packet.piece).Perm
      (Region.placed 0 ((x.sent k).map (records x.config.edgeType.mainType))) := by
  rw [← map_piece_packetsFrom (x.isEdge k)]
  exact (x.perm k hk).map _

/-- Two packets for a shard are apart. -/
theorem apart_of_split {done more : List Packet} {p : Packet}
    (heq : done ++ p :: more = x.arrivals) :
    ∀ q ∈ done, q.shard = p.shard → Region.Apart q.piece p.piece := by
  intro q hq hshard
  have hp : p ∈ x.arrivals := by rw [← heq]; simp
  have hpairs := (piece_perm (x.shard_mem p hp)).symm.pairwise
    (Region.pairwise_placed 0 _) fun h => h.symm
  rw [List.pairwise_map, List.pairwise_filter, ← heq, List.pairwise_append] at hpairs
  exact hpairs.2.2 q hq p List.mem_cons_self (decide_eq_true hshard) (decide_eq_true rfl)

/-- **After all packets.** -/
theorem Have.run {done more : List Packet} {slots slots' : List Slot} {fuel : ℕ}
    (h : x.Have done slots) (heq : done ++ more = x.arrivals)
    (hrun : more.foldlM (writeShovelData x.config fuel) slots = some slots') :
    x.Have x.arrivals slots' := by
  induction more generalizing done slots with
  | nil =>
    rw [List.foldlM_nil, Option.pure_def, Option.some.injEq] at hrun
    rw [List.append_nil] at heq
    exact heq ▸ hrun ▸ h
  | cons p more ih =>
    rw [List.foldlM_cons, Option.bind_eq_bind] at hrun
    obtain ⟨slots₁, hslots₁, hrun⟩ := Option.bind_eq_some_iff.mp hrun
    exact ih (h.write (apart_of_split heq) hslots₁)
      (by rw [List.append_assoc]; exact heq) hrun

/-- With room for each shard, all packets are taken. -/
theorem Have.exists_run {done more : List Packet} {slots : List Slot} {fuel : ℕ}
    (h : x.Have done slots) (heq : done ++ more = x.arrivals)
    (hfuel : ∀ p ∈ more, p.stop < fuel)
    (hroom : x.config.shovelInMem = true → ∀ p ∈ more,
      5 ≤ x.duty p.shard ∨ p.stop ≤ x.duty p.shard * x.config.edgeSize) :
    ∃ slots', more.foldlM (writeShovelData x.config fuel) slots = some slots' := by
  induction more generalizing done slots with
  | nil => exact ⟨slots, rfl⟩
  | cons p more ih =>
    have hp : p.shard ∈ slots.map Slot.shard := by
      rw [h.shards]
      refine x.shard_mem p ?_
      rw [← heq]
      simp
    obtain ⟨slots₁, hslots₁⟩ := exists_onSlot hp fun s hs hshard =>
      (h.has s hs).exists_receive (hfuel p List.mem_cons_self) fun hmem => by
        rw [hshard]
        exact hroom hmem p List.mem_cons_self
    obtain ⟨slots', hslots'⟩ := ih (h.write (apart_of_split heq) hslots₁)
      (by rw [List.append_assoc]; exact heq)
      (fun q hq => hfuel q (List.mem_cons_of_mem _ hq))
      fun hmem q hq => hroom hmem q (List.mem_cons_of_mem _ hq)
    refine ⟨slots', ?_⟩
    rw [List.foldlM_cons, show writeShovelData x.config fuel slots p = _ from hslots₁]
    exact hslots'

/-! ## What a slot ends with -/

/-- The bytes of a shard. -/
def bytes (x : Shipment) (k : ℕ) : ℕ :=
  (x.edges k).length * x.config.edgeType.mainType.recordSize

theorem length_flatten (x : Shipment) (k : ℕ) :
    ((x.sent k).map (records x.config.edgeType.mainType)).flatten.length = x.bytes k := by
  rw [records_flatten, length_records (x.isEdge k)]
  rfl

theorem stop_le {k : ℕ} (hk : k ∈ x.shards) :
    ∀ p ∈ x.arrivals.filter (fun p => p.shard = k), p.stop ≤ x.bytes k := by
  intro p hp
  have hmem := (piece_perm hk).mem_iff.mp (List.mem_map_of_mem hp)
  have hend := Region.end_le_of_mem_placed hmem
  rw [length_flatten, Nat.zero_add] at hend
  exact hend

/-- The last packet with anything in it. -/
theorem exists_stop {k : ℕ} (hk : k ∈ x.shards) (hpos : 0 < x.bytes k) :
    ∃ p ∈ x.arrivals.filter (fun p => p.shard = k), p.data ≠ [] ∧ p.stop = x.bytes k := by
  rw [← length_flatten] at hpos ⊢
  obtain ⟨q, hq, hne, hend⟩ := @Region.exists_mem_placed _ 0 _
    (List.ne_nil_of_length_pos hpos)
  obtain ⟨p, hp, rfl⟩ := List.mem_map.mp ((piece_perm hk).mem_iff.mpr hq)
  rw [Nat.zero_add] at hend
  exact ⟨p, hp, hne, hend⟩

variable {slots : List Slot} {s : Slot}

theorem Have.shard_mem (h : x.Have x.arrivals slots) (hs : s ∈ slots) :
    s.shard ∈ x.shards := by
  rw [← h.shards]
  exact List.mem_map_of_mem hs

/-- **All edges are there, in order.** -/
theorem Have.holds (h : x.Have x.arrivals slots) (hs : s ∈ slots) :
    s.data.Holds 0 (records x.config.edgeType.mainType (x.edges s.shard)) := by
  have hk := h.shard_mem hs
  unfold edges
  rw [← records_flatten]
  refine Region.holds_flatten fun q hq => ?_
  obtain ⟨p, hp, rfl⟩ := List.mem_map.mp ((piece_perm hk).mem_iff.mpr hq)
  exact (h.has s hs).held p hp

/-- The number of edges, if it is an `int`. -/
theorem Have.edges_eq (h : x.Have x.arrivals slots) (hs : s ∈ slots)
    (hlt : x.bytes s.shard / x.config.edgeSize < 2 ^ 31) :
    s.edges = (x.bytes s.shard / x.config.edgeSize : ℕ) := by
  have hk := h.shard_mem hs
  rw [(h.has s hs).edges]
  refine foldl_countEdges hlt (fun p hp => Nat.div_le_div_right (stop_le hk p hp))
    (Nat.zero_le _) ?_
  cases Nat.eq_zero_or_pos (x.bytes s.shard) with
  | inl hzero => exact Or.inl (by rw [hzero, Nat.zero_div])
  | inr hpos =>
    obtain ⟨p, hp, -, hstop⟩ := exists_stop hk hpos
    exact Or.inr ⟨p, hp, by rw [hstop]⟩

/-- It is negative, if it is not. -/
theorem Have.edges_neg (h : x.Have x.arrivals slots) (hs : s ∈ slots)
    (hle : 2 ^ 31 ≤ x.bytes s.shard / x.config.edgeSize)
    (hlt : x.bytes s.shard / x.config.edgeSize < 2 ^ 32) : s.edges < 0 := by
  have hk := h.shard_mem hs
  have hpos : 0 < x.bytes s.shard := by
    refine Nat.pos_of_ne_zero fun hzero => ?_
    rw [hzero, Nat.zero_div] at hle
    exact absurd hle (by decide)
  obtain ⟨p, hp, -, hstop⟩ := exists_stop hk hpos
  rw [(h.has s hs).edges]
  refine foldl_countEdges_neg (fun q hq => ?_) (by decide) (Or.inr ⟨p, hp, hstop ▸ hle⟩)
  exact lt_of_le_of_lt (Nat.div_le_div_right (stop_le hk q hq)) hlt

/-- The file has the edges, or what there has been if that is longer. -/
theorem Have.size_file (h : x.Have x.arrivals slots) (hs : s ∈ slots)
    (hfile : x.config.shovelInMem = false) :
    s.data.size = max (x.stale s.shard).size (x.bytes s.shard) := by
  have hk := h.shard_mem hs
  rw [(h.has s hs).file hfile]
  refine foldl_fileSize (fun p hp _ => stop_le hk p hp) ?_
  cases Nat.eq_zero_or_pos (x.bytes s.shard) with
  | inl hzero => exact Or.inl (hzero ▸ Nat.zero_le _)
  | inr hpos => exact Or.inr (exists_stop hk hpos)

/-- A small estimate was enough. -/
theorem Have.bytes_le (h : x.Have x.arrivals slots) (hs : s ∈ slots)
    (hmem : x.config.shovelInMem = true) (hsmall : x.duty s.shard < 5) :
    x.bytes s.shard ≤ x.duty s.shard * x.config.edgeSize := by
  obtain ⟨hsize, -, hsame, hstop⟩ := (h.has s hs).memory hmem
  cases Nat.eq_zero_or_pos (x.bytes s.shard) with
  | inl hzero => exact hzero ▸ Nat.zero_le _
  | inr hpos =>
    obtain ⟨p, hp, -, heq⟩ := exists_stop (h.shard_mem hs) hpos
    rw [← heq, ← hsame hsmall, ← hsize]
    exact hstop p hp

/-! ## When it is what was sent -/

/-- **The number of edges by the table.** -/
theorem bytes_div (x : Shipment) (k : ℕ) :
    x.bytes k / x.config.edgeSize = (x.edges k).length
      + if x.config.edgeType.isLength then 8 * (x.edges k).length / x.config.edgeSize
        else 0 := by
  have hpos : 0 < x.config.edgeSize := EdgeType.edgeSize_pos _
  unfold bytes
  rw [EdgeType.recordSize_mainType]
  split
  · rw [Nat.mul_add, Nat.mul_comm _ 8, Nat.add_comm, Nat.add_comm (x.edges k).length]
    exact Nat.add_mul_div_right _ _ hpos
  · exact Nat.mul_div_cancel _ hpos

theorem FitsAt.bytes_div {k : ℕ} (h : x.FitsAt k) :
    x.bytes k / x.config.edgeSize = (x.edges k).length := by
  rw [Shipment.bytes_div]
  split
  · next hlength => rw [Nat.div_eq_of_lt (h.length hlength), Nat.add_zero]
  · rfl

/-- What a slot hands over is an array of edges of the main node. -/
theorem Have.array (h : x.Have x.arrivals slots) (hs : s ∈ slots) :
    readRecords x.config.edgeType.subType (x.edges s.shard).length s.data.toList
      = some (x.edges s.shard) := by
  obtain ⟨hsize, hrecord⟩ := EdgeType.layout_subType x.config.edgeType
  obtain ⟨rest, hrest⟩ := (h.holds hs).toList
  rw [readRecords_congr hsize hrecord, hrest]
  exact readRecords_records (x.isEdge s.shard) rest

/-- **Enough**: the packets are at their offsets one behind the other, and the
count is that of their edges. -/
theorem Have.slotAgrees (h : x.Have x.arrivals slots) (hs : s ∈ slots)
    (hfit : x.FitsAt s.shard) : x.SlotAgrees s := by
  have hdiv := hfit.bytes_div
  have hedges : s.edges = ((x.edges s.shard).length : ℤ) := by
    rw [h.edges_eq hs (hdiv ▸ hfit.few), hdiv]
  have harray := h.array hs
  have hhanded : s.handOver x.config = some (s.data, ((x.edges s.shard).length : ℤ)) := by
    unfold Slot.handOver
    rw [hedges, asSizeT_natCast (lt_trans hfit.few (by decide))]
    refine if_pos ?_
    cases hmem : x.config.shovelInMem with
    | true => exact Or.inl rfl
    | false =>
      refine Or.inr ?_
      have hpos : 0 < x.config.edgeSize := EdgeType.edgeSize_pos _
      rw [h.size_file hs hmem]
      refine le_antisymm (Nat.le_of_lt_succ ?_) ?_
      · rw [Nat.div_lt_iff_lt_mul hpos]
        refine max_lt (hfit.file hmem) ?_
        rw [← Nat.div_lt_iff_lt_mul hpos, hdiv]
        exact Nat.lt_succ_self _
      · rw [← hdiv]
        exact Nat.div_le_div_right (le_max_right _ _)
  refine ⟨hhanded, harray, fun c rand => ?_⟩
  rw [hhanded, Option.bind_some, reshardHere_eq c rand (x.isEdge s.shard)]
  show reshardArray c rand _ s.data ((x.edges s.shard).length : ℤ).toNat = _
  unfold reshardArray
  rw [Int.toNat_natCast, harray, Option.bind_some]
  rfl

/-- **Only then**: each condition that fails shows in the count of the edges or
in the size of the data. -/
theorem Have.fitsAt (h : x.Have x.arrivals slots) (hs : s ∈ slots)
    (hagree : x.SlotAgrees s) : x.FitsAt s.shard := by
  have hpos : 0 < x.config.edgeSize := EdgeType.edgeSize_pos _
  have hhanded := hagree.handed
  unfold Slot.handOver at hhanded
  split at hhanded
  · next hcond =>
    have hedges : s.edges = ((x.edges s.shard).length : ℤ) :=
      congrArg Prod.snd (Option.some.inj hhanded)
    have hfew : (x.edges s.shard).length < 2 ^ 31 := by
      have hrange := (@foldl_countEdges_range x.config.edgeSize 0
        (x.arrivals.filter fun p => p.shard = s.shard) (by decide)).2
      rw [← (h.has s hs).edges, hedges] at hrange
      exact_mod_cast hrange
    have hlength : x.config.edgeType.isLength = true →
        8 * (x.edges s.shard).length < x.config.edgeSize := by
      intro hlen
      have hwide : 16 ≤ x.config.edgeSize := EdgeType.le_edgeSize hlen
      have hdiv := x.bytes_div s.shard
      rw [if_pos hlen] at hdiv
      have hhalf : 8 * (x.edges s.shard).length / x.config.edgeSize
          ≤ (x.edges s.shard).length :=
        le_trans (Nat.div_le_div_left (le_trans (by decide) hwide) (by decide : 0 < 8))
          (Nat.mul_div_cancel_left _ (by decide)).le
      by_contra hmany
      have hone : 1 ≤ 8 * (x.edges s.shard).length / x.config.edgeSize :=
        (Nat.le_div_iff_mul_le hpos).mpr (by rw [Nat.one_mul]; exact Nat.le_of_not_lt hmany)
      -- One edge more, or a negative number.
      by_cases hlt : x.bytes s.shard / x.config.edgeSize < 2 ^ 31
      · have hcount := h.edges_eq hs hlt
        rw [hedges] at hcount
        have hcount : (x.edges s.shard).length = x.bytes s.shard / x.config.edgeSize := by
          exact_mod_cast hcount
        omega
      · have hneg := h.edges_neg hs (Nat.le_of_not_lt hlt) (by omega)
        rw [hedges] at hneg
        omega
    refine ⟨hfew, hlength, fun hmem => ?_, fun hfile => ?_⟩
    · by_cases hfive : 5 ≤ x.duty s.shard
      · exact Or.inl hfive
      · exact Or.inr (h.bytes_le hs hmem (Nat.lt_of_not_le hfive))
    · have hsize := hcond.resolve_left (by rw [hfile]; exact Bool.false_ne_true)
      rw [h.size_file hs hfile, hedges, asSizeT_natCast (lt_trans hfew (by decide))] at hsize
      rw [← Nat.div_lt_iff_lt_mul hpos]
      refine Nat.lt_succ_of_le ?_
      rw [← hsize]
      exact Nat.div_le_div_right (le_max_left _ _)
  · cases hhanded

/-- All shards fit: they arrive as they were sent. -/
theorem agrees_of_fits (h : x.Fits) : x.Agrees := by
  let fuel := (x.arrivals.map Packet.stop).sum + 1
  have hfuel : ∀ p ∈ x.arrivals, p.stop < fuel := fun p hp =>
    Nat.lt_succ_of_le (List.le_sum_of_mem (List.mem_map_of_mem hp))
  obtain ⟨slots, hslots⟩ := (have_newSlots x).exists_run (List.nil_append _) hfuel
    fun hmem p hp => by
      refine ((h p.shard (x.shard_mem p hp)).memory hmem).imp_right fun hle => ?_
      refine le_trans (stop_le (x.shard_mem p hp) p ?_) hle
      exact List.mem_filter.mpr ⟨hp, decide_eq_true rfl⟩
  have hhave := (have_newSlots x).run (List.nil_append _) hslots
  refine ⟨fuel, slots, hslots, fun k hk => ?_⟩
  rw [← hhave.shards] at hk
  obtain ⟨s, hs, rfl⟩ := List.mem_map.mp hk
  exact ⟨s, hs, rfl, hhave.slotAgrees hs (h s.shard (hhave.shard_mem hs))⟩

/-- If they arrive as they were sent, they fit. -/
theorem fits_of_agrees (h : x.Agrees) : x.Fits := by
  obtain ⟨fuel, slots, hslots, hagree⟩ := h
  have hhave := (have_newSlots x).run (List.nil_append _) hslots
  intro k hk
  obtain ⟨s, hs, rfl, hslot⟩ := hagree k hk
  exact hhave.fitsAt hs hslot

end Shipment

/-- **When a sub node hands `reshard` what was sent.** -/
theorem agrees_iff_fits (x : Shipment) : x.Agrees ↔ x.Fits :=
  ⟨Shipment.fits_of_agrees, Shipment.agrees_of_fits⟩

/-! ## What `reshovel` sends -/

/-- The main node's packets, with the offsets it gives them. -/
theorem packets_eq_of_contiguous {T : ValueType} {ps : List (ℕ × List Edge)} (k : ℕ)
    (h : Redistribution.Contiguous T.recordSize ps) :
    packets T k (ps.map Prod.snd) = ps.map fun p => ⟨k, p.1, records T p.2⟩ := by
  suffices hfrom : ∀ before after : List (ℕ × List Edge), before ++ after = ps →
      packetsFrom T k ((before.flatMap Prod.snd).length * T.recordSize) (after.map Prod.snd)
        = after.map fun p => ⟨k, p.1, records T p.2⟩ by
    have hall := hfrom [] ps rfl
    rw [List.flatMap_nil, List.length_nil, Nat.zero_mul] at hall
    exact hall
  intro before after
  induction after generalizing before with
  | nil => exact fun _ => rfl
  | cons p after ih =>
    intro heq
    have hnext := ih (before ++ [p]) (by rw [List.append_assoc]; exact heq)
    rw [List.flatMap_append, List.flatMap_singleton, List.length_append, Nat.add_mul] at hnext
    rw [List.map_cons, List.map_cons, packetsFrom, hnext, h before p after heq.symm]

/-- **A shard of a sub node gets the edges that touch its interval**, if they
arrive as they were sent. -/
theorem touching_of_agrees {job : Redistribution.Job (List UInt8)}
    {state : Redistribution.State (List UInt8)}
    (hlaw : Redistribution.ConservationLaw job state) {x : Shipment} (hagree : x.Agrees)
    {k : ℕ} (hk : k ∈ x.shards) (hlt : k < job.part.nshards)
    (hremote : job.isLocal k = false)
    (hsent : x.sent k = (state.shards k).packets.map Prod.snd) :
    ∃ fuel slots, x.receiveAll fuel = some slots ∧ ∃ s ∈ slots, s.shard = k
      ∧ readRecords x.config.edgeType.subType
          (Reshard.touching job.part k job.edges).length s.data.toList
        = some (Reshard.touching job.part k job.edges) := by
  obtain ⟨fuel, slots, hslots, hall⟩ := hagree
  obtain ⟨s, hs, rfl, hslot⟩ := hall k hk
  refine ⟨fuel, slots, hslots, s, hs, rfl, ?_⟩
  have hfile := hlaw.place s.shard
  rw [hremote] at hfile
  have hfile : (state.shards s.shard).file = [] := hfile
  have hedges : x.edges s.shard = Reshard.touching job.part s.shard job.edges := by
    rw [← hlaw.delivered s.shard hlt, Redistribution.Shard.delivered, hfile,
      List.nil_append, Shipment.edges, hsent, ← List.flatMap_def]
  rw [← hedges]
  exact hslot.array

/-! ## An edge too many -/

/-- Two edges with values of sixteen bytes, in one packet. -/
def twoWide : Shipment where
  config := ⟨.length16, true, fun _ => 0⟩
  shards := [0]
  nodup := List.nodup_singleton 0
  duty := fun _ => 5
  stale := fun _ => ⟨0, fun _ => 0⟩
  sent := fun _ => [[⟨0, 1, List.replicate 16 0⟩, ⟨1, 0, List.replicate 16 0⟩]]
  isEdge := by
    intro k e he
    rw [List.flatten_singleton, List.mem_cons, List.mem_singleton] at he
    cases he with
    | inl he => rw [he]; exact ⟨by decide, by decide, rfl⟩
    | inr he => rw [he]; exact ⟨by decide, by decide, rfl⟩
  arrivals := packets .length16 0
    [[⟨0, 1, List.replicate 16 0⟩, ⟨1, 0, List.replicate 16 0⟩]]
  shard_mem := by
    intro p hp
    rw [List.mem_singleton.mp hp]
    exact List.mem_singleton_self 0
  perm := by
    intro k hk
    rw [List.mem_singleton.mp hk]
    exact List.Perm.refl _

/-- **They count as three.** -/
theorem not_agrees_twoWide : ¬twoWide.Agrees := by
  intro h
  have hlength := (Shipment.fits_of_agrees h 0 (List.mem_singleton_self 0)).length rfl
  exact absurd hlength (by decide)

end SubNode
