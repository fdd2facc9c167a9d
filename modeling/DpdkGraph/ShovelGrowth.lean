import DpdkGraph.SubNode

/-!
# The memory for a shard grows

The main node counts the edges of a bucket and sends an estimate, and the
sub node takes memory for as many edges. If a packet reaches further, the
estimate is multiplied by 1.2 until it fits. As the product is cut off to a
whole number, less than five edges stay as many as they are, and the loop
does not come to an end: with no edges at all `realloc` gives no memory and
the assertion fails, with one to four the loop goes on for ever. `makeRoom`
gives nothing in both cases.

The packets of a `Growth` may come in any order, and may overlap.
-/

namespace SubNode

/-- **The estimate in a Duty message**: the sum of the degrees in a bucket,
divided by 1.5 once the vertices have been placed, and multiplied by 2.5
before. -/
def dutyEdges (optiTimes edgesInBuck : ℕ) : ℕ :=
  if optiTimes ≥ 1 then edgesInBuck * 2 / 3 else edgesInBuck * 5 / 2

/-- Every number is the estimate for some bucket. -/
theorem exists_dutyEdges (n : ℕ) : ∃ edgesInBuck, dutyEdges 1 edgesInBuck = n := by
  refine ⟨(3 * n + 1) / 2, ?_⟩
  show (3 * n + 1) / 2 * 2 / 3 = n
  omega

/-- **The packets for a shard that is kept in memory**, and the estimate of its
edges that is made from the degrees. -/
structure Growth where
  /-- The sub node. -/
  config : Config
  /-- The shovels are in memory. -/
  inMem : config.shovelInMem = true
  /-- The shard. -/
  shard : ℕ
  /-- How often the vertices have been placed. -/
  optiTimes : ℕ
  /-- The sum of the degrees, as the main node has counted it. -/
  edgesInBuck : ℕ
  /-- The packets, as they come. -/
  packets : List Packet

/-- **A packet is taken**: the loop ends, the packet fits and is stored, and
what has been stored before stays where it is. -/
structure Slot.Taken (c : Config) (s : Slot) (p : Packet) (s' : Slot) : Prop where
  /-- The loop comes to an end. -/
  ends : ∃ fuel, s.receive c fuel p = some s'
  /-- The memory is as large as `duties` says. -/
  size : s'.data.size = s'.second * c.edgeSize
  /-- The packet fits. -/
  stop_le : p.stop ≤ s'.data.size
  /-- The packet is there. -/
  held : s'.data.Holds p.offset p.data
  /-- What is beside it is as it was. -/
  kept : ∀ i < s.data.size, i < p.offset ∨ p.stop ≤ i → s'.data.get i = s.data.get i

/-- All packets are taken, one after the other. -/
def Slot.TakesAll (c : Config) : Slot → List Packet → Prop
  | _, [] => True
  | s, p :: packets => ∃ s', s.Taken c p s' ∧ s'.TakesAll c packets

namespace Growth

/-- The number of edges in the Duty message. -/
def duty (x : Growth) : ℕ := dutyEdges x.optiTimes x.edgesInBuck

/-- The slot that `set_duties` makes. -/
def start (x : Growth) : Slot :=
  newSlot x.config (fun _ => x.duty) (fun _ => Region.ofList 0 []) x.shard

/-- **Whatever the packets are, room is made for them.** -/
def GrowthLaw (x : Growth) : Prop := x.start.TakesAll x.config x.packets

end Growth

/-! ## One packet -/

variable {c : Config} {duty : ℕ} {s s' : Slot} {p : Packet}

/-- **The room in a slot**, after any packets: it is never less than at first,
and what is too small to grow stays. -/
structure Slot.Room (c : Config) (duty : ℕ) (s : Slot) : Prop where
  /-- The memory. -/
  size : s.data.size = s.second * c.edgeSize
  /-- It does not shrink. -/
  le_second : duty ≤ s.second
  /-- A small estimate stays. -/
  second_of_lt : duty < 5 → s.second = duty

/-- Growing changes nothing that is there. -/
theorem Slot.Grown.get_eq {stop i : ℕ} (h : s.Grown c stop s') (hi : i < s.data.size) :
    s'.data.get i = s.data.get i := by
  have hone : s.data.Holds i [s.data.get i] := by
    intro j hj
    obtain rfl : j = 0 := Nat.lt_one_iff.mp hj
    exact ⟨hi, rfl⟩
  exact (h.held i _ hone 0 Nat.one_pos).2

theorem Slot.Grown.room {stop : ℕ} (hroom : s.Room c duty) (h : s.Grown c stop s') :
    s'.Room c duty where
  size := h.size
  le_second := hroom.le_second.trans h.second
  second_of_lt hlt := by
    have hsame := hroom.second_of_lt hlt
    rw [h.second_of_lt (hsame ▸ hlt), hsame]

/-- In memory a packet is stored where room has been made. -/
theorem Slot.receive_of_inMem (hmem : c.shovelInMem = true) (fuel : ℕ) (s : Slot)
    (p : Packet) : s.receive c fuel p = (makeRoom c p.stop fuel s).map fun t =>
      { t with
        data := t.data.write p.offset p.data
        edges := countEdges c.edgeSize t.edges p
        packages := t.packages + 1 } := by
  unfold Slot.receive Slot.store
  rw [if_pos hmem, Option.map_map]
  rfl

/-- **A packet that is received is taken.** -/
theorem Slot.Room.taken {fuel : ℕ} (hmem : c.shovelInMem = true) (hroom : s.Room c duty)
    (h : s.receive c fuel p = some s') : s.Taken c p s' ∧ s'.Room c duty := by
  have hends := h
  rw [Slot.receive_of_inMem hmem, Option.map_eq_some_iff] at h
  obtain ⟨t, ht, rfl⟩ := h
  have hgrown := Slot.Grown.of_makeRoom hroom.size ht
  have hroom' := hgrown.room hroom
  refine ⟨⟨⟨fuel, hends⟩, hgrown.size, hgrown.stop_le,
    Region.holds_write hgrown.stop_le, fun i hi hbeside => ?_⟩,
    hroom'.size, hroom'.le_second, hroom'.second_of_lt⟩
  rw [← hgrown.get_eq hi]
  cases hbeside with
  | inl hbefore => exact Region.get_write_of_not_le (Nat.not_le_of_gt hbefore) p.data t.data
  | inr hbehind => exact Region.get_write_of_end_le hbehind t.data

/-- If the estimate is large enough, or the packet fits, it is received. -/
theorem Slot.Room.exists_receive (hmem : c.shovelInMem = true) (hroom : s.Room c duty)
    (hfits : 5 ≤ duty ∨ p.stop ≤ duty * c.edgeSize) :
    ∃ fuel s', s.receive c fuel p = some s' := by
  have hfits : 5 ≤ s.second ∨ p.stop ≤ s.second * c.edgeSize :=
    hfits.imp (fun h => h.trans hroom.le_second)
      fun h => h.trans (Nat.mul_le_mul_right _ hroom.le_second)
  obtain ⟨t, ht⟩ := exists_makeRoom (c := c) (s := s) (Nat.succ_pos p.stop)
    (Nat.lt_add_right _ (Nat.lt_succ_self _)) hfits
  refine ⟨p.stop + 1, ?_⟩
  rw [Slot.receive_of_inMem hmem, ht]
  exact ⟨_, rfl⟩

/-! ## All packets -/

theorem Growth.room_start (x : Growth) : x.start.Room x.config x.duty where
  size := by
    show (if x.config.shovelInMem then _ else _ : Region UInt8).size = _
    rw [if_pos x.inMem]
    rfl
  le_second := le_rfl
  second_of_lt _ := rfl

theorem Slot.Room.takesAll_iff (hmem : c.shovelInMem = true) (hroom : s.Room c duty)
    (packets : List Packet) :
    s.TakesAll c packets ↔ 5 ≤ duty ∨ ∀ p ∈ packets, p.stop ≤ duty * c.edgeSize := by
  induction packets generalizing s with
  | nil => simp [Slot.TakesAll]
  | cons p packets ih =>
    constructor
    · rintro ⟨s', htaken, htakes⟩
      obtain ⟨fuel, hs'⟩ := htaken.ends
      have hroom' := (hroom.taken hmem hs').2
      refine or_iff_not_imp_left.mpr fun hsmall => List.forall_mem_cons.mpr ⟨?_, ?_⟩
      · -- the estimate has not grown, so the packet has had room before
        rw [← hroom'.second_of_lt (Nat.lt_of_not_le hsmall), ← hroom'.size]
        exact htaken.stop_le
      · exact ((ih hroom').mp htakes).resolve_left hsmall
    · intro hfits
      obtain ⟨fuel, s', hs'⟩ :=
        hroom.exists_receive (p := p) hmem (hfits.imp_right fun h => h p List.mem_cons_self)
      obtain ⟨htaken, hroom'⟩ := hroom.taken hmem hs'
      exact ⟨s', htaken, (ih hroom').mpr
        (hfits.imp_right fun h q hq => h q (List.mem_cons_of_mem p hq))⟩

namespace Growth

/-- **Room is made for all packets exactly when the estimate is at least
five edges, or no packet needs more room than there is at first.** -/
theorem growthLaw_iff (x : Growth) :
    x.GrowthLaw ↔ 5 ≤ x.duty ∨ ∀ p ∈ x.packets, p.stop ≤ x.duty * x.config.edgeSize :=
  x.room_start.takesAll_iff x.inMem x.packets

/-- A bucket whose vertices have six edges, all from other buckets, after
the vertices have been placed; the edges come in one packet. -/
def sixEdges : Growth where
  config := ⟨.int, true, fun _ => 0⟩
  inMem := rfl
  shard := 1
  optiTimes := 1
  edgesInBuck := 6
  packets := [⟨1, 0, List.replicate 72 0⟩]

example : sixEdges.duty = 4 := rfl

/-- **No room is made for the six edges.** -/
theorem not_growthLaw_sixEdges : ¬sixEdges.GrowthLaw := by
  unfold GrowthLaw
  rw [sixEdges.room_start.takesAll_iff sixEdges.inMem]
  decide +kernel

end Growth

end SubNode
