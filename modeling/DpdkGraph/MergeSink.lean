import DpdkGraph.ExternalSort
import DpdkGraph.SinkCapacity

/-!
# The merge and its sink

`write_shards` merges the shovel files, and each edge that comes out is at
once an argument of `sharder::add`. So an edge can be lost on two sides. The
merge may hand on something else than what was added (`Separate`), and the
sink may not survive what it is handed: its first memory is for no edge when
there are fewer edges than shards, and for three edges, without growing, when
there are fewer than three for a shard.

In the second case it depends on where the shards are cut off, and so on the
order of the edges. If every shovel is read in order, that is the order of
the destinations, and `conserves_iff` says exactly when everything arrives.
-/

namespace Shovel

open FirstSharding (Fault Fits MemorySetup MemorySink)

variable {V : Type}

/-- The sink for the edges of a session. -/
def sinkSetup (nshards : ℕ) (garbage : ℕ → ℕ → EdgeWithValue V) (s : Session V) :
    MemorySetup V :=
  ⟨⟨nshards, s.shoveledEdges, s.maxVertexId⟩, garbage⟩

/-- **`write_shards`, up to the last call of `done`**: the edges that the
merge hands to `add`, and what they leave behind. -/
def writeShards (c : Config) (nshards : ℕ) (m : Memory V)
    (garbage : ℕ → ℕ → EdgeWithValue V) (disk : ℕ → List (EdgeWithValue V))
    (calls : List (EdgeWithValue V)) (fuel : ℕ) :
    Option (List (EdgeWithValue V) × Except Fault (MemorySink V)) :=
  (handed c m disk calls fuel).map fun out =>
    (out, (sinkSetup nshards garbage (Session.session c m.sort disk calls)).shard out)

/-- **Each edge that was added is handed to `add` once**, and all calls of
`add`, and `done`, go through, whatever fresh memory holds. -/
def Conserves (c : Config) (nshards : ℕ) (disk : ℕ → List (EdgeWithValue V))
    (calls : List (EdgeWithValue V)) : Prop :=
  ∀ (m : Memory V) (garbage : ℕ → ℕ → EdgeWithValue V), ∃ bound, ∀ fuel, bound < fuel →
    ∃ out b, writeShards c nshards m garbage disk calls fuel = some (out, .ok b)
      ∧ out.Perm (kept calls)

/-- The destinations of the edges that are kept, in order. -/
def destinations (calls : List (EdgeWithValue V)) : List ℕ :=
  ((kept calls).map EdgeWithValue.dst).insertionSort (· ≤ ·)

/-- **The sink takes all edges**: there are three edges for a shard at least,
or the shovels are read in order, and the memory is enough for the
destinations in order. -/
def Takes (c : Config) (nshards : ℕ) (disk : ℕ → List (EdgeWithValue V))
    (calls : List (EdgeWithValue V)) : Prop :=
  3 ≤ (kept calls).length / nshards
    ∨ (∀ i < files c calls, ShovelInOrder c disk calls i) ∧ Fits nshards (destinations calls)

/-- The order of the edges does not matter to the sink, or they are in
order. -/
def OrderKnown (c : Config) (nshards : ℕ) (disk : ℕ → List (EdgeWithValue V))
    (calls : List (EdgeWithValue V)) : Prop :=
  (∀ i < files c calls, ShovelInOrder c disk calls i)
    ∨ (kept calls).length / nshards ≠ 1 ∧ (kept calls).length / nshards ≠ 2

section Conserves

variable {c : Config} {nshards : ℕ} {disk : ℕ → List (EdgeWithValue V)}
  {calls : List (EdgeWithValue V)}

/-- The destinations of the edges in order, however they have been put in
order. -/
theorem map_dst_eq_destinations {out : List (EdgeWithValue V)}
    (hperm : out.Perm (kept calls)) (hsorted : out.Pairwise fun a b => a.dst ≤ b.dst) :
    out.map EdgeWithValue.dst = destinations calls :=
  List.Perm.eq_of_pairwise' (r := (· ≤ ·)) (List.pairwise_map.mpr hsorted)
    (List.pairwise_insertionSort _ _) ((hperm.map _).trans (List.perm_insertionSort _ _).symm)

/-- Shovels that are read in order are merged in order. -/
theorem exists_handed (hsep : Separate c disk calls) (m : Memory V) :
    ∃ bound, ∀ fuel, bound < fuel → ∃ out, handed c m disk calls fuel = some out
      ∧ (Session.session c m.sort disk calls).shoveledEdges = out.length
      ∧ out.Perm (kept calls)
      ∧ ((∀ i < files c calls, ShovelInOrder c disk calls i) →
        out.Pairwise fun a b => a.dst ≤ b.dst) := by
  obtain ⟨bound, hhands⟩ := hsep.handsOn m
  obtain ⟨bound', hspec⟩ := handed_of_sources c m disk calls
  refine ⟨max bound bound', fun fuel hfuel => ?_⟩
  obtain ⟨out, hout, hcount, hperm⟩ := hhands fuel ((le_max_left _ _).trans_lt hfuel)
  obtain ⟨out', hout', -, hiff⟩ := hspec fuel ((le_max_right _ _).trans_lt hfuel)
  obtain rfl := Option.some.inj (hout.symm.trans hout')
  exact ⟨out, hout, hcount, hperm, fun horder => hiff.mpr fun i hi =>
    (horder i hi).pairwise_given m⟩

/-- There is an edge at least: the last shovel is not empty. -/
theorem Separate.kept_ne (h : Separate c disk calls) : kept calls ≠ [] := by
  intro hnil
  have := h.remainder
  rw [hnil] at this
  simp at this

/-- **Then everything arrives**: the merge ends and hands on each edge once, and
`add` takes them all. -/
theorem Separate.conserves (hsep : Separate c disk calls)
    (htakes : Takes c nshards disk calls) (hpos : 0 < nshards) :
    Conserves c nshards disk calls := by
  intro m garbage
  obtain ⟨bound, hhanded⟩ := exists_handed hsep m
  refine ⟨bound, fun fuel hfuel => ?_⟩
  obtain ⟨out, hout, hcount, hperm, hsorted⟩ := hhanded fuel hfuel
  have hne : out ≠ [] := fun hnil => by
    rw [hnil] at hperm
    exact hsep.kept_ne hperm.symm.eq_nil
  have hfits : Fits nshards (out.map EdgeWithValue.dst) := by
    rcases htakes with hthree | ⟨horder, hfits⟩
    · refine Or.inl ?_
      rw [List.length_map, hperm.length_eq]
      exact hthree
    · rw [map_dst_eq_destinations hperm (hsorted horder)]
      exact hfits
  obtain ⟨b, s, hb, -⟩ := MemorySetup.shard_of_fits
    (x := sinkSetup nshards garbage (Session.session c m.sort disk calls)) hpos hcount hne
    hfits
  refine ⟨out, b, ?_, hperm⟩
  unfold writeShards
  rw [hout, Option.map_some, hb]

/-- **What a run that completes has been handed**, and what it has made of
it. -/
theorem of_writeShards (hsep : Separate c disk calls) (hpos : 0 < nshards) {m : Memory V}
    {garbage : ℕ → ℕ → EdgeWithValue V} {fuel : ℕ} {out : List (EdgeWithValue V)}
    {b : MemorySink V}
    (h : writeShards c nshards m garbage disk calls fuel = some (out, .ok b)) :
    out ≠ [] ∧ out.Perm (kept calls)
      ∧ ((∀ i < files c calls, ShovelInOrder c disk calls i) →
        out.Pairwise fun a b => a.dst ≤ b.dst)
      ∧ FirstSharding.Setup.shard ⟨nshards, out.length, maxId (kept calls)⟩ out
        = some b.books := by
  obtain ⟨out', hout, heq⟩ := Option.map_eq_some_iff.mp h
  obtain ⟨rfl, hb⟩ := Prod.mk.inj heq
  obtain ⟨bound, hhanded⟩ := exists_handed hsep m
  obtain ⟨out, hout', hcount, hperm, hsorted⟩ := hhanded (max fuel (bound + 1))
    (lt_max_of_lt_right (Nat.lt_succ_self bound))
  obtain rfl := Option.some.inj ((handed_mono (le_max_left _ _) hout).symm.trans hout')
  have hne : out' ≠ [] := fun hnil => by
    rw [hnil] at hperm
    exact hsep.kept_ne hperm.symm.eq_nil
  refine ⟨hne, hperm, hsorted, ?_⟩
  have hfits := MemorySetup.fits_of_shard
    (x := sinkSetup nshards garbage (Session.session c m.sort disk calls)) hpos hcount hne hb
  obtain ⟨b', s, hb', hs, hbooks⟩ := MemorySetup.shard_of_fits
    (x := sinkSetup nshards garbage (Session.session c m.sort disk calls)) hpos hcount hne hfits
  obtain rfl := Except.ok.inj (hb'.symm.trans hb)
  rw [hbooks, ← hs, ← hcount, ← session_maxVertexId c m.sort disk calls]
  rfl

/-- Everything arrives only if it is handed on. -/
theorem Conserves.handsOn [Inhabited V] (h : Conserves c nshards disk calls) :
    HandsOn c disk calls := by
  intro m
  obtain ⟨bound, hbound⟩ := h m fun _ _ => ⟨0, 0, default⟩
  refine ⟨bound, fun fuel hfuel => ?_⟩
  obtain ⟨out, b, hout, hperm⟩ := hbound fuel hfuel
  obtain ⟨out', hout', heq⟩ := Option.map_eq_some_iff.mp hout
  obtain ⟨rfl, -⟩ := Prod.mk.inj heq
  refine ⟨out', hout', ?_, hperm⟩
  rw [(session_files c m.sort disk calls).2.1, hperm.length_eq]

/-- And only if the sink takes it, where the order is known. -/
theorem Conserves.takes [Inhabited V] (h : Conserves c nshards disk calls)
    (hpos : 0 < nshards) (hknown : OrderKnown c nshards disk calls) :
    Takes c nshards disk calls := by
  have hsep := separate_of_handsOn h.handsOn
  obtain ⟨bound, hbound⟩ := h (loopMemory V) fun _ _ => ⟨0, 0, default⟩
  obtain ⟨bound', hhanded⟩ := exists_handed hsep (loopMemory V)
  obtain ⟨out, b, hout, -⟩ := hbound (max bound bound' + 1) (by omega)
  obtain ⟨out', hout', hcount, hperm, hsorted⟩ := hhanded (max bound bound' + 1) (by omega)
  obtain ⟨out'', hout'', heq⟩ := Option.map_eq_some_iff.mp hout
  obtain rfl := Option.some.inj (hout''.symm.trans hout')
  obtain ⟨rfl, hb⟩ := Prod.mk.inj heq
  have hne : out'' ≠ [] := fun hnil => by
    rw [hnil] at hperm
    exact hsep.kept_ne hperm.symm.eq_nil
  have hfits : Fits nshards (out''.map EdgeWithValue.dst) := MemorySetup.fits_of_shard
    (x := sinkSetup nshards _ (Session.session c (loopMemory V).sort disk calls)) hpos
    hcount hne hb
  rcases hknown with horder | ⟨hone, htwo⟩
  · refine Or.inr ⟨horder, ?_⟩
    rw [← map_dst_eq_destinations hperm (hsorted horder)]
    exact hfits
  · -- one edge for a shard at least, and neither one nor two
    have hlen : (out''.map EdgeWithValue.dst).length = (kept calls).length := by
      rw [List.length_map, hperm.length_eq]
    unfold Fits at hfits
    rw [hlen] at hfits
    refine Or.inl ?_
    rcases hfits with hthree | ⟨hpos, -⟩ <;> omega

end Conserves

end Shovel
