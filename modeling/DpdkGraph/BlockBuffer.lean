import Mathlib

/-!
# A buffer that one stream of blocks is stored into over and over

A buffer of a fixed length receives a stream of blocks of that length, each
block over the one before it, in pieces of any length. `Overlay` describes
the content of the buffer at any moment: the part of the current block that
has arrived, then what the block before it left in the remaining places.
-/

namespace BlockBuffer

variable {α : Type*}

/-- Puts `bs` over the places from `pos` on. -/
def overwrite (buf : List α) (pos : ℕ) (bs : List α) : List α :=
  buf.take pos ++ bs ++ buf.drop (pos + bs.length)

/-- `Overlay base str count pos buf`: after the stream `str`, of which
`count` blocks and `pos` items more have been stored over `base`, the buffer
holds `buf`. The three parts of the stream are the blocks `done`, the items
`cur` of the current one and, over the stretch `base ++ done`, its last
block `prev`. -/
def Overlay (base str : List α) (count pos : ℕ) (buf : List α) : Prop :=
  ∃ done cur prev, str = done ++ cur ∧ done.length = base.length * count ∧
    prev <:+ base ++ done ∧ prev.length = base.length ∧ cur.length = pos ∧
    buf = cur ++ prev.drop pos

variable {base str buf : List α} {count pos : ℕ}

/-- Before anything has arrived the buffer holds `base`. -/
theorem Overlay.start (base : List α) : Overlay base [] 0 0 base :=
  ⟨[], [], base, rfl, rfl, by rw [List.append_nil], rfl, rfl, rfl⟩

/-- The length of the stream. -/
theorem Overlay.length (h : Overlay base str count pos buf) :
    str.length = base.length * count + pos := by
  obtain ⟨done, cur, prev, rfl, hdone, -, -, hcur, -⟩ := h
  rw [List.length_append, hdone, hcur]

/-- **Storing a piece** where the last one ended. -/
theorem Overlay.store (h : Overlay base str count pos buf) (bs : List α) :
    Overlay base (str ++ bs) count (pos + bs.length)
      (overwrite buf pos bs) := by
  obtain ⟨done, cur, prev, rfl, hdone, hsuf, hprev, hcur, rfl⟩ := h
  refine ⟨done, cur ++ bs, prev, by rw [List.append_assoc], hdone, hsuf,
    hprev, by rw [List.length_append, hcur], ?_⟩
  unfold overwrite
  have htake : (cur ++ prev.drop pos).take pos = cur := by
    rw [← hcur, List.take_left]
  have hdrop : (cur ++ prev.drop pos).drop (pos + bs.length)
      = prev.drop (pos + bs.length) := by
    rw [← List.drop_drop, ← hcur, List.drop_left, List.drop_drop]
  rw [htake, hdrop]

/-- **The end of a block**: the next one starts at the first place again. -/
theorem Overlay.wrap (h : Overlay base str count base.length buf) :
    Overlay base str (count + 1) 0 buf := by
  obtain ⟨done, cur, prev, rfl, hdone, -, hprev, hcur, rfl⟩ := h
  have hnil : prev.drop base.length = [] := by
    rw [← hprev, List.drop_length]
  refine ⟨done ++ cur, [], cur, by rw [List.append_nil], ?_, ?_, hcur, rfl, ?_⟩
  · rw [List.length_append, hdone, hcur, Nat.mul_succ]
  · rw [← List.append_assoc]
    exact List.suffix_append _ _
  · rw [hnil, List.append_nil, List.drop_zero, List.nil_append]

/-- Between two blocks the buffer holds the last one, or `base`. -/
theorem Overlay.between (h : Overlay base str count 0 buf) :
    buf <:+ base ++ str ∧ buf.length = base.length := by
  obtain ⟨done, cur, prev, rfl, -, hsuf, hprev, hcur, rfl⟩ := h
  rw [List.eq_nil_of_length_eq_zero hcur, List.append_nil, List.drop_zero,
    List.nil_append]
  exact ⟨hsuf, hprev⟩

/-- A stretch of whole blocks followed by one more ends with that one. -/
theorem eq_of_suffix {prev block pre : List α} (h : prev <:+ pre ++ block)
    (hlen : prev.length = block.length) : prev = block := by
  obtain ⟨t, ht⟩ := h
  have hl := congrArg List.length ht
  rw [List.length_append, List.length_append] at hl
  exact (List.append_inj ht (by omega)).2

/-- **Between two blocks of a stream that consists of the blocks `blocks`,
the buffer holds the last of them, or `base` where there is none.** -/
theorem Overlay.last {blocks : List (List α)}
    (h : Overlay base str count 0 buf)
    (hlen : ∀ b ∈ blocks, b.length = base.length)
    (hstr : str = blocks.flatten) :
    (base :: blocks)[blocks.length]? = some buf := by
  obtain ⟨hsuf, hbuf⟩ := h.between
  rcases List.eq_nil_or_concat blocks with rfl | ⟨bs, b, rfl⟩
  · rw [hstr, List.flatten_nil, List.append_nil] at hsuf
    rw [hsuf.eq_of_length hbuf]
    rfl
  · have hb : b.length = base.length := hlen b (by simp)
    rw [hstr, List.concat_eq_append, List.flatten_append,
      List.flatten_singleton, ← List.append_assoc] at hsuf
    rw [eq_of_suffix hsuf (by omega)]
    simp

/-- The length of a stretch of blocks of one length. -/
theorem length_flatten_of_forall {blocks : List (List α)} {l : ℕ}
    (hlen : ∀ b ∈ blocks, b.length = l) :
    blocks.flatten.length = l * blocks.length := by
  rw [List.length_flatten, List.map_eq_replicate_iff.mpr hlen,
    List.sum_replicate, smul_eq_mul, Nat.mul_comm]

/-- The stream's first `n` blocks, where `n` is how many fit its length. -/
theorem flatten_take_of_prefix {blocks : List (List α)} {l n : ℕ}
    (hlen : ∀ b ∈ blocks, b.length = l) (hpre : str <+: blocks.flatten)
    (hn : str.length = l * n) (hle : n ≤ blocks.length) :
    str = (blocks.take n).flatten := by
  have htake : (blocks.take n).flatten.length = l * n := by
    rw [length_flatten_of_forall fun b hb => hlen b (List.mem_of_mem_take hb),
      List.length_take, Nat.min_eq_left hle]
  have hpre' : (blocks.take n).flatten <+: blocks.flatten := by
    conv_rhs => rw [← List.take_append_drop n blocks, List.flatten_append]
    exact List.prefix_append _ _
  exact (List.prefix_of_prefix_length_le hpre hpre' (by omega)).eq_of_length
    (by omega)

end BlockBuffer
