import Mathlib
import DpdkGraph.SparseRows

/-!
# Streams that arrive in pieces

The bytes of a connection arrive in pieces, and a call of `read` returns
what there is of the first one. `reada` calls it until as many bytes have
come as were asked for or the stream has ended; what it gives does not
depend on the pieces (`reada_fst`), and neither does what it leaves for the
next call (`flatten_reada_snd`).

Numbers of 64 bits are sent as they lie in memory, low byte first.
-/

namespace ByteStream

open SparseRows (u32le readU32)

variable {α : Type}

/-- **Reads until `n` items have come or the stream has ended.** A piece
without any would be taken for the end. -/
def reada : ℕ → List (List α) → List α × List (List α)
  | _, [] => ([], [])
  | n, p :: ps =>
    if n = 0 ∨ p = [] then ([], p :: ps)
    else if p.length ≤ n then
      (p ++ (reada (n - p.length) ps).1, (reada (n - p.length) ps).2)
    else (p.take n, p.drop n :: ps)

/-- A stream in pieces, before its end. -/
structure Pieces (stream : List α) where
  /-- The pieces, in their order. -/
  list : List (List α)
  flatten : list.flatten = stream
  ne_nil : ∀ p ∈ list, p ≠ []

/-- Item by item. -/
def Pieces.single (stream : List α) : Pieces stream where
  list := stream.map fun a => [a]
  flatten := by
    induction stream with
    | nil => rfl
    | cons a as ih =>
      rw [List.map_cons, List.flatten_cons, ih, List.singleton_append]
  ne_nil p hp := by
    obtain ⟨a, -, rfl⟩ := List.mem_map.mp hp
    exact List.cons_ne_nil a []

/-- **A read gives the front of the stream.** -/
theorem reada_fst {ps : List (List α)} (hne : ∀ p ∈ ps, p ≠ []) (n : ℕ) :
    (reada n ps).1 = ps.flatten.take n := by
  induction ps generalizing n with
  | nil => rw [List.flatten_nil, List.take_nil, reada]
  | cons p ps ih =>
    have hp : p ≠ [] := hne p List.mem_cons_self
    have ih' := ih fun q hq => hne q (List.mem_cons_of_mem p hq)
    rw [List.flatten_cons, List.take_append]
    unfold reada
    by_cases hn : n = 0
    · rw [if_pos (Or.inl hn), hn, List.take_zero, Nat.zero_sub, List.take_zero]
      rfl
    · rw [if_neg (not_or.mpr ⟨hn, hp⟩)]
      split
      · next hle =>
        rw [List.take_of_length_le hle]
        exact congrArg (p ++ ·) (ih' _)
      · next hlt =>
        rw [Nat.sub_eq_zero_of_le (by omega), List.take_zero, List.append_nil]

/-- **The rest of the stream is left.** -/
theorem flatten_reada_snd {ps : List (List α)} (hne : ∀ p ∈ ps, p ≠ [])
    (n : ℕ) : (reada n ps).2.flatten = ps.flatten.drop n := by
  induction ps generalizing n with
  | nil => rw [List.flatten_nil, List.drop_nil, reada, List.flatten_nil]
  | cons p ps ih =>
    have hp : p ≠ [] := hne p List.mem_cons_self
    have ih' := ih fun q hq => hne q (List.mem_cons_of_mem p hq)
    rw [List.flatten_cons, List.drop_append]
    unfold reada
    by_cases hn : n = 0
    · rw [if_pos (Or.inl hn), hn, List.drop_zero, Nat.zero_sub, List.drop_zero]
      rfl
    · rw [if_neg (not_or.mpr ⟨hn, hp⟩)]
      split
      · next hle =>
        rw [List.drop_eq_nil_of_le hle, List.nil_append]
        exact ih' _
      · next hlt =>
        rw [Nat.sub_eq_zero_of_le (by omega), List.drop_zero, List.flatten_cons]

/-- The pieces that are left are not empty either. -/
theorem ne_nil_of_mem_reada_snd {ps : List (List α)} (hne : ∀ p ∈ ps, p ≠ [])
    (n : ℕ) : ∀ p ∈ (reada n ps).2, p ≠ [] := by
  induction ps generalizing n with
  | nil => exact fun p hp => absurd hp List.not_mem_nil
  | cons p ps ih =>
    have ih' := ih fun q hq => hne q (List.mem_cons_of_mem p hq)
    unfold reada
    split
    · exact hne
    · split
      · exact ih' _
      · next hlt =>
        intro q hq
        rcases List.mem_cons.mp hq with rfl | hq
        · exact fun h => hlt (List.drop_eq_nil_iff.mp h)
        · exact hne q (List.mem_cons_of_mem p hq)

/-- What is left after a read, as a stream in pieces. -/
def Pieces.rest {stream : List α} (c : Pieces stream) (n : ℕ) :
    Pieces (stream.drop n) where
  list := (reada n c.list).2
  flatten := by rw [flatten_reada_snd c.ne_nil, c.flatten]
  ne_nil := ne_nil_of_mem_reada_snd c.ne_nil n

theorem Pieces.reada_eq {stream : List α} (c : Pieces stream) (n : ℕ) :
    reada n c.list = (stream.take n, (c.rest n).list) :=
  Prod.ext (by rw [reada_fst c.ne_nil, c.flatten]) rfl

/-! ## Numbers of 64 bits -/

/-- A 64-bit number, low byte first. -/
def u64le (n : ℕ) : List UInt8 := u32le n ++ u32le (n / 2 ^ 32)

/-- Reads a 64-bit number off the front of a byte list. -/
def readU64 (bs : List UInt8) : Option (ℕ × List UInt8) :=
  (readU32 bs).bind fun low =>
    (readU32 low.2).map fun high => (low.1 + 2 ^ 32 * high.1, high.2)

@[simp] theorem length_u32le (n : ℕ) : (u32le n).length = 4 := rfl

@[simp] theorem length_u64le (n : ℕ) : (u64le n).length = 8 := rfl

/-- What is read is the number, as far as it fits. -/
theorem readU32_u32le_mod (n : ℕ) (rest : List UInt8) :
    readU32 (u32le n ++ rest) = some (n % 2 ^ 32, rest) := by
  simp only [u32le, List.cons_append, List.nil_append, readU32,
    UInt8.toNat_ofNat']
  congr 2
  omega

theorem readU64_u64le_mod (n : ℕ) (rest : List UInt8) :
    readU64 (u64le n ++ rest) = some (n % 2 ^ 64, rest) := by
  unfold readU64 u64le
  rw [List.append_assoc, readU32_u32le_mod, Option.bind_some,
    readU32_u32le_mod, Option.map_some]
  congr 2
  show n % 2 ^ 32 + 2 ^ 32 * (n / 2 ^ 32 % 2 ^ 32) = n % 2 ^ 64
  omega

end ByteStream
