import DpdkGraph.Text

/-!
# Lines, tokens and ids

How the text formats of graphs are taken apart: a text into lines, a line
into the tokens between its delimiters, and a token into the id of a vertex.

An id goes through `atoi`, which returns an `int`, into an unsigned type. The
library takes the number as a `long` and cuts it to an `int`, so that what
arrives is the number modulo 2^32, and an id of 32 bits arrives unchanged
(`vid_digits`).
-/

namespace Text

/-! ## Tokens -/

/-- The tokens of a text: what stands between the delimiters and is not
empty. -/
def tokens (delim : UInt8 → Bool) (s : List UInt8) : List (List UInt8) :=
  (s.splitOnP delim).filter fun t => decide (t ≠ [])

@[simp] theorem tokens_nil (delim : UInt8 → Bool) : tokens delim [] = [] := by
  unfold tokens
  rw [List.splitOnP_nil]
  rfl

/-- A text without delimiters is one token. -/
theorem tokens_singleton {delim : UInt8 → Bool} {t : List UInt8} (ht : t ≠ [])
    (h : ∀ b ∈ t, delim b = false) : tokens delim t = [t] := by
  unfold tokens
  rw [List.splitOnP_eq_singleton h]
  exact List.filter_cons_of_pos (decide_eq_true ht)

/-- The first token. -/
theorem tokens_append_cons {delim : UInt8 → Bool} {t : List UInt8} (ht : t ≠ [])
    (h : ∀ b ∈ t, delim b = false) {sep : UInt8} (hsep : delim sep = true)
    (rest : List UInt8) : tokens delim (t ++ sep :: rest) = t :: tokens delim rest := by
  unfold tokens
  rw [List.splitOnP_append_cons_of_forall_mem h sep hsep]
  exact List.filter_cons_of_pos (decide_eq_true ht)

/-- The bytes of texts that are joined. -/
theorem mem_intercalate {sep : List UInt8} {ts : List (List UInt8)} {b : UInt8}
    (hb : b ∈ sep.intercalate ts) : b ∈ sep ∨ ∃ t ∈ ts, b ∈ t := by
  induction ts with
  | nil => exact absurd hb List.not_mem_nil
  | cons t ts ih =>
    cases ts with
    | nil =>
      rw [List.intercalate_singleton] at hb
      exact Or.inr ⟨t, List.mem_cons_self, hb⟩
    | cons t' ts =>
      rw [List.intercalate_cons_cons, List.append_assoc, List.mem_append, List.mem_append] at hb
      rcases hb with hb | hb | hb
      · exact Or.inr ⟨t, List.mem_cons_self, hb⟩
      · exact Or.inl hb
      · exact (ih hb).imp id fun ⟨u, hu, hbu⟩ => ⟨u, List.mem_cons_of_mem t hu, hbu⟩

/-! ## Ids -/

/-- An id of 32 bits has at most ten digits. -/
theorem length_digits_le {n : ℕ} (hn : n < 2 ^ 32) : (digits n).length ≤ 10 := by
  unfold digits ascii
  rw [List.length_map, Nat.length_toDigits_le_iff (by decide) (by decide)]
  exact hn.trans (by decide)

theorem notMem_digits {v : ℕ} {b : UInt8} (hb : isDigit b = false) : b ∉ digits v := by
  intro hmem
  rw [isDigit_of_mem_digits hmem] at hb
  exact absurd hb.symm Bool.false_ne_true

/-- `strtol`: a number that is too large for a `long` becomes the largest. -/
def strtol (s : List UInt8) : ℤ := max (-2 ^ 63) (min (2 ^ 63 - 1) ((scan s).getD 0))

/-- `atoi`. -/
def atoi (s : List UInt8) : ℤ := (strtol s).bmod (2 ^ 32)

/-- `vid_t v = atoi(s)`. -/
def vid (s : List UInt8) : ℕ := (atoi s % 2 ^ 32).toNat

/-- **An id of 32 bits arrives unchanged.** -/
theorem vid_digits {n : ℕ} (hn : n < 2 ^ 32) {rest : List UInt8} (h : Stops rest) :
    vid (digits n ++ rest) = n := by
  have hscan : scan (digits n ++ rest) = some (n : ℤ) := by
    have hdecimal : decimal (n : ℤ) = digits n := by
      unfold decimal
      rw [if_neg (by omega), Int.natAbs_natCast]
    rw [← hdecimal]
    exact scan_decimal n h
  unfold vid atoi strtol
  rw [hscan, Option.getD_some, min_eq_right (by omega), max_eq_right (by omega)]
  have hmod : ((n : ℤ).bmod (2 ^ 32)) % 2 ^ 32 = (n : ℤ) % 2 ^ 32 := Int.bmod_emod
  rw [hmod]
  omega

end Text
