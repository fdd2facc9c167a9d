import Mathlib

/-!
# Text in bytes

What a C program does to build a line of text and to take it apart again:
numbers printed in decimal and scanned, the first and the last place of a
delimiter, a piece cut out between two places. Text ends at the first NUL.

`scan_decimal` is the round trip of a number, `findFirst_append` and
`findLast_append` find a delimiter that does not occur in the text before
it, or behind it.
-/

namespace Text

/-- ASCII characters as bytes. -/
def ascii (cs : List Char) : List UInt8 := cs.map fun c => UInt8.ofNat c.toNat

/-- The text up to the first NUL; none where there is no NUL. -/
def cstr (bs : List UInt8) : Option (List UInt8) :=
  if 0 ∈ bs then some (bs.takeWhile (· ≠ 0)) else none

/-- The text before a NUL that follows it is the whole text. -/
theorem cstr_append {text : List UInt8} (h : 0 ∉ text) (rest : List UInt8) :
    cstr (text ++ 0 :: rest) = some text := by
  have hall : ∀ b ∈ text, decide (b ≠ 0) = true :=
    fun b hb => decide_eq_true fun h0 => h (h0 ▸ hb)
  unfold cstr
  rw [if_pos (List.mem_append_right _ List.mem_cons_self),
    List.takeWhile_append_of_pos hall, List.takeWhile_cons_of_neg (by simp),
    List.append_nil]

/-! ## Delimiters -/

/-- `find_first_of`; `-1` stands for `npos`. -/
def findFirst (c : UInt8) (s : List UInt8) : ℤ :=
  if c ∈ s then s.idxOf c else -1

/-- `find_last_of`. -/
def findLast (c : UInt8) (s : List UInt8) : ℤ :=
  if c ∈ s then s.length - 1 - s.reverse.idxOf c else -1

/-- `substr`; a negative count is a very large one. -/
def substr (s : List UInt8) (pos count : ℤ) : List UInt8 :=
  if count < 0 then s.drop pos.toNat else (s.drop pos.toNat).take count.toNat

theorem findFirst_append {c : UInt8} {a : List UInt8} (h : c ∉ a)
    (b : List UInt8) : findFirst c (a ++ c :: b) = a.length := by
  unfold findFirst
  rw [if_pos (List.mem_append_right _ List.mem_cons_self),
    List.idxOf_append_of_notMem h, List.idxOf_cons_self, Nat.add_zero]

theorem findLast_append {c : UInt8} {b : List UInt8} (h : c ∉ b)
    (a : List UInt8) : findLast c (a ++ c :: b) = a.length := by
  have hrev : (a ++ c :: b).reverse = b.reverse ++ c :: a.reverse := by
    rw [List.reverse_append, List.reverse_cons, List.append_assoc,
      List.singleton_append]
  unfold findLast
  rw [if_pos (List.mem_append_right _ List.mem_cons_self), hrev,
    List.idxOf_append_of_notMem (by rwa [List.mem_reverse]),
    List.idxOf_cons_self, List.length_reverse, List.length_append,
    List.length_cons]
  omega

/-- The piece between two places. -/
theorem substr_append (a b c : List UInt8) :
    substr (a ++ b ++ c) a.length b.length = b := by
  unfold substr
  rw [if_neg (by omega), Int.toNat_natCast, Int.toNat_natCast,
    List.append_assoc, List.drop_left, List.take_left]

/-- The piece from a place on. -/
theorem substr_toEnd (a b : List UInt8) : substr (a ++ b) a.length (-1) = b := by
  unfold substr
  rw [if_pos (by omega), Int.toNat_natCast, List.drop_left]

/-! ## Numbers -/

/-- Whether a byte is a digit. -/
def isDigit (b : UInt8) : Bool := decide (48 ≤ b.toNat ∧ b.toNat ≤ 57)

/-- The bytes that a scan passes over: blank, and `\t` to `\r`. -/
def isSpace (b : UInt8) : Bool :=
  decide (b.toNat = 32 ∨ (9 ≤ b.toNat ∧ b.toNat ≤ 13))

/-- The value of digits. -/
def digitsValue (ds : List UInt8) : ℕ :=
  ds.foldl (fun v b => 10 * v + (b.toNat - 48)) 0

/-- The digits of a number. -/
def digits (n : ℕ) : List UInt8 := ascii (Nat.toDigits 10 n)

/-- **A number in decimal**, as `%d` and `%ld` print it. -/
def decimal (z : ℤ) : List UInt8 :=
  if z < 0 then 45 :: digits z.natAbs else digits z.natAbs

/-- What follows the sign of a number. -/
def scanDigits (s : List UInt8) : Option ℕ :=
  if s.takeWhile isDigit = [] then none
  else some (digitsValue (s.takeWhile isDigit))

/-- A number from its sign on. -/
def scanNumber : List UInt8 → Option ℤ
  | [] => none
  | b :: rest =>
    if b = 45 then (scanDigits rest).map fun n : ℕ => -(n : ℤ)
    else if b = 43 then (scanDigits rest).map fun n : ℕ => (n : ℤ)
    else (scanDigits (b :: rest)).map fun n : ℕ => (n : ℤ)

/-- **Scans a number**, as `%d` and `%ld` do before they fit it into their
types: blanks, a sign, and digits up to the first byte that is none. -/
def scan (s : List UInt8) : Option ℤ := scanNumber (s.dropWhile isSpace)

theorem toNat_ofNat_digit {c : Char} (h : c.isDigit = true) :
    (UInt8.ofNat c.toNat).toNat = c.toNat ∧ 48 ≤ c.toNat ∧ c.toNat ≤ 57 := by
  unfold Char.isDigit at h
  rw [Bool.and_eq_true, decide_eq_true_eq, decide_eq_true_eq] at h
  have hlow : 48 ≤ c.toNat := UInt32.le_iff_toNat_le.mp h.1
  have hhigh : c.toNat ≤ 57 := UInt32.le_iff_toNat_le.mp h.2
  refine ⟨?_, hlow, hhigh⟩
  rw [UInt8.toNat_ofNat']
  omega

theorem isDigit_of_mem_digits {n : ℕ} {b : UInt8} (hb : b ∈ digits n) :
    isDigit b = true := by
  obtain ⟨c, hc, rfl⟩ := List.mem_map.mp hb
  have hdigit := Nat.isDigit_of_mem_toDigits (by decide) (by decide) hc
  obtain ⟨hnat, hlow, hhigh⟩ := toNat_ofNat_digit hdigit
  exact decide_eq_true ⟨by omega, by omega⟩

theorem digits_ne_nil (n : ℕ) : digits n ≠ [] := by
  unfold digits ascii
  exact fun h => Nat.toDigits_ne_nil (List.map_eq_nil_iff.mp h)

/-- The digits of a number have its value. -/
theorem digitsValue_digits (n : ℕ) : digitsValue (digits n) = n := by
  have hfold : ∀ (cs : List Char), (∀ c ∈ cs, c.isDigit = true) → ∀ v : ℕ,
      (ascii cs).foldl (fun v b => 10 * v + (b.toNat - 48)) v =
        Nat.ofDigitChars 10 cs v := by
    intro cs
    induction cs with
    | nil => exact fun _ v => rfl
    | cons c cs ih =>
      intro hcs v
      obtain ⟨hnat, -, -⟩ := toNat_ofNat_digit (hcs c List.mem_cons_self)
      have ih' := ih (fun d hd => hcs d (List.mem_cons_of_mem c hd))
      rw [Nat.ofDigitChars_cons, ← ih']
      show (ascii cs).foldl _ (10 * v + ((UInt8.ofNat c.toNat).toNat - 48)) = _
      rw [hnat]
      rfl
  unfold digitsValue digits
  rw [hfold _ (fun c hc =>
    Nat.isDigit_of_mem_toDigits (by decide) (by decide) hc) 0]
  exact Nat.ofDigitChars_ten_toDigits

/-- A place where digits end. -/
def Stops (rest : List UInt8) : Prop := ∀ b ∈ rest.head?, isDigit b = false

theorem scanDigits_digits (n : ℕ) {rest : List UInt8} (h : Stops rest) :
    scanDigits (digits n ++ rest) = some n := by
  have htake : (digits n ++ rest).takeWhile isDigit = digits n := by
    rw [List.takeWhile_append_of_pos fun b hb => isDigit_of_mem_digits hb]
    cases rest with
    | nil => rw [List.takeWhile_nil, List.append_nil]
    | cons b rest =>
      rw [List.takeWhile_cons_of_neg (by simpa using h b rfl), List.append_nil]
  unfold scanDigits
  rw [htake, if_neg (digits_ne_nil n), digitsValue_digits]

/-- **A number is scanned as it was printed**, if no digit follows it. -/
theorem scan_decimal (z : ℤ) {rest : List UInt8} (h : Stops rest) :
    scan (decimal z ++ rest) = some z := by
  have hscan := scanDigits_digits z.natAbs h
  unfold scan decimal
  split
  · next hz =>
    rw [List.cons_append, List.dropWhile_cons_of_neg (by decide), scanNumber,
      if_pos rfl, hscan, Option.map_some]
    congr 1
    omega
  · next hz =>
    obtain ⟨d, ds, hd⟩ := List.exists_cons_of_ne_nil (digits_ne_nil z.natAbs)
    have hdigit : isDigit d = true :=
      isDigit_of_mem_digits (hd ▸ List.mem_cons_self)
    have hspace : ¬isSpace d = true := fun hs => by
      have hrange := of_decide_eq_true hdigit
      have := of_decide_eq_true hs
      omega
    have hne : ∀ b : UInt8, isDigit b = false → d ≠ b := by
      rintro b hb rfl
      rw [hb] at hdigit
      exact absurd hdigit (by decide)
    rw [hd, List.cons_append] at hscan ⊢
    rw [List.dropWhile_cons_of_neg hspace, scanNumber,
      if_neg (hne 45 (by decide)), if_neg (hne 43 (by decide)), hscan,
      Option.map_some]
    congr 1
    omega

/-- Which bytes a number is printed with. -/
theorem mem_decimal {z : ℤ} {b : UInt8} (hb : b ∈ decimal z) :
    b = 45 ∨ isDigit b = true := by
  unfold decimal at hb
  split at hb
  · rcases List.mem_cons.mp hb with rfl | hb
    · exact Or.inl rfl
    · exact Or.inr (isDigit_of_mem_digits hb)
  · exact Or.inr (isDigit_of_mem_digits hb)

/-- A delimiter does not occur in a number. -/
theorem notMem_decimal {b : UInt8} (z : ℤ) (hsign : b ≠ 45)
    (hdigit : isDigit b = false) : b ∉ decimal z := by
  intro hb
  rcases mem_decimal hb with h | h
  · exact hsign h
  · rw [hdigit] at h
    exact absurd h (by decide)

end Text
