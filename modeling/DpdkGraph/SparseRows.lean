import Mathlib

/-!
# Sparse rows of numbers as bytes

A sparse table has one row of 32-bit numbers per index, most of them
empty. It is written as a sequence of **items** read against a cursor: a
*row* is the numbers of the index under the cursor, and a *skip* passes
over a run of empty indices. As bytes, a skip is `0` followed by one byte
that counts the further indices it passes; a row is its length – one byte
from `1` to `254`, or `0xff` followed by 32 bits – and then its numbers,
32 bits each, low byte first.

`SparseRows.expand` says what a sequence of items means: the pairs of an
index and a number, in order. `decodeItem_encodeItem` is the round trip of
one item, and `decodeFrom_encode` of a sequence of them against a cursor.
-/

namespace SparseRows

/-- An item of the encoding. -/
inductive Item where
  /-- The index under the cursor and `more` further ones have no numbers. -/
  | skip (more : ℕ)
  /-- The numbers of the index under the cursor. -/
  | row (targets : List ℕ)
deriving Repr, DecidableEq

namespace Item

/-- How many indices an item moves the cursor over. -/
def span : Item → ℕ
  | skip more => 1 + more
  | row _ => 1

/-- The numbers an item carries. -/
def targets : Item → List ℕ
  | skip _ => []
  | row ts => ts

/-- An item the byte format can hold. -/
def Valid : Item → Prop
  | skip more => more < 256
  | row ts => ts ≠ [] ∧ ts.length < 2 ^ 32 ∧ ∀ t ∈ ts, t < 2 ^ 32

end Item

/-! ## What a sequence of items means -/

/-- The pairs of an index and a number that the items stand for, the
cursor starting at `v`. -/
def expand : ℕ → List Item → List (ℕ × ℕ)
  | _, [] => []
  | v, it :: its => it.targets.map (fun t => (v, t)) ++ expand (v + it.span) its

/-- How far a sequence of items moves the cursor. -/
def span (its : List Item) : ℕ := (its.map Item.span).sum

@[simp] theorem expand_nil (v : ℕ) : expand v [] = [] := rfl

@[simp] theorem span_nil : span [] = 0 := rfl

@[simp] theorem span_append (its its' : List Item) :
    span (its ++ its') = span its + span its' := by
  simp [span]

@[simp] theorem span_cons (it : Item) (its : List Item) :
    span (it :: its) = it.span + span its := by
  simp [span]

/-- Items after a sequence are read with the cursor the sequence leaves. -/
theorem expand_append (v : ℕ) (its its' : List Item) :
    expand v (its ++ its') = expand v its ++ expand (v + span its) its' := by
  induction its generalizing v with
  | nil => rfl
  | cons it its ih =>
    rw [List.cons_append, expand, expand, ih, List.append_assoc, span_cons,
      Nat.add_assoc]

/-- The numbers of the expansion, forgetting the indices. -/
theorem map_snd_expand (v : ℕ) (its : List Item) :
    (expand v its).map Prod.snd = its.flatMap Item.targets := by
  induction its generalizing v with
  | nil => rfl
  | cons it its ih =>
    rw [expand, List.map_append, ih, List.flatMap_cons, List.map_map]
    congr 1
    exact List.map_id _

/-- Every index of the expansion lies between the cursor's start and its
end. -/
theorem mem_expand_bounds {v : ℕ} {its : List Item} {q : ℕ × ℕ}
    (hq : q ∈ expand v its) : v ≤ q.1 ∧ q.1 < v + span its := by
  induction its generalizing v with
  | nil => simp at hq
  | cons it its ih =>
    have hspan : 1 ≤ it.span := by cases it <;> simp [Item.span]
    rw [expand, List.mem_append, List.mem_map] at hq
    rw [span_cons]
    rcases hq with ⟨t, _, rfl⟩ | hq
    · constructor
      · exact le_rfl
      · show v < _
        omega
    · have h := ih hq
      omega

/-- The expansion lists the indices in increasing order. -/
theorem expand_sorted (v : ℕ) (its : List Item) :
    (expand v its).Pairwise (fun a b => a.1 ≤ b.1) := by
  induction its generalizing v with
  | nil => exact List.Pairwise.nil
  | cons it its ih =>
    rw [expand, List.pairwise_append]
    refine ⟨?_, ih _, ?_⟩
    · rw [List.pairwise_map]
      exact List.pairwise_of_forall (fun _ _ => le_rfl)
    · intro a ha b hb
      obtain ⟨t, _, rfl⟩ := List.mem_map.mp ha
      have h := mem_expand_bounds hb
      show v ≤ b.1
      omega

/-! ## Bytes -/

/-- A 32-bit number, low byte first. -/
def u32le (n : ℕ) : List UInt8 :=
  [UInt8.ofNat n, UInt8.ofNat (n / 2 ^ 8), UInt8.ofNat (n / 2 ^ 16),
    UInt8.ofNat (n / 2 ^ 24)]

/-- Reads a 32-bit number off the front of a byte list. -/
def readU32 : List UInt8 → Option (ℕ × List UInt8)
  | b₀ :: b₁ :: b₂ :: b₃ :: rest =>
    some (b₀.toNat + 2 ^ 8 * b₁.toNat + 2 ^ 16 * b₂.toNat + 2 ^ 24 * b₃.toNat,
      rest)
  | _ => none

/-- The length of a row: one byte below 255, else `0xff` and 32 bits. -/
def countBytes (count : ℕ) : List UInt8 :=
  if count < 255 then [UInt8.ofNat count] else 0xff :: u32le count

/-- The bytes of an item. -/
def encodeItem : Item → List UInt8
  | .skip more => [0, UInt8.ofNat more]
  | .row ts => countBytes ts.length ++ ts.flatMap u32le

/-- The bytes of a sequence of items. -/
def encode (its : List Item) : List UInt8 := its.flatMap encodeItem

/-- Reads `n` 32-bit numbers off the front of a byte list. -/
def readTargets : ℕ → List UInt8 → Option (List ℕ × List UInt8)
  | 0, bs => some ([], bs)
  | n + 1, bs =>
    (readU32 bs).bind fun t =>
      (readTargets n t.2).map fun ts => (t.1 :: ts.1, ts.2)

/-- Reads the length of a row whose first byte, `ns`, is not zero. -/
def readCount (ns : UInt8) (bs : List UInt8) : Option (ℕ × List UInt8) :=
  if ns = 0xff then readU32 bs else some (ns.toNat, bs)

/-- Reads the rest of a skip, after its zero byte. -/
def decodeSkip : List UInt8 → Option (Item × List UInt8)
  | [] => none
  | nz :: bs => some (.skip nz.toNat, bs)

/-- Reads the rest of a row, after its first byte `ns`. -/
def decodeRow (ns : UInt8) (bs : List UInt8) : Option (Item × List UInt8) :=
  (readCount ns bs).bind fun c =>
    (readTargets c.1 c.2).map fun ts => (.row ts.1, ts.2)

/-- Reads one item off the front of a byte list. -/
def decodeItem : List UInt8 → Option (Item × List UInt8)
  | [] => none
  | ns :: bs => if ns = 0 then decodeSkip bs else decodeRow ns bs

@[simp] theorem encode_nil : encode [] = [] := rfl

@[simp] theorem encode_append (its its' : List Item) :
    encode (its ++ its') = encode its ++ encode its' :=
  List.flatMap_append

@[simp] theorem encode_singleton (it : Item) : encode [it] = encodeItem it := by
  simp [encode]

theorem encode_cons (it : Item) (its : List Item) :
    encode (it :: its) = encodeItem it ++ encode its := rfl

/-- A 32-bit number is read back from its bytes. -/
theorem readU32_u32le {n : ℕ} (hn : n < 2 ^ 32) (rest : List UInt8) :
    readU32 (u32le n ++ rest) = some (n, rest) := by
  simp only [u32le, List.cons_append, List.nil_append, readU32, UInt8.toNat_ofNat']
  congr 2
  omega

/-- A list of 32-bit numbers is read back from its bytes. -/
theorem readTargets_flatMap {ts : List ℕ} (hts : ∀ t ∈ ts, t < 2 ^ 32)
    (rest : List UInt8) :
    readTargets ts.length (ts.flatMap u32le ++ rest) = some (ts, rest) := by
  induction ts with
  | nil => rfl
  | cons t ts ih =>
    have ht : t < 2 ^ 32 := hts t List.mem_cons_self
    have ih' := ih (fun u hu => hts u (List.mem_cons_of_mem _ hu))
    rw [List.flatMap_cons, List.append_assoc, List.length_cons, readTargets,
      readU32_u32le ht]
    simp only [Option.bind_some, ih', Option.map_some]

/-- The bytes of a row length start with a byte that is not zero, from
which the length is read back. -/
theorem countBytes_spec {n : ℕ} (hn : 0 < n) (hlt : n < 2 ^ 32)
    (rest : List UInt8) :
    ∃ ns bs, countBytes n ++ rest = ns :: bs ∧ ns ≠ 0
      ∧ readCount ns bs = some (n, rest) := by
  unfold countBytes
  split
  · next h =>
    have hnat : (UInt8.ofNat n).toNat = n := by
      rw [UInt8.toNat_ofNat']
      omega
    refine ⟨UInt8.ofNat n, rest, rfl, ?_, ?_⟩
    · intro h0
      rw [h0] at hnat
      have : (0 : UInt8).toNat = 0 := rfl
      omega
    · unfold readCount
      rw [if_neg, hnat]
      intro hff
      rw [hff] at hnat
      have : (0xff : UInt8).toNat = 255 := rfl
      omega
  · refine ⟨0xff, u32le n ++ rest, rfl, by decide, ?_⟩
    rw [readCount, if_pos rfl, readU32_u32le hlt]

/-- **One item round-trips.** -/
theorem decodeItem_encodeItem {it : Item} (hv : it.Valid) (rest : List UInt8) :
    decodeItem (encodeItem it ++ rest) = some (it, rest) := by
  cases it with
  | skip more =>
    have hnat : (UInt8.ofNat more).toNat = more := by
      rw [UInt8.toNat_ofNat']
      exact Nat.mod_eq_of_lt hv
    simp [encodeItem, decodeItem, decodeSkip, hnat]
  | row ts =>
    obtain ⟨hne, hlen, hlt⟩ := hv
    have hpos : 0 < ts.length := List.length_pos_iff.mpr hne
    obtain ⟨ns, bs, happ, hns, hcount⟩ :=
      countBytes_spec hpos hlen (ts.flatMap u32le ++ rest)
    rw [encodeItem, List.append_assoc, happ, decodeItem, if_neg hns, decodeRow,
      hcount]
    simp only [Option.bind_some, readTargets_flatMap hlt, Option.map_some]

/-- An item takes at least one byte. -/
theorem encodeItem_ne_nil {it : Item} (hv : it.Valid) : encodeItem it ≠ [] := by
  intro h
  have hd := decodeItem_encodeItem hv []
  rw [h] at hd
  simp [decodeItem] at hd

/-! ## Reading a whole sequence -/

/-- Reads items until the bytes run out, the cursor starting at `v`, for at
most `fuel` items. -/
def decodeFrom : ℕ → ℕ → List UInt8 → Option (List (ℕ × ℕ))
  | _, _, [] => some []
  | 0, _, _ :: _ => none
  | fuel + 1, v, b :: bs =>
    (decodeItem (b :: bs)).bind fun it =>
      (decodeFrom fuel (v + it.1.span) it.2).map fun l =>
        it.1.targets.map (fun t => (v, t)) ++ l

/-- **A sequence of items round-trips**: reading its bytes gives the pairs
it stands for, with any fuel that covers the bytes. -/
theorem decodeFrom_encode {its : List Item} (hv : ∀ it ∈ its, it.Valid)
    {fuel v : ℕ} (hfuel : (encode its).length ≤ fuel) :
    decodeFrom fuel v (encode its) = some (expand v its) := by
  induction its generalizing fuel v with
  | nil => cases fuel <;> rfl
  | cons it its ih =>
    have hit : it.Valid := hv it List.mem_cons_self
    have hits : ∀ i ∈ its, i.Valid := fun i hi => hv i (List.mem_cons_of_mem _ hi)
    obtain ⟨b, bs, hb⟩ := List.exists_cons_of_ne_nil (encodeItem_ne_nil hit)
    have hlen : (encode (it :: its)).length
        = (encodeItem it).length + (encode its).length := by
      rw [encode_cons, List.length_append]
    have hpos : 0 < (encodeItem it).length :=
      List.length_pos_iff.mpr (encodeItem_ne_nil hit)
    obtain ⟨f, rfl⟩ : ∃ f, fuel = f + 1 := ⟨fuel - 1, by omega⟩
    have hd := decodeItem_encodeItem hit (encode its)
    rw [encode_cons, hb, List.cons_append, decodeFrom, ← List.cons_append, ← hb, hd]
    simp only [Option.bind_some]
    rw [ih hits (by omega)]
    rfl

end SparseRows
