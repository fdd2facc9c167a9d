import Mathlib
import DpdkGraph.CommandFraming

/-!
# What a file is after it has been received

The name of a file is cut out of the head up to the first blank, so that a
name with a blank in it is cut short, and another file is written. A file
that is there already is not shortened when it is opened: behind the bytes
that are stored it keeps what it had (`recv_file`). So the receiver has what
was sent, under the name under which it was sent, when there is no blank in
the name and no older file is longer (`transferred_iff`).
-/

namespace Transfer

open ByteStream (reada Pieces)
open Text (ascii decimal findFirst findLast substr scan findFirst_append
  findLast_append substr_append substr_toEnd scan_decimal notMem_decimal)
open BlockBuffer (overwrite)

/-! ## The head of a file -/

/-- The name under which the receiver stores a file. -/
def FileSenderExec.cutName (f : FileSenderExec) : List UInt8 :=
  f.filename.takeWhile (· ≠ 32)

/-- A name with a blank is cut short, another one is not. -/
theorem cutName_eq_iff (f : FileSenderExec) :
    f.cutName = f.filename ↔ 32 ∉ f.filename := by
  unfold FileSenderExec.cutName
  rw [List.takeWhile_eq_self_iff]
  constructor
  · exact fun h hmem => absurd rfl (of_decide_eq_true (h 32 hmem))
  · exact fun h b hb => decide_eq_true fun h0 => h (h0 ▸ hb)

/-- The first blank of what follows `filename:` ends the name that is cut
out. -/
theorem exists_blank (f : FileSenderExec) :
    ∃ tail, f.filename ++ filesizeText ++ decimal (f.content.length : ℤ) =
      f.cutName ++ 32 :: tail := by
  have hsplit := List.takeWhile_append_dropWhile (p := (· ≠ 32))
    (l := f.filename)
  cases hrest : f.filename.dropWhile (· ≠ 32) with
  | nil =>
    rw [hrest, List.append_nil] at hsplit
    refine ⟨ascii ['f', 'i', 'l', 'e', 's', 'i', 'z', 'e', ':'] ++
      decimal (f.content.length : ℤ), ?_⟩
    unfold FileSenderExec.cutName
    rw [hsplit, List.append_assoc]
    rfl
  | cons b rest =>
    have hb : b = 32 := by
      have h := List.head_dropWhile_not (fun b => decide (b ≠ 32))
        (l := f.filename) (by rw [hrest]; exact List.cons_ne_nil b rest)
      simp only [hrest, List.head_cons] at h
      by_contra hne
      rw [decide_eq_true hne] at h
      exact absurd h (by decide)
    rw [hrest, hb] at hsplit
    refine ⟨rest ++ filesizeText ++ decimal (f.content.length : ℤ), ?_⟩
    conv_lhs => rw [← hsplit]
    simp [FileSenderExec.cutName]

/-- **The name that is cut out of the head** is the name up to its first blank,
since a blank is what the head is cut at. -/
theorem cutFilename_headtip (f : FileSenderExec) :
    cutFilename f.headtip = f.cutName := by
  obtain ⟨tail, htail⟩ := exists_blank f
  have hhead : f.headtip = filenameText ++ f.cutName ++ 32 :: tail := by
    unfold FileSenderExec.headtip
    rw [List.append_assoc, List.append_assoc, ← List.append_assoc f.filename,
      htail, List.append_assoc]
  have hcolon : findFirst 58 f.headtip = 8 := by
    rw [hhead]
    exact findFirst_append
      (a := ascii ['f', 'i', 'l', 'e', 'n', 'a', 'm', 'e']) (by decide)
      (f.cutName ++ 32 :: tail)
  have hblank : findFirst 32 f.headtip = 9 + f.cutName.length := by
    have hnot : (32 : UInt8) ∉ filenameText ++ f.cutName := by
      rw [List.mem_append, not_or]
      refine ⟨by decide, fun h => ?_⟩
      have hne := List.mem_takeWhile_imp (p := fun b => decide (b ≠ 32)) h
      exact absurd rfl (of_decide_eq_true hne)
    have h := findFirst_append hnot tail
    rw [List.length_append] at h
    rw [hhead, h]
    rfl
  unfold cutFilename
  rw [hcolon, hblank, hhead]
  have hcount : (9 + f.cutName.length : ℤ) - 8 - 1 = f.cutName.length := by
    omega
  rw [hcount]
  exact substr_append filenameText f.cutName (32 :: tail)

/-- The size that is cut out of the head. -/
theorem atol_cutFilesize_headtip (f : FileSenderExec) :
    atol (cutFilesize f.headtip) = f.content.length := by
  have hnot : (58 : UInt8) ∉ decimal (f.content.length : ℤ) :=
    notMem_decimal _ (by decide) (by decide)
  have hlast := findLast_append hnot (filenameText ++ f.filename ++
    ascii [' ', 'f', 'i', 'l', 'e', 's', 'i', 'z', 'e'])
  have hhead : f.headtip = filenameText ++ f.filename ++
      ascii [' ', 'f', 'i', 'l', 'e', 's', 'i', 'z', 'e'] ++
        58 :: decimal (f.content.length : ℤ) := by
    unfold FileSenderExec.headtip
    simp [filesizeText, ascii]
  have hcut : cutFilesize f.headtip = decimal (f.content.length : ℤ) := by
    have h := substr_toEnd (filenameText ++ f.filename ++ filesizeText)
      (decimal (f.content.length : ℤ))
    unfold cutFilesize
    rw [← hhead] at hlast
    rw [hlast]
    refine Eq.trans ?_ h
    congr 1
    simp [filesizeText, ascii]
    omega
  have hscan : scan (decimal (f.content.length : ℤ)) =
      some (f.content.length : ℤ) := by
    have h : scan (decimal (f.content.length : ℤ) ++ []) =
        some (f.content.length : ℤ) :=
      scan_decimal _ fun b hb => absurd hb (by simp)
    rwa [List.append_nil] at h
  have hlt := f.size_lt
  unfold atol clampLong
  rw [hcut, hscan, Option.getD_some, min_eq_right (by omega),
    max_eq_right (by omega)]

/-- The head of a file has no NUL in it. -/
theorem noNul_headtip (f : FileSenderExec) : 0 ∉ f.headtip := by
  unfold FileSenderExec.headtip
  simp only [List.mem_append, not_or]
  exact ⟨⟨⟨by decide, f.noNul⟩, by decide⟩,
    notMem_decimal _ (by decide) (by decide)⟩

/-- The head of a file is short. -/
theorem length_headtip_lt (f : FileSenderExec) :
    f.headtip.length + 14 < 2 ^ 31 := by
  have hname := f.length_lt
  have hsize : (decimal (f.content.length : ℤ)).length ≤ 19 := by
    have hlt := f.size_lt
    unfold decimal Text.digits ascii
    rw [if_neg (by omega), List.length_map, Int.natAbs_natCast,
      Nat.length_toDigits_le_iff (by decide) (by decide)]
    omega
  unfold FileSenderExec.headtip
  rw [List.length_append, List.length_append, List.length_append]
  show 9 + f.filename.length + 10 + _ + 14 < _
  omega

/-! ## The file is stored -/

/-- A piece stored behind what has been stored. -/
theorem overwrite_append_drop {α : Type} (got temp old : List α) :
    overwrite (got ++ old.drop got.length) got.length temp =
      got ++ temp ++ old.drop (got ++ temp).length := by
  unfold overwrite
  rw [List.take_left, List.length_append, ← List.drop_drop, List.drop_left,
    List.drop_drop]

/-- **The loop stores what is still to come**, however it is cut into pieces.
What is in the file behind it stays, because the file is not made empty
first. -/
theorem recvBlocks_pieces (old : List UInt8) (fuel : ℕ) :
    ∀ (got rest : List UInt8) (d : Pieces rest), rest.length + 1 < fuel →
      recvBlocks ((got.length + rest.length : ℕ) : ℤ) fuel
          (got ++ old.drop got.length) got.length d.list =
        .ok (got ++ rest ++ old.drop (got ++ rest).length,
          got.length + rest.length) := by
  induction fuel with
  | zero => exact fun got rest d h => absurd h (by omega)
  | succ fuel ih =>
    intro got rest d hfuel
    unfold recvBlocks
    by_cases hnil : rest = []
    · subst hnil
      rw [if_neg (by rw [List.length_nil]; omega), List.append_nil,
        List.length_nil, Nat.add_zero]
    · have hpos : 0 < rest.length := List.length_pos_iff.mpr hnil
      have htemp : 0 < (rest.take bufferSize).length := by
        rw [List.length_take, bufferSize]
        omega
      have hsum : (got ++ rest.take bufferSize).length +
          (rest.drop bufferSize).length = got.length + rest.length := by
        rw [List.length_append, Nat.add_assoc, ← List.length_append,
          List.take_append_drop]
      have hall : got ++ rest.take bufferSize ++ rest.drop bufferSize =
          got ++ rest := by
        rw [List.append_assoc, List.take_append_drop]
      have hnext := ih (got ++ rest.take bufferSize) (rest.drop bufferSize)
        (d.rest bufferSize) (by rw [List.length_append] at hsum; omega)
      rw [hsum, hall] at hnext
      rw [if_pos (by omega), d.reada_eq]
      dsimp only
      have hplace : got.length + (rest.take bufferSize).length =
          (got ++ rest.take bufferSize).length := List.length_append.symm
      rw [overwrite_append_drop, hplace]
      exact hnext

/-- **A file is stored over the beginning of what was there**, under the name
cut out of the head. However the bytes come, the pieces are put one behind the
other from the start of the old file, which is opened without being emptied;
what it has behind them is left. -/
theorem recv_file (dir : Directory) (f : FileSenderExec) (c : Pieces f.send) :
    recv dir c.list = .ok (.file
      (if f.cutName = [] then dir
      else Function.update dir f.cutName (some (f.content ++
        ((dir f.cutName).getD []).drop f.content.length)))) := by
  have hsend : f.send = headBytes (kindF :: f.headtip) f.content.length ++
      f.content := by
    unfold FileSenderExec.send
    rw [sendBlocks_eq]
  -- the head is read whole, with the first `n` bytes of the file behind it
  obtain ⟨n, d, hhead⟩ := recvHead_pieces (noNul_headtip f)
    (length_headtip_lt f) ⟨c.list, c.flatten.trans hsend, c.ne_nil⟩
  have hextra : (f.content.take n).length + (f.content.drop n).length =
      f.content.length := by
    rw [← List.length_append, List.take_append_drop]
  have hfile : recvFile dir ⟨kindF, f.headtip, f.content.length,
      f.content.take n, d.list⟩ =
      .ok (if f.cutName = [] then dir
        else Function.update dir f.cutName (some (f.content ++
          ((dir f.cutName).getD []).drop f.content.length))) := by
    unfold recvFile
    dsimp only
    rw [atol_cutFilesize_headtip, cutFilename_headtip, if_neg (by simp)]
    by_cases hname : f.cutName = []
    · rw [if_pos hname, if_pos hname]
    · -- these are stored over the old beginning, and then each block over what follows
      have hfirst := overwrite_append_drop [] (f.content.take n)
        ((dir f.cutName).getD [])
      rw [List.nil_append, List.length_nil, List.drop_zero,
        List.nil_append] at hfirst
      have hblocks := recvBlocks_pieces ((dir f.cutName).getD [])
        (d.list.flatten.length + 2) (f.content.take n) (f.content.drop n) d
        (by rw [d.flatten]; omega)
      rw [hextra, List.take_append_drop] at hblocks
      rw [if_neg hname, if_neg hname, hfirst, hblocks]
      dsimp only
      rw [if_pos rfl]
  unfold recv
  rw [hhead]
  dsimp only
  rw [if_neg (by decide), if_pos rfl, toInt64_natCast f.size_lt, hfile]
  rfl

/-! ## The law -/

/-- **A file has been transferred** when the receiver's file of its name has
exactly its content, in however many pieces the stream has arrived. -/
def Transferred (dir : Directory) (f : FileSenderExec) : Prop :=
  ∀ c : Pieces f.send, ∃ dir', recv dir c.list = .ok (.file dir') ∧
    dir' f.filename = some f.content

/-- The directory afterwards is the same for all pieces. -/
theorem transferred_iff_eq (dir : Directory) (f : FileSenderExec) :
    Transferred dir f ↔
      (if f.cutName = [] then dir
      else Function.update dir f.cutName (some (f.content ++
        ((dir f.cutName).getD []).drop f.content.length))) f.filename =
      some f.content := by
  constructor
  · intro h
    obtain ⟨dir', hrecv, hdir⟩ := h (Pieces.single _)
    rw [recv_file, Except.ok.injEq, Received.file.injEq] at hrecv
    rw [hrecv, hdir]
  · exact fun h c => ⟨_, recv_file dir f c, h⟩

/-- **When the receiver has what was sent**: the name has no blank and an
older file is no longer than the new one. With a blank in the name the file
of that name is not touched. -/
theorem transferred_iff (dir : Directory) (f : FileSenderExec) :
    Transferred dir f ↔
      (32 ∉ f.filename ∧
        ∀ old, dir f.filename = some old → old.length ≤ f.content.length) ∨
      (32 ∈ f.filename ∧ dir f.filename = some f.content) := by
  rw [transferred_iff_eq]
  by_cases hblank : 32 ∈ f.filename
  · have hne : f.filename ≠ f.cutName := fun h =>
      (cutName_eq_iff f).mp h.symm hblank
    have hdir : (if f.cutName = [] then dir
        else Function.update dir f.cutName (some (f.content ++
          ((dir f.cutName).getD []).drop f.content.length))) f.filename =
        dir f.filename := by
      split
      · rfl
      · exact Function.update_of_ne hne _ _
    rw [hdir]
    constructor
    · exact fun h => Or.inr ⟨hblank, h⟩
    · rintro (h | h)
      · exact absurd hblank h.1
      · exact h.2
  · have hcut : f.cutName = f.filename := (cutName_eq_iff f).mpr hblank
    have hkeep : (f.content ++ ((dir f.filename).getD []).drop
        f.content.length = f.content) ↔
        ((dir f.filename).getD []).length ≤ f.content.length := by
      rw [List.append_right_eq_self, List.drop_eq_nil_iff]
    rw [hcut, if_neg f.nonempty, Function.update_self, Option.some.injEq, hkeep]
    constructor
    · intro h
      refine Or.inl ⟨hblank, fun old hold => ?_⟩
      rwa [hold] at h
    · rintro (h | h)
      · cases hold : dir f.filename with
        | none => exact Nat.zero_le _
        | some old => exact h.2 old hold
      · exact absurd h.1 hblank

/-- An older file of one byte stays when an empty one is sent. -/
theorem not_transferred_longerFile :
    ¬∀ (dir : Directory) (f : FileSenderExec), Transferred dir f := by
  intro h
  have hdir := (transferred_iff_eq (fun _ => some [1])
    ⟨[97], by decide, by decide, by decide, [], by decide⟩).mp (h _ _)
  exact absurd hdir (by decide)

end Transfer
