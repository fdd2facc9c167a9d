import Mathlib

/-!
# A file behind a bounded buffer

A writer that collects what it writes in a buffer of fixed capacity, and
empties the buffer into the file when the next item might not fit, has
written exactly what it was given, in order, whatever the capacity. The
capacity decides only *when* the file grows.

`BufferedFile α` keeps the two parts apart – what the file already holds
and what the buffer still does – and `BufferedFile.contents` is the file
once the buffer is flushed. Every write is `BufferedFile.put`, whose
`contents_put` is all that a client needs.
-/

variable {α : Type}

/-- **A file and the buffer in front of it.** -/
structure BufferedFile (α : Type) where
  /-- What has been written to the file. -/
  file : List α
  /-- What waits in the buffer. -/
  buff : List α
deriving Repr, DecidableEq

namespace BufferedFile

/-- A truncated file with an empty buffer. -/
def empty : BufferedFile α := ⟨[], []⟩

/-- Writes the buffer to the file and starts the buffer again. -/
def flush (b : BufferedFile α) : BufferedFile α := ⟨b.file ++ b.buff, []⟩

/-- Whether a write that reserves `need` units overflows the buffer, whose
elements take `unit` units each and which holds `cap` units. -/
def overflows (cap unit need : ℕ) (b : BufferedFile α) : Bool :=
  decide (cap < b.buff.length * unit + need)

/-- **A buffered write**: flush first if `need` units might not fit, then
append to the buffer. -/
def put (cap unit need : ℕ) (xs : List α) (b : BufferedFile α) :
    BufferedFile α :=
  if b.overflows cap unit need then ⟨b.file ++ b.buff, xs⟩
  else ⟨b.file, b.buff ++ xs⟩

/-- The file once the buffer is flushed into it. -/
def contents (b : BufferedFile α) : List α := b.file ++ b.buff

@[simp] theorem contents_empty : (empty : BufferedFile α).contents = [] := rfl

@[simp] theorem file_flush (b : BufferedFile α) : b.flush.file = b.contents := rfl

/-- **A buffered write appends**, whether or not it flushes. So the rest of the
development speaks of the contents only. -/
@[simp] theorem contents_put (cap unit need : ℕ) (xs : List α)
    (b : BufferedFile α) :
    (b.put cap unit need xs).contents = b.contents ++ xs := by
  unfold put contents
  split
  · rfl
  · exact (List.append_assoc _ _ _).symm

/-- A buffered write of one element that flushes afterwards, once `full`
elements wait. -/
def push (full : ℕ) (x : α) (b : BufferedFile α) : BufferedFile α :=
  if b.buff.length + 1 = full then ⟨b.file ++ (b.buff ++ [x]), []⟩
  else ⟨b.file, b.buff ++ [x]⟩

/-- It appends as well. -/
@[simp] theorem contents_push (full : ℕ) (x : α) (b : BufferedFile α) :
    (b.push full x).contents = b.contents ++ [x] := by
  unfold push contents
  split
  · simp
  · exact (List.append_assoc _ _ _).symm

/-- A sequence of buffered writes, one per element of `l`. -/
def putAll {β : Type} (cap unit need : ℕ) (enc : β → List α) (l : List β)
    (b : BufferedFile α) : BufferedFile α :=
  l.foldl (fun b x => b.put cap unit need (enc x)) b

/-- A sequence of buffered writes appends their encodings in order. -/
@[simp] theorem contents_putAll {β : Type} (cap unit need : ℕ)
    (enc : β → List α) (l : List β) (b : BufferedFile α) :
    (b.putAll cap unit need enc l).contents = b.contents ++ l.flatMap enc := by
  induction l generalizing b with
  | nil => simp [putAll]
  | cons x l ih =>
    have h := ih (b.put cap unit need (enc x))
    rw [contents_put, List.append_assoc] at h
    exact h

end BufferedFile
