import Mathlib
import DpdkGraph.DynamicReshard
import DpdkGraph.ReshardOutcome

/-!
# The loop on first records

The loop over the records takes the turns of the walk of the static builds
over the first record of each edge: `Sim` ties the two states, and each
stage keeps it. The files agree on their cursors; what is in them plays no
part in where the walk goes, and none in the counters.

The counters only move when a row is written. `Books.settle` is then made
once, with the file that the row goes to.
-/

namespace DynamicReshard

open Reshard (Params Walk WriteSliding)

variable {V W : Type}

/-! ## The counters -/

namespace Books

variable (c : Params) (k : ℕ) (b : Books)

theorem book_zero : b.book c k 0 = b := by
  unfold book
  split <;> simp

@[simp] theorem numUniqEdges_book (n : ℕ) :
    (b.book c k n).numUniqEdges = b.numUniqEdges := by
  unfold book
  split <;> rfl

@[simp] theorem currentWritingShard_book (n : ℕ) :
    (b.book c k n).currentWritingShard = b.currentWritingShard := by
  unfold book
  split <;> rfl

@[simp] theorem numUniqEdges_settle : (b.settle c k).numUniqEdges = b.numUniqEdges :=
  b.numUniqEdges_book c k _

@[simp] theorem lastEdgeCount_settle :
    (b.settle c k).lastEdgeCount = b.numUniqEdges - 1 := rfl

@[simp] theorem currentWritingShard_settle :
    (b.settle c k).currentWritingShard = b.currentWritingShard :=
  b.currentWritingShard_book c k _

@[simp] theorem count_settle : (b.settle c k).count = 0 := by
  simp [count]

/-- Nothing is left to book after a row has been written. -/
@[simp] theorem settle_settle (j : ℕ) : (b.settle c k).settle c j = b.settle c k := by
  have hcount := b.count_settle c k
  unfold settle at hcount ⊢
  rw [hcount, book_zero]
  simp

end Books

/-! ## The states -/

/-- **The loop is where the walk is**, in the middle of a round: the edges
not written are the pending ones. -/
structure Sim (s : Shovel V) (w : Walk W) (st : State V) : Prop where
  cursor : ∀ k, (st.wsl k).curvid = (w.wsl k).curvid
  sliding : st.currentSlidingShard = w.currentSlidingShard
  memory : st.currentMemoryShard = w.currentMemoryShard
  curvid : st.curvid = w.curvid
  willout : st.willout = w.willout
  index : st.index = w.index
  count : st.books.count = w.pending.length
  /-- Their destinations are those in `shovelbuf[istart .. i)`. -/
  span : ∀ P : ℕ → Prop, (∀ j, st.istart ≤ j → j < st.i → P (s.get j).dst)
    ↔ ∀ a ∈ w.pending, P a.dst

namespace Sim

variable {c : Params} {s : Shovel V} {w : Walk W} {st : State V} {k src : ℕ}

@[simp] theorem curvid_writePending (cap : ℕ) (es : List (EdgeWithValue W))
    (x : WriteSliding) : (x.writePending cap es).curvid = x.curvid := by
  unfold WriteSliding.writePending
  split <;> rfl

/-- Updates of the same file that agree on its cursor. -/
theorem cursor_update {f g : ℕ → WriteSliding} (h : ∀ k, (f k).curvid = (g k).curvid)
    {x y : WriteSliding} (hxy : x.curvid = y.curvid) (t k : ℕ) :
    (Function.update f t x k).curvid = (Function.update g t y k).curvid := by
  by_cases hk : k = t
  · rw [hk, Function.update_self, Function.update_self, hxy]
  · rw [Function.update_of_ne hk, Function.update_of_ne hk, h k]

/-- A row is written. -/
theorem flushTo (h : Sim s w st) (k : ℕ) : Sim s (w.flushTo c k) (st.flushTo c s k) where
  cursor j := by
    show ((if 0 < st.books.count then _ else st.wsl) j).curvid
      = (Function.update w.wsl k _ j).curvid
    split
    · refine cursor_update h.cursor ?_ k j
      rw [curvid_writePending]
      exact h.cursor k
    · rw [← Function.update_eq_self k st.wsl]
      refine cursor_update h.cursor ?_ k j
      rw [curvid_writePending]
      exact h.cursor k
  sliding := h.sliding
  memory := h.memory
  curvid := h.curvid
  willout := h.willout
  index := h.index
  count := st.books.count_settle c k
  span P := by
    constructor
    · exact fun _ a ha => absurd ha List.not_mem_nil
    · intro _ j hj hlt
      have hstart : st.i + st.jumpover ≤ j := hj
      have hend : j < st.i := hlt
      omega

/-- A file whose cursor is moved alike. -/
theorem onFile (h : Sim s w st) (k : ℕ) {f g : WriteSliding → WriteSliding}
    (hfg : ∀ x y : WriteSliding, (f x).curvid = (g y).curvid) :
    Sim s (w.onFile k g) (st.onFile k f) :=
  { h with cursor := cursor_update h.cursor (hfg _ _) k }

theorem inPlace (h : Sim s w st) (src : ℕ) : st.inPlace src = w.inPlace src := by
  unfold State.inPlace Walk.inPlace
  rw [h.memory, h.index, h.cursor]

/-- The assertion on the row is the one on the pending edges. -/
theorem rowInInterval (h : Sim s w st) :
    st.rowInInterval c s = w.pendingInInterval c := by
  have hspan := h.span fun d => c.intervals.first w.currentMemoryShard ≤ d
    ∧ d ≤ c.intervals.second w.currentMemoryShard
  rw [Bool.eq_iff_iff]
  unfold State.rowInInterval Walk.pendingInInterval
  simp only [Bool.or_eq_true, decide_eq_true_eq, List.all_eq_true, List.mem_range'_1]
  rw [← hspan, h.memory]
  constructor
  · rintro (hzero | hall) j hj hlt
    · have hnil : w.pending = [] := List.eq_nil_of_length_eq_zero (h.count ▸ hzero)
      exact hspan.mpr (by rw [hnil]; exact fun a ha => absurd ha List.not_mem_nil) j hj hlt
    · exact hall j ⟨hj, by omega⟩
  · exact fun hall => Or.inr fun j hj => hall j hj.1 (by omega)

end Sim

/-- Two stages that fail together, or both go through and keep `R`. -/
def Both {α β : Type} (R : α → β → Prop) (x : Option α) (y : Option β) : Prop :=
  (x = none ∧ y = none) ∨ ∃ a b, x = some a ∧ y = some b ∧ R a b

namespace Both

variable {α β : Type} {R S : α → β → Prop} {x : Option α} {y : Option β}

theorem some {a : α} {b : β} (h : R a b) : Both R (.some a) (.some b) :=
  Or.inr ⟨a, b, rfl, rfl, h⟩

theorem none : Both R (.none : Option α) (.none : Option β) := Or.inl ⟨rfl, rfl⟩

theorem bind {α' β' : Type} {S : α' → β' → Prop} {f : α → Option α'} {g : β → Option β'}
    (h : Both R x y) (hfg : ∀ a b, R a b → Both S (f a) (g b)) :
    Both S (x.bind f) (y.bind g) := by
  rcases h with ⟨rfl, rfl⟩ | ⟨a, b, rfl, rfl, h⟩
  · exact none
  · exact hfg a b h

/-- Only the first stage goes on. -/
theorem map_left {α' : Type} {S : α' → β → Prop} {f : α → α'}
    (h : Both R x y) (hf : ∀ a b, R a b → S (f a) b) : Both S (x.map f) y := by
  rcases h with ⟨rfl, rfl⟩ | ⟨a, b, rfl, rfl, h⟩
  · exact none
  · exact some (hf a b h)

end Both

/-! ## The stages -/

/-- What a stage does not touch, and where it puts `istart`. -/
structure Kept (st st' : State V) : Prop where
  sliding : st'.currentSlidingShard = st.currentSlidingShard
  i : st'.i = st.i
  jumpover : st'.jumpover = st.jumpover
  lastdst : st'.lastdst = st.lastdst
  inBlock : st'.inBlock = st.inBlock
  outBlock : st'.outBlock = st.outBlock
  istart : st'.istart = st.istart ∨ st'.istart = st.i + st.jumpover

namespace Kept

variable {st st' st'' : State V}

theorem refl (st : State V) : Kept st st := ⟨rfl, rfl, rfl, rfl, rfl, rfl, Or.inl rfl⟩

theorem trans (h : Kept st st') (h' : Kept st' st'') : Kept st st'' where
  sliding := h'.sliding.trans h.sliding
  i := h'.i.trans h.i
  jumpover := h'.jumpover.trans h.jumpover
  lastdst := h'.lastdst.trans h.lastdst
  inBlock := h'.inBlock.trans h.inBlock
  outBlock := h'.outBlock.trans h.outBlock
  istart := by
    rcases h'.istart with hstart | hstart
    · rw [hstart]
      exact h.istart
    · rw [hstart, h.i, h.jumpover]
      exact Or.inr rfl

end Kept

section Stages

variable {c : Params} {s : Shovel V} {w : Walk W} {st st' : State V} {src fuel : ℕ}

theorem Sim.switchStep (h : Sim s w st) (src : ℕ) :
    Both (fun st' w' => Sim s w' st') (st.switchStep c s src) (w.switchStep c src) := by
  unfold State.switchStep Walk.switchStep
  rw [h.rowInInterval]
  split
  · refine .some ?_
    have hmem := h.memory
    rw [hmem]
    have hsim := (h.flushTo (c := c) w.currentMemoryShard).onFile w.currentMemoryShard
      (f := .switchTo c.compressedBlockSize src st.i)
      (g := .switchTo c.compressedBlockSize src w.i) fun x y => rfl
    exact { hsim with memory := h.index }
  · exact .none

theorem Sim.switchLoop (h : Sim s w st) (src fuel : ℕ) :
    Both (fun st' w' => Sim s w' st') (st.switchLoop c s src fuel)
      (w.switchLoop c src fuel) := by
  induction fuel generalizing w st with
  | zero =>
    rw [State.switchLoop, Walk.switchLoop, h.inPlace]
    split
    · exact .some h
    · exact .none
  | succ fuel ih =>
    rw [State.switchLoop, Walk.switchLoop, h.inPlace]
    split
    · exact .some h
    · exact (h.switchStep src).bind fun a b hab => ih hab

theorem Sim.leaveOut (h : Sim s w st) : Sim s (w.leaveOut c) (st.leaveOut c s) := by
  unfold State.leaveOut Walk.leaveOut
  rw [h.sliding, h.willout, h.memory]
  split
  · exact { h.flushTo w.currentMemoryShard with willout := rfl, memory := rfl }
  · exact h

theorem Sim.changeVid (h : Sim s w st) (src : ℕ) :
    Sim s (w.changeVid c src) (st.changeVid c s src) := by
  unfold State.changeVid Walk.changeVid
  rw [h.curvid]
  split
  · have hsim := (h.flushTo (c := c) c.shard).onFile c.shard
      (f := .moveTo c.compressedBlockSize src) (g := .moveTo c.compressedBlockSize src)
      fun x y => rfl
    exact { hsim with memory := rfl }
  · exact h

/-! ### What the stages leave, and what they book -/

theorem kept_switchStep (h : st.switchStep c s src = some st') :
    Kept st st' ∧ st'.books = st.books.settle c st.currentMemoryShard := by
  unfold State.switchStep at h
  split at h
  · obtain rfl := Option.some.inj h
    exact ⟨⟨rfl, rfl, rfl, rfl, rfl, rfl, Or.inr rfl⟩, rfl⟩
  · exact absurd h (by simp)

theorem kept_switchLoop (h : st.switchLoop c s src fuel = some st') : Kept st st' := by
  induction fuel generalizing st with
  | zero =>
    rw [State.switchLoop] at h
    split at h
    · rw [← Option.some.inj h]
      exact .refl st
    · exact absurd h (by simp)
  | succ fuel ih =>
    rw [State.switchLoop] at h
    split at h
    · rw [← Option.some.inj h]
      exact .refl st
    · obtain ⟨mid, hmid, h⟩ := Option.bind_eq_some_iff.mp h
      exact (kept_switchStep hmid).1.trans (ih h)

/-- With nothing left to book the loop books nothing. -/
theorem books_switchLoop_settled (hset : ∀ j, st.books.settle c j = st.books)
    (h : st.switchLoop c s src fuel = some st') : st'.books = st.books := by
  induction fuel generalizing st with
  | zero =>
    rw [State.switchLoop] at h
    split at h
    · rw [← Option.some.inj h]
    · exact absurd h (by simp)
  | succ fuel ih =>
    rw [State.switchLoop] at h
    split at h
    · rw [← Option.some.inj h]
    · obtain ⟨mid, hmid, h⟩ := Option.bind_eq_some_iff.mp h
      have hbooks := (kept_switchStep hmid).2
      rw [hset] at hbooks
      rw [ih (by rw [hbooks]; exact hset) h, hbooks]

/-- **A switch books once**, on the file that is left. -/
theorem books_switchLoop (h : st.switchLoop c s src (fuel + 1) = some st') :
    st'.books = if st.inPlace src then st.books
      else st.books.settle c st.currentMemoryShard := by
  rw [State.switchLoop] at h
  split at h
  · next hin => rw [← Option.some.inj h, if_pos hin]
  · next hin =>
    obtain ⟨mid, hmid, h⟩ := Option.bind_eq_some_iff.mp h
    have hbooks := (kept_switchStep hmid).2
    rw [if_neg hin, ← hbooks]
    refine books_switchLoop_settled (fun j => ?_) h
    rw [hbooks]
    exact Books.settle_settle c _ _ j

theorem kept_leaveOut : Kept st (st.leaveOut c s) := by
  unfold State.leaveOut
  split
  · exact ⟨rfl, rfl, rfl, rfl, rfl, rfl, Or.inr rfl⟩
  · exact .refl st

theorem kept_changeVid : Kept st (st.changeVid c s src) := by
  unfold State.changeVid
  split
  · exact ⟨rfl, rfl, rfl, rfl, rfl, rfl, Or.inr rfl⟩
  · exact .refl st

theorem books_leaveOut : (st.leaveOut c s).books
    = if st.currentSlidingShard = some (c.shard + 1) ∧ st.willout then
        st.books.settle c st.currentMemoryShard else st.books := by
  unfold State.leaveOut
  split <;> rfl

theorem books_changeVid : (st.changeVid c s src).books
    = if src ≠ st.curvid then st.books.settle c c.shard else st.books := by
  unfold State.changeVid
  split <;> rfl

/-- **The last two stages book once.** -/
theorem books_changeVid_leaveOut : ((st.leaveOut c s).changeVid c s src).books
    = if st.currentSlidingShard = some (c.shard + 1) ∧ st.willout then
        st.books.settle c st.currentMemoryShard
      else if src ≠ st.curvid then st.books.settle c c.shard else st.books := by
  have hcur : (st.leaveOut c s).curvid = st.curvid := by
    unfold State.leaveOut
    split <;> rfl
  rw [books_changeVid, books_leaveOut, hcur]
  split_ifs with hsrc hleave hleave
  · exact Books.settle_settle c _ _ _
  · rfl
  · rfl
  · rfl

end Stages

/-! ## An edge is taken -/

/-- The counters when the edge is counted and the second cursor has moved to
the shard `j`. -/
def Books.counted (j : ℕ) (b : Books) : Books :=
  { b with currentWritingShard := some j, numUniqEdges := b.numUniqEdges + 1 }

/-- **What taking an edge does to the counters**: `k` is the shard of its
source, `d` that of its destination. -/
def stepBooks (c : Params) (k d src : ℕ) (w : Walk W) (b : Books) : Books :=
  if k = c.shard then
    if w.currentMemoryShard = d ∧ src = (w.wsl d).curvid then b
    else b.settle c w.currentMemoryShard
  else if k = c.shard + 1 ∧ w.willout then b.settle c w.currentMemoryShard
  else if src ≠ w.curvid then b.settle c c.shard
  else b

/-- The loop is where the walk is, between two rounds. -/
structure Between (w : Walk W) (st : State V) : Prop where
  cursor : ∀ k, (st.wsl k).curvid = (w.wsl k).curvid
  sliding : st.currentSlidingShard = w.currentSlidingShard
  memory : st.currentMemoryShard = w.currentMemoryShard
  curvid : st.curvid = w.curvid
  willout : st.willout = w.willout
  index : st.index = w.index
  count : st.books.numUniqEdges - st.books.lastEdgeCount = w.pending.length

section Take

variable {c : Params} {s : Shovel V} {w : Walk W} {st : State V}
  {e : EdgeWithValue W} {k d j : ℕ}

/-- The variables of a state after an edge has been counted. -/
def State.counted (s : Shovel V) (k j : ℕ) (st : State V) : State V :=
  { st with
    currentSlidingShard := some k
    jumpover := s.edgeValues st.i - 1
    books := st.books.counted j }

theorem Between.counted (h : Between w st) (j : ℕ)
    (hspan : ∀ P : ℕ → Prop, (∀ j, st.istart ≤ j → j < st.i → P (s.get j).dst)
      ↔ ∀ a ∈ w.pending, P a.dst) :
    Sim s { w with currentSlidingShard := some k } (st.counted s k j) where
  cursor := h.cursor
  sliding := rfl
  memory := h.memory
  curvid := h.curvid
  willout := h.willout
  index := h.index
  count := by
    rw [← h.count]
    show st.books.numUniqEdges + 1 - 1 - st.books.lastEdgeCount = _
    rw [Nat.add_sub_cancel]
  span := hspan

/-- What is left of a round, for the walk and the loop. -/
theorem Sim.between (h : Sim s w st) (hnum : st.books.lastEdgeCount < st.books.numUniqEdges)
    (e : EdgeWithValue W) (i : ℕ) :
    Between (w.keep e) { st with curvid := e.src, i := i } where
  cursor := h.cursor
  sliding := h.sliding
  memory := h.memory
  curvid := rfl
  willout := h.willout
  index := h.index
  count := by
    have hcount : st.books.numUniqEdges - 1 - st.books.lastEdgeCount
      = w.pending.length := h.count
    show st.books.numUniqEdges - st.books.lastEdgeCount = (w.pending ++ [e]).length
    rw [List.length_append, ← hcount, List.length_singleton]
    omega

theorem lastEdgeCount_stepBooks {b : Books} {src : ℕ} (h : b.lastEdgeCount < b.numUniqEdges) :
    (stepBooks c k d src w b).lastEdgeCount < (stepBooks c k d src w b).numUniqEdges := by
  have hsettle : ∀ t, (b.settle c t).lastEdgeCount < (b.settle c t).numUniqEdges := by
    intro t
    rw [Books.lastEdgeCount_settle, Books.numUniqEdges_settle]
    omega
  unfold stepBooks
  split_ifs <;> first | exact h | exact hsettle _

/-- Writing a row does not move the second cursor. -/
theorem currentWritingShard_stepBooks {b : Books} {src : ℕ} :
    (stepBooks c k d src w b).currentWritingShard = b.currentWritingShard := by
  unfold stepBooks
  split_ifs <;> simp

/-- **What taking an edge leaves** besides where the walk is: `k` is the
shard of its source, `d` that of its destination, and `j` the one that the
second cursor has come to. -/
structure Taken (c : Params) (s : Shovel V) (k d j : ℕ) (e : EdgeWithValue W)
    (w w' : Walk W) (st st' : State V) : Prop where
  i : st'.i = st.i
  jumpover : st'.jumpover = s.edgeValues st.i - 1
  lastdst : st'.lastdst = e.dst
  istart : st'.istart = st.istart ∨ st'.istart = st.i + (s.edgeValues st.i - 1)
  books : st'.books = stepBooks c k d e.src w (st.books.counted j)
  inBlock : st'.inBlock = if k = c.shard then st.inBlock
    else Function.update st.inBlock k (st.inBlock k ++ [s.vector st.i])
  outBlock : st'.outBlock = if k = c.shard then
    Function.update st.outBlock d (st.outBlock d ++ [s.vector st.i]) else st.outBlock
  /-- The edges that are pending with it are those before its first record. -/
  span : ∃ p, w'.pending = p ++ [e] ∧ ∀ P : ℕ → Prop,
    (∀ j, st'.istart ≤ j → j < st.i → P (s.get j).dst) ↔ ∀ a ∈ p, P a.dst

/-- An in-edge. The loop first moves on to the shard of the source, with the
records of the edge appended to its block, then leaves the out-edges, and at
last changes the vertex; the walk does the same in one step. -/
theorem take_in (h : Between w st) (hnum : st.books.lastEdgeCount ≤ st.books.numUniqEdges)
    (hspan : ∀ P : ℕ → Prop, (∀ j, st.istart ≤ j → j < st.i → P (s.get j).dst)
      ↔ ∀ a ∈ w.pending, P a.dst)
    (hstop : e.stopper = false) (hdup : ¬(st.lastdst = e.dst ∧ e.src = st.curvid))
    (hadv : c.intervals.advance w.currentSlidingShard e.src = some k) (hk : k ≠ c.shard)
    (hadv' : c.intervals.advance st.books.currentWritingShard st.curvid = some j) :
    ∃ st' w', st.take c s e.src e.dst = some st' ∧ w.step c e = some w'
      ∧ Between w' st' ∧ Taken c s k d j e w w' st st' := by
  have hnostop : ¬(e.src = 0 ∧ e.dst = 0) := by
    unfold EdgeWithValue.stopper at hstop
    simpa using hstop
  obtain ⟨st₁, hst₁⟩ : ∃ st₁ : State V, st₁ = State.counted s k j { st with
      lastdst := e.dst
      inBlock := Function.update st.inBlock k (st.inBlock k ++ [s.vector st.i]) } :=
    ⟨_, rfl⟩
  -- the two searches for a shard agree with those of the walk, so that the loop
  -- takes this branch
  have htake : st.take c s e.src e.dst
      = some { (st₁.leaveOut c s).changeVid c s e.src with curvid := e.src } := by
    rw [← h.sliding] at hadv
    unfold State.take State.slide
    rw [if_neg hdup, if_neg hnostop, hst₁]
    simp only [hadv, hadv', Option.bind_some, if_pos hk, Option.map_some]
    rfl
  have hsim : Sim s { w with currentSlidingShard := some k } st₁ := by
    have hbetween : Between w { st with
        lastdst := e.dst
        inBlock := Function.update st.inBlock k (st.inBlock k ++ [s.vector st.i]) } :=
      { h with }
    rw [hst₁]
    exact hbetween.counted j hspan
  have hbooks : ((st₁.leaveOut c s).changeVid c s e.src).books
      = stepBooks c k d e.src w (st.books.counted j) := by
    rw [books_changeVid_leaveOut, hsim.sliding, hsim.willout, hsim.memory, hsim.curvid,
      hst₁, stepBooks, if_neg hk]
    simp only [Option.some.injEq]
    rfl
  have hkept : Kept st₁ ((st₁.leaveOut c s).changeVid c s e.src) :=
    kept_leaveOut.trans kept_changeVid
  have hnum' : ((st₁.leaveOut c s).changeVid c s e.src).books.lastEdgeCount
      < ((st₁.leaveOut c s).changeVid c s e.src).books.numUniqEdges := by
    rw [hbooks]
    exact lastEdgeCount_stepBooks (Nat.lt_succ_of_le hnum)
  refine ⟨_, _, htake, Walk.step_of_ne hstop hadv hk,
    (hsim.leaveOut.changeVid e.src).between hnum' e _, ?_⟩
  have hi : st₁.i = st.i := by rw [hst₁]; rfl
  have hjump : st₁.jumpover = s.edgeValues st.i - 1 := by rw [hst₁]; rfl
  -- what the later rounds look at: where the loop is, what it jumps over, and what
  -- has been appended
  refine ⟨hkept.i.trans hi, hkept.jumpover.trans hjump, ?_, ?_, hbooks, ?_, ?_, _, rfl, ?_⟩
  · exact hkept.lastdst.trans (by rw [hst₁]; rfl)
  · have hstart := hkept.istart
    rw [hi, hjump] at hstart
    exact hstart.imp_left fun hs => hs.trans (by rw [hst₁]; rfl)
  · rw [if_neg hk]
    exact hkept.inBlock.trans (by rw [hst₁]; rfl)
  · rw [if_neg hk]
    exact hkept.outBlock.trans (by rw [hst₁]; rfl)
  · have hpend := (hsim.leaveOut (c := c)).changeVid (c := c) e.src
    exact (hkept.i.trans hi) ▸ hpend.span

/-- An out-edge: the loop and the walk fail together, where neither finds the
file that is left. If they go on, the books are as after an in-edge, apart from
the shard that is written to. -/
theorem take_out (h : Between w st) (hnum : st.books.lastEdgeCount ≤ st.books.numUniqEdges)
    (hspan : ∀ P : ℕ → Prop, (∀ j, st.istart ≤ j → j < st.i → P (s.get j).dst)
      ↔ ∀ a ∈ w.pending, P a.dst)
    (hstop : e.stopper = false) (hdup : ¬(st.lastdst = e.dst ∧ e.src = st.curvid))
    (hadv : c.intervals.advance w.currentSlidingShard e.src = some c.shard)
    (hadv' : c.intervals.advance st.books.currentWritingShard st.curvid = some j)
    (hd : c.intervals.shardOf e.dst = some d) :
    Both (fun st' w' => Between w' st' ∧ Taken c s c.shard d j e w w' st st')
      (st.take c s e.src e.dst) (w.step c e) := by
  have hnostop : ¬(e.src = 0 ∧ e.dst = 0) := by
    unfold EdgeWithValue.stopper at hstop
    simpa using hstop
  obtain ⟨st₁, hst₁⟩ : ∃ st₁ : State V, st₁ =
      { State.counted s c.shard j { st with
          lastdst := e.dst
          outBlock := Function.update st.outBlock d (st.outBlock d ++ [s.vector st.i]) } with
        willout := true
        index := d } := ⟨_, rfl⟩
  have htake : st.take c s e.src e.dst = (st₁.switchLoop c s e.src 2).map fun st =>
      { (State.leaveOut c s { st with curvid := e.src }).changeVid c s e.src with
        curvid := e.src } := by
    have hadv₁ := hadv
    rw [← h.sliding] at hadv₁
    unfold State.take State.slide
    rw [if_neg hdup, if_neg hnostop, hst₁]
    simp only [hadv₁, hadv', hd, Option.bind_some, Option.getD_some, ne_eq,
      not_true_eq_false, if_false, Option.map_map]
    rfl
  have hsim : Sim s (w.seen c d) st₁ := by
    have hbetween : Between w { st with
        lastdst := e.dst
        outBlock := Function.update st.outBlock d (st.outBlock d ++ [s.vector st.i]) } :=
      { h with }
    rw [hst₁]
    exact { hbetween.counted j hspan (k := c.shard) with willout := rfl, index := rfl }
  rw [htake, Walk.step_of_eq hstop hadv hd]
  -- the loop and the walk switch files, or fail together
  rcases hsim.switchLoop e.src 2 with ⟨hnone, hnone'⟩ | ⟨st₂, w₂, hst₂, hw₂, hsim₂⟩
  · rw [hnone, hnone']
    exact .none
  · rw [hst₂, hw₂]
    have hkept := kept_switchLoop hst₂
    have hstage : Sim s { w₂ with curvid := e.src } { st₂ with curvid := e.src } :=
      { hsim₂ with curvid := rfl }
    have hplace : (w.seen c d).inPlace e.src = true
        ↔ w.currentMemoryShard = d ∧ e.src = (w.wsl d).curvid := Walk.inPlace_seen
    have hbooks : ((State.leaveOut c s { st₂ with curvid := e.src }).changeVid c s
          e.src).books = stepBooks c c.shard d e.src w (st.books.counted j) := by
      rw [books_changeVid_leaveOut]
      have hcss : st₂.currentSlidingShard = some c.shard := by
        rw [hkept.sliding, hst₁]
        rfl
      rw [if_neg (fun hleave => by
        have heq := hcss.symm.trans hleave.1
        simp at heq), if_neg (fun hne => hne rfl)]
      show st₂.books = _
      rw [books_switchLoop hst₂, hsim.inPlace, stepBooks, if_pos rfl, hsim.memory]
      simp only [hplace]
      rw [hst₁]
      rfl
    have hkept' : Kept st₁
        ((State.leaveOut c s { st₂ with curvid := e.src }).changeVid c s e.src) := by
      have hcur : Kept st₂ { st₂ with curvid := e.src } :=
        ⟨rfl, rfl, rfl, rfl, rfl, rfl, Or.inl rfl⟩
      exact (hkept.trans hcur).trans (kept_leaveOut.trans kept_changeVid)
    have hnum' : ((State.leaveOut c s { st₂ with curvid := e.src }).changeVid c s
          e.src).books.lastEdgeCount
        < ((State.leaveOut c s { st₂ with curvid := e.src }).changeVid c s
          e.src).books.numUniqEdges := by
      rw [hbooks]
      exact lastEdgeCount_stepBooks (Nat.lt_succ_of_le hnum)
    refine .some ⟨(hstage.leaveOut.changeVid e.src).between hnum' e _, ?_⟩
    have hi : st₁.i = st.i := by rw [hst₁]; rfl
    have hjump : st₁.jumpover = s.edgeValues st.i - 1 := by rw [hst₁]; rfl
    refine ⟨hkept'.i.trans hi, hkept'.jumpover.trans hjump, ?_, ?_, hbooks, ?_, ?_, _, rfl,
      ?_⟩
    · exact hkept'.lastdst.trans (by rw [hst₁]; rfl)
    · have hstart := hkept'.istart
      rw [hi, hjump] at hstart
      exact hstart.imp_left fun hs => hs.trans (by rw [hst₁]; rfl)
    · rw [if_pos rfl]
      exact hkept'.inBlock.trans (by rw [hst₁]; rfl)
    · rw [if_pos rfl]
      exact hkept'.outBlock.trans (by rw [hst₁]; rfl)
    · have hpend := (hstage.leaveOut (c := c)).changeVid (c := c) e.src
      exact (hkept'.i.trans hi) ▸ hpend.span

/-- **An edge is taken** by the loop as by the walk. -/
theorem take_both (h : Between w st)
    (hnum : st.books.lastEdgeCount ≤ st.books.numUniqEdges)
    (hspan : ∀ P : ℕ → Prop, (∀ j, st.istart ≤ j → j < st.i → P (s.get j).dst)
      ↔ ∀ a ∈ w.pending, P a.dst)
    (hstop : e.stopper = false) (hdup : ¬(st.lastdst = e.dst ∧ e.src = st.curvid))
    (hadv : c.intervals.advance w.currentSlidingShard e.src = some k)
    (hadv' : c.intervals.advance st.books.currentWritingShard st.curvid = some j)
    (hd : c.intervals.shardOf e.dst = some d) :
    Both (fun st' w' => Between w' st' ∧ Taken c s k d j e w w' st st')
      (st.take c s e.src e.dst) (w.step c e) := by
  by_cases hk : k = c.shard
  · subst hk
    exact take_out h hnum hspan hstop hdup hadv hadv' hd
  · obtain ⟨st', w', htake, hstep, hkept⟩ :=
      take_in (d := d) h hnum hspan hstop hdup hadv hk hadv'
    rw [htake, hstep]
    exact .some hkept

end Take

end DynamicReshard
