import PathSearch.Proofs.Smt.Backend
import PathSearch.Proofs.Smt.Encoding
import PathSearch.Proofs.Smt.Fitting
import PathSearch.Smt.Sat

/-! # The decision procedure that runs is exact

A model is given out only where it meets the script. Where the search refutes the clauses of a script, every
model fails, since a model that meets the script satisfies the clauses.
-/

namespace PathSearch.Smt.Sat

variable {s : Script}

theorem check_sound {model : List (String × Nat)} (found : check s = .sat model) :
    s.holds (modelOf model) = true := by
  unfold check at found
  split at found
  · cases found
  dsimp only at found
  split at found
  · cases found
  · cases found
  · split at found
    · rename_i meets
      cases found
      exact meets
    · cases found

theorem check_complete (none : check s = .unsat) : s.Unsatisfiable := by
  intro m
  by_contra meets
  unfold check at none
  split at none
  · cases none
  rename_i ws fits
  dsimp only at none
  split at none
  · rename_i refuted
    obtain ⟨σ, all⟩ := World.exists_of_holds fits (eq_true_of_ne_false meets)
    exact Search.not_holds_of_solve refuted all
  · cases none
  · split at none
    · cases none
    · cases none

/-- The decision procedure by search is sound and complete, as far as it decides. -/
theorem backend_exact : backend.Exact := ⟨check_sound, check_complete⟩

/-- A script that was made from well-formed expressions is searched, whatever values are excluded. -/
theorem check_ne_misfit {asserted asked : List Expr} {script : Script} {lines : List Nat}
    (lowered : Lowering.scriptOf asserted asked = .ok (script, lines))
    (wellFormed : ∀ e ∈ asserted ++ asked, e.WellFormed) (same : s.lines = script.lines) :
    check s ≠ .unknown "operands do not fit" := by
  obtain ⟨ws, fits⟩ := Lowering.scriptOf_fits lowered wellFormed
  have fits : s.widths? = some ws := by rwa [Script.widths?, same]
  intro misfit
  unfold check at misfit
  rw [fits] at misfit
  dsimp only at misfit
  split at misfit
  · cases misfit
  · cases misfit
  · split at misfit
    · cases misfit
    · simp at misfit

end PathSearch.Smt.Sat
