import PathSearch.Proofs.State
import PathSearch.Solver.Basic

/-! # Solvers that are sound and complete

No answer of an exact solver is wrong, now or after any further questions: it tells satisfiable
constraints from unsatisfiable ones, and it lists values until no other is left. It may still leave
a question undecided. Which questions count is a parameter, because a solver that remembers answers
by digests is right only as far as the digests of what it is asked differ.
-/

namespace PathSearch

open PathSearch.Expr

/-- Some input satisfies the constraints. -/
def Constraints.Satisfiable (cs : Constraints) : Prop := ∃ σ, cs.SatisfiedBy σ

/-- No input satisfies the constraints. -/
def Constraints.Unsatisfiable (cs : Constraints) : Prop := ∀ σ, ¬ cs.SatisfiedBy σ

namespace Solver

/-- Every answer that the solver gives next about certain constraints is right. -/
structure CorrectOn (K : Constraints → Prop) (s : Solver) : Prop where
  satisfiable : ∀ {cs : Constraints} {b : Bool}, K cs → cs.WellFormed →
    ((isSatisfiable cs).run s).1 = .ok b → (b = true ↔ ∃ σ, cs.SatisfiedBy σ)
  refused : ∀ {cs : Constraints}, K cs → cs.WellFormed →
    ((isSatisfiable cs).run s).1 = .error .unsatisfiable → cs.Unsatisfiable
  distinct : ∀ {e : Expr} {cs : Constraints} {n : Nat} {values : List Word}, e.WellFormed → K cs →
    cs.WellFormed → ((evaluateMany e cs n).run s).1 = .ok values → values.Nodup
  sound : ∀ {e : Expr} {cs : Constraints} {n : Nat} {values : List Word}, e.WellFormed → K cs →
    cs.WellFormed → ((evaluateMany e cs n).run s).1 = .ok values →
    ∀ v ∈ values, ∃ σ, cs.SatisfiedBy σ ∧ e.evaluate σ.bindings = some v
  complete : ∀ {e : Expr} {cs : Constraints} {n : Nat} {values : List Word}, e.WellFormed → K cs →
    cs.WellFormed → ((evaluateMany e cs n).run s).1 = .ok values → values.length < n →
    ∀ σ, cs.SatisfiedBy σ → e.value σ ∈ values
  unsatisfiable : ∀ {e : Expr} {cs : Constraints} {n : Nat}, e.WellFormed → K cs → cs.WellFormed →
    ((evaluateMany e cs n).run s).1 = .error .unsatisfiable → cs.Unsatisfiable

/-- Values that an expression has under constraints, and all of them if they are fewer than asked
    for. -/
structure Lists (cs : Constraints) (e : Expr) (n : Nat) (values : List Word) : Prop where
  distinct : values.Nodup
  sound : ∀ v ∈ values, ∃ σ, cs.SatisfiedBy σ ∧ e.value σ = v
  complete : values.length < n → ∀ σ, cs.SatisfiedBy σ → e.value σ ∈ values

theorem CorrectOn.lists {K : Constraints → Prop} {s : Solver} (correct : s.CorrectOn K) {e : Expr}
    (he : e.WellFormed) {cs : Constraints} (about : K cs) (hcs : cs.WellFormed) {n : Nat}
    {values : List Word} (answered : ((evaluateMany e cs n).run s).1 = .ok values) :
    Lists cs e n values where
  distinct := correct.distinct he about hcs answered
  sound v hv := by
    obtain ⟨σ, satisfied, evaluated⟩ := correct.sound he about hcs answered v hv
    rw [he.evaluate_eq] at evaluated
    exact ⟨σ, satisfied, Option.some.inj evaluated⟩
  complete := correct.complete he about hcs answered

/-- A solver and what it is after questions about certain constraints. -/
inductive Asked (K : Constraints → Prop) (s : Solver) : Solver → Prop where
  | start : Asked K s s
  | satisfiable {t : Solver} {cs : Constraints} (about : K cs) (hcs : cs.WellFormed)
      (h : Asked K s t) : Asked K s ((isSatisfiable cs).run t).2
  | values {t : Solver} {e : Expr} {cs : Constraints} (he : e.WellFormed) (about : K cs)
      (hcs : cs.WellFormed) (n : Nat) (h : Asked K s t) : Asked K s ((evaluateMany e cs n).run t).2

/-- A solver that is sound and complete about certain constraints. -/
def ExactOn (K : Constraints → Prop) (s : Solver) : Prop := ∀ t, s.Asked K t → t.CorrectOn K

variable {K : Constraints → Prop} {s t u : Solver}

theorem Asked.trans (h : s.Asked K t) (later : t.Asked K u) : s.Asked K u := by
  induction later with
  | start => exact h
  | satisfiable about hcs _ ih => exact ih.satisfiable about hcs
  | values he about hcs n _ ih => exact ih.values he about hcs n

theorem ExactOn.correct (h : s.ExactOn K) : s.CorrectOn K := h s .start

theorem ExactOn.asked (h : s.ExactOn K) (later : s.Asked K t) : t.ExactOn K :=
  fun u further => h u (later.trans further)

theorem ExactOn.isSatisfiable (h : s.ExactOn K) {cs : Constraints} (about : K cs)
    (hcs : cs.WellFormed) : ((isSatisfiable cs).run s).2.ExactOn K :=
  h.asked (Asked.start.satisfiable about hcs)

theorem ExactOn.evaluateMany (h : s.ExactOn K) {e : Expr} {cs : Constraints} (he : e.WellFormed)
    (about : K cs) (hcs : cs.WellFormed) (n : Nat) : ((evaluateMany e cs n).run s).2.ExactOn K :=
  h.asked (Asked.start.values he about hcs n)

/-- A single value that an exact solver gives is the value under some input. -/
theorem evaluate_sound (exact : s.ExactOn K) {e : Expr} (he : e.WellFormed) {cs : Constraints}
    (about : K cs) (hcs : cs.WellFormed) {v : Word} (answered : (evaluate e cs).run s = (.ok v, t)) :
    ∃ α, cs.SatisfiedBy α ∧ e.evaluate α.bindings = some v := by
  have sound : ∀ values, ((evaluateMany e cs 1).run s).1 = .ok values →
      ∀ v ∈ values, ∃ α, cs.SatisfiedBy α ∧ e.evaluate α.bindings = some v := fun values given =>
    exact.correct.sound he about hcs given
  unfold evaluate at answered
  rw [run_bind] at answered
  generalize (evaluateMany e cs 1).run s = outcome at sound answered
  obtain ⟨result, u⟩ := outcome
  cases result with
  | error _ => cases answered
  | ok values =>
      cases values with
      | nil => cases answered
      | cons w rest =>
          cases answered
          exact sound _ rfl v (by simp)

end Solver

end PathSearch
