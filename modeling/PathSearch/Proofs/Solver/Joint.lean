import PathSearch.Proofs.Solver.Enumeration

/-! # Values that expressions take together

Many expressions are asked for at once, and one model answers for all of them. A solver that always
decides has such values unless the constraints have no solution, whether the expressions are constants,
which need no model, or not.
-/

namespace PathSearch

open PathSearch.Expr Smt

/-- One assignment satisfies the constraints and gives each expression the value in its place. -/
def Constraints.Joint (cs : Constraints) (es : List Expr) (values : List Word) : Prop :=
  ∃ σ, cs.SatisfiedBy σ ∧ List.Forall₂ (fun e v => e.evaluate σ.bindings = some v) es values

namespace Solver

open Ask

variable {backend : Backend} {config : SolverConfig} {K : Constraints → Prop} {cs : Constraints}
  {es : List Expr}

theorem joint_of_values (hes : ∀ e ∈ es, e.WellFormed) {σ : Assignment} (satisfied : cs.SatisfiedBy σ) :
    cs.Joint es (es.map (·.value σ)) := by
  refine ⟨σ, satisfied, ?_⟩
  rw [List.forall₂_map_right_iff, List.forall₂_same]
  exact fun e he => (hes e he).evaluate_eq σ

/-- Where no variable has two widths, constraints without a solution are all that is refused. -/
theorem evaluateAll_fails (exact : backend.Exact) (decides : backend.Decides)
    (distinct : Distinct config K) (about : K cs) (hcs : cs.WellFormed)
    (oneWidth : Lowering.Consistent ((cs.items ++ es).flatMap occurrences)) :
    Ensures (Faithful backend config K) (evaluateAll es cs) (fun _ => True)
      (fun failure => failure = .unsatisfiable) := by
  obtain ⟨r, passes⟩ := Lowering.scriptOf_isOk_iff.mpr ⟨fun c hc => (hcs c hc).2, oneWidth⟩
  have oneWidthEach := Lowering.oneWidthEach_of_ok passes
  unfold evaluateAll
  refine .bind (count_ensures _) fun _ _ => ?_
  split
  · refine .bind ((decide_ensures exact distinct about hcs).mono (fun _ => id) fun failure failed => ?_)
      fun b _ => ?_
    · exact (Lowering.not_oneWidthEach_of_error hcs (failed.2 decides).2 oneWidthEach).elim
    · cases b with
      | true => exact .pure trivial
      | false => exact .throw rfl
  · refine .bind ((refuseFalse_settles cs).mono (fun _ => id) fun _ refused => refused.2) fun _ _ => ?_
    refine .bind ((Ensures.lift _).mono (fun _ => id) fun failure failed => ?_)
      fun ⟨script, lines⟩ lowered => ?_
    · cases passes.symm.trans failed
    refine .bind ((check_ensures exact script).mono (fun _ => id) fun _ gaveUp => ?_)
      fun answer ⟨model, noModel⟩ => ?_
    · exact (gaveUp.2 decides).elim
    cases answer with
    | none =>
        have settled := settled_false lowered ((Lowering.unsatisfiable_iff hcs lowered).mp (noModel rfl))
        exact .bind (remember_ensures about settled) fun _ _ => .throw rfl
    | some m =>
        have satisfied := (Lowering.holds_iff_satisfiedBy hcs lowered m).mp (model m rfl)
        exact .bind (remember_ensures about (settled_true lowered satisfied)) fun _ _ => .pure trivial

theorem evaluateBytes_answer (es : List Expr) (cs : Constraints) (s : Solver) :
    ((evaluateBytes es cs).run s).1 =
      ((evaluateAll es cs).run s).1.map fun values => values.map (·.toUInt8) := by
  rw [evaluateBytes, run_bind]
  rcases (evaluateAll es cs).run s with ⟨result, t⟩
  cases result <;> rfl

/-- A solver that always decides refuses constraints that have no solution, and has joint values
    otherwise. -/
theorem Decisive.evaluateAll_cases {s : Solver} (h : s.Decisive K) (about : K cs) (hcs : cs.WellFormed)
    (hes : ∀ e ∈ es, e.WellFormed)
    (oneWidth : Lowering.Consistent ((cs.items ++ es).flatMap occurrences)) :
    cs.Unsatisfiable ∧ ((evaluateAll es cs).run s).1 = .error .unsatisfiable ∨
      cs.Satisfiable ∧ ∃ values, ((evaluateAll es cs).run s).1 = .ok values ∧ cs.Joint es values := by
  obtain ⟨-, answered, refused⟩ :=
    evaluateAll_ensures h.exact h.distinct about hcs hes s h.faithful
  obtain ⟨-, -, failed⟩ :=
    evaluateAll_fails h.exact h.decides h.distinct about hcs oneWidth s h.faithful
  cases answer : ((evaluateAll es cs).run s).1 with
  | ok values =>
      obtain ⟨σ, satisfied, rfl⟩ := answered values answer
      exact .inr ⟨⟨σ, satisfied⟩, _, rfl, joint_of_values hes satisfied⟩
  | error failure =>
      obtain rfl := failed failure answer
      exact .inl ⟨refused _ answer rfl, rfl⟩

/-- Joint evaluation is exact, whatever the solver was asked before: it refuses just the constraints
    without a solution, and otherwise has one value for each expression, in order, from one assignment
    that satisfies the constraints. Bytes are the low bits of such values. -/
theorem evaluateAll_exact {backend : Backend} (exact : backend.Exact) (decides : backend.Decides)
    (config : SolverConfig) (before : List Request) (wellFormed : ∀ r ∈ before, r.WellFormed)
    {cs : Constraints} (hcs : cs.WellFormed) {es : List Expr} (hes : ∀ e ∈ es, e.WellFormed)
    (distinct : Distinct config (About (.evaluateAll es cs :: before)))
    (oneWidth : Lowering.Consistent ((cs.items ++ es).flatMap occurrences)) :
    let answer := ((evaluateAll es cs).run ((new backend config).after before)).1
    let bytes := ((evaluateBytes es cs).run ((new backend config).after before)).1
    (answer = .error .unsatisfiable ↔ cs.Unsatisfiable) ∧
      (bytes = .error .unsatisfiable ↔ cs.Unsatisfiable) ∧
      (¬ cs.Unsatisfiable → ∃ values bs, answer = .ok values ∧ cs.Joint es values ∧ bytes = .ok bs ∧
        bs.map (·.toNat) = values.map (·.toNat % 2 ^ 8)) := by
  intro answer bytes
  have cut : bytes = answer.map fun values => values.map (·.toUInt8) := evaluateBytes_answer es cs _
  have faithful : ((new backend config).after before).Faithful backend config _ :=
    after_faithful exact distinct wellFormed (fun ds ⟨r, hr, hds⟩ => ⟨r, .tail _ hr, hds⟩) faithful_new
  have about : About (.evaluateAll es cs :: before) cs := ⟨_, .head _, .head _⟩
  rw [cut]
  rcases (faithful.decisive exact decides distinct).evaluateAll_cases about hcs hes oneWidth with
    ⟨unsatisfiable, refused⟩ | ⟨⟨σ, satisfied⟩, values, given, joint⟩
  · rw [show answer = .error .unsatisfiable from refused]
    exact ⟨iff_of_true rfl unsatisfiable, iff_of_true rfl unsatisfiable,
      fun satisfiable => (satisfiable unsatisfiable).elim⟩
  · rw [show answer = .ok values from given]
    have possible : ¬ cs.Unsatisfiable := fun unsatisfiable => unsatisfiable σ satisfied
    refine ⟨iff_of_false nofun possible, iff_of_false nofun possible,
      fun _ => ⟨values, _, rfl, joint, rfl, ?_⟩⟩
    rw [List.map_map]
    exact List.map_congr_left fun v _ => UInt64.toNat_toUInt8 v

/-- A variable asked for twice has one value, beside a constant and a bit that is demanded. -/
theorem evaluateAll_exact_repeated :
    let demand : Constraints := ({} : Constraints).append (.var "flag" 1)
    let es : List Expr := [.var "x" 8, .var "x" 8, .const 3 8, .var "flag" 1]
    ∃ v, ((evaluateAll es demand).run (new .perfect {})).1 = .ok [v, v, 3, 1] := by
  intro demand es
  have hcs : demand.WellFormed := by
    simp [demand, Constraints.WellFormed, Constraints.append, Expr.WellFormed, Expr.width]
  have hes : ∀ e ∈ es, e.WellFormed := by
    simp [es, Expr.WellFormed]
  have oneWidth : Lowering.Consistent ((demand.items ++ es).flatMap occurrences) := by
    intro name w w' hw hw'
    simp [demand, es, Constraints.append, occurrences] at hw hw'
    grind
  have satisfiable : ¬ demand.Unsatisfiable := fun unsatisfiable => unsatisfiable (fun _ => 1) (by
    simp [demand, Constraints.SatisfiedBy, Constraints.append, evaluate_eq_eval]
    rfl)
  obtain ⟨values, -, given, ⟨σ, satisfied, joint⟩, -⟩ :=
    (evaluateAll_exact Backend.perfect_exact Backend.perfect_decides {} [] (List.forall_mem_nil _) hcs hes
      (distinct_single _ rfl) oneWidth).2.2 satisfiable
  have demanded : (Expr.var "flag" 1).evaluate σ.bindings = some 1 := satisfied _ (.head _)
  have known : (Expr.const 3 8).evaluate σ.bindings = some 3 := by rw [evaluate_eq_eval]; rfl
  subst es
  obtain _ | ⟨first, _ | ⟨second, _ | ⟨third, _ | ⟨fourth, _ | _⟩⟩⟩⟩ := joint
  cases first.symm.trans second
  cases known.symm.trans third
  cases demanded.symm.trans fourth
  exact ⟨_, given⟩

end Solver

end PathSearch
