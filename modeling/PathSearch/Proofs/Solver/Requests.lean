import PathSearch.Proofs.Solver.Faithful

/-! # A solver at work

A solver is asked one question after another, and may be told to forget in between. Its memory is
right at any time, so what it was asked before makes no difference to what it decides.
-/

namespace PathSearch.Solver

open PathSearch.Expr Smt Ask

/-- What can be asked of a solver, or demanded. -/
inductive Request where
  | isSatisfiable (cs : Constraints)
  | evaluate (e : Expr) (cs : Constraints)
  | evaluateMany (e : Expr) (cs : Constraints) (n : Nat)
  | evaluateAll (es : List Expr) (cs : Constraints)
  | evaluateBytes (es : List Expr) (cs : Constraints)
  | clearCache

inductive Reply where
  | verdict (satisfiable : Bool)
  | value (v : Word)
  | values (vs : List Word)
  | bytes (bs : List UInt8)
  | cleared

namespace Request

def ask : Request → Ask Reply
  | isSatisfiable cs => return .verdict (← Solver.isSatisfiable cs)
  | evaluate e cs => return .value (← Solver.evaluate e cs)
  | evaluateMany e cs n => return .values (← Solver.evaluateMany e cs n)
  | evaluateAll es cs => return .values (← Solver.evaluateAll es cs)
  | evaluateBytes es cs => return .bytes (← Solver.evaluateBytes es cs)
  | clearCache => do
      modify Solver.clearCache
      return .cleared

/-- The constraints that a request is about. -/
def constraints : Request → List Constraints
  | isSatisfiable cs | evaluate _ cs | evaluateMany _ cs _ | evaluateAll _ cs
  | evaluateBytes _ cs => [cs]
  | clearCache => []

/-- The expressions whose values are asked for. -/
def expressions : Request → List Expr
  | evaluate e _ | evaluateMany e _ _ => [e]
  | evaluateAll es _ | evaluateBytes es _ => es
  | isSatisfiable _ | clearCache => []

structure WellFormed (r : Request) : Prop where
  constraints : ∀ cs ∈ r.constraints, cs.WellFormed
  expressions : ∀ e ∈ r.expressions, e.WellFormed

end Request

/-- The solver after requests, made one after another. -/
def after (s : Solver) (requests : List Request) : Solver :=
  requests.foldl (fun s r => (r.ask.run s).2) s

/-- The replies to requests, made one after another. -/
def replies (s : Solver) : List Request → List (Except SolverError Reply)
  | [] => []
  | r :: rest => (r.ask.run s).1 :: replies (r.ask.run s).2 rest

/-- Some request is about the constraints. -/
def About (requests : List Request) (cs : Constraints) : Prop := ∃ r ∈ requests, cs ∈ r.constraints

variable {backend : Backend} {config : SolverConfig} {K : Constraints → Prop} {s : Solver}

section Keeps

variable (exact : backend.Exact) (distinct : Distinct config K)

include exact distinct

/-- No request leaves anything wrong in memory. -/
theorem ask_faithful {r : Request} (hr : r.WellFormed) (about : ∀ cs ∈ r.constraints, K cs)
    (hs : s.Faithful backend config K) : (r.ask.run s).2.Faithful backend config K := by
  obtain ⟨constraints, expressions⟩ := hr
  cases r with
  | clearCache => exact clearCache_faithful hs
  | isSatisfiable cs =>
      have asked := isSatisfiable_ensures exact distinct (about cs (.head _)) (constraints cs (.head _))
      exact (asked.returning Reply.verdict s hs).1
  | evaluate e cs =>
      have asked := evaluate_ensures exact distinct (about cs (.head _)) (constraints cs (.head _))
        (expressions e (.head _))
      exact (asked.returning Reply.value s hs).1
  | evaluateMany e cs n =>
      have asked := evaluateMany_ensures exact distinct (about cs (.head _))
        (constraints cs (.head _)) (expressions e (.head _)) n
      exact (asked.returning Reply.values s hs).1
  | evaluateAll es cs =>
      have asked := evaluateAll_ensures exact distinct (about cs (.head _))
        (constraints cs (.head _)) expressions
      exact (asked.returning Reply.values s hs).1
  | evaluateBytes es cs =>
      have asked := evaluateAll_ensures exact distinct (about cs (.head _))
        (constraints cs (.head _)) expressions
      exact ((asked.returning (·.map (·.toUInt8))).returning Reply.bytes s hs).1

theorem after_faithful {requests : List Request} (wellFormed : ∀ r ∈ requests, r.WellFormed)
    (about : ∀ cs, About requests cs → K cs) (hs : s.Faithful backend config K) :
    (s.after requests).Faithful backend config K := by
  induction requests generalizing s with
  | nil => exact hs
  | cons r rest ih =>
      obtain ⟨here, later⟩ := List.forall_mem_cons.mp wellFormed
      have kept := ask_faithful exact distinct here (fun cs hcs => about cs ⟨r, .head _, hcs⟩) hs
      exact ih later (fun cs ⟨q, hq, hcs⟩ => about cs ⟨q, .tail _ hq, hcs⟩) kept

end Keeps

/-- An assignment satisfies constraints if bindings do, open variables being of no account. -/
theorem satisfiable_iff_bindings {cs : Constraints} :
    (∃ σ, cs.SatisfiedBy σ) ↔ ∃ b : Bindings, ∀ c ∈ cs.items, c.evaluate b = some 1 := by
  constructor
  · rintro ⟨σ, satisfied⟩
    exact ⟨σ.bindings, satisfied⟩
  · rintro ⟨b, satisfied⟩
    exact ⟨b.close, fun c hc => evaluate_close (satisfied c hc)⟩

/-- Deciding is total for a procedure that gives up on nothing, but for variables with two widths. -/
theorem isSatisfiable_decides (exact : backend.Exact) (decides : backend.Decides)
    (config : SolverConfig) (before : List Request) (wellFormed : ∀ r ∈ before, r.WellFormed)
    {cs : Constraints} (hcs : cs.WellFormed)
    (distinct : Distinct config (About (.isSatisfiable cs :: before))) :
    let answer := ((isSatisfiable cs).run ((new backend config).after before)).1
    (truth false ∈ cs.items → answer = .ok false) ∧
      (truth false ∉ cs.items → ¬ cs.OneWidthEach → ∃ reason, answer = .error (.unknown reason)) ∧
      (truth false ∉ cs.items → cs.OneWidthEach → ∃ satisfiable, answer = .ok satisfiable ∧
        (satisfiable = true ↔ ∃ b : Bindings, ∀ c ∈ cs.items, c.evaluate b = some 1)) := by
  intro answer
  have about : About (.isSatisfiable cs :: before) cs := ⟨_, .head _, .head _⟩
  have faithful : ((new backend config).after before).Faithful backend config _ :=
    after_faithful exact distinct wellFormed (fun ds ⟨r, hr, hds⟩ => ⟨r, .tail _ hr, hds⟩) faithful_new
  obtain ⟨-, decided, failed⟩ := isSatisfiable_ensures exact distinct about hcs _ faithful
  rw [Constraints.mem_truth_false_iff, ← satisfiable_iff_bindings]
  change (∀ b, answer = .ok b → _) at decided
  change (∀ e, answer = .error e → _) at failed
  clear_value answer
  cases answer with
  | ok b =>
      obtain ⟨right, lowered⟩ := decided b rfl
      refine ⟨fun never => ?_, fun possible mixed => ?_, fun _ _ => ⟨b, rfl, right⟩⟩
      · have unsatisfiable := Constraints.unsatisfiable_of_triviallyFalse hcs never
        rw [eq_false_of_ne_true fun yes => (right.mp yes).elim unsatisfiable]
      · exact (mixed (lowered.resolve_left possible)).elim
  | error e =>
      obtain ⟨possible, notLowered⟩ := (failed e rfl).2 decides
      obtain ⟨reason, rfl⟩ := Lowering.scriptOf_error notLowered
      refine ⟨fun never => ?_, fun _ _ => ⟨reason, rfl⟩, fun _ oneWidth => ?_⟩
      · rw [possible] at never
        cases never
      · exact (Lowering.not_oneWidthEach_of_error hcs notLowered oneWidth).elim

theorem distinct_single (config : SolverConfig) {r : Request} {cs : Constraints}
    (one : r.constraints = [cs]) : Distinct config (About [r]) := by
  rintro - ds ds' ⟨q, hq, hds⟩ ⟨q', hq', hds'⟩ -
  rw [List.mem_singleton.mp hq, one] at hds
  rw [List.mem_singleton.mp hq', one] at hds'
  rw [List.mem_singleton.mp hds, List.mem_singleton.mp hds']

/-- One bit is satisfiable, and the same name for that bit and for a byte is undecided. -/
theorem isSatisfiable_decides_flag :
    let flag : Constraints := ({} : Constraints).append (.var "flag" 1)
    let mixed : Constraints := flag.append (.extract 0 0 (.var "flag" 8))
    ((isSatisfiable flag).run (new .perfect {})).1 = .ok true ∧
      ∃ reason, ((isSatisfiable mixed).run (new .perfect {})).1 = .error (.unknown reason) := by
  intro flag mixed
  have decides {cs : Constraints} (hcs : cs.WellFormed) :=
    isSatisfiable_decides Backend.perfect_exact Backend.perfect_decides {} [] (by simp) hcs
      (distinct_single _ rfl)
  constructor
  · have wellFormed : flag.WellFormed := by
      simp [flag, Constraints.WellFormed, Constraints.append, Expr.WellFormed, Expr.width]
    have possible : truth false ∉ flag.items := by simp [flag, Constraints.append, truth]
    have oneWidth : flag.OneWidthEach := by
      intro name w w' hw hw'
      simp only [flag, Constraints.append, List.nil_append, List.flatMap_singleton, occurrences,
        List.mem_singleton, Prod.mk.injEq] at hw hw'
      rw [hw.2, hw'.2]
    obtain ⟨-, -, consistent⟩ := decides wellFormed
    obtain ⟨satisfiable, answer, right⟩ := consistent possible oneWidth
    have yes : satisfiable = true := right.mpr ⟨fun _ => some 1, fun c hc => by
      rw [show c = .var "flag" 1 by simpa [flag, Constraints.append] using hc, evaluate_eq_eval]
      rfl⟩
    exact yes ▸ answer
  · have wellFormed : mixed.WellFormed := by
      simp [mixed, flag, Constraints.WellFormed, Constraints.append, Expr.WellFormed, Expr.width]
    have possible : truth false ∉ mixed.items := by simp [mixed, flag, Constraints.append, truth]
    have twoWidths : ¬ mixed.OneWidthEach := by
      intro oneWidth
      have same : 1 = 8 := oneWidth "flag" 1 8 (by simp [mixed, flag, Constraints.append, occurrences])
        (by simp [mixed, flag, Constraints.append, occurrences])
      cases same
    obtain ⟨-, mixedWidths, -⟩ := decides wellFormed
    exact mixedWidths possible twoWidths

end PathSearch.Solver
