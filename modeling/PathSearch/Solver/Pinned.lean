import PathSearch.Solver.Basic

/-! # Values that constraints pin down

A value that a query returns is one of many unless every satisfying assignment gives it. These
functions tell the two cases apart, asking a solver of their own.
-/

namespace PathSearch.Solver

/-- The answer of a solver that was not asked before. -/
def askFresh {α : Type} (backend : Smt.Backend) (question : Ask α) : Except SolverError α :=
  (question.run (Solver.new backend {})).1

/-- The value of an expression where the constraints leave it only one. -/
def pinned? (backend : Smt.Backend) (e : Expr) (cs : Constraints) : Option Word :=
  match askFresh backend (evaluateMany e cs 2) with
  | .ok [value] => some value
  | _ => none

/-- The low byte of an expression where the constraints leave it only one. -/
def pinnedByte? (backend : Smt.Backend) (e : Expr) (cs : Constraints) : Option Word :=
  if e.width ≤ 8 then pinned? backend e cs
  else (Expr.mkExtract 7 0 e).toOption.bind (pinned? backend · cs)

/-- Whether an expression takes no more than `n` values. -/
def hasAtMost (backend : Smt.Backend) (e : Expr) (cs : Constraints) (n : Nat) : Bool :=
  match askFresh backend (evaluateMany e cs (n + 1)) with
  | .ok values => values.length ≤ n
  | .error _ => false

/-- The demand that the low bits of an expression have a value. -/
def valueDemand (e : Expr) (bits : Nat) (value : Word) : Except Error Expr := do
  let low ← Expr.mkExtract (min bits e.width - 1) 0 e
  low.equals (.const (Word.truncate low.width value) low.width)

/-- Whether expressions can have the given values, in their low bits, all at once. -/
def agrees (backend : Smt.Backend) (bits : Nat) (es : List Expr) (values : List Word)
    (cs : Constraints) : Bool :=
  let all := (es.zip values).foldlM (fun cs (e, v) => do
    cs.push (← valueDemand e bits v)) cs
  match all with
  | .ok cs => match askFresh backend (isSatisfiable cs) with
    | .ok b => b
    | .error _ => false
  | .error _ => false

end PathSearch.Solver
