import PathSearch.Error
import PathSearch.Expr.Basic
import PathSearch.Expr.Printer
import PathSearch.Smt.Script
import Std.Data.HashMap

/-! # From expressions to scripts

Every distinct part of the expressions becomes one line. A variable that occurs with two widths
makes the question undecided.
-/

namespace PathSearch.Smt

/-- Expressions lowered so far. -/
structure Lowering where
  lines : Array Line := #[]
  /-- The line of each expression. -/
  index : Std.HashMap Expr Nat := ∅
  /-- The width of each variable. -/
  widths : Std.HashMap String Nat := ∅
  deriving Inhabited

namespace Lowering

/-- The line of an operand, which was lowered before. -/
def line (t : Lowering) (e : Expr) : Nat := t.index.getD e 0

/-- Takes up a variable, which has to keep its width. -/
def declare (t : Lowering) (name : String) (width : Nat) : Except SolverError Lowering :=
  match t.widths[name]? with
  | none => .ok { t with widths := t.widths.insert name width }
  | some known =>
      if known = width then .ok t
      else .error (.unknown ("variable " ++ name ++ " used as both " ++ toString known ++ " and " ++
        toString width ++ " bits"))

/-- The definition of a node by the lines of its operands. -/
def lineOf (t : Lowering) : Expr → Line
  | .const v w => .const w v.toNat
  | .var n w => .var n w
  | .unary op x => .unary op (t.line x)
  | .binary op l r => .binary op (t.line l) (t.line r)
  | .ite c y n => .ite (t.line c) (t.line y) (t.line n)
  | .extract high low x => .extract high low (t.line x)
  | .zext x w => .zext (t.line x) w
  | .sext x w => .sext (t.line x) w
  | .concat h l => .concat (t.line h) (t.line l)

/-- Lowers a node whose operands are lowered. -/
def addNode (t : Lowering) (node : Expr) : Except SolverError Lowering := do
  let t ← match node with
    | .var n w => t.declare n w
    | _ => pure t
  let line := t.lineOf node
  let position := t.lines.size
  pure { t with lines := t.lines.push line, index := t.index.insert node position }

/-- Lowers an expression and gives its line. -/
def add (t : Lowering) (e : Expr) : Except SolverError (Nat × Lowering) := do
  let pending := Expr.graph.postOrderWhere (t.index.contains ·) e
  let t ← pending.foldlM addNode t
  pure (t.line e, t)

/-- Lowers expressions in order and gives their lines. -/
def addAll (t : Lowering) : List Expr → Except SolverError (List Nat × Lowering)
  | [] => pure ([], t)
  | e :: rest => do
      let (i, t) ← t.add e
      let (is, t) ← t.addAll rest
      pure (i :: is, t)

/-- Lowers one-bit expressions that have to be 1. -/
def assertAll (t : Lowering) : List Expr → Except SolverError (List Nat × Lowering)
  | [] => pure ([], t)
  | e :: rest => do
      if e.width ≠ 1 then
        throw (.unknown ("cannot assert " ++ toString e.width ++ "-bit expression " ++ e.text))
      let (i, t) ← t.add e
      let (is, t) ← t.assertAll rest
      pure (i :: is, t)

/-- The script that asserts one-bit expressions, and the lines of further expressions in it. -/
def scriptOf (asserted asked : List Expr) : Except SolverError (Script × List Nat) := do
  let (asserted, asked) := shareParts (asserted, asked)
  let (demands, t) ← assertAll {} asserted
  let (lines, t) ← t.addAll asked
  pure ({ lines := t.lines, asserted := demands }, lines)

end Lowering

end PathSearch.Smt
