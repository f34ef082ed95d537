import PathSearch.Expr.Basic
import Std.Data.TreeMap

/-! # Free variables

The names an expression depends on, with their widths. Where one name occurs with two widths, the
node that comes later, operands first, decides.
-/

namespace PathSearch.Expr

/-- Variable names with their widths, in the order of the names. -/
abbrev Widths := Std.TreeMap String Nat

/-- Takes up a node if it is a variable. -/
def collectVariable (widths : Widths) : Expr → Widths
  | .var n bits => widths.insert n bits
  | _ => widths

/-- The free variables of an expression. -/
def freeVars (e : Expr) : Widths := e.postOrder.foldl collectVariable ∅

end PathSearch.Expr
