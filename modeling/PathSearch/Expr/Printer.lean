import PathSearch.Expr.Basic
import PathSearch.Text.Hex

/-! # Expressions as text

Binary operations and concatenations stand in parentheses, unary operators stand directly before
their operand and slices directly behind it. Constants show their width.
-/

namespace PathSearch.Expr

/-- Appends the text of an expression. -/
def write (out : String) : Expr → String
  | .const v bits => out ++ Text.hex v.toNat ++ "#" ++ toString bits
  | .var n _ => out ++ n
  | .unary op x => write (out ++ op.symbol) x
  | .binary op l r => write (write (out ++ "(") l ++ " " ++ op.symbol ++ " ") r ++ ")"
  | .ite c y n => write (write (write (out ++ "ite(") c ++ ", ") y ++ ", ") n ++ ")"
  | .extract high low x => write out x ++ "[" ++ toString high ++ ":" ++ toString low ++ "]"
  | .zext x bits => write (out ++ "zext" ++ toString bits ++ "(") x ++ ")"
  | .sext x bits => write (out ++ "sext" ++ toString bits ++ "(") x ++ ")"
  | .concat h l => write (write (out ++ "(") h ++ " ++ ") l ++ ")"

/-- The text of an expression. -/
def text (e : Expr) : String := write "" e

end PathSearch.Expr
