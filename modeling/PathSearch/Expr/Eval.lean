import PathSearch.Expr.Basic
import Std.Data.HashMap

/-! # The value of an expression

`eval` gives the value by recursion on the expression. `evaluate` gives it with one visit per
distinct part, so a part that occurs many times costs no more than one that occurs once.
-/

namespace PathSearch.Expr

/-- What the variables stand for; a variable may be left open. -/
abbrev Bindings := String → Option Word

/-- The value of a node, given the values of its operands. A choice asks only for its condition and
    for the part taken. -/
def nodeValue (b : Bindings) (value : Expr → Option Word) : Expr → Option Word
  | .const v _ => some v
  | .var n bits => (b n).map (Word.truncate bits)
  | .unary op x => do op.foldUnary (← value x) x.width
  | .binary op l r => do
      let lv ← value l
      let rv ← value r
      op.foldBinary lv rv l.width
  | .ite c y n => do if (← value c) = 1 then value y else value n
  | .extract high low x => do
      pure (Word.truncate (high - low + 1) ((← value x) >>> UInt64.ofNat low))
  | .zext x _ => value x
  | .sext x bits => do
      pure (Word.truncate bits (Word.ofSigned (Word.toSigned x.width (← value x))))
  | .concat h l => do
      let hv ← value h
      let lv ← value l
      pure ((hv <<< UInt64.ofNat l.width) ||| lv)

/-- The value under bindings, or nothing where the value depends on an open variable. -/
def eval (b : Bindings) : Expr → Option Word
  | .const v _ => some v
  | .var n bits => (b n).map (Word.truncate bits)
  | .unary op x => do op.foldUnary (← eval b x) x.width
  | .binary op l r => do
      let lv ← eval b l
      let rv ← eval b r
      op.foldBinary lv rv l.width
  | .ite c y n => do if (← eval b c) = 1 then eval b y else eval b n
  | .extract high low x => do
      pure (Word.truncate (high - low + 1) ((← eval b x) >>> UInt64.ofNat low))
  | .zext x _ => eval b x
  | .sext x bits => do
      pure (Word.truncate bits (Word.ofSigned (Word.toSigned x.width (← eval b x))))
  | .concat h l => do
      let hv ← eval b h
      let lv ← eval b l
      pure ((hv <<< UInt64.ofNat l.width) ||| lv)

/-- Adds the value of a node to the values already known. -/
def recordValue (b : Bindings) (values : Std.HashMap Expr Word) (node : Expr) :
    Std.HashMap Expr Word :=
  match nodeValue b (values[·]?) node with
  | some v => values.insert node v
  | none => values

/-- The value under bindings, each distinct part being looked at once. -/
def evaluate (b : Bindings) (e : Expr) : Option Word :=
  let root := shareParts e
  ((graph.postOrder root).foldl (recordValue b) ∅)[root]?

end PathSearch.Expr
