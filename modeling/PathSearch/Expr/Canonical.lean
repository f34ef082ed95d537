import PathSearch.Bytes.LittleEndian
import PathSearch.Expr.Basic
import Std.Data.HashMap

/-! # The canonical byte form of an expression

The distinct parts of an expression are written one after the other, operands before what uses
them, and refer to their operands by position. Two expressions have one byte form exactly when they
are equal.
-/

namespace PathSearch.Expr

/-- The number of each form of expression. -/
def tag : Expr → UInt8
  | .const .. => 0 | .var .. => 1 | .unary .. => 2 | .binary .. => 3 | .ite .. => 4
  | .extract .. => 5 | .zext .. => 6 | .sext .. => 7 | .concat .. => 8

/-- The record of one node, given the positions of the nodes before it. -/
def record (position : Expr → Nat) (e : Expr) : List UInt8 :=
  let place (x : Expr) : List UInt8 := Bytes.toLE 4 (position x)
  e.tag :: UInt8.ofNat e.width :: match e with
    | .const v _ => Bytes.toLE 8 v.toNat
    | .var n _ => Bytes.toLE 4 n.utf8ByteSize ++ n.toUTF8.toList
    | .unary op x => UInt8.ofNat op.index :: place x
    | .binary op l r => UInt8.ofNat op.index :: place l ++ place r
    | .extract high low x => UInt8.ofNat high :: UInt8.ofNat low :: place x
    | .ite .. | .zext .. | .sext .. | .concat .. => e.operands.flatMap place

/-- Positions of the nodes written so far and their records, the latest first. -/
abbrev Written := Std.HashMap Expr Nat × List (List UInt8)

/-- Writes one more node. -/
def writeRecord : Written → Expr → Written
  | (index, records), node =>
      let entry := record (fun x => index.getD x 0xffffffff) node
      let position := index.size
      (index.insert node position, entry :: records)

/-- The canonical byte form. -/
def canonical (e : Expr) : List UInt8 :=
  (e.postOrder.foldl writeRecord (∅, [])).2.reverse.flatten

end PathSearch.Expr
