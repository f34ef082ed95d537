import PathSearch.Error
import PathSearch.Expr.Basic

/-! # Building expressions

The functions here are the way to make expressions. Each checks the widths of its operands, folds
constants, and applies a few rules that keep the value and make the expression smaller: neutral and
absorbing operands, double negation, slices of slices, slices that meet.
-/

namespace PathSearch.Expr

/-- Accepts the widths from 1 to 64. -/
def checkWidth (width : Nat) : Except Error Unit :=
  if width = 0 ∨ Word.maxWidth < width then .error (.invalidWidth width) else .ok ()

/-- Accepts the one width that an operation requires. -/
def expectWidth (operation : String) (expected found : Nat) : Except Error Unit :=
  if expected ≠ found then .error (.widthMismatch operation expected found) else .ok ()

/-- A constant of the given width, cut to it. -/
def mkConst (value : Word) (width : Nat) : Except Error Expr := do
  checkWidth width
  pure (.const (Word.truncate width value) width)

/-- A variable of the given width. -/
def mkVar (name : String) (width : Nat) : Except Error Expr := do
  checkWidth width
  pure (.var name width)

/-- A unary operator on an operand, known to be unary. Two negations in a row are none. -/
def applyUnary (op : Op) (x : Expr) : Expr :=
  match x.const?.bind (op.foldUnary · x.width) with
  | some v => .const v x.width
  | none => match x with
    | .unary inner y => if inner = op then y else .unary op x
    | _ => .unary op x

/-- A unary operation. -/
def mkUnary (op : Op) (x : Expr) : Except Error Expr :=
  if op.isUnary then .ok (applyUnary op x)
  else .error (.widthMismatch op.name 2 1)

/-- The right operand that leaves the left one unchanged. -/
def neutralRight? (op : Op) (width : Nat) : Option Word :=
  match op with
  | .add | .or | .xor | .sub | .shl | .lshr | .ashr => some 0
  | .mul | .udiv => some 1
  | .and => some (Word.mask width)
  | _ => none

/-- The left operand that leaves the right one unchanged. -/
def neutralLeft? (op : Op) (width : Nat) : Option Word :=
  match op with
  | .add | .or | .xor => some 0
  | .mul => some 1
  | .and => some (Word.mask width)
  | _ => none

/-- The operand that is the result whatever the other one is. -/
def absorbing? (op : Op) (width : Nat) : Option Word :=
  match op with
  | .and | .mul => some 0
  | .or => some (Word.mask width)
  | _ => none

/-- The result of an operator on one operand given twice, where it needs no operation. -/
def onSame? (op : Op) (x : Expr) : Option Expr :=
  match op with
  | .eq | .ule | .sle | .uge | .sge => some (truth true)
  | .ne | .ult | .slt | .ugt | .sgt => some (truth false)
  | .xor | .sub => some (.const 0 x.width)
  | .and | .or => some x
  | _ => none

/-- The simpler form of a binary operation, where a rule gives one. -/
def simplify? (op : Op) (lhs rhs : Expr) : Option Expr :=
  let width := lhs.width
  if rhs.const?.isSome ∧ rhs.const? = neutralRight? op width then some lhs
  else if lhs.const?.isSome ∧ lhs.const? = neutralLeft? op width then some rhs
  else match absorbing? op width with
    | some v =>
        if lhs.const? = some v ∨ rhs.const? = some v then some (.const v width)
        else if lhs = rhs then onSame? op lhs else none
    | none => if lhs = rhs then onSame? op lhs else none

/-- A binary operator on operands of one width, known to be binary. -/
def applyBinary (op : Op) (lhs rhs : Expr) : Expr :=
  match lhs.const?, rhs.const? with
  | some a, some b => match op.foldBinary a b lhs.width with
    | some v => .const v (if op.isComparison then 1 else lhs.width)
    | none => .binary op lhs rhs
  | _, _ => (simplify? op lhs rhs).getD (.binary op lhs rhs)

/-- A binary operation. -/
def mkBinary (op : Op) (lhs rhs : Expr) : Except Error Expr :=
  if op.isUnary then .error (.widthMismatch op.name 1 2)
  else do
    expectWidth op.name lhs.width rhs.width
    pure (applyBinary op lhs rhs)

/-- A choice between two expressions of one width by a one-bit condition. -/
def mkIte (cond yes no : Expr) : Except Error Expr := do
  expectWidth "ite" 1 cond.width
  expectWidth "ite" yes.width no.width
  pure <| match cond.const? with
    | some c => if c = 1 then yes else no
    | none => if yes = no then yes else .ite cond yes no

/-- Widths and slice bounds are counted below this number. -/
def boundLimit : Nat := 0x100000000

/-- The refusal of a slice, which names the width that was asked for. -/
def sliceError (high low : Nat) : Error :=
  if high - low + 1 < boundLimit then .invalidWidth (high - low + 1) else .overflow

/-- The bits from `high` down to `low`. Slices pass through slices, through the side of a
    concatenation that holds them, and through zero extension. -/
def mkExtract (high low : Nat) (x : Expr) : Except Error Expr :=
  if high < low ∨ x.width ≤ high then .error (sliceError high low)
  else
    let width := high - low + 1
    if low = 0 ∧ width = x.width then .ok x
    else match x with
      | .const v _ => .ok (.const (Word.truncate width (v >>> UInt64.ofNat low)) width)
      | .extract _ innerLow inner => mkExtract (high + innerLow) (low + innerLow) inner
      | .concat hi lo =>
          if high < lo.width then mkExtract high low lo
          else if lo.width ≤ low then mkExtract (high - lo.width) (low - lo.width) hi
          else .ok (.extract high low x)
      | .zext inner _ =>
          if high < inner.width then mkExtract high low inner
          else if inner.width ≤ low then .ok (.const 0 width)
          else .ok (.extract high low x)
      | _ => .ok (.extract high low x)

/-- Accepts a width to which an expression can be extended. -/
def checkExtension (x : Expr) (width : Nat) : Except Error Unit := do
  checkWidth width
  if width < x.width then .error (.invalidWidth width) else .ok ()

/-- An expression with zeros put in front. -/
def mkZext (x : Expr) (width : Nat) : Except Error Expr := do
  checkExtension x width
  pure <|
    if width = x.width then x
    else match x with
      | .const v _ => .const v width
      | _ => .zext x width

/-- An expression with copies of its top bit put in front. -/
def mkSext (x : Expr) (width : Nat) : Except Error Expr := do
  checkExtension x width
  pure <|
    if width = x.width then x
    else match x with
      | .const v bits => .const (Word.truncate width (Word.ofSigned (Word.toSigned bits v))) width
      | _ => .sext x width

/-- One expression in front of another. Neighbouring slices of one expression become one slice, and
    zeros in front become an extension. -/
def mkConcat (high low : Expr) : Except Error Expr := do
  let width := high.width + low.width
  checkWidth width
  match high, low with
  | .const h _, .const l _ => pure (.const ((h <<< UInt64.ofNat low.width) ||| l) width)
  | .const h _, _ => if h = 0 then mkZext low width else pure (.concat high low)
  | .extract h₁ l₁ x₁, .extract h₂ l₂ x₂ =>
      if x₁ = x₂ ∧ l₁ = h₂ + 1 then mkExtract h₁ l₂ x₁ else pure (.concat high low)
  | _, _ => pure (.concat high low)

/-- Whether two expressions have the same value. -/
def equals (a b : Expr) : Except Error Expr := mkBinary .eq a b

/-- The negation of a one-bit expression. A comparison is turned into the opposite one. -/
def lnot (x : Expr) : Except Error Expr := do
  expectWidth "not" 1 x.width
  match x with
  | .binary op l r => match op.negated? with
    | some opposite => mkBinary opposite l r
    | none => mkUnary .not x
  | _ => mkUnary .not x

/-- The conjunction of one-bit expressions. -/
def land (a b : Expr) : Except Error Expr := do
  expectWidth "and" 1 a.width
  mkBinary .and a b

/-- The disjunction of one-bit expressions. -/
def lor (a b : Expr) : Except Error Expr := do
  expectWidth "or" 1 a.width
  mkBinary .or a b

end PathSearch.Expr
