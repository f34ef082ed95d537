import PathSearch.Word

/-! # Operators on bit-vectors

The operators of the expression language, with their names, symbols and meaning on concrete words.
Division by zero, shifts past the width and the most negative quotient follow the usual
bit-vector conventions: every operator is total.
-/

namespace PathSearch

/-- The unary and binary operators. Their order fixes the number each is written as. -/
inductive Op where
  | add | sub | mul | sdiv | udiv | srem | urem | neg
  | and | or | xor | not | shl | ashr | lshr
  | eq | ne | slt | ult | sgt | ugt | sle | ule | sge | uge
  deriving Repr, DecidableEq, Inhabited, Hashable

namespace Op

/-- Every operator, in declaration order. -/
def all : List Op :=
  [.add, .sub, .mul, .sdiv, .udiv, .srem, .urem, .neg, .and, .or, .xor, .not, .shl, .ashr, .lshr,
   .eq, .ne, .slt, .ult, .sgt, .ugt, .sle, .ule, .sge, .uge]

/-- The position of an operator in the declaration order. -/
def index (op : Op) : Nat := all.idxOf op

/-- The word by which descriptions and errors name an operator. -/
def name : Op → String
  | .add => "add" | .sub => "sub" | .mul => "mul" | .sdiv => "sdiv" | .udiv => "udiv"
  | .srem => "srem" | .urem => "urem" | .neg => "neg" | .and => "and" | .or => "or"
  | .xor => "xor" | .not => "not" | .shl => "shl" | .ashr => "ashr" | .lshr => "lshr"
  | .eq => "eq" | .ne => "ne" | .slt => "slt" | .ult => "ult" | .sgt => "sgt" | .ugt => "ugt"
  | .sle => "sle" | .ule => "ule" | .sge => "sge" | .uge => "uge"

/-- The operator with the given name. -/
def ofName? (text : String) : Option Op := all.find? (·.name == text)

/-- The sign by which printed expressions show an operator. -/
def symbol : Op → String
  | .add => "+" | .sub => "-" | .mul => "*" | .sdiv => "/" | .udiv => "/u"
  | .srem => "%" | .urem => "%u" | .neg => "-" | .and => "&" | .or => "|"
  | .xor => "^" | .not => "~" | .shl => "<<" | .ashr => ">>" | .lshr => ">>>"
  | .eq => "==" | .ne => "!=" | .slt => "<" | .ult => "<u" | .sgt => ">" | .ugt => ">u"
  | .sle => "<=" | .ule => "<=u" | .sge => ">=" | .uge => ">=u"

/-- Takes one operand. -/
def isUnary : Op → Bool
  | .neg | .not => true
  | _ => false

/-- Takes two operands of one width and yields one bit. -/
def isComparison : Op → Bool
  | .eq | .ne | .slt | .ult | .sgt | .ugt | .sle | .ule | .sge | .uge => true
  | _ => false

/-- Gives the same value with its operands exchanged. -/
def isCommutative : Op → Bool
  | .add | .mul | .and | .or | .xor | .eq | .ne => true
  | _ => false

/-- The comparison that holds exactly when the given one does not. -/
def negated? : Op → Option Op
  | .eq => some .ne | .ne => some .eq
  | .slt => some .sge | .sge => some .slt
  | .ult => some .uge | .uge => some .ult
  | .sgt => some .sle | .sle => some .sgt
  | .ugt => some .ule | .ule => some .ugt
  | _ => none

/-- The value of a unary operator at a width; `none` for a binary one. -/
def foldUnary (op : Op) (value : Word) (width : Nat) : Option Word :=
  match op with
  | .neg => some (Word.truncate width (0 - value))
  | .not => some (Word.truncate width (~~~ value))
  | _ => none

/-- The value of a binary operator on operands of the given width, which are cut to that width
    first; `none` for a unary one. Comparisons give zero or one. -/
def foldBinary (op : Op) (lhs rhs : Word) (width : Nat) : Option Word :=
  let a := Word.truncate width lhs
  let b := Word.truncate width rhs
  let sa := Word.toSigned width a
  let sb := Word.toSigned width b
  let fits (value : Word) : Option Word := some (Word.truncate width value)
  match op with
  | .add => fits (a + b)
  | .sub => fits (a - b)
  | .mul => fits (a * b)
  | .udiv => fits (if b = 0 then Word.mask width else a / b)
  | .urem => fits (if b = 0 then a else a % b)
  | .sdiv =>
      fits (if sb = 0 then (if sa < 0 then 1 else Word.mask width) else Word.ofSigned (sa.tdiv sb))
  | .srem => fits (if sb = 0 then a else Word.ofSigned (sa.tmod sb))
  | .and => fits (a &&& b)
  | .or => fits (a ||| b)
  | .xor => fits (a ^^^ b)
  | .shl => fits (if min width Word.maxWidth ≤ b.toNat then 0 else a <<< b)
  | .lshr => fits (if min width Word.maxWidth ≤ b.toNat then 0 else a >>> b)
  | .ashr => fits (Word.ofSigned (sa >>> min b.toNat (width - 1)))
  | .eq => fits (Word.ofBool (a == b))
  | .ne => fits (Word.ofBool (a != b))
  | .ult => fits (Word.ofBool (a < b))
  | .ule => fits (Word.ofBool (a ≤ b))
  | .ugt => fits (Word.ofBool (b < a))
  | .uge => fits (Word.ofBool (b ≤ a))
  | .slt => fits (Word.ofBool (sa < sb))
  | .sle => fits (Word.ofBool (sa ≤ sb))
  | .sgt => fits (Word.ofBool (sb < sa))
  | .sge => fits (Word.ofBool (sb ≤ sa))
  | .neg | .not => none

end Op

end PathSearch
