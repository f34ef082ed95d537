import PathSearch.Graph
import PathSearch.Op

/-! # Bit-vector expressions

An expression is a constant, a variable, or an operation on expressions. Every expression has a
width, which follows from its shape. Two expressions are equal when they have the same shape;
whether they have the same value is a question for the solver.

The width and a hash of the shape are kept with every node, so both are found without a walk, and
comparing an expression with itself takes one step.
-/

namespace PathSearch

/-- A bit-vector expression. -/
inductive Expr where
  /-- A value, below `2 ^ width`. -/
  | const (value : Word) (bits : Nat)
  /-- A free variable, known by its name. -/
  | var (name : String) (bits : Nat)
  | unary (op : Op) (operand : Expr)
  | binary (op : Op) (lhs rhs : Expr)
  /-- The second part where the one-bit condition is 1, the third where it is 0. -/
  | ite (cond yes no : Expr)
  /-- The bits from `high` down to `low`, both included. -/
  | extract (high low : Nat) (operand : Expr)
  /-- Zeros put in front, up to `bits`. -/
  | zext (operand : Expr) (bits : Nat)
  /-- Copies of the top bit put in front, up to `bits`. -/
  | sext (operand : Expr) (bits : Nat)
  /-- The bits of `high` followed by those of `low`. -/
  | concat (high low : Expr)
with
  /-- The number of bits. -/
  @[computed_field] width : Expr → Nat
    | .const _ bits => bits
    | .var _ bits => bits
    | .unary _ x => x.width
    | .binary op l _ => if op.isComparison then 1 else l.width
    | .ite _ y _ => y.width
    | .extract high low _ => high - low + 1
    | .zext _ bits => bits
    | .sext _ bits => bits
    | .concat h l => h.width + l.width
  /-- A hash of the shape. -/
  @[computed_field] shapeHash : Expr → UInt64
    | .const v bits => mixHash 3 (mixHash (hash v) (hash bits))
    | .var n bits => mixHash 5 (mixHash (hash n) (hash bits))
    | .unary op x => mixHash 7 (mixHash (hash op) x.shapeHash)
    | .binary op l r => mixHash 11 (mixHash (hash op) (mixHash l.shapeHash r.shapeHash))
    | .ite c y n => mixHash 13 (mixHash c.shapeHash (mixHash y.shapeHash n.shapeHash))
    | .extract h l x => mixHash 17 (mixHash (mixHash (hash h) (hash l)) x.shapeHash)
    | .zext x bits => mixHash 19 (mixHash x.shapeHash (hash bits))
    | .sext x bits => mixHash 23 (mixHash x.shapeHash (hash bits))
    | .concat h l => mixHash 29 (mixHash h.shapeHash l.shapeHash)
  deriving Inhabited

namespace Expr

/-- Decides a conjunction, looking at the second part only where the first holds, and carries the
    answer over to an equivalent statement. -/
@[macro_inline] def decideBoth {p q r : Prop} (hp : Decidable p) (hq : Decidable q)
    (h : p ∧ q ↔ r) : Decidable r :=
  @decidable_of_decidable_of_iff _ _ (@instDecidableAnd _ _ hp hq) h

/-- Decides whether two expressions have one shape. One and the same node is equal to itself at
    once, and nodes of different hash are different at once. -/
def decideEq (a b : Expr) : Decidable (a = b) :=
  withPtrEqDecEq a b fun _ =>
    if differs : a.shapeHash ≠ b.shapeHash then isFalse fun same => differs (same ▸ rfl)
    else match a with
      | .const v w => match b with
        | .const v' w' => decideBoth (decEq v v') (decEq w w') (by simp)
        | .var .. | .unary .. | .binary .. | .ite .. | .extract .. | .zext .. | .sext ..
        | .concat .. => isFalse nofun
      | .var n w => match b with
        | .var n' w' => decideBoth (decEq n n') (decEq w w') (by simp)
        | .const .. | .unary .. | .binary .. | .ite .. | .extract .. | .zext .. | .sext ..
        | .concat .. => isFalse nofun
      | .unary op x => match b with
        | .unary op' x' => decideBoth (decEq op op') (decideEq x x') (by simp)
        | .const .. | .var .. | .binary .. | .ite .. | .extract .. | .zext .. | .sext ..
        | .concat .. => isFalse nofun
      | .binary op l r => match b with
        | .binary op' l' r' =>
            decideBoth (decEq op op') (decideBoth (decideEq l l') (decideEq r r') Iff.rfl)
              (by simp)
        | .const .. | .var .. | .unary .. | .ite .. | .extract .. | .zext .. | .sext ..
        | .concat .. => isFalse nofun
      | .ite c y n => match b with
        | .ite c' y' n' =>
            decideBoth (decideEq c c') (decideBoth (decideEq y y') (decideEq n n') Iff.rfl)
              (by simp)
        | .const .. | .var .. | .unary .. | .binary .. | .extract .. | .zext .. | .sext ..
        | .concat .. => isFalse nofun
      | .extract h l x => match b with
        | .extract h' l' x' =>
            decideBoth (decEq (h, l) (h', l')) (decideEq x x') (by simp [and_assoc])
        | .const .. | .var .. | .unary .. | .binary .. | .ite .. | .zext .. | .sext ..
        | .concat .. => isFalse nofun
      | .zext x w => match b with
        | .zext x' w' => decideBoth (decEq w w') (decideEq x x') (by simp [and_comm])
        | .const .. | .var .. | .unary .. | .binary .. | .ite .. | .extract .. | .sext ..
        | .concat .. => isFalse nofun
      | .sext x w => match b with
        | .sext x' w' => decideBoth (decEq w w') (decideEq x x') (by simp [and_comm])
        | .const .. | .var .. | .unary .. | .binary .. | .ite .. | .extract .. | .zext ..
        | .concat .. => isFalse nofun
      | .concat h l => match b with
        | .concat h' l' => decideBoth (decideEq h h') (decideEq l l') (by simp)
        | .const .. | .var .. | .unary .. | .binary .. | .ite .. | .extract .. | .zext ..
        | .sext .. => isFalse nofun

instance : DecidableEq Expr := decideEq

instance : Hashable Expr := ⟨Expr.shapeHash⟩

/-- The direct parts of an expression, from left to right. -/
def operands : Expr → List Expr
  | .const .. | .var .. => []
  | .unary _ x | .extract _ _ x | .zext x _ | .sext x _ => [x]
  | .binary _ l r => [l, r]
  | .ite c y n => [c, y, n]
  | .concat h l => [h, l]

theorem sizeOf_lt_of_mem_operands {a b : Expr} (h : a ∈ b.operands) : sizeOf a < sizeOf b := by
  cases b <;> simp [operands] at h <;> grind

/-- Expressions as a graph in which equal expressions are one node. -/
def graph : Graph Expr where
  operands := operands
  acyclic := Subrelation.wf sizeOf_lt_of_mem_operands (measure sizeOf).wf

/-- The distinct parts of an expression and itself, each after its operands. -/
def postOrder (e : Expr) : Array Expr := graph.postOrder (shareParts e)

/-- The value of a constant. -/
def const? : Expr → Option Word
  | .const v _ => some v
  | _ => none

/-- The name of a variable. -/
def var? : Expr → Option String
  | .var n _ => some n
  | _ => none

def isConst (e : Expr) : Bool := e.const?.isSome

/-- The one-bit constant 1. -/
def isTrue (e : Expr) : Bool := e.width == 1 && e.const? == some 1

/-- The one-bit constant 0. -/
def isFalse (e : Expr) : Bool := e.width == 1 && e.const? == some 0

/-- A 64-bit constant. -/
def word (value : Word) : Expr := .const value 64

/-- An 8-bit constant. -/
def byte (value : UInt8) : Expr := .const value.toUInt64 8

/-- A one-bit constant. -/
def truth (value : Bool) : Expr := .const (Word.ofBool value) 1

/-- The word for the outermost form of an expression. -/
def kindName : Expr → String
  | .const .. => "const" | .var .. => "var" | .unary .. => "unary" | .binary .. => "binary"
  | .ite .. => "ite" | .extract .. => "extract" | .zext .. => "zext" | .sext .. => "sext"
  | .concat .. => "concat"

end Expr

end PathSearch
