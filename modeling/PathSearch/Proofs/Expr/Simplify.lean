import PathSearch.Expr.Build
import PathSearch.Proofs.Op

/-! # The rules that simplify operations

Each rule that replaces an operation by one of its operands, by a constant or by the opposite
comparison gives the value of the operation, at every width from 1 to 64.
-/

namespace PathSearch.Expr

open Word

variable {w : Nat} {op : Op} {a b v : Word}

@[simp] theorem bits_zero (w : Nat) : bits w 0 = 0#w := by simp [bits]

@[simp] theorem bits_one (w : Nat) : bits w 1 = 1#w := by simp [bits]

theorem bits_mask (hw : w ≤ 64) : bits w (mask w) = BitVec.allOnes w := by
  apply BitVec.eq_of_toNat_eq
  rw [toNat_bits, toNat_mask hw, BitVec.toNat_allOnes]
  exact Nat.mod_eq_of_lt (by have := Nat.two_pow_pos w; omega)

theorem one_ne_zero_bits (hpos : 0 < w) : ¬ 1#w = 0#w := by
  intro same
  have := congrArg BitVec.toNat same
  have one : 1 % 2 ^ w = 1 := Nat.mod_eq_of_lt (Nat.one_lt_two_pow (by omega))
  simp [one] at this

theorem foldBinary_neutralRight (hpos : 0 < w) (hw : w ≤ 64) (fits : a.toNat < 2 ^ w)
    (neutral : neutralRight? op w = some v) : op.foldBinary a v w = some a := by
  have binary : op.isUnary = false := by cases op <;> simp [neutralRight?] at neutral <;> rfl
  have back := ofBits_bits_of_lt hw fits
  have nonzero : ¬ w = 0 := by omega
  rw [Op.foldBinary_eq hpos hw binary]
  cases op <;> simp only [neutralRight?, Option.some.injEq, reduceCtorEq] at neutral <;>
    subst neutral <;>
    simp [Smt.binaryBits, bits_mask hw, BitVec.smtUDiv_eq, one_ne_zero_bits hpos, nonzero, back]

theorem foldBinary_neutralLeft (hpos : 0 < w) (hw : w ≤ 64) (fits : b.toNat < 2 ^ w)
    (neutral : neutralLeft? op w = some v) : op.foldBinary v b w = some b := by
  have binary : op.isUnary = false := by cases op <;> simp [neutralLeft?] at neutral <;> rfl
  have back := ofBits_bits_of_lt hw fits
  rw [Op.foldBinary_eq hpos hw binary]
  cases op <;> simp only [neutralLeft?, Option.some.injEq, reduceCtorEq] at neutral <;>
    subst neutral <;> simp [Smt.binaryBits, bits_mask hw, back]

theorem ofBits_mask (hw : w ≤ 64) : ofBits (BitVec.allOnes w) = mask w := by
  apply UInt64.toNat_inj.mp
  rw [toNat_ofBits hw, toNat_mask hw, BitVec.toNat_allOnes]

theorem foldBinary_absorbing (hpos : 0 < w) (hw : w ≤ 64) (absorbing : absorbing? op w = some v)
    (given : a = v ∨ b = v) : op.foldBinary a b w = some v := by
  have binary : op.isUnary = false := by cases op <;> simp [absorbing?] at absorbing <;> rfl
  have zero : ofBits (0#w) = 0 := by simp [ofBits]
  rw [Op.foldBinary_eq hpos hw binary]
  cases op <;> simp only [absorbing?, Option.some.injEq, reduceCtorEq] at absorbing <;>
    subst absorbing <;> rcases given with rfl | rfl <;>
    simp [Smt.binaryBits, bits_mask hw, ofBits_mask hw, zero]

/-- The word that an operator gives on one operand given twice, where that is always the same. -/
def constOnSame? : Op → Option Word
  | .eq | .ule | .sle | .uge | .sge => some 1
  | .ne | .ult | .slt | .ugt | .sgt | .xor | .sub => some 0
  | _ => none

theorem foldBinary_same_const (hpos : 0 < w) (hw : w ≤ 64) (same : constOnSame? op = some v) :
    op.foldBinary a a w = some v := by
  have binary : op.isUnary = false := by cases op <;> simp [constOnSame?] at same <;> rfl
  rw [Op.foldBinary_eq hpos hw binary]
  cases op <;> simp only [constOnSame?, Option.some.injEq, reduceCtorEq] at same <;>
    subst same <;>
    simp [Smt.binaryBits, Smt.Bits.ofBool, BitVec.ult, BitVec.ule, BitVec.slt_eq_decide,
      BitVec.sle_eq_decide, ofBits]

theorem foldBinary_same_self (hpos : 0 < w) (hw : w ≤ 64) (fits : a.toNat < 2 ^ w)
    (idempotent : op = .and ∨ op = .or) : op.foldBinary a a w = some a := by
  have binary : op.isUnary = false := by rcases idempotent with rfl | rfl <;> rfl
  have back := ofBits_bits_of_lt hw fits
  rw [Op.foldBinary_eq hpos hw binary]
  rcases idempotent with rfl | rfl <;> simp [Smt.binaryBits, back]

theorem binaryBits_negated {opposite : Op} (negated : op.negated? = some opposite)
    (x y : BitVec w) :
    ∃ p, Smt.binaryBits op x y = .ofBool p ∧ Smt.binaryBits opposite x y = .ofBool !p := by
  cases op <;> simp only [Op.negated?, Option.some.injEq, reduceCtorEq] at negated <;>
    subst negated <;> refine ⟨_, rfl, ?_⟩ <;>
    simp [Smt.binaryBits, bne, BitVec.ult, BitVec.ule, BitVec.slt_eq_decide, BitVec.sle_eq_decide,
      ← decide_not]

/-- The opposite comparison gives the complement of the bit. -/
theorem foldBinary_negated {opposite : Op} (hpos : 0 < w) (hw : w ≤ 64)
    (negated : op.negated? = some opposite) (value : op.foldBinary a b w = some v) :
    opposite.foldBinary a b w = Op.not.foldUnary v 1 := by
  have binary : op.isUnary = false := by cases op <;> simp [Op.negated?] at negated <;> rfl
  have binary' : opposite.isUnary = false := by
    cases op <;> simp [Op.negated?] at negated <;> subst negated <;> rfl
  have flip : ∀ p : Bool, ofBits (BitVec.ofBool !p) = truncate 1 (~~~ ofBits (BitVec.ofBool p)) := by
    decide
  obtain ⟨p, plain, opposed⟩ := binaryBits_negated negated (bits w a) (bits w b)
  rw [Op.foldBinary_eq hpos hw binary, plain, Option.some.injEq] at value
  rw [Op.foldBinary_eq hpos hw binary', opposed, Op.foldUnary, ← value]
  exact congrArg some (flip p)

/-- Taking the complement, or the negative, twice gives the value back. -/
theorem foldUnary_twice (hw : w ≤ 64) (fits : a.toNat < 2 ^ w) (value : op.foldUnary a w = some v) :
    op.foldUnary v w = some a := by
  have back := ofBits_bits_of_lt hw fits
  have unary : op.isUnary = true := by cases op <;> simp [Op.foldUnary] at value <;> rfl
  rw [Op.foldUnary_eq hw unary, Option.some.injEq] at value
  rw [Op.foldUnary_eq hw unary, ← value, bits_ofBits hw, Option.some.injEq]
  cases op <;> simp only [Op.isUnary, Bool.false_eq_true] at unary
  · simp [Smt.unaryBits, back]
  · simp [Smt.unaryBits, back]

end PathSearch.Expr
