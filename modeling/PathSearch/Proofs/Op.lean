import PathSearch.Proofs.Word
import PathSearch.Smt.Script

/-! # Operators as bit-vector operations

On words that hold values of one to 64 bits, every operator is the bit-vector operation of the same
name, division by zero and shifts past the width included.
-/

namespace PathSearch.Op

open Word

variable {w : Nat}

/-- A unary operator is the bit-vector operation. -/
theorem foldUnary_eq (hw : w ≤ 64) {op : Op} (unary : op.isUnary = true) (a : Word) :
    op.foldUnary a w = some (ofBits (Smt.unaryBits op (bits w a))) := by
  cases op <;> simp only [isUnary, Bool.false_eq_true] at unary
  · simp only [foldUnary, Smt.unaryBits, truncate_eq_ofBits hw, bits_neg hw]
  · simp only [foldUnary, Smt.unaryBits, truncate_eq_ofBits hw, bits_not hw]

theorem truncate_eq_zero_iff (hw : w ≤ 64) (b : Word) : truncate w b = 0 ↔ bits w b = 0#w := by
  rw [← UInt64.toNat_inj, ← BitVec.toNat_inj, toNat_truncate hw, toNat_bits]
  simp

theorem truncate_ofBool (hpos : 0 < w) (hw : w ≤ 64) (p : Bool) :
    truncate w (ofBool p) = ofBits (BitVec.ofBool p) := by
  have one : 1 < 2 ^ w := Nat.one_lt_two_pow (by omega)
  apply UInt64.toNat_inj.mp
  rw [toNat_truncate hw, toNat_ofBits (by omega)]
  cases p
  · simp [ofBool]
  · simpa [ofBool] using Nat.mod_eq_of_lt one

theorem ofBits_udiv (hw : w ≤ 64) (a b : Word) :
    truncate w (if truncate w b = 0 then mask w else truncate w a / truncate w b) =
      ofBits ((bits w a).smtUDiv (bits w b)) := by
  apply UInt64.toNat_inj.mp
  rw [toNat_truncate hw, toNat_ofBits hw, BitVec.smtUDiv_eq]
  by_cases zero : bits w b = 0#w
  · rw [if_pos ((truncate_eq_zero_iff hw b).mpr zero), if_pos zero, toNat_mask hw,
      BitVec.toNat_allOnes]
    exact Nat.mod_eq_of_lt (by have := Nat.two_pow_pos w; omega)
  · rw [if_neg (mt (truncate_eq_zero_iff hw b).mp zero), if_neg zero, UInt64.toNat_div,
      toNat_truncate hw, toNat_truncate hw, BitVec.toNat_udiv, toNat_bits, toNat_bits]
    apply Nat.mod_eq_of_lt
    exact Nat.lt_of_le_of_lt (Nat.div_le_self _ _) (Nat.mod_lt _ (Nat.two_pow_pos w))

theorem ofBits_urem (hw : w ≤ 64) (a b : Word) :
    truncate w (if truncate w b = 0 then truncate w a else truncate w a % truncate w b) =
      ofBits (bits w a % bits w b) := by
  apply UInt64.toNat_inj.mp
  rw [toNat_truncate hw, toNat_ofBits hw, BitVec.toNat_umod, toNat_bits, toNat_bits]
  split
  · rename_i zero
    have none : b.toNat % 2 ^ w = 0 := by rw [← toNat_truncate hw, zero]; rfl
    rw [toNat_truncate hw, Nat.mod_mod, none, Nat.mod_zero]
  · rw [UInt64.toNat_mod, toNat_truncate hw, toNat_truncate hw]
    apply Nat.mod_eq_of_lt
    exact Nat.lt_of_le_of_lt (Nat.mod_le _ _) (Nat.mod_lt _ (Nat.two_pow_pos w))

theorem toInt_eq_zero_iff (b : BitVec w) : b.toInt = 0 ↔ b = 0#w := by
  rw [← BitVec.toInt_inj]
  simp

/-- Where the divisor is not zero, division rounds towards zero. -/
theorem smtSDiv_eq_ofInt {a b : BitVec w} (nonzero : b ≠ 0#w) :
    a.smtSDiv b = BitVec.ofInt w (a.toInt.tdiv b.toInt) := by
  have same : a.smtSDiv b = a.sdiv b := by
    have negated : b.neg ≠ 0#w := by simpa using nonzero
    simp only [BitVec.smtSDiv, BitVec.sdiv, BitVec.smtUDiv_eq, if_neg nonzero, if_neg negated]
    rfl
  rw [same]
  apply BitVec.eq_of_toInt_eq
  rw [BitVec.toInt_sdiv, BitVec.toInt_ofInt]

theorem ofBits_sdiv (hw : w ≤ 64) (a b : Word) :
    truncate w (if (bits w b).toInt = 0 then (if (bits w a).toInt < 0 then 1 else mask w)
      else ofSigned ((bits w a).toInt.tdiv (bits w b).toInt)) =
      ofBits ((bits w a).smtSDiv (bits w b)) := by
  rw [truncate_eq_ofBits hw]
  congr 1
  by_cases zero : bits w b = 0#w
  · rw [zero, BitVec.smtSDiv_zero]
    have ones : bits w (mask w) = BitVec.allOnes w := by
      apply BitVec.eq_of_toNat_eq
      rw [toNat_bits, toNat_mask hw, BitVec.toNat_allOnes]
      exact Nat.mod_eq_of_lt (by have := Nat.two_pow_pos w; omega)
    have one : bits w 1 = 1#w := by simp [bits]
    simp only [BitVec.toInt_zero, if_true, BitVec.slt_eq_decide, decide_eq_true_eq]
    split <;> simp only [one, ones]
  · rw [if_neg (mt (toInt_eq_zero_iff _).mp zero), bits_ofSigned hw, smtSDiv_eq_ofInt zero]

theorem ofBits_srem (hw : w ≤ 64) (a b : Word) :
    truncate w (if (bits w b).toInt = 0 then truncate w a
      else ofSigned ((bits w a).toInt.tmod (bits w b).toInt)) =
      ofBits ((bits w a).srem (bits w b)) := by
  rw [truncate_eq_ofBits hw]
  congr 1
  by_cases zero : bits w b = 0#w
  · rw [zero, BitVec.srem_zero, BitVec.toInt_zero, if_pos rfl, bits_truncate hw]
  · rw [if_neg (mt (toInt_eq_zero_iff _).mp zero), bits_ofSigned hw, ← BitVec.toInt_srem,
      BitVec.ofInt_toInt]

theorem ofBits_shl (hw : w ≤ 64) (a b : Word) :
    truncate w (if min w maxWidth ≤ (truncate w b).toNat then 0 else truncate w a <<< truncate w b) =
      ofBits (if w ≤ (bits w b).toNat then 0 else bits w a <<< bits w b) := by
  have width : min w maxWidth = w := by simp only [maxWidth]; omega
  rw [truncate_eq_ofBits hw, width, toNat_truncate hw, toNat_bits]
  congr 1
  split
  · simp [bits]
  · apply BitVec.eq_of_toNat_eq
    have small : b.toNat % 2 ^ w % 64 = b.toNat % 2 ^ w := Nat.mod_eq_of_lt (by omega)
    rw [toNat_bits, UInt64.toNat_shiftLeft, toNat_truncate hw, toNat_truncate hw, small,
      mod_two_pow_mod hw, BitVec.shiftLeft_eq', BitVec.toNat_shiftLeft, toNat_bits, toNat_bits]

theorem ofBits_lshr (hw : w ≤ 64) (a b : Word) :
    truncate w (if min w maxWidth ≤ (truncate w b).toNat then 0 else truncate w a >>> truncate w b) =
      ofBits (if w ≤ (bits w b).toNat then 0 else bits w a >>> bits w b) := by
  have width : min w maxWidth = w := by simp only [maxWidth]; omega
  rw [truncate_eq_ofBits hw, width, toNat_truncate hw, toNat_bits]
  congr 1
  split
  · simp [bits]
  · apply BitVec.eq_of_toNat_eq
    have small : b.toNat % 2 ^ w % 64 = b.toNat % 2 ^ w := Nat.mod_eq_of_lt (by omega)
    rw [toNat_bits, UInt64.toNat_shiftRight, toNat_truncate hw, toNat_truncate hw, small,
      BitVec.ushiftRight_eq', BitVec.toNat_ushiftRight, toNat_bits, toNat_bits]
    apply Nat.mod_eq_of_lt
    exact Nat.lt_of_le_of_lt (Nat.shiftRight_le _ _) (Nat.mod_lt _ (Nat.two_pow_pos w))

/-- From the top bit on, a shift that keeps the sign gives copies of it. -/
theorem sshiftRight_min (a : BitVec w) (n : Nat) (hpos : 0 < w) :
    a.sshiftRight (min n (w - 1)) = a.sshiftRight (min n w) := by
  by_cases past : n < w
  · have fst : min n (w - 1) = n := by omega
    have snd : min n w = n := by omega
    rw [fst, snd]
  · have fst : min n (w - 1) = w - 1 := by omega
    have snd : min n w = w := by omega
    rw [fst, snd]
    apply BitVec.eq_of_getLsbD_eq
    intro i hi
    simp only [BitVec.getLsbD_sshiftRight, BitVec.msb_eq_getLsbD_last]
    by_cases first : i = 0
    · subst first
      simp
    · have far : ¬ w - 1 + i < w := by omega
      have farther : ¬ w + i < w := by omega
      simp [far, farther]

theorem ofBits_ashr (hpos : 0 < w) (hw : w ≤ 64) (a b : Word) :
    truncate w (ofSigned ((bits w a).toInt >>> min (truncate w b).toNat (w - 1))) =
      ofBits ((bits w a).sshiftRight (min (bits w b).toNat w)) := by
  rw [truncate_eq_ofBits hw, bits_ofSigned hw, ← BitVec.toInt_sshiftRight, BitVec.ofInt_toInt,
    toNat_truncate hw, toNat_bits, sshiftRight_min _ _ hpos]

/-- A binary operator is the bit-vector operation. -/
theorem foldBinary_eq (hpos : 0 < w) (hw : w ≤ 64) {op : Op} (binary : op.isUnary = false)
    (a b : Word) :
    op.foldBinary a b w = some (ofBits (Smt.binaryBits op (bits w a) (bits w b)).value) := by
  have signedA : toSigned w (truncate w a) = (bits w a).toInt := by
    rw [toSigned_eq_toInt hw, bits_truncate hw]
  have signedB : toSigned w (truncate w b) = (bits w b).toInt := by
    rw [toSigned_eq_toInt hw, bits_truncate hw]
  have below : truncate w a < truncate w b ↔ (bits w a).toNat < (bits w b).toNat := by
    rw [UInt64.lt_iff_toNat_lt, toNat_truncate hw, toNat_truncate hw, toNat_bits, toNat_bits]
  have above : truncate w b < truncate w a ↔ (bits w b).toNat < (bits w a).toNat := by
    rw [UInt64.lt_iff_toNat_lt, toNat_truncate hw, toNat_truncate hw, toNat_bits, toNat_bits]
  have atMost : truncate w a ≤ truncate w b ↔ (bits w a).toNat ≤ (bits w b).toNat := by
    rw [UInt64.le_iff_toNat_le, toNat_truncate hw, toNat_truncate hw, toNat_bits, toNat_bits]
  have atLeast : truncate w b ≤ truncate w a ↔ (bits w b).toNat ≤ (bits w a).toNat := by
    rw [UInt64.le_iff_toNat_le, toNat_truncate hw, toNat_truncate hw, toNat_bits, toNat_bits]
  have same : (truncate w a == truncate w b) = (bits w a == bits w b) := by
    rw [Bool.eq_iff_iff, beq_iff_eq, beq_iff_eq, ← UInt64.toNat_inj, ← BitVec.toNat_inj,
      toNat_truncate hw, toNat_truncate hw, toNat_bits, toNat_bits]
  simp only [foldBinary, signedA, signedB]
  cases op with
  | neg | not => simp [isUnary] at binary
  | add => simp only [Smt.binaryBits, truncate_eq_ofBits hw, bits_add hw, bits_ofBits hw]
  | sub => simp only [Smt.binaryBits, truncate_eq_ofBits hw, bits_sub hw, bits_ofBits hw]
  | mul => simp only [Smt.binaryBits, truncate_eq_ofBits hw, bits_mul hw, bits_ofBits hw]
  | and => simp only [Smt.binaryBits, truncate_eq_ofBits hw, bits_and, bits_ofBits hw]
  | or => simp only [Smt.binaryBits, truncate_eq_ofBits hw, bits_or, bits_ofBits hw]
  | xor => simp only [Smt.binaryBits, truncate_eq_ofBits hw, bits_xor, bits_ofBits hw]
  | udiv => exact congrArg some (ofBits_udiv hw a b)
  | urem => exact congrArg some (ofBits_urem hw a b)
  | sdiv => exact congrArg some (ofBits_sdiv hw a b)
  | srem => exact congrArg some (ofBits_srem hw a b)
  | shl => exact congrArg some (ofBits_shl hw a b)
  | lshr => exact congrArg some (ofBits_lshr hw a b)
  | ashr => exact congrArg some (ofBits_ashr hpos hw a b)
  | eq | ne =>
      simp only [truncate_ofBool hpos hw, Smt.binaryBits, Smt.Bits.ofBool, bne, same]
  | ult | ule | ugt | uge =>
      simp only [truncate_ofBool hpos hw, Smt.binaryBits, Smt.Bits.ofBool, BitVec.ult, BitVec.ule,
        below, above, atMost, atLeast]
  | slt | sle | sgt | sge =>
      simp only [truncate_ofBool hpos hw, Smt.binaryBits, Smt.Bits.ofBool, BitVec.slt_eq_decide,
        BitVec.sle_eq_decide]

theorem width_binaryBits (op : Op) (a b : BitVec w) :
    (Smt.binaryBits op a b).width = if op.isComparison then 1 else w := by
  cases op <;> rfl

/-- Words that fit the width are equal or not as they are. -/
theorem foldBinary_eq_ofBool (pos : 0 < w) (hw : w ≤ 64) {a b : Word}
    (ha : a.toNat < 2 ^ w) (hb : b.toNat < 2 ^ w) :
    foldBinary .eq a b w = some (ofBool (a == b)) := by
  have one : 1 < 2 ^ w := Nat.one_lt_two_pow (by omega)
  simp only [foldBinary, truncate_of_lt hw ha, truncate_of_lt hw hb, Option.some.injEq]
  apply truncate_of_lt hw
  cases a == b with
  | true => exact one
  | false => exact Nat.lt_of_succ_lt one

theorem foldUnary_lt (hw : w ≤ 64) {op : Op} {a v : Word} (h : op.foldUnary a w = some v) :
    v.toNat < 2 ^ w := by
  cases op <;> simp only [foldUnary, Option.some.injEq, reduceCtorEq] at h
  all_goals
    subst h
    exact toNat_truncate_lt hw _

theorem foldBinary_lt (hpos : 0 < w) (hw : w ≤ 64) {op : Op} (binary : op.isUnary = false)
    {a b v : Word} (h : op.foldBinary a b w = some v) :
    v.toNat < 2 ^ (if op.isComparison then 1 else w) := by
  have width := width_binaryBits op (bits w a) (bits w b)
  have bound := (Smt.binaryBits op (bits w a) (bits w b)).value.isLt
  rw [foldBinary_eq hpos hw binary, Option.some.injEq] at h
  rw [← h, toNat_ofBits, ← width]
  · exact bound
  · rw [width]
    split <;> omega

end PathSearch.Op
