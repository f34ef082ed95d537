import PathSearch.Expr.Build
import PathSearch.Proofs.Except
import PathSearch.Proofs.Op

/-! # Arithmetic that is checked at every step

Counts are added and taken away without end, and a shift of a word by too many places wraps around. The
operators are written here a second time, with every sum, difference, quotient and shift refused where
it leaves the range of its numbers. At the widths that there are nothing is refused, and the values are
the same.
-/

namespace PathSearch.Checked

open PathSearch.Expr (boundLimit)

section Steps

/-- A sum of counts. -/
def add (a b : Nat) : Except Error Nat := if a + b < boundLimit then .ok (a + b) else .error .overflow

/-- A difference of counts. -/
def sub (a b : Nat) : Except Error Nat := if b ≤ a then .ok (a - b) else .error .overflow

/-- A product of counts. -/
def mul (a b : Nat) : Except Error Nat := if a * b < boundLimit then .ok (a * b) else .error .overflow

/-- A difference of words that must not go below zero. -/
def subWord (a b : Word) : Except Error Word := if b ≤ a then .ok (a - b) else .error .overflow

/-- A shift of a word to the left, by less than its width. -/
def shl (v : Word) (n : Nat) : Except Error Word :=
  if n < Word.maxWidth then .ok (v <<< UInt64.ofNat n) else .error .overflow

/-- A shift of a word to the right, by less than its width. -/
def shr (v : Word) (n : Nat) : Except Error Word :=
  if n < Word.maxWidth then .ok (v >>> UInt64.ofNat n) else .error .overflow

/-- A shift of a signed word to the right, by less than its width. -/
def sar (v : Int) (n : Nat) : Except Error Int :=
  if n < Word.maxWidth then .ok (v >>> n) else .error .overflow

/-- A quotient by something other than zero. -/
def div (a b : Word) : Except Error Word := if b = 0 then .error .overflow else .ok (a / b)

/-- A remainder by something other than zero. -/
def rem (a b : Word) : Except Error Word := if b = 0 then .error .overflow else .ok (a % b)

/-- A signed quotient by something other than zero; the one that does not fit wraps. -/
def quot (a b : Int) : Except Error Word :=
  if b = 0 then .error .overflow else .ok (Word.ofSigned (a.tdiv b))

/-- A signed remainder by something other than zero. -/
def quotRem (a b : Int) : Except Error Word :=
  if b = 0 then .error .overflow else .ok (Word.ofSigned (a.tmod b))

variable {a b n : Nat}

theorem add_eq (small : a + b < boundLimit) : add a b = .ok (a + b) := if_pos small

theorem sub_eq (le : b ≤ a) : sub a b = .ok (a - b) := if_pos le

theorem mul_eq (small : a * b < boundLimit) : mul a b = .ok (a * b) := if_pos small

theorem shl_eq (v : Word) (small : n < 64) : shl v n = .ok (v <<< UInt64.ofNat n) := if_pos small

theorem shr_eq (v : Word) (small : n < 64) : shr v n = .ok (v >>> UInt64.ofNat n) := if_pos small

theorem sar_eq (v : Int) (small : n < 64) : sar v n = .ok (v >>> n) := if_pos small

end Steps

/-- The low `width` bits set, as one less than a power of two. -/
def mask (width : Nat) : Except Error Word :=
  if Word.maxWidth ≤ width then pure 0xffffffffffffffff
  else do subWord (← shl 1 width) 1

/-- The low `width` bits as a signed number: they are shifted to the top and back. -/
def toSigned (width : Nat) (value : Word) : Except Error Int :=
  if Word.maxWidth ≤ width then pure (Word.toSigned 64 value)
  else do
    let shift ← sub 64 width
    sar (Word.toSigned 64 (← shl value shift)) shift

/-- The value of a unary operator. -/
def foldUnary (op : Op) (value : Word) (width : Nat) : Except Error (Option Word) := do
  let m ← mask width
  pure <| match op with
    | .neg => some ((0 - value) &&& m)
    | .not => some (~~~ value &&& m)
    | _ => none

/-- The value of a binary operator on operands that are cut to the width, which are given as words and
    as signed numbers. -/
def binaryValue (op : Op) (width : Nat) (m a b : Word) (sa sb : Int) : Except Error (Option Word) :=
  let fits (value : Word) : Except Error (Option Word) := pure (some (value &&& m))
  match op with
  | .add => fits (a + b)
  | .sub => fits (a - b)
  | .mul => fits (a * b)
  | .udiv => if b = 0 then fits m else do fits (← div a b)
  | .urem => if b = 0 then fits a else do fits (← rem a b)
  | .sdiv => if sb = 0 then fits (if sa < 0 then 1 else m) else do fits (← quot sa sb)
  | .srem => if sb = 0 then fits a else do fits (← quotRem sa sb)
  | .and => fits (a &&& b)
  | .or => fits (a ||| b)
  | .xor => fits (a ^^^ b)
  | .shl => if width ≤ b.toNat then fits 0 else do fits (← shl a b.toNat)
  | .lshr => if width ≤ b.toNat then fits 0 else do fits (← shr a b.toNat)
  | .ashr => do
      let last ← sub width 1
      fits (Word.ofSigned (← sar sa (min b.toNat last)))
  | .eq => fits (Word.ofBool (a == b))
  | .ne => fits (Word.ofBool (a != b))
  | .ult => fits (Word.ofBool (a < b))
  | .ule => fits (Word.ofBool (a ≤ b))
  | .ugt => fits (Word.ofBool (b < a))
  | .uge => fits (Word.ofBool (b ≤ a))
  | .slt => fits (Word.ofBool (sa < sb))
  | .sle => fits (Word.ofBool (sa ≤ sb))
  | .sgt => fits (Word.ofBool (sb < sa))
  | .sge => fits (Word.ofBool (sb ≤ sa))
  | .neg | .not => pure none

/-- The value of a binary operator. -/
def foldBinary (op : Op) (lhs rhs : Word) (width : Nat) : Except Error (Option Word) := do
  let m ← mask width
  let sa ← toSigned width (lhs &&& m)
  let sb ← toSigned width (rhs &&& m)
  binaryValue op width m (lhs &&& m) (rhs &&& m) sa sb

section Exact

variable {w : Nat}

theorem mask_eq (width : Nat) : mask width = .ok (Word.mask width) := by
  unfold mask Word.mask
  split
  · rfl
  · rename_i narrow
    have small : width < 64 := Nat.lt_of_not_le narrow
    have power : 2 ^ width < 2 ^ 64 := Nat.pow_lt_pow_right (by omega) small
    have pos := Nat.two_pow_pos width
    have top : ((1 : Word) <<< UInt64.ofNat width).toNat = 2 ^ width := by
      have places : width % 2 ^ 64 % 64 = width := by omega
      rw [UInt64.toNat_shiftLeft, UInt64.toNat_ofNat', places, UInt64.toNat_one, Nat.one_shiftLeft,
        Nat.mod_eq_of_lt power]
    have reaches : (1 : Word) ≤ 1 <<< UInt64.ofNat width := by
      rw [UInt64.le_iff_toNat_le, top]
      exact pos
    rw [ok_bind (shl_eq 1 small), subWord, if_pos reaches]
    congr 1
    apply UInt64.toNat_inj.mp
    rw [UInt64.toNat_sub_of_le _ _ reaches, top, UInt64.toNat_ofNat', Nat.pow_eq,
      Nat.mod_eq_of_lt (by omega)]
    rfl

theorem toSigned_eq_ite (hw : w ≤ 64) (v : Word) : Word.toSigned w v =
    if 2 * (v.toNat % 2 ^ w) < 2 ^ w then ((v.toNat % 2 ^ w : Nat) : Int)
    else ((v.toNat % 2 ^ w : Nat) : Int) - (2 ^ w : Nat) := by
  have width : min w Word.maxWidth = w := Nat.min_eq_left hw
  simp only [Word.toSigned, width, Word.toNat_truncate hw, Nat.pow_eq]

/-- Bits that are shifted to the top and back, as signed numbers, get copies of the highest of them
    above. -/
theorem toSigned_shifted (pos : 0 < w) (narrow : w < 64) (v : Word) :
    Word.toSigned 64 (v <<< UInt64.ofNat (64 - w)) >>> (64 - w) = Word.toSigned w v := by
  have whole : 2 ^ 64 = 2 ^ w * 2 ^ (64 - w) := by
    rw [← Nat.pow_add]
    congr 1
    omega
  have top : (v <<< UInt64.ofNat (64 - w)).toNat = v.toNat % 2 ^ w * 2 ^ (64 - w) := by
    have places : (64 - w) % 2 ^ 64 % 64 = 64 - w := by omega
    rw [UInt64.toNat_shiftLeft, UInt64.toNat_ofNat', places, Nat.shiftLeft_eq, whole,
      Nat.mul_mod_mul_right]
  have scale := Nat.two_pow_pos (64 - w)
  have inside : v.toNat % 2 ^ w * 2 ^ (64 - w) < 2 ^ 64 := by
    rw [whole]
    exact Nat.mul_lt_mul_of_pos_right (Nat.mod_lt _ (Nat.two_pow_pos w)) scale
  have sign : 2 * (v.toNat % 2 ^ w * 2 ^ (64 - w)) < 2 ^ 64 ↔ 2 * (v.toNat % 2 ^ w) < 2 ^ w := by
    rw [whole, ← Nat.mul_assoc]
    exact Nat.mul_lt_mul_right scale
  have back (i : Int) : (i * (2 ^ (64 - w) : Nat)) >>> (64 - w) = i := by
    rw [Int.shiftRight_eq_div_pow]
    exact Int.mul_ediv_cancel _ (by exact_mod_cast Nat.ne_of_gt scale)
  rw [toSigned_eq_ite (Nat.le_refl 64), toSigned_eq_ite (Nat.le_of_lt narrow), top,
    Nat.mod_eq_of_lt inside]
  by_cases positive : 2 * (v.toNat % 2 ^ w) < 2 ^ w
  · rw [if_pos (sign.mpr positive), if_pos positive, Int.natCast_mul]
    exact back _
  · rw [if_neg (mt sign.mp positive), if_neg positive, Int.natCast_mul, whole, Int.natCast_mul,
      ← Int.sub_mul]
    exact back _

theorem toSigned_eq (pos : 0 < w) (hw : w ≤ 64) (v : Word) :
    toSigned w v = .ok (Word.toSigned w v) := by
  unfold toSigned
  split
  · rename_i wide
    obtain rfl : w = 64 := Nat.le_antisymm hw wide
    rfl
  · rename_i narrow
    have narrow : w < 64 := Nat.lt_of_not_le narrow
    rw [ok_bind (sub_eq hw), ok_bind (shl_eq v (by omega)), sar_eq _ (by omega),
      toSigned_shifted pos narrow]

theorem foldUnary_eq (op : Op) (v : Word) (width : Nat) :
    foldUnary op v width = .ok (op.foldUnary v width) := by
  rw [foldUnary, ok_bind (mask_eq width)]
  cases op <;> rfl

theorem binaryValue_eq (pos : 0 < w) (hw : w ≤ 64) (op : Op) (lhs rhs : Word) :
    binaryValue op w (Word.mask w) (Word.truncate w lhs) (Word.truncate w rhs)
        (Word.toSigned w (Word.truncate w lhs)) (Word.toSigned w (Word.truncate w rhs)) =
      .ok (op.foldBinary lhs rhs w) := by
  have width : min w Word.maxWidth = w := Nat.min_eq_left hw
  cases op with
  | udiv | urem | sdiv | srem =>
      simp only [binaryValue, Op.foldBinary]
      split
      · rfl
      · rename_i nonzero
        simp only [div, rem, quot, quotRem, if_neg nonzero]
        rfl
  | shl | lshr =>
      simp only [binaryValue, Op.foldBinary, width]
      split
      · rfl
      · have small : (Word.truncate w rhs).toNat < 64 := by omega
        simp only [shl_eq _ small, shr_eq _ small, UInt64.ofNat_toNat]
        rfl
  | ashr =>
      have small : min (Word.truncate w rhs).toNat (w - 1) < 64 := by omega
      simp only [binaryValue, Op.foldBinary]
      exact (ok_bind (sub_eq (Nat.succ_le_of_lt pos)) _).trans (ok_bind (sar_eq _ small) _)
  | _ => rfl

/-- At the widths that there are no operator leaves the range of its numbers. -/
theorem foldBinary_eq (pos : 0 < w) (hw : w ≤ 64) (op : Op) (a b : Word) :
    foldBinary op a b w = .ok (op.foldBinary a b w) := by
  rw [foldBinary, ok_bind (mask_eq w), ok_bind (toSigned_eq pos hw _), ok_bind (toSigned_eq pos hw _)]
  exact binaryValue_eq pos hw op a b

end Exact

end PathSearch.Checked
