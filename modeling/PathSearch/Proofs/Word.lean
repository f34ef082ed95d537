import Mathlib.Algebra.Group.Nat.Defs
import PathSearch.Word

/-! # Words as bit-vectors

A value of `w ≤ 64` bits is kept in a word. `bits w` reads it off as a bit-vector and `ofBits` puts
it back. Cutting a word to a width is one after the other, and the operations of words commute with
`bits`, so what holds of bit-vectors carries over to words.
-/

namespace PathSearch.Word

variable {w : Nat}

/-- The low bits of a word. -/
def bits (w : Nat) (v : Word) : BitVec w := BitVec.ofNat w v.toNat

/-- The word that holds a bit-vector, with zeros above it. -/
def ofBits (b : BitVec w) : Word := UInt64.ofNat b.toNat

@[simp] theorem toNat_bits (w : Nat) (v : Word) : (bits w v).toNat = v.toNat % 2 ^ w := by
  simp [bits]

theorem two_pow_le (hw : w ≤ 64) : 2 ^ w ≤ 2 ^ 64 := Nat.pow_le_pow_right (by omega) hw

theorem mod_two_pow_mod (hw : w ≤ 64) (n : Nat) : n % 2 ^ 64 % 2 ^ w = n % 2 ^ w :=
  Nat.mod_mod_of_dvd n (Nat.pow_dvd_pow 2 hw)

theorem toNat_ofBits (hw : w ≤ 64) (b : BitVec w) : (ofBits b).toNat = b.toNat := by
  have small : b.toNat < 2 ^ 64 := Nat.lt_of_lt_of_le b.isLt (two_pow_le hw)
  simp only [ofBits, UInt64.toNat_ofNat']
  exact Nat.mod_eq_of_lt small

theorem bits_ofBits (hw : w ≤ 64) (b : BitVec w) : bits w (ofBits b) = b := by
  apply BitVec.eq_of_toNat_eq
  rw [toNat_bits, toNat_ofBits hw]
  exact Nat.mod_eq_of_lt b.isLt

theorem toNat_mask (hw : w ≤ 64) : (mask w).toNat = 2 ^ w - 1 := by
  have bound := two_pow_le hw
  unfold mask maxWidth
  split
  · have : w = 64 := by omega
    subst this
    rfl
  · simp only [UInt64.toNat_ofNat', Nat.pow_eq]
    exact Nat.mod_eq_of_lt (by omega)

theorem toNat_truncate (hw : w ≤ 64) (v : Word) : (truncate w v).toNat = v.toNat % 2 ^ w := by
  rw [truncate, UInt64.toNat_and, toNat_mask hw, Nat.and_two_pow_sub_one_eq_mod]

theorem truncate_eq_ofBits (hw : w ≤ 64) (v : Word) : truncate w v = ofBits (bits w v) := by
  apply UInt64.toNat_inj.mp
  rw [toNat_truncate hw, toNat_ofBits hw, toNat_bits]

theorem bits_truncate (hw : w ≤ 64) (v : Word) : bits w (truncate w v) = bits w v := by
  rw [truncate_eq_ofBits hw, bits_ofBits hw]

/-- A word that fits a width is not changed by cutting it to that width. -/
theorem truncate_of_lt (hw : w ≤ 64) {v : Word} (fits : v.toNat < 2 ^ w) : truncate w v = v := by
  apply UInt64.toNat_inj.mp
  rw [toNat_truncate hw, Nat.mod_eq_of_lt fits]

theorem ofBits_bits_of_lt (hw : w ≤ 64) {v : Word} (fits : v.toNat < 2 ^ w) :
    ofBits (bits w v) = v := by
  rw [← truncate_eq_ofBits hw, truncate_of_lt hw fits]

theorem toNat_truncate_lt (hw : w ≤ 64) (v : Word) : (truncate w v).toNat < 2 ^ w := by
  rw [toNat_truncate hw]
  exact Nat.mod_lt _ (Nat.two_pow_pos w)

theorem toSigned_eq_toInt (hw : w ≤ 64) (v : Word) : toSigned w v = (bits w v).toInt := by
  have width : min w maxWidth = w := by simp only [maxWidth]; omega
  rw [BitVec.toInt_eq_toNat_cond, toNat_bits, ← toNat_truncate hw]
  simp only [toSigned, width, Nat.pow_eq]

theorem bits_ofSigned (hw : w ≤ 64) (i : Int) : bits w (ofSigned i) = BitVec.ofInt w i := by
  apply BitVec.eq_of_toNat_eq
  have reduced : (i % 2 ^ 64).toNat < 2 ^ 64 := by omega
  have nonneg : 0 ≤ i % 2 ^ 64 := by omega
  have shrink : i % 2 ^ 64 % (2 ^ w : Nat) = i % (2 ^ w : Nat) := by
    apply Int.emod_emod_of_dvd
    exact_mod_cast Nat.pow_dvd_pow 2 hw
  rw [toNat_bits, BitVec.toNat_ofInt, ofSigned, UInt64.toNat_ofNat', mod_two_pow_mod hw, ← shrink]
  change (i % 2 ^ 64).toNat % 2 ^ w = _
  rw [Int.toNat_emod nonneg (by omega), Int.toNat_natCast]

theorem bits_and (a b : Word) : bits w (a &&& b) = bits w a &&& bits w b := by
  apply BitVec.eq_of_toNat_eq
  simp only [toNat_bits, UInt64.toNat_and, BitVec.toNat_and, Nat.and_mod_two_pow]

theorem bits_or (a b : Word) : bits w (a ||| b) = bits w a ||| bits w b := by
  apply BitVec.eq_of_toNat_eq
  simp only [toNat_bits, UInt64.toNat_or, BitVec.toNat_or, Nat.or_mod_two_pow]

theorem bits_xor (a b : Word) : bits w (a ^^^ b) = bits w a ^^^ bits w b := by
  apply BitVec.eq_of_toNat_eq
  simp only [toNat_bits, UInt64.toNat_xor, BitVec.toNat_xor, Nat.xor_mod_two_pow]

/-- Putting one value above another adds up, where there is room for both. -/
theorem toNat_shiftLeft_or {m n : Nat} {a b : Word} (hpos : 0 < m) (room : m + n ≤ 64)
    (ha : a.toNat < 2 ^ m) (hb : b.toNat < 2 ^ n) :
    ((a <<< UInt64.ofNat n) ||| b).toNat = a.toNat * 2 ^ n + b.toNat := by
  have small : n % 2 ^ 64 % 64 = n := by omega
  have fits : a.toNat * 2 ^ n < 2 ^ 64 := by
    calc a.toNat * 2 ^ n < 2 ^ m * 2 ^ n := Nat.mul_lt_mul_of_pos_right ha (Nat.two_pow_pos n)
      _ = 2 ^ (m + n) := (Nat.pow_add 2 m n).symm
      _ ≤ 2 ^ 64 := two_pow_le room
  rw [UInt64.toNat_or, UInt64.toNat_shiftLeft, UInt64.toNat_ofNat', small, Nat.shiftLeft_eq,
    Nat.mod_eq_of_lt fits, Nat.mul_comm, ← Nat.two_pow_add_eq_or_of_lt hb]

theorem concat_lt {m n a b : Nat} (ha : a < 2 ^ m) (hb : b < 2 ^ n) :
    a * 2 ^ n + b < 2 ^ (m + n) := by
  calc a * 2 ^ n + b < (a + 1) * 2 ^ n := by rw [Nat.add_mul]; omega
    _ ≤ 2 ^ m * 2 ^ n := Nat.mul_le_mul_right _ ha
    _ = 2 ^ (m + n) := (Nat.pow_add 2 m n).symm

/-- The bits from `high` down to `low`. -/
def slice (high low : Nat) (v : Word) : Word := truncate (high - low + 1) (v >>> UInt64.ofNat low)

theorem toNat_slice {high low : Nat} (inside : high < 64) (ordered : low ≤ high) (v : Word) :
    (slice high low v).toNat = v.toNat / 2 ^ low % 2 ^ (high - low + 1) := by
  have small : low % 2 ^ 64 % 64 = low := by omega
  rw [slice, toNat_truncate (by omega), UInt64.toNat_shiftRight, UInt64.toNat_ofNat', small,
    Nat.shiftRight_eq_div_pow]

/-- A slice of a number depends only on the bits below its upper end. -/
theorem div_mod_two_pow (n low k : Nat) : n / 2 ^ low % 2 ^ k = n % 2 ^ (low + k) / 2 ^ low := by
  rw [Nat.pow_add, Nat.mod_mul_right_div_self]

theorem slice_slice {low k m size : Nat} (n : Nat) (inside : low + k ≤ size) :
    n / 2 ^ m % 2 ^ size / 2 ^ low % 2 ^ k = n / 2 ^ (low + m) % 2 ^ k := by
  rw [div_mod_two_pow, Nat.mod_mod_of_dvd _ (Nat.pow_dvd_pow 2 inside), ← div_mod_two_pow,
    Nat.div_div_eq_div_mul, ← Nat.pow_add, Nat.add_comm m low]

theorem slice_concat_low {low k n : Nat} (a b : Nat) (inside : low + k ≤ n) :
    (a * 2 ^ n + b) / 2 ^ low % 2 ^ k = b / 2 ^ low % 2 ^ k := by
  have shifted : a * 2 ^ n = a * 2 ^ (n - (low + k)) * 2 ^ (low + k) := by
    rw [Nat.mul_assoc, ← Nat.pow_add]
    congr 2
    omega
  rw [div_mod_two_pow, div_mod_two_pow, shifted, Nat.mul_add_mod_self_right]

theorem slice_concat_high {low n : Nat} (a : Nat) {b : Nat} (hb : b < 2 ^ n) (above : n ≤ low) :
    (a * 2 ^ n + b) / 2 ^ low = a / 2 ^ (low - n) := by
  have split : 2 ^ low = 2 ^ n * 2 ^ (low - n) := by
    rw [← Nat.pow_add]
    congr 1
    omega
  rw [split, ← Nat.div_div_eq_div_mul, Nat.mul_comm a, Nat.mul_add_div (Nat.two_pow_pos n),
    Nat.div_eq_of_lt hb, Nat.add_zero]

/-- Two slices that meet are one slice. -/
theorem slice_join (n : Nat) {low middle k : Nat} (ordered : low ≤ middle) :
    n / 2 ^ middle % 2 ^ k * 2 ^ (middle - low) + n / 2 ^ low % 2 ^ (middle - low) =
      n / 2 ^ low % 2 ^ (middle - low + k) := by
  have further : n / 2 ^ middle = n / 2 ^ low / 2 ^ (middle - low) := by
    rw [Nat.div_div_eq_div_mul, ← Nat.pow_add]
    congr 2
    omega
  rw [further, Nat.pow_add, Nat.mod_mul, Nat.add_comm, Nat.mul_comm (2 ^ (middle - low))]

/-- Reading the sign and cutting to the same width changes nothing. -/
theorem truncate_ofSigned_toSigned (hw : w ≤ 64) {v : Word} (fits : v.toNat < 2 ^ w) :
    truncate w (ofSigned (toSigned w v)) = v := by
  rw [truncate_eq_ofBits hw, bits_ofSigned hw, toSigned_eq_toInt hw, BitVec.ofInt_toInt,
    ofBits_bits_of_lt hw fits]

theorem slice_eq_extractLsb (hw : w ≤ 64) {high low : Nat} (ordered : low ≤ high) (inside : high < w)
    {v : Word} (fits : v.toNat < 2 ^ w) :
    slice high low v = ofBits ((bits w v).extractLsb high low) := by
  apply UInt64.toNat_inj.mp
  rw [toNat_slice (by omega) ordered, toNat_ofBits (by omega), BitVec.extractLsb_toNat, toNat_bits,
    Nat.mod_eq_of_lt fits, Nat.shiftRight_eq_div_pow]

theorem eq_setWidth {width : Nat} (wider : w ≤ width) (atMost : width ≤ 64) {v : Word}
    (fits : v.toNat < 2 ^ w) : v = ofBits ((bits w v).setWidth width) := by
  apply UInt64.toNat_inj.mp
  have fits' : v.toNat < 2 ^ width := Nat.lt_of_lt_of_le fits (Nat.pow_le_pow_right (by omega) wider)
  rw [toNat_ofBits atMost, BitVec.toNat_setWidth, toNat_bits, Nat.mod_eq_of_lt fits,
    Nat.mod_eq_of_lt fits']

theorem truncate_ofSigned_eq_signExtend (hw : w ≤ 64) {width : Nat} (atMost : width ≤ 64) (v : Word) :
    truncate width (ofSigned (toSigned w v)) = ofBits ((bits w v).signExtend width) := by
  rw [truncate_eq_ofBits atMost, bits_ofSigned atMost, toSigned_eq_toInt hw, BitVec.signExtend]

theorem shiftLeft_or_eq_append {m n : Nat} {a b : Word} (pos : 0 < m) (room : m + n ≤ 64)
    (ha : a.toNat < 2 ^ m) (hb : b.toNat < 2 ^ n) :
    (a <<< UInt64.ofNat n) ||| b = ofBits (bits m a ++ bits n b) := by
  apply UInt64.toNat_inj.mp
  rw [toNat_shiftLeft_or pos room ha hb, toNat_ofBits room, BitVec.toNat_append, toNat_bits, toNat_bits,
    Nat.mod_eq_of_lt ha, Nat.mod_eq_of_lt hb, ← Nat.shiftLeft_add_eq_or_of_lt hb, Nat.shiftLeft_eq]

section Arithmetic

variable (hw : w ≤ 64) (a b : Word)
include hw

theorem bits_add : bits w (a + b) = bits w a + bits w b := by
  apply BitVec.eq_of_toNat_eq
  simp only [toNat_bits, UInt64.toNat_add, BitVec.toNat_add, mod_two_pow_mod hw, Nat.add_mod_mod,
    Nat.mod_add_mod]

theorem bits_mul : bits w (a * b) = bits w a * bits w b := by
  apply BitVec.eq_of_toNat_eq
  simp only [toNat_bits, UInt64.toNat_mul, BitVec.toNat_mul, mod_two_pow_mod hw, Nat.mul_mod_mod,
    Nat.mod_mul_mod]

theorem bits_sub : bits w (a - b) = bits w a - bits w b := by
  have restored : bits w (a - b) + bits w b = bits w a := by
    rw [← bits_add hw, UInt64.sub_add_cancel]
  rw [← restored, BitVec.add_sub_cancel]

theorem bits_neg : bits w (0 - a) = -bits w a := by
  have zero : bits w 0 = 0#w := by simp [bits]
  rw [bits_sub hw, zero, BitVec.zero_sub]

theorem bits_not : bits w (~~~ a) = ~~~ bits w a := by
  -- the complement is what `xor` with all ones gives
  have ones : bits w (-1) = BitVec.allOnes w := by
    have minusOne : (-1 : Word) = 0 - 1 := by decide
    have one : bits w 1 = 1#w := by simp [bits]
    rw [minusOne, bits_neg hw, one, BitVec.neg_one_eq_allOnes]
  rw [← UInt64.xor_neg_one, bits_xor, ones, BitVec.xor_allOnes]

end Arithmetic

end PathSearch.Word
