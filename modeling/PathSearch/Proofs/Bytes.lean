import Mathlib.Algebra.Group.Int.Defs
import Mathlib.Algebra.Group.Nat.Defs
import PathSearch.Bytes.LittleEndian

/-! # Numbers read back from their bytes

Writing a number in bytes and reading it keeps what fits the bytes, and reading bytes and writing
the number gives the bytes again, for plain numbers and for the integer types. Texts are known from
their bytes as well.
-/

namespace PathSearch.Bytes

@[simp] theorem length_toLE (n value : Nat) : (toLE n value).length = n := by
  induction n generalizing value with
  | zero => rfl
  | succ n ih => rw [toLE, List.length_cons, ih]

theorem ofLE_toLE (n value : Nat) : ofLE (toLE n value) = value % 256 ^ n := by
  induction n generalizing value with
  | zero => rw [toLE, ofLE, Nat.pow_zero, Nat.mod_one]
  | succ n ih =>
      have head : (UInt8.ofNat value).toNat = value % 256 := UInt8.toNat_ofNat'
      rw [toLE, ofLE, ih, head, Nat.pow_succ', Nat.mod_mul]

theorem ofLE_lt (bytes : List UInt8) : ofLE bytes < 256 ^ bytes.length := by
  induction bytes with
  | nil => exact Nat.one_pos
  | cons b rest ih =>
      have low : b.toNat < 256 := b.toNat_lt
      rw [ofLE, List.length_cons, Nat.pow_succ']
      omega

theorem toLE_ofLE (bytes : List UInt8) : toLE bytes.length (ofLE bytes) = bytes := by
  induction bytes with
  | nil => rfl
  | cons b rest ih =>
      have low : b.toNat < 256 := b.toNat_lt
      have head : UInt8.ofNat (b.toNat + 256 * ofLE rest) = b := by
        apply UInt8.toNat_inj.mp
        rw [UInt8.toNat_ofNat', Nat.add_mul_mod_self_left, Nat.mod_eq_of_lt low]
      have tail : (b.toNat + 256 * ofLE rest) / 256 = ofLE rest := by omega
      rw [List.length_cons, ofLE, toLE, head, tail, ih]

/-- Numbers that fit are known from their bytes. -/
theorem toLE_inj {n a b : Nat} (ha : a < 256 ^ n) (hb : b < 256 ^ n) :
    toLE n a = toLE n b ↔ a = b := by
  constructor
  · intro same
    rw [← Nat.mod_eq_of_lt ha, ← Nat.mod_eq_of_lt hb, ← ofLE_toLE, ← ofLE_toLE, same]
  · exact congrArg (toLE n)

theorem split?_eq_some_iff {n : Nat} {bytes head rest : List UInt8} :
    split? n bytes = some (head, rest) ↔ bytes = head ++ rest ∧ head.length = n := by
  unfold split?
  split
  · rename_i short
    constructor
    · nofun
    · rintro ⟨rfl, rfl⟩
      rw [List.length_append] at short
      omega
  · rename_i enough
    rw [List.splitAt_eq, Option.some.injEq, Prod.mk.injEq]
    constructor
    · rintro ⟨rfl, rfl⟩
      exact ⟨(List.take_append_drop n bytes).symm, List.length_take_of_le (by omega)⟩
    · rintro ⟨rfl, rfl⟩
      exact ⟨List.take_left, List.drop_left⟩

namespace IntType

theorem modulus_eq (t : IntType) : t.modulus = 256 ^ t.size := by
  rw [modulus, Nat.pow_eq, Nat.pow_mul]

theorem modulus_pos (t : IntType) : 0 < t.modulus := Nat.two_pow_pos _

/-- The integers of a type. -/
def Fits (t : IntType) (value : Int) : Prop :=
  if t.signed then -(t.modulus : Int) ≤ 2 * value ∧ 2 * value < t.modulus
  else 0 ≤ value ∧ value < t.modulus

theorem fits_i32 {value : Int} : i32.Fits value ↔ -2 ^ 31 ≤ value ∧ value < 2 ^ 31 := by
  have modulus : i32.modulus = 2 ^ 32 := rfl
  simp only [Fits, signed, ↓reduceIte, modulus]
  omega

@[simp] theorem length_encode (t : IntType) (value : Int) : (t.encode value).length = t.size :=
  length_toLE _ _

theorem ofLE_encode (t : IntType) (value : Int) : (ofLE (t.encode value) : Int) = value % t.modulus := by
  have positive : 0 < (t.modulus : Int) := Int.natCast_pos.mpr t.modulus_pos
  have nonneg := Int.emod_nonneg value (Int.ne_of_gt positive)
  have below := Int.emod_lt_of_pos value positive
  rw [encode, ofLE_toLE, ← modulus_eq, Nat.mod_eq_of_lt (by omega), Int.toNat_of_nonneg nonneg]

theorem decode_encode {t : IntType} {value : Int} (fits : t.Fits value) :
    t.decode (t.encode value) = value := by
  have read := ofLE_encode t value
  unfold Fits at fits
  simp only [decode]
  split at fits
  · rename_i signed
    simp only [signed, true_and]
    rcases Int.lt_or_le value 0 with negative | nonneg
    · have wrapped : value % t.modulus = value + t.modulus := by
        rw [← Int.add_emod_right, Int.emod_eq_of_lt (by omega) (by omega)]
      rw [if_pos (by omega)]
      omega
    · rw [Int.emod_eq_of_lt nonneg (by omega)] at read
      rw [if_neg (by omega), read]
  · rename_i unsigned
    rw [Int.emod_eq_of_lt fits.1 fits.2] at read
    rw [if_neg fun h => unsigned h.1, read]

/-- Up to multiples of the modulus an integer is the plain number that its bytes stand for. -/
theorem decode_emod {t : IntType} {bytes : List UInt8} (whole : bytes.length = t.size) :
    t.decode bytes % t.modulus = ofLE bytes := by
  have small : ofLE bytes < t.modulus := by
    rw [modulus_eq, ← whole]
    exact ofLE_lt bytes
  simp only [decode]
  split
  · rw [Int.sub_emod_right]
    exact Int.emod_eq_of_lt (by omega) (by omega)
  · exact Int.emod_eq_of_lt (by omega) (by omega)

theorem encode_decode {t : IntType} {bytes : List UInt8} (whole : bytes.length = t.size) :
    t.encode (t.decode bytes) = bytes := by
  rw [encode, decode_emod whole, Int.toNat_natCast, ← whole, toLE_ofLE]

theorem fits_decode {t : IntType} {bytes : List UInt8} (whole : bytes.length = t.size) :
    t.Fits (t.decode bytes) := by
  have small : ofLE bytes < t.modulus := by
    rw [modulus_eq, ← whole]
    exact ofLE_lt bytes
  unfold Fits
  simp only [decode]
  split
  · rename_i signed
    simp only [signed, true_and]
    split <;> omega
  · rename_i unsigned
    rw [if_neg fun h => unsigned h.1]
    omega

end IntType

section Text

theorem toList_loop (bytes : ByteArray) (i : Nat) (read : List UInt8) :
    ByteArray.toList.loop bytes i read = read.reverse ++ bytes.data.toList.drop i := by
  rw [ByteArray.toList.loop]
  split
  · rename_i inside
    have inside' : i < bytes.data.toList.length := inside
    have head : bytes.get! i = bytes.data.toList[i] := getElem!_pos bytes.data i inside
    rw [toList_loop, List.drop_eq_getElem_cons inside', List.reverse_cons, head, List.append_assoc]
    rfl
  · rename_i ended
    rw [List.drop_eq_nil_of_le (Nat.le_of_not_lt ended), List.append_nil]
termination_by bytes.size - i

theorem toList_byteArray (bytes : ByteArray) : bytes.toList = bytes.data.toList :=
  toList_loop bytes 0 []

theorem length_utf8 (text : String) : text.toUTF8.toList.length = text.utf8ByteSize := by
  rw [toList_byteArray, Array.length_toList]
  rfl

/-- A text is known from its bytes. -/
theorem utf8_inj {s t : String} (same : s.toUTF8.toList = t.toUTF8.toList) : s = t := by
  rw [toList_byteArray, toList_byteArray, Array.toList_inj] at same
  exact String.toByteArray_inj.mp (ByteArray.ext same)

end Text

end PathSearch.Bytes
