import PathSearch.Proofs.Smt.Shifts
import PathSearch.Smt.Script

/-! # Operations on literals

The literals of an operation show the bit-vector that the operation gives.
-/

namespace PathSearch.Smt

namespace Labelled

/-- Literals are the bits of a bit-vector. -/
def ShowsBits (L : Labelled) (bits : List Lit) (b : Bits) : Prop := L.Shows b.width bits b.value.toNat

theorem showsBits_iff {L : Labelled} {bits : List Lit} {b : Bits} {w : Nat} (width : b.width = w) :
    L.ShowsBits bits b ↔ L.Shows w bits b.value.toNat := by
  subst width
  rfl

theorem Bit.showsBits {L : Labelled} {l : Lit} {b : Bool} (h : L.Bit l b) :
    L.ShowsBits [l] (Bits.ofBool b) :=
  (Shows.cons h .nil).is (by cases b <;> rfl)

end Labelled

namespace World

open Labelled Circuit

variable {m : Model} {W : World m} {a b : List Lit} {l : Lit} {w : Nat} {u v : BitVec w} {z : Bool}

theorem signBit_shows (ha : W.Shows w a u.toNat) : W.Bit (signBit a) u.msb := by
  rw [BitVec.msb_eq_getLsbD_last, ← BitVec.testBit_toNat]
  exact ha.getLastD W.no

theorem negIf_gives (hl : W.Bit l z) (ha : W.Shows w a u.toNat) :
    W.Gives (negIf l a) fun V out => V.Shows w out (if z then -u else u).toNat := by
  refine (negBits_gives ha).bind fun V negated grown hnegated => ?_
  refine (muxBits_gives (grown.bit hl) hnegated (grown.shows ha)).mono fun V out _ hout => hout.is ?_
  cases z
  · rfl
  · exact (BitVec.toNat_neg u).symm

theorem udivBits_shows (ha : W.Shows w a u.toNat) (hb : W.Shows w b v.toNat) :
    W.Gives (udivBits a b) fun V out =>
      V.Shows w out.1 (u.smtUDiv v).toNat ∧ V.Shows w out.2 (u % v).toNat := by
  refine (udivBits_gives ha hb).mono fun V out _ ⟨hq, hr⟩ => ⟨hq.is ?_, hr.is (BitVec.toNat_umod ..).symm⟩
  rw [BitVec.smtUDiv_eq]
  split
  · rename_i zero
    rw [if_pos (BitVec.eq_of_toNat_eq (by simpa using zero)), BitVec.toNat_allOnes]
  · rename_i positive
    rw [if_neg fun zero => positive (by simp [zero]), BitVec.toNat_udiv]

theorem smtSDiv_eq_neg (u v : BitVec w) :
    u.smtSDiv v =
      let q := (if u.msb then -u else u).smtUDiv (if v.msb then -v else v)
      if u.msb != v.msb then -q else q := by
  unfold BitVec.smtSDiv
  cases u.msb <;> cases v.msb <;> rfl

theorem srem_eq_neg (u v : BitVec w) :
    u.srem v =
      let r := (if u.msb then -u else u) % (if v.msb then -v else v)
      if u.msb then -r else r := by
  unfold BitVec.srem
  cases u.msb <;> cases v.msb <;> rfl

theorem sdivBits_gives (ha : W.Shows w a u.toNat) (hb : W.Shows w b v.toNat) :
    W.Gives (sdivBits a b) fun V out =>
      V.Shows w out.1 (u.smtSDiv v).toNat ∧ V.Shows w out.2 (u.srem v).toNat := by
  have hsa := signBit_shows ha
  have hsb := signBit_shows hb
  refine (negIf_gives hsa ha).bind fun V dividend grown hdividend => ?_
  refine (negIf_gives (grown.bit hsb) (grown.shows hb)).bind fun V divisor later hdivisor => ?_
  have grown := grown.trans later
  refine (udivBits_shows (later.shows hdividend) hdivisor).bind fun V (q, r) later ⟨hq, hr⟩ => ?_
  have grown := grown.trans later
  refine (xor_gives (grown.bit hsa) (grown.bit hsb)).bind fun V differ later hdiffer => ?_
  have grown := grown.trans later
  have hr := later.shows hr
  refine (negIf_gives hdiffer (later.shows hq)).bind fun V quotient later hquotient => ?_
  have grown := grown.trans later
  refine (negIf_gives (grown.bit hsa) (later.shows hr)).map fun V remainder later hremainder => ?_
  exact ⟨(later.shows hquotient).is (by rw [smtSDiv_eq_neg]), hremainder.is (by rw [srem_eq_neg])⟩

theorem shl_gives (ha : W.Shows w a u.toNat) (hb : W.Shows w b v.toNat) :
    W.Gives (shiftBits (moveUp · Lit.no) Lit.no 1 b a) fun V out =>
      V.Shows w out (if w ≤ v.toNat then 0 else u <<< v).toNat := by
  refine (shiftBits_gives (moving_up w) (fun V _ _ n _ _ h => moveUp_shows h n) W.no hb ha
    (by omega : 1 = min 1 (w + 1))).mono fun V out _ hout => hout.is ?_
  rw [Nat.one_mul]
  split
  · rename_i far
    exact (moving_up w).past ha.lt far
  · rw [BitVec.shiftLeft_eq', BitVec.toNat_shiftLeft, Nat.shiftLeft_eq]

theorem lshr_gives (ha : W.Shows w a u.toNat) (hb : W.Shows w b v.toNat) :
    W.Gives (shiftBits (moveDown · Lit.no) Lit.no 1 b a) fun V out =>
      V.Shows w out (if w ≤ v.toNat then 0 else u >>> v).toNat := by
  refine (shiftBits_gives (moving_down w) (fun V _ _ n _ _ h => (moveDown_shows h V.no n).is ?_) W.no hb ha
    (by omega : 1 = min 1 (w + 1))).mono fun V out _ hout => hout.is ?_
  · rw [if_neg Bool.false_ne_true, Nat.mul_zero, Nat.add_zero]
  rw [Nat.one_mul]
  split
  · rename_i far
    exact (moving_down w).past ha.lt far
  · rw [BitVec.ushiftRight_eq', BitVec.toNat_ushiftRight, Nat.shiftRight_eq_div_pow]

theorem ashr_gives (ha : W.Shows w a u.toNat) (hb : W.Shows w b v.toNat) :
    W.Gives (shiftBits (moveDown · (signBit a)) (signBit a) 1 b a) fun V out =>
      V.Shows w out (u.sshiftRight (min v.toNat w)).toNat := by
  have hs := signBit_shows ha
  cases sign : u.msb
  · rw [sign] at hs
    refine (shiftBits_gives (moving_down w) (fun V _ _ n grown _ h => (moveDown_shows h (grown.bit hs) n).is ?_)
      hs hb ha (by omega : 1 = min 1 (w + 1))).mono fun V out _ hout => hout.is ?_
    · rw [if_neg Bool.false_ne_true, Nat.mul_zero, Nat.add_zero]
    · rw [Nat.one_mul, BitVec.toNat_sshiftRight_of_msb_false sign, Nat.shiftRight_eq_div_pow]
      exact ((moving_down w).min ha.lt).symm
  · rw [sign] at hs
    refine (shiftBits_gives (moving_down_ones w)
      (fun V _ _ n grown _ h => (moveDown_shows h (grown.bit hs) n).is ?_)
      hs hb ha (by omega : 1 = min 1 (w + 1))).mono fun V out _ hout => hout.is ?_
    · rw [if_pos rfl, div_ones h.lt]
    · rw [Nat.one_mul, BitVec.toNat_sshiftRight_of_msb_true sign, Nat.shiftRight_eq_div_pow]
      exact ((moving_down_ones w).min ha.lt).symm

/-- A number of a width with its top bit turned round. -/
def flipped (width n : Nat) : Nat := (n + 2 ^ (width - 1)) % 2 ^ width

/-- With their top bits turned round signed numbers are in the order of unsigned ones. -/
theorem flipped_eq (u : BitVec (w + 1)) : (flipped (w + 1) u.toNat : Int) = u.toInt + 2 ^ w := by
  have small := u.isLt
  have whole : 2 ^ (w + 1) = 2 * 2 ^ w := Nat.pow_succ'
  have half : (2 ^ w : Int) = ((2 ^ w : Nat) : Int) := (Nat.cast_pow 2 w).symm
  rw [BitVec.toInt_eq_toNat_cond, flipped, Nat.add_sub_cancel, half]
  split
  · rw [Nat.mod_eq_of_lt (by omega)]
    omega
  · have same : u.toNat + 2 ^ w = u.toNat - 2 ^ w + 2 ^ (w + 1) := by omega
    rw [same, Nat.add_mod_right, Nat.mod_eq_of_lt (by omega)]
    omega

theorem slt_eq_flipped (u v : BitVec w) : u.slt v = decide (flipped w u.toNat < flipped w v.toNat) := by
  cases w with
  | zero => rw [Subsingleton.elim u v]; simp [BitVec.slt]
  | succ w =>
      have := flipped_eq u
      have := flipped_eq v
      rw [BitVec.slt, decide_eq_decide]
      omega

theorem sle_eq_flipped (u v : BitVec w) : u.sle v = decide (flipped w u.toNat ≤ flipped w v.toNat) := by
  cases w with
  | zero => rw [Subsingleton.elim u v]; simp [BitVec.sle]
  | succ w =>
      have := flipped_eq u
      have := flipped_eq v
      rw [BitVec.sle, decide_eq_decide]
      omega

theorem flipSign_shows {n : Nat} (ha : W.Shows w a n) : W.Shows w (flipSign a) (flipped w n) := by
  rcases List.eq_nil_or_concat a with rfl | ⟨bits, l, rfl⟩
  · cases ha
    exact Shows.nil.is (Nat.mod_one _).symm
  · rw [List.concat_eq_append] at ha
    obtain ⟨w, n, b, rfl, hbits, hl, rfl⟩ := ha.of_append_singleton
    have turned : flipSign (bits.concat l) = bits ++ [l.neg] := by simp [flipSign]
    rw [turned]
    refine (hbits.append (.cons hl.neg .nil)).is ?_
    have small := hbits.lt
    rw [flipped, Nat.add_sub_cancel]
    cases b
    · rw [Nat.mod_eq_of_lt (by rw [Nat.pow_succ]; simp; omega)]
      simp [Nat.bit_val]
    · have same : n + 2 ^ w * true.toNat + 2 ^ w = n + 2 ^ (w + 1) := by
        rw [Nat.pow_succ, Bool.toNat_true]
        omega
      rw [same, Nat.add_mod_right, Nat.mod_eq_of_lt (by rw [Nat.pow_succ]; omega)]
      simp [Nat.bit_val]

theorem same_toNat (u v : BitVec w) : decide (u.toNat = v.toNat) = (u == v) := by
  rw [beq_eq_decide, decide_eq_decide]
  exact BitVec.toNat_inj

theorem not_decide_le (x y : Nat) : (!decide (y ≤ x)) = decide (x < y) := by
  rw [← decide_not, decide_eq_decide]
  exact Nat.not_le

/-- The literals of a binary operation show what the operation gives. -/
theorem binary_gives (op : Op) (ha : W.Shows w a u.toNat) (hb : W.Shows w b v.toNat) :
    W.Gives (Circuit.binary op a b) fun V out => V.ShowsBits out (binaryBits op u v) := by
  cases op with
  | add =>
      refine (addBits_gives W.no ha hb).mono fun V out _ hout => hout.is ?_
      rw [Bool.toNat_false, Nat.add_zero]
      exact (BitVec.toNat_add ..).symm
  | sub => exact (subBits_gives ha hb).mono fun V out _ hout => hout.is (BitVec.toNat_sub ..).symm
  | mul =>
      refine (mulBits_gives (ha.fill W.no) ha hb).mono fun V out _ hout => hout.is ?_
      rw [if_neg Bool.false_ne_true, Nat.zero_add]
      exact (BitVec.toNat_mul ..).symm
  | udiv => exact (udivBits_shows ha hb).map fun _ _ _ hout => hout.1
  | urem => exact (udivBits_shows ha hb).map fun _ _ _ hout => hout.2
  | sdiv => exact (sdivBits_gives ha hb).map fun _ _ _ hout => hout.1
  | srem => exact (sdivBits_gives ha hb).map fun _ _ _ hout => hout.2
  | and => exact andBits_gives ha hb
  | or => exact orBits_gives ha hb
  | xor => exact xorBits_gives ha hb
  | shl => exact shl_gives ha hb
  | lshr => exact lshr_gives ha hb
  | ashr => exact ashr_gives ha hb
  | eq => exact (eqBit_gives ha hb).map fun _ _ _ hout => (hout.is (same_toNat u v)).showsBits
  | ne =>
      exact (eqBit_gives ha hb).map fun _ _ _ hout =>
        (hout.neg.is (congrArg (!·) (same_toNat u v))).showsBits
  | uge => exact (ugeBit_gives ha hb).map fun _ _ _ hout => hout.showsBits
  | ult => exact (ugeBit_gives ha hb).map fun _ _ _ hout => (hout.neg.is (not_decide_le ..)).showsBits
  | ule => exact (ugeBit_gives hb ha).map fun _ _ _ hout => hout.showsBits
  | ugt => exact (ugeBit_gives hb ha).map fun _ _ _ hout => (hout.neg.is (not_decide_le ..)).showsBits
  | sge =>
      exact (ugeBit_gives (flipSign_shows ha) (flipSign_shows hb)).map fun _ _ _ hout =>
        (hout.is (sle_eq_flipped v u).symm).showsBits
  | slt =>
      exact (ugeBit_gives (flipSign_shows ha) (flipSign_shows hb)).map fun _ _ _ hout =>
        (hout.neg.is ((not_decide_le ..).trans (slt_eq_flipped u v).symm)).showsBits
  | sle =>
      exact (ugeBit_gives (flipSign_shows hb) (flipSign_shows ha)).map fun _ _ _ hout =>
        (hout.is (sle_eq_flipped u v).symm).showsBits
  | sgt =>
      exact (ugeBit_gives (flipSign_shows hb) (flipSign_shows ha)).map fun _ _ _ hout =>
        (hout.neg.is ((not_decide_le ..).trans (slt_eq_flipped v u).symm)).showsBits
  | neg => exact .pure ha
  | not => exact .pure ha

end World

end PathSearch.Smt
