import PathSearch.Proofs.Op

/-! # The operations of the SMT-LIB standard

The standard defines the arithmetic of bit-vectors on the numbers that they stand for, and the signed
operations by sign bits and the unsigned ones. At every width from 1 to 64 the operators on words give
what these definitions give, whatever stands in the words above the width.
-/

namespace PathSearch

namespace Smt.Standard

variable {m : Nat}

section Operations

variable (s t : BitVec m)

def bvnot : BitVec m := ~~~s
def bvneg : BitVec m := .ofNat m (2 ^ m - s.toNat)
def bvand : BitVec m := s &&& t
def bvor : BitVec m := s ||| t
def bvxor : BitVec m := bvor (bvand s (bvnot t)) (bvand (bvnot s) t)
def bvadd : BitVec m := .ofNat m (s.toNat + t.toNat)
def bvsub : BitVec m := bvadd s (bvneg t)
def bvmul : BitVec m := .ofNat m (s.toNat * t.toNat)
def bvudiv : BitVec m := if t.toNat = 0 then .allOnes m else .ofNat m (s.toNat / t.toNat)
def bvurem : BitVec m := if t.toNat = 0 then s else .ofNat m (s.toNat % t.toNat)
def bvshl : BitVec m := .ofNat m (s.toNat * 2 ^ t.toNat)
def bvlshr : BitVec m := .ofNat m (s.toNat / 2 ^ t.toNat)
def bvashr : BitVec m := if s.msb then bvnot (bvlshr (bvnot s) t) else bvlshr s t

/-- Rounds towards zero, on the magnitudes. -/
def bvsdiv : BitVec m :=
  match s.msb, t.msb with
  | false, false => bvudiv s t
  | true, false => bvneg (bvudiv (bvneg s) t)
  | false, true => bvneg (bvudiv s (bvneg t))
  | true, true => bvudiv (bvneg s) (bvneg t)

/-- Has the sign of the dividend. -/
def bvsrem : BitVec m :=
  match s.msb, t.msb with
  | false, false => bvurem s t
  | true, false => bvneg (bvurem (bvneg s) t)
  | false, true => bvurem s (bvneg t)
  | true, true => bvneg (bvurem (bvneg s) (bvneg t))

def bvult : Bool := s.toNat < t.toNat
def bvule : Bool := bvult s t || s == t
def bvslt : Bool := s.msb && !t.msb || s.msb == t.msb && bvult s t
def bvsle : Bool := s.msb && !t.msb || s.msb == t.msb && bvule s t

end Operations

/-- A bit-vector, or whether a predicate holds. -/
inductive Outcome (m : Nat) where
  | vector (v : BitVec m)
  | truth (holds : Bool)

/-- The number of a bit-vector; 1 for a predicate that holds and 0 for one that does not. -/
def Outcome.toNat : Outcome m → Nat
  | .vector v => v.toNat
  | .truth holds => holds.toNat

/-- The unary operation of a name. -/
def unary? (op : Op) (s : BitVec m) : Option (BitVec m) :=
  match op with
  | .neg => some (bvneg s)
  | .not => some (bvnot s)
  | _ => none

/-- The binary operation, or predicate, of a name. -/
def binary? (op : Op) (s t : BitVec m) : Option (Outcome m) :=
  match op with
  | .add => some (.vector (bvadd s t))
  | .sub => some (.vector (bvsub s t))
  | .mul => some (.vector (bvmul s t))
  | .udiv => some (.vector (bvudiv s t))
  | .urem => some (.vector (bvurem s t))
  | .sdiv => some (.vector (bvsdiv s t))
  | .srem => some (.vector (bvsrem s t))
  | .and => some (.vector (bvand s t))
  | .or => some (.vector (bvor s t))
  | .xor => some (.vector (bvxor s t))
  | .shl => some (.vector (bvshl s t))
  | .lshr => some (.vector (bvlshr s t))
  | .ashr => some (.vector (bvashr s t))
  | .eq => some (.truth (s == t))
  | .ne => some (.truth (s != t))
  | .ult => some (.truth (bvult s t))
  | .ule => some (.truth (bvule s t))
  | .ugt => some (.truth (bvult t s))
  | .uge => some (.truth (bvule t s))
  | .slt => some (.truth (bvslt s t))
  | .sle => some (.truth (bvsle s t))
  | .sgt => some (.truth (bvslt t s))
  | .sge => some (.truth (bvsle t s))
  | .neg | .not => none

section Equations

variable (s t : BitVec m)

theorem bvneg_eq : bvneg s = -s := by
  apply BitVec.eq_of_toNat_eq
  rw [bvneg, BitVec.toNat_ofNat, BitVec.toNat_neg]

theorem bvadd_eq : bvadd s t = s + t := (BitVec.add_def s t).symm

theorem bvsub_eq : bvsub s t = s - t := by
  rw [bvsub, bvadd_eq, bvneg_eq, BitVec.sub_eq_add_neg]

theorem bvmul_eq : bvmul s t = s * t := by
  apply BitVec.eq_of_toNat_eq
  rw [bvmul, BitVec.toNat_ofNat, BitVec.toNat_mul]

theorem bvxor_eq : bvxor s t = s ^^^ t := by
  apply BitVec.eq_of_getLsbD_eq
  intro i inside
  simp only [bvxor, bvor, bvand, bvnot, BitVec.getLsbD_or, BitVec.getLsbD_and, BitVec.getLsbD_not,
    BitVec.getLsbD_xor, inside, decide_true, Bool.true_and]
  cases s.getLsbD i <;> cases t.getLsbD i <;> rfl

theorem toNat_eq_zero_iff : t.toNat = 0 ↔ t = 0#m := by
  rw [← BitVec.toNat_inj, BitVec.toNat_ofNat, Nat.zero_mod]

theorem bvudiv_eq : bvudiv s t = s.smtUDiv t := by
  simp only [bvudiv, toNat_eq_zero_iff, BitVec.smtUDiv_eq, BitVec.udiv_def]

theorem bvurem_eq : bvurem s t = s % t := by
  unfold bvurem
  split
  · rename_i zero
    rw [(toNat_eq_zero_iff t).mp zero, BitVec.umod_zero]
  · rw [BitVec.umod_def]

theorem bvsdiv_eq : bvsdiv s t = s.smtSDiv t := by
  simp only [bvsdiv, BitVec.smtSDiv, bvudiv_eq, bvneg_eq]
  cases s.msb <;> cases t.msb <;> rfl

theorem bvsrem_eq : bvsrem s t = s.srem t := by
  simp only [bvsrem, BitVec.srem, bvurem_eq, bvneg_eq]
  cases s.msb <;> cases t.msb <;> rfl

/-- From the width on, a factor leaves nothing. -/
theorem bvshl_eq : bvshl s t = if m ≤ t.toNat then 0 else s <<< t := by
  apply BitVec.eq_of_toNat_eq
  rw [bvshl, BitVec.toNat_ofNat]
  split
  · rename_i past
    have whole : 2 ^ m ∣ s.toNat * 2 ^ t.toNat := Nat.dvd_mul_left_of_dvd (Nat.pow_dvd_pow 2 past) _
    rw [Nat.mod_eq_zero_of_dvd whole]
    rfl
  · rw [BitVec.shiftLeft_eq', BitVec.toNat_shiftLeft, Nat.shiftLeft_eq]

theorem bvlshr_eq_ushiftRight : bvlshr s t = s >>> t.toNat := by
  apply BitVec.eq_of_toNat_eq
  rw [bvlshr, BitVec.toNat_ofNat, BitVec.toNat_ushiftRight, Nat.shiftRight_eq_div_pow]
  exact Nat.mod_eq_of_lt (Nat.lt_of_le_of_lt (Nat.div_le_self _ _) s.isLt)

theorem bvlshr_eq : bvlshr s t = if m ≤ t.toNat then 0 else s >>> t := by
  rw [bvlshr_eq_ushiftRight]
  split
  · rename_i past
    exact BitVec.ushiftRight_eq_zero past
  · rfl

/-- Shifts by more than the width are shifts by the width. -/
theorem ushiftRight_min (n : Nat) : s >>> min n m = s >>> n := by
  rcases Nat.le_total n m with inside | past
  · rw [Nat.min_eq_left inside]
  · rw [Nat.min_eq_right past, BitVec.ushiftRight_eq_zero (Nat.le_refl m),
      BitVec.ushiftRight_eq_zero past]

theorem bvashr_eq : bvashr s t = s.sshiftRight (min t.toNat m) := by
  unfold bvashr
  split
  · rename_i negative
    rw [BitVec.sshiftRight_eq_of_msb_true negative, ushiftRight_min, bvlshr_eq_ushiftRight]
    rfl
  · rename_i nonneg
    rw [BitVec.sshiftRight_eq_of_msb_false (eq_false_of_ne_true nonneg), ushiftRight_min,
      bvlshr_eq_ushiftRight]

theorem bvule_eq_decide : bvule s t = decide (s.toNat ≤ t.toNat) := by
  rw [bvule, bvult, Bool.eq_iff_iff]
  simp only [Bool.or_eq_true, decide_eq_true_eq, beq_iff_eq, ← BitVec.toNat_inj]
  exact Nat.le_iff_lt_or_eq.symm

/-- The number of a bit-vector whose sign bit is set is that much below zero. -/
theorem toInt_eq_msb : s.toInt = s.toNat - if s.msb then ((2 ^ m : Nat) : Int) else 0 := by
  rw [BitVec.toInt_eq_msb_cond]
  cases s.msb with
  | false => exact (Int.sub_zero _).symm
  | true => rfl

/-- Numbers of one sign are ordered as the bit-vectors are, and negative ones are below the others. -/
theorem bvslt_eq : bvslt s t = s.slt t := by
  have fstBound := s.isLt
  have sndBound := t.isLt
  rw [bvslt, bvult, BitVec.slt_eq_decide, toInt_eq_msb, toInt_eq_msb, Bool.eq_iff_iff]
  generalize 2 ^ m = size at fstBound sndBound ⊢
  cases s.msb <;> cases t.msb <;> simp <;> omega

theorem bvsle_eq : bvsle s t = s.sle t := by
  have fstBound := s.isLt
  have sndBound := t.isLt
  rw [bvsle, bvule_eq_decide, BitVec.sle_eq_decide, toInt_eq_msb, toInt_eq_msb, Bool.eq_iff_iff]
  generalize 2 ^ m = size at fstBound sndBound ⊢
  cases s.msb <;> cases t.msb <;> simp <;> omega

end Equations

theorem unary?_eq (op : Op) (s : BitVec m) :
    unary? op s = if op.isUnary then some (unaryBits op s) else none := by
  cases op with
  | neg => exact congrArg some (bvneg_eq s)
  | _ => rfl

/-- The number of what a script computes for an operator. -/
theorem map_toNat_binary? (op : Op) (s t : BitVec m) :
    (binary? op s t).map Outcome.toNat =
      if op.isUnary then none else some (binaryBits op s t).value.toNat := by
  have number (b : Bool) : (BitVec.ofBool b).toNat = b.toNat := by cases b <;> rfl
  cases op <;> simp only [binary?, binaryBits, Bits.ofBool, Op.isUnary, Option.map_some, Option.map_none,
    Outcome.toNat, number, bvadd_eq, bvsub_eq, bvmul_eq, bvudiv_eq, bvurem_eq, bvsdiv_eq, bvsrem_eq,
    bvxor_eq, bvshl_eq, bvlshr_eq, bvashr_eq, bvule_eq_decide, bvslt_eq, bvsle_eq, bvand, bvor, bvult,
    BitVec.ult, BitVec.ule, Bool.false_eq_true, ↓reduceIte]

end Smt.Standard

namespace Op

open Word Smt

variable {w : Nat}

theorem isUnary_iff {op : Op} : op.isUnary = true ↔ op = .neg ∨ op = .not := by
  cases op <;> decide

theorem isSome_foldUnary (op : Op) (a : Word) (w : Nat) : (op.foldUnary a w).isSome = op.isUnary := by
  cases op <;> rfl

theorem isSome_foldBinary (op : Op) (a b : Word) (w : Nat) :
    (op.foldBinary a b w).isSome = !op.isUnary := by
  cases op <;> rfl

theorem map_toNat_foldUnary (atMost : w ≤ 64) (op : Op) (a : Word) :
    (op.foldUnary a w).map (·.toNat) = (Standard.unary? op (bits w a)).map (·.toNat) := by
  rw [Standard.unary?_eq]
  cases kind : op.isUnary with
  | true =>
      rw [foldUnary_eq atMost kind]
      exact congrArg some (toNat_ofBits atMost _)
  | false =>
      have absent : op.foldUnary a w = none :=
        Option.not_isSome_iff_eq_none.mp (by simp [isSome_foldUnary, kind])
      rw [absent]
      rfl

theorem map_toNat_foldBinary (pos : 0 < w) (atMost : w ≤ 64) (op : Op) (a b : Word) :
    (op.foldBinary a b w).map (·.toNat) =
      (Standard.binary? op (bits w a) (bits w b)).map (·.toNat) := by
  have number := Standard.map_toNat_binary? op (bits w a) (bits w b)
  cases kind : op.isUnary with
  | true =>
      have absent : op.foldBinary a b w = none :=
        Option.not_isSome_iff_eq_none.mp (by simp [isSome_foldBinary, kind])
      rw [absent, number, if_pos kind]
      rfl
  | false =>
      have width := width_binaryBits op (bits w a) (bits w b)
      have narrow : (if op.isComparison then 1 else w) ≤ 64 := by split <;> omega
      rw [foldBinary_eq pos atMost kind, number, if_neg (by simp [kind])]
      exact congrArg some (toNat_ofBits (width ▸ narrow) _)

/-- What an operator gives on words of a width fits that width, which is at least the one bit of a
    comparison. -/
theorem fold_lt (pos : 0 < w) (atMost : w ≤ 64) {op : Op} {a b v : Word}
    (folded : op.foldUnary a w = some v ∨ op.foldBinary a b w = some v) : v.toNat < 2 ^ w := by
  rcases folded with unary | binary
  · exact foldUnary_lt atMost unary
  · have kind : op.isUnary = false := by simpa [binary] using isSome_foldBinary op a b w
    have narrow : (if op.isComparison then 1 else w) ≤ w := by split <;> omega
    exact Nat.lt_of_lt_of_le (foldBinary_lt pos atMost kind binary)
      (Nat.pow_le_pow_right (by decide) narrow)

/-- Every operator is the operation of its name on the low bits of the words, and its value fits the
    width. -/
theorem fold_eq_standard (pos : 0 < w) (atMost : w ≤ 64) (op : Op) (a b : Word) :
    let s := BitVec.ofNat w a.toNat
    let t := BitVec.ofNat w b.toNat
    ((op.foldUnary a w).isSome = true ↔ op = .neg ∨ op = .not) ∧
      ((op.foldBinary a b w).isSome = true ↔ ¬ (op = .neg ∨ op = .not)) ∧
      (op.foldUnary a w).map (·.toNat) = (Standard.unary? op s).map (·.toNat) ∧
      (op.foldBinary a b w).map (·.toNat) = (Standard.binary? op s t).map (·.toNat) ∧
      ∀ v, op.foldUnary a w = some v ∨ op.foldBinary a b w = some v → v.toNat < 2 ^ w := by
  intro s t
  refine ⟨?_, ?_, map_toNat_foldUnary atMost op a, map_toNat_foldBinary pos atMost op a b,
    fun v folded => fold_lt pos atMost folded⟩
  · rw [isSome_foldUnary, isUnary_iff]
  · rw [isSome_foldBinary, ← isUnary_iff, Bool.not_eq_true', Bool.not_eq_true]

/-- The most negative number of four bits by minus one, each with bits above the width. -/
theorem fold_eq_standard_overflow :
    (sdiv.foldBinary 0x78 0xff 4).map (·.toNat) =
        (Standard.binary? .sdiv (BitVec.ofNat 4 0x78) (BitVec.ofNat 4 0xff)).map (·.toNat) ∧
      sdiv.foldBinary 0x78 0xff 4 = some 8 :=
  ⟨(fold_eq_standard (w := 4) (by decide) (by decide) .sdiv 0x78 0xff).2.2.2.1, by decide⟩

end Op

end PathSearch
