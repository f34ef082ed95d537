import PathSearch.Machine.Program
import PathSearch.Proofs.Op

/-! # The concrete machine

The machine on known words: a register file, a byte for every address, and the address of the next
instruction. Instructions are fetched from the image, never from memory. Division by zero and shifts
past the width follow the bit-vector conventions.
-/

namespace PathSearch

/-- The word that an operation gives. -/
def AluOp.apply (op : AluOp) (a b : Word) : Word :=
  match op with
  | .add => a + b
  | .sub => a - b
  | .mul => a * b
  | .udiv => if b = 0 then 0xffffffffffffffff else a / b
  | .sdiv => ⟨a.toBitVec.smtSDiv b.toBitVec⟩
  | .urem => if b = 0 then a else a % b
  | .srem => ⟨a.toBitVec.srem b.toBitVec⟩
  | .and => a &&& b
  | .or => a ||| b
  | .xor => a ^^^ b
  | .shl => if b < 64 then a <<< b else 0
  | .lshr => if b < 64 then a >>> b else 0
  | .ashr => ⟨a.toBitVec.sshiftRight b.toNat⟩

/-- Whether a comparison holds. -/
def CmpOp.holds (op : CmpOp) (a b : Word) : Bool :=
  match op with
  | .eq => a == b
  | .ne => a != b
  | .ult => a < b
  | .ule => a ≤ b
  | .ugt => b < a
  | .uge => b ≤ a
  | .slt => a.toBitVec.slt b.toBitVec
  | .sle => a.toBitVec.sle b.toBitVec
  | .sgt => b.toBitVec.slt a.toBitVec
  | .sge => b.toBitVec.sle a.toBitVec

/-- A concrete state of the machine. -/
@[ext] structure Machine where
  ip : Word
  regs : Register → Word
  mem : Word → UInt8

/-- The machine after an instruction. -/
inductive Stepped where
  | running (m : Machine)
  /-- The instruction ended the program. -/
  | halted (m : Machine)

def Stepped.machine : Stepped → Machine
  | .running m | .halted m => m

namespace Machine

def setReg (m : Machine) (r : Register) (v : Word) : Machine :=
  { m with regs := fun q => if q = r then v else m.regs q }

def goTo (m : Machine) (address : Word) : Machine := { m with ip := address }

def operand (m : Machine) : Operand → Word
  | .reg r => m.regs r
  | .imm v => v

/-- The number of `size` bytes at an address, the least significant first. -/
def load (m : Machine) (address : Word) (size : Nat) : Word :=
  UInt64.ofNat (Bytes.ofLE ((List.range size).map fun i => m.mem (address + UInt64.ofNat i)))

/-- Puts the low `size` bytes of a word at an address, the least significant first. -/
def store (m : Machine) (address : Word) (size : Nat) (v : Word) : Machine :=
  { m with mem := fun b =>
      if (b - address).toNat < size then UInt8.ofNat (v.toNat / 256 ^ (b - address).toNat)
      else m.mem b }

def execute (m : Machine) (i : Instruction) : Stepped :=
  let next := i.fallthrough
  match i.opcode with
  | .nop => .running (m.goTo next)
  | .mov dst src => .running ((m.setReg dst (m.operand src)).goTo next)
  | .alu op dst lhs rhs =>
      .running ((m.setReg dst (op.apply (m.regs lhs) (m.operand rhs))).goTo next)
  | .not dst src => .running ((m.setReg dst (~~~ m.regs src)).goTo next)
  | .neg dst src => .running ((m.setReg dst (- m.regs src)).goTo next)
  | .set cond dst lhs rhs =>
      let flag : Word := if cond.holds (m.regs lhs) (m.operand rhs) then 1 else 0
      .running ((m.setReg dst flag).goTo next)
  | .load dst base offset size =>
      let address := m.operand base + Word.ofSigned offset.toInt
      .running ((m.setReg dst (m.load address size.toNat)).goTo next)
  | .store src base offset size =>
      let address := m.operand base + Word.ofSigned offset.toInt
      .running ((m.store address size.toNat (m.operand src)).goTo next)
  | .jump target => .running (m.goTo (m.operand target))
  | .branch cond lhs rhs target =>
      .running (m.goTo (if cond.holds (m.regs lhs) (m.operand rhs) then target else next))
  | .call target =>
      -- the target is read before the link register changes
      .running ((m.setReg .lr next).goTo (m.operand target))
  | .ret => .running (m.goTo (m.regs .lr))
  | .halt => .halted m

/-- Executes the instruction at the machine's address, where the image has one. -/
def step (image : Program) (m : Machine) : Option Stepped :=
  (image.decode m.ip).toOption.map m.execute

/-- Executes `n` instructions: the addresses at which they stood, in order, and the machine after
    the last. Nothing follows an instruction that ends the program. -/
def run (image : Program) (m : Machine) : (n : Nat) → Option (List Word × Stepped)
  | 0 => some ([], .running m)
  | n + 1 => match run image m n with
    | some (visited, .running m') => (step image m').map fun e => (visited ++ [m'.ip], e)
    | _ => none

theorem run_succ {image : Program} {m m' : Machine} {n : Nat} {visited : List Word} {e : Stepped}
    (start : run image m n = some (visited, .running m')) (last : step image m' = some e) :
    run image m (n + 1) = some (visited ++ [m'.ip], e) := by
  simp [run, start, last]

theorem run_one {image : Program} {m : Machine} {i : Instruction}
    (decoded : image.decode m.ip = .ok i) : run image m 1 = some ([m.ip], m.execute i) := by
  have start : run image m 0 = some ([], .running m) := rfl
  have stepped : step image m = some (m.execute i) := by simp [step, decoded, Except.toOption]
  exact run_succ start stepped

/-- A run of one more instruction is a run to a machine that goes on, and a step of that machine. -/
theorem run_succ_inv {image : Program} {m : Machine} {n : Nat} {visited : List Word} {e : Stepped}
    (h : run image m (n + 1) = some (visited, e)) :
    ∃ before m', run image m n = some (before, .running m') ∧ step image m' = some e ∧
      visited = before ++ [m'.ip] := by
  simp only [run] at h
  split at h
  · rename_i before m' start
    obtain ⟨e', stepped, same⟩ := Option.map_eq_some_iff.mp h
    obtain ⟨rfl, rfl⟩ := Prod.mk.inj same
    exact ⟨before, m', start, stepped, rfl⟩
  · cases h

theorem length_visited {image : Program} {m : Machine} {n : Nat} {visited : List Word} {e : Stepped}
    (h : run image m n = some (visited, e)) : visited.length = n := by
  induction n generalizing visited e with
  | zero =>
      cases h
      rfl
  | succ n ih =>
      obtain ⟨before, m', start, -, rfl⟩ := run_succ_inv h
      simp [ih start]

end Machine

section Operations

open Word

theorem bits_eq_toBitVec (v : Word) : bits 64 v = v.toBitVec := by
  apply BitVec.eq_of_toNat_eq
  rw [toNat_bits]
  exact Nat.mod_eq_of_lt v.toNat_lt

theorem ofBits_eq_mk (b : BitVec 64) : ofBits b = ⟨b⟩ := by
  apply UInt64.toNat_inj.mp
  rw [toNat_ofBits (by omega)]
  rfl

theorem mk_udiv (a b : Word) :
    (⟨a.toBitVec.smtUDiv b.toBitVec⟩ : Word) = if b = 0 then 0xffffffffffffffff else a / b := by
  by_cases zero : b = 0
  · subst zero
    simp [BitVec.smtUDiv_eq]
  · have nonzero : b.toBitVec ≠ 0#64 := fun h => zero (UInt64.toBitVec_inj.mp h)
    simp only [BitVec.smtUDiv_eq, zero, nonzero, if_false]
    rfl

theorem mk_urem (a b : Word) :
    (⟨a.toBitVec % b.toBitVec⟩ : Word) = if b = 0 then a else a % b := by
  by_cases zero : b = 0
  · subst zero
    simp
  · simp only [zero, if_false]
    rfl

theorem mk_shiftLeft (a b : Word) :
    (⟨if 64 ≤ b.toBitVec.toNat then 0 else a.toBitVec <<< b.toBitVec⟩ : Word) =
      if b < 64 then a <<< b else 0 := by
  by_cases small : b < 64
  · have below : b.toNat < 64 := small
    have inside : ¬ 64 ≤ b.toBitVec.toNat := by simpa using below
    apply UInt64.toNat_inj.mp
    simp only [small, inside, if_true, if_false]
    simp [UInt64.toNat_shiftLeft, Nat.mod_eq_of_lt below]
  · have outside : 64 ≤ b.toBitVec.toNat := by simpa [UInt64.lt_iff_toNat_lt] using small
    simp only [small, outside, if_true, if_false]
    rfl

theorem mk_shiftRight (a b : Word) :
    (⟨if 64 ≤ b.toBitVec.toNat then 0 else a.toBitVec >>> b.toBitVec⟩ : Word) =
      if b < 64 then a >>> b else 0 := by
  by_cases small : b < 64
  · have below : b.toNat < 64 := small
    have inside : ¬ 64 ≤ b.toBitVec.toNat := by simpa using below
    apply UInt64.toNat_inj.mp
    simp only [small, inside, if_true, if_false]
    simp [UInt64.toNat_shiftRight, Nat.mod_eq_of_lt below]
  · have outside : 64 ≤ b.toBitVec.toNat := by simpa [UInt64.lt_iff_toNat_lt] using small
    simp only [small, outside, if_true, if_false]
    rfl

theorem mk_sshiftRight (a b : Word) :
    (⟨a.toBitVec.sshiftRight (min b.toBitVec.toNat 64)⟩ : Word) = ⟨a.toBitVec.sshiftRight b.toNat⟩ := by
  congr 1
  apply BitVec.eq_of_getLsbD_eq
  intro i below
  simp only [BitVec.getLsbD_sshiftRight, UInt64.toNat_toBitVec]
  by_cases inside : b.toNat ≤ 64
  · rw [Nat.min_eq_left inside]
  · have least : ¬ min b.toNat 64 + i < 64 := by omega
    have whole : ¬ b.toNat + i < 64 := by omega
    rw [if_neg least, if_neg whole]

/-- The operator of an operation has its words as values. -/
theorem AluOp.foldBinary_toOp (op : AluOp) (a b : Word) :
    op.toOp.foldBinary a b 64 = some (op.apply a b) := by
  rw [Op.foldBinary_eq (by omega) (by omega) (by cases op <;> rfl), bits_eq_toBitVec, bits_eq_toBitVec]
  congr 1
  cases op <;> simp only [AluOp.toOp, Smt.binaryBits, AluOp.apply, ofBits_eq_mk]
  case udiv => exact mk_udiv a b
  case urem => exact mk_urem a b
  case shl => exact mk_shiftLeft a b
  case lshr => exact mk_shiftRight a b
  case ashr => exact mk_sshiftRight a b
  all_goals rfl

/-- The operator of a comparison is 1 where it holds. -/
theorem CmpOp.foldBinary_toOp (op : CmpOp) (a b : Word) :
    op.toOp.foldBinary a b 64 = some (ofBool (op.holds a b)) := by
  have flag (p : Bool) : ofBits (BitVec.ofBool p) = ofBool p := by cases p <;> rfl
  rw [Op.foldBinary_eq (by omega) (by omega) (by cases op <;> rfl), bits_eq_toBitVec, bits_eq_toBitVec]
  congr 1
  have same : (a.toBitVec == b.toBitVec) = (a == b) := by
    rw [Bool.eq_iff_iff, beq_iff_eq, beq_iff_eq, UInt64.toBitVec_inj]
  cases op <;> simp only [CmpOp.toOp, Smt.binaryBits, Smt.Bits.ofBool, flag, CmpOp.holds, bne, same]
    <;> rfl

end Operations

end PathSearch
