import PathSearch.Op
import PathSearch.Text.Hex

/-! # The instruction set

A register machine with ten registers of 64 bits, a byte-addressed memory, and instructions of one
to 24 bytes.
-/

namespace PathSearch

/-- The registers: eight general ones, the stack pointer and the link register. -/
inductive Register where
  | r0 | r1 | r2 | r3 | r4 | r5 | r6 | r7 | sp | lr
  deriving Repr, DecidableEq, Inhabited

namespace Register

/-- Every register, in the order of its number. -/
def all : List Register := [.r0, .r1, .r2, .r3, .r4, .r5, .r6, .r7, .sp, .lr]

/-- The number of a register. -/
def index : Register → Fin 10
  | .r0 => 0 | .r1 => 1 | .r2 => 2 | .r3 => 3 | .r4 => 4
  | .r5 => 5 | .r6 => 6 | .r7 => 7 | .sp => 8 | .lr => 9

def name : Register → String
  | .r0 => "r0" | .r1 => "r1" | .r2 => "r2" | .r3 => "r3" | .r4 => "r4"
  | .r5 => "r5" | .r6 => "r6" | .r7 => "r7" | .sp => "sp" | .lr => "lr"

/-- The register with a number. -/
def ofIndex? (n : Nat) : Option Register := all[n]?

/-- The register with a name. -/
def ofName? (text : String) : Option Register := all.find? (·.name == text)

end Register

/-- The arithmetic and bitwise operations of the machine. -/
inductive AluOp where
  | add | sub | mul | udiv | sdiv | urem | srem | and | or | xor | shl | lshr | ashr
  deriving Repr, DecidableEq, Inhabited

namespace AluOp

/-- Every operation, in the order of its number. -/
def all : List AluOp :=
  [.add, .sub, .mul, .udiv, .sdiv, .urem, .srem, .and, .or, .xor, .shl, .lshr, .ashr]

/-- The operator that an operation applies. -/
def toOp : AluOp → Op
  | .add => .add | .sub => .sub | .mul => .mul | .udiv => .udiv | .sdiv => .sdiv
  | .urem => .urem | .srem => .srem | .and => .and | .or => .or | .xor => .xor
  | .shl => .shl | .lshr => .lshr | .ashr => .ashr

def name (op : AluOp) : String := op.toOp.name

def index (op : AluOp) : Nat := all.idxOf op

def ofIndex? (n : Nat) : Option AluOp := all[n]?

def ofName? (text : String) : Option AluOp := all.find? (·.name == text)

end AluOp

/-- The comparisons of the machine. -/
inductive CmpOp where
  | eq | ne | ult | ule | ugt | uge | slt | sle | sgt | sge
  deriving Repr, DecidableEq, Inhabited

namespace CmpOp

/-- Every comparison, in the order of its number. -/
def all : List CmpOp := [.eq, .ne, .ult, .ule, .ugt, .uge, .slt, .sle, .sgt, .sge]

/-- The operator that a comparison applies. -/
def toOp : CmpOp → Op
  | .eq => .eq | .ne => .ne | .ult => .ult | .ule => .ule | .ugt => .ugt
  | .uge => .uge | .slt => .slt | .sle => .sle | .sgt => .sgt | .sge => .sge

def name (op : CmpOp) : String := op.toOp.name

def index (op : CmpOp) : Nat := all.idxOf op

def ofIndex? (n : Nat) : Option CmpOp := all[n]?

def ofName? (text : String) : Option CmpOp := all.find? (·.name == text)

end CmpOp

/-- A register or a number. -/
inductive Operand where
  | reg (r : Register)
  | imm (value : Word)
  deriving Repr, DecidableEq, Inhabited

def Operand.text : Operand → String
  | .reg r => r.name
  | .imm v => Text.hex v.toNat

/-- What an instruction does. -/
inductive Opcode where
  | nop
  | mov (dst : Register) (src : Operand)
  | alu (op : AluOp) (dst lhs : Register) (rhs : Operand)
  | not (dst src : Register)
  | neg (dst src : Register)
  /-- One where the comparison holds, zero where it does not. -/
  | set (cond : CmpOp) (dst lhs : Register) (rhs : Operand)
  /-- Reads `size` bytes at `base + offset`. -/
  | load (dst : Register) (base : Operand) (offset : Int32) (size : UInt8)
  /-- Writes the low `size` bytes at `base + offset`. -/
  | store (src base : Operand) (offset : Int32) (size : UInt8)
  | jump (target : Operand)
  /-- Goes on at the target where the comparison holds. -/
  | branch (cond : CmpOp) (lhs : Register) (rhs : Operand) (target : Word)
  /-- Puts the address of the next instruction into `lr` and goes on at the target. -/
  | call (target : Operand)
  /-- Goes on at the address in `lr`. -/
  | ret
  | halt
  deriving Repr, DecidableEq, Inhabited

namespace Opcode

/-- The numbers of bytes that a load or store can move. -/
def accessSizes : List UInt8 := [1, 2, 4, 8]

/-- The access size of a load or store. -/
def accessSize? : Opcode → Option UInt8
  | .load _ _ _ size | .store _ _ _ size => some size
  | _ => none

def mnemonic : Opcode → String
  | .nop => "nop" | .mov .. => "mov" | .alu .. => "alu" | .not .. => "not" | .neg .. => "neg"
  | .set .. => "set" | .load .. => "ld" | .store .. => "st" | .jump .. => "jmp"
  | .branch .. => "br" | .call .. => "call" | .ret => "ret" | .halt => "halt"

/-- Never goes on at the next instruction by itself. -/
def isTerminator : Opcode → Bool
  | .jump .. | .call .. | .ret | .halt => true
  | _ => false

/-- A displacement with its sign. -/
def displacement (offset : Int32) : String :=
  if offset < 0 then "-" ++ Text.hex offset.toInt.natAbs else "+" ++ Text.hex offset.toInt.natAbs

/-- The instruction as it is listed. -/
def text : Opcode → String
  | .nop => "nop"
  | .ret => "ret"
  | .halt => "halt"
  | .mov d s => "mov " ++ d.name ++ ", " ++ s.text
  | .alu op d l r => op.name ++ " " ++ d.name ++ ", " ++ l.name ++ ", " ++ r.text
  | .not d s => "not " ++ d.name ++ ", " ++ s.name
  | .neg d s => "neg " ++ d.name ++ ", " ++ s.name
  | .set c d l r => "set." ++ c.name ++ " " ++ d.name ++ ", " ++ l.name ++ ", " ++ r.text
  | .load d b o n =>
      "ld" ++ toString n.toNat ++ " " ++ d.name ++ ", [" ++ b.text ++ displacement o ++ "]"
  | .store s b o n =>
      "st" ++ toString n.toNat ++ " [" ++ b.text ++ displacement o ++ "], " ++ s.text
  | .jump t => "jmp " ++ t.text
  | .branch c l r t => "br." ++ c.name ++ " " ++ l.name ++ ", " ++ r.text ++ ", " ++ Text.hex t.toNat
  | .call t => "call " ++ t.text

end Opcode

/-- An instruction at its place in memory. -/
structure Instruction where
  address : Word
  length : Nat
  opcode : Opcode
  deriving Repr, DecidableEq, Inhabited

namespace Instruction

/-- The address of the next instruction in line. -/
def fallthrough (i : Instruction) : Word := i.address + UInt64.ofNat i.length

/-- The line of a listing: the address in at least four digits, then the instruction. -/
def text (i : Instruction) : String :=
  "0x" ++ Text.hexDigits 4 i.address.toNat ++ ": " ++ i.opcode.text

end Instruction

end PathSearch
