import PathSearch.Bytes.LittleEndian
import PathSearch.Error
import PathSearch.Machine.Instruction

/-! # Instructions as bytes

An instruction is its number followed by its fields. Decoding reads the fields in the same order
and reports the first one that is wrong; where the bytes end before a field does, the instruction
is truncated.
-/

namespace PathSearch

/-- A tag and a register number, or a tag and eight bytes. -/
def Operand.encode : Operand → List UInt8
  | .reg r => [0, UInt8.ofNat r.index]
  | .imm v => 1 :: Bytes.toLE 8 v.toNat

namespace Opcode

/-- The longest encoding of an instruction. -/
def maxLength : Nat := 24

/-- The bytes of a displacement. -/
def encodeOffset (offset : Int32) : List UInt8 := Bytes.IntType.i32.encode offset.toInt

/-- The bytes of an instruction. -/
def encode : Opcode → List UInt8
  | .nop => [0x00]
  | .mov d s => 0x01 :: UInt8.ofNat d.index :: s.encode
  | .alu op d l r =>
      0x02 :: UInt8.ofNat op.index :: UInt8.ofNat d.index :: UInt8.ofNat l.index :: r.encode
  | .not d s => [0x03, UInt8.ofNat d.index, UInt8.ofNat s.index]
  | .neg d s => [0x04, UInt8.ofNat d.index, UInt8.ofNat s.index]
  | .set c d l r =>
      0x05 :: UInt8.ofNat c.index :: UInt8.ofNat d.index :: UInt8.ofNat l.index :: r.encode
  | .load d b o n => 0x06 :: n :: UInt8.ofNat d.index :: b.encode ++ encodeOffset o
  | .store s b o n => 0x07 :: n :: s.encode ++ b.encode ++ encodeOffset o
  | .jump t => 0x08 :: t.encode
  | .branch c l r t =>
      0x09 :: UInt8.ofNat c.index :: UInt8.ofNat l.index :: r.encode ++ Bytes.toLE 8 t.toNat
  | .call t => 0x0A :: t.encode
  | .ret => [0x0B]
  | .halt => [0x0C]

end Opcode

/-- Reads fields off the front of bytes. -/
abbrev FieldReader := StateT (List UInt8) (Except DecodeFault)

namespace FieldReader

/-- The next `n` bytes. -/
def bytes (n : Nat) : FieldReader (List UInt8) := fun input =>
  match Bytes.split? n input with
  | some (head, rest) => .ok (head, rest)
  | none => .error .truncated

def byte : FieldReader UInt8 := do
  return UInt8.ofNat (Bytes.ofLE (← bytes 1))

def word : FieldReader Word := do
  return UInt64.ofNat (Bytes.ofLE (← bytes 8))

def offset : FieldReader Int32 := do
  return Int32.ofInt (Bytes.IntType.i32.decode (← bytes 4))

/-- The value of a lookup, or a fault where it has none. -/
def orFault {α : Type} (value : Option α) (fault : DecodeFault) : FieldReader α :=
  match value with
  | some a => pure a
  | none => throw fault

def register : FieldReader Register := do
  let b ← byte
  orFault (Register.ofIndex? b.toNat) (.invalidRegister b)

def aluOp : FieldReader AluOp := do
  let b ← byte
  orFault (AluOp.ofIndex? b.toNat) (.invalidOperator b)

def cmpOp : FieldReader CmpOp := do
  let b ← byte
  orFault (CmpOp.ofIndex? b.toNat) (.invalidOperator b)

def operand : FieldReader Operand := do
  let tag ← byte
  if tag = 0 then return .reg (← register)
  else if tag = 1 then return .imm (← word)
  else throw (.invalidOperand tag)

def size : FieldReader UInt8 := do
  let n ← byte
  if n ∈ Opcode.accessSizes then pure n else throw (.invalidSize n)

/-- An instruction, with its fields in the order in which they are written. -/
def opcode : FieldReader Opcode := do
  let number ← byte
  match number.toNat with
  | 0x00 => pure .nop
  | 0x01 => return .mov (← register) (← operand)
  | 0x02 => return .alu (← aluOp) (← register) (← register) (← operand)
  | 0x03 => return .not (← register) (← register)
  | 0x04 => return .neg (← register) (← register)
  | 0x05 => return .set (← cmpOp) (← register) (← register) (← operand)
  | 0x06 => do
      let n ← size
      return .load (← register) (← operand) (← offset) n
  | 0x07 => do
      let n ← size
      return .store (← operand) (← operand) (← offset) n
  | 0x08 => return .jump (← operand)
  | 0x09 => return .branch (← cmpOp) (← register) (← operand) (← word)
  | 0x0A => return .call (← operand)
  | 0x0B => pure .ret
  | 0x0C => pure .halt
  | _ => throw (.unknownOpcode number)

end FieldReader

/-- Decodes the instruction at the front of bytes that stand at an address. -/
def Instruction.decode (bytes : List UInt8) (address : Word) : Except DecodeError Instruction :=
  match FieldReader.opcode.run bytes with
  | .ok (opcode, rest) => .ok ⟨address, bytes.length - rest.length, opcode⟩
  | .error fault => .error ⟨address, fault⟩

end PathSearch
