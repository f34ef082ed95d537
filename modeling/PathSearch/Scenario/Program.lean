import PathSearch.Machine.Assembler
import PathSearch.Scenario.Datum

/-! # Descriptions of programs

A program is described by the items of its source, in the order in which they are assembled, or by
its regions and symbols.
-/

namespace PathSearch

/-- A register by its name. -/
def Register.named (name : String) : Except Error Register :=
  match Register.ofName? name with
  | some r => .ok r
  | none => .error (.unknownRegister name)

def Register.ofDatum (d : Datum) : Reading Register := do
  Datum.checked (Register.named (← d.string))

def CmpOp.ofDatum (d : Datum) : Reading CmpOp := do Datum.expect (CmpOp.ofName? (← d.string))

def AluOp.ofDatum (d : Datum) : Reading AluOp := do Datum.expect (AluOp.ofName? (← d.string))

/-- A text that begins with a digit is a number, and any other the name of a register. -/
def Operand.ofDatum (d : Datum) : Reading Operand :=
  match d with
  | .text s =>
      if s.toList.head?.any (·.isDigit) then .imm <$> d.word else .reg <$> Register.ofDatum d
  | _ => .imm <$> d.word

namespace Opcode

/-- A displacement of 32 bits. -/
def offsetOf (d : Datum) : Reading Int32 := Int32.ofInt <$> d.int

/-- The number of bytes of an access. -/
def byteCountOf (d : Datum) : Reading UInt8 := UInt8.ofNat <$> d.nat

/-- Reads an instruction: its mnemonic and its operands. -/
def ofDatum (d : Datum) : Reading Opcode := do
  match ← d.command with
  | ("nop", []) => return .nop
  | ("ret", []) => return .ret
  | ("halt", []) => return .halt
  | ("jump", [t]) => return .jump (← Operand.ofDatum t)
  | ("call", [t]) => return .call (← Operand.ofDatum t)
  | ("mov", [dst, src]) => return .mov (← Register.ofDatum dst) (← Operand.ofDatum src)
  | ("not", [dst, src]) => return .not (← Register.ofDatum dst) (← Register.ofDatum src)
  | ("neg", [dst, src]) => return .neg (← Register.ofDatum dst) (← Register.ofDatum src)
  | ("alu", [op, dst, lhs, rhs]) =>
      return .alu (← AluOp.ofDatum op) (← Register.ofDatum dst) (← Register.ofDatum lhs)
        (← Operand.ofDatum rhs)
  | ("set", [cmp, dst, lhs, rhs]) =>
      return .set (← CmpOp.ofDatum cmp) (← Register.ofDatum dst) (← Register.ofDatum lhs)
        (← Operand.ofDatum rhs)
  | ("load", [dst, base, offset, size]) =>
      return .load (← Register.ofDatum dst) (← Operand.ofDatum base) (← offsetOf offset)
        (← byteCountOf size)
  | ("store", [src, base, offset, size]) =>
      return .store (← Operand.ofDatum src) (← Operand.ofDatum base) (← offsetOf offset)
        (← byteCountOf size)
  | ("branch", [cmp, lhs, rhs, target]) =>
      return .branch (← CmpOp.ofDatum cmp) (← Register.ofDatum lhs) (← Operand.ofDatum rhs)
        (← target.word)
  | _ => Datum.malformed

end Opcode

/-- Adds an item of a source. Jumps, calls and branches name a label. -/
def Assembler.addDatum (a : Assembler) (d : Datum) : Reading Assembler := do
  match ← d.command with
  | ("jump", [label]) => return a.emit (.jumpTo (← label.string))
  | ("call", [label]) => return a.emit (.callTo (← label.string))
  | ("branch", [cmp, lhs, rhs, label]) =>
      return a.emit (.branchTo (← CmpOp.ofDatum cmp) (← Register.ofDatum lhs)
        (← Operand.ofDatum rhs) (← label.string))
  | ("jumpto", [target]) => return a.emit (.op (.jump (← Operand.ofDatum target)))
  | ("callto", [target]) => return a.emit (.op (.call (← Operand.ofDatum target)))
  | ("label", [name]) => Datum.checked (a.label (← name.string))
  | ("raw", [bytes]) => return a.emit (.raw (← bytes.bytes))
  | ("entry", [label]) => return a.setEntry (← label.string)
  | ("data", [base, bytes]) => return a.addData (← base.word) (← bytes.bytes)
  | _ => return a.emit (.op (← Opcode.ofDatum d))

namespace Program

/-- Adds a region: its kind, its base and its bytes. -/
def addRegionDatum (p : Program) (d : Datum) : Reading Program := do
  match ← d.command with
  | ("code", [base, bytes]) => Datum.checked (p.withCode (← base.word) (← bytes.bytes))
  | ("data", [base, bytes]) => Datum.checked (p.withData (← base.word) (← bytes.bytes))
  | _ => Datum.malformed

/-- Adds a symbol: its name and its address. -/
def addSymbolDatum (p : Program) (d : Datum) : Reading Program := do
  let (name, address) ← d.pair
  return p.addSymbol (← name.string) (← address.word)

/-- Reads a program. One that has a base is assembled. -/
def ofDatum (d : Datum) : Reading Program := do
  match d.field? "base" with
  | some base =>
      let a ← (← d.fieldItems "code").foldlM Assembler.addDatum (Assembler.new (← base.word))
      Datum.checked a.finish
  | none =>
      let empty : Program := { entry := ← (← d.field "entry").word }
      let p ← (← d.fieldItems "regions").foldlM addRegionDatum empty
      (← d.fieldItems "symbols").foldlM addSymbolDatum p

/-- Reads an address: a number, or a symbol behind a sign `@`. -/
def addressOf (p : Program) (d : Datum) : Reading Word :=
  match d with
  | .text s => match s.toList with
    | '@' :: label =>
        match p.symbol? (String.ofList label) with
        | some a => .ok a
        | none => .error (.refused (.unknownLabel (String.ofList label)))
    | _ => d.word
  | _ => d.word

end Program

end PathSearch
