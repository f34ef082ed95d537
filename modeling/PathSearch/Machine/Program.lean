import PathSearch.Machine.Codec
import Std.Data.TreeMap

/-! # Program images

A program is a set of regions of memory that do not meet, in the order of their addresses, with an
entry point and named addresses. Instructions are taken from executable regions only.
-/

namespace PathSearch

/-- Bytes at consecutive addresses. -/
structure Region where
  base : Word
  bytes : Array UInt8
  executable : Bool
  deriving Repr, DecidableEq, Inhabited

namespace Region

/-- The address behind the last byte. -/
def limit (r : Region) : Nat := r.base.toNat + r.bytes.size

def contains (r : Region) (address : Word) : Bool :=
  r.base ≤ address && decide (address.toNat < r.limit)

/-- Whether two regions have an address in common. -/
def overlaps (r s : Region) : Bool :=
  decide (s.base.toNat < r.limit) && decide (r.base.toNat < s.limit)

/-- The addresses of a region, as messages show them. -/
def rangeText (r : Region) : String := Text.hex r.base.toNat ++ ".." ++ Text.hex r.limit

/-- The byte at an address of the region. -/
def byte? (r : Region) (address : Word) : Option UInt8 :=
  r.bytes[(address - r.base).toNat]?

/-- The bytes from an address of the region to its end. -/
def bytesFrom (r : Region) (address : Word) : List UInt8 :=
  r.bytes.toList.drop (address - r.base).toNat

end Region

/-- A program image. -/
structure Program where
  entry : Word
  /-- The regions, ascending and apart from each other. -/
  regions : List Region := []
  symbols : Std.TreeMap String Word := ∅
  deriving Inhabited

namespace Program

/-- Adds a region where it is not empty, ends inside the address space and meets no other. -/
def map (p : Program) (r : Region) : Except Error Program :=
  if r.bytes.isEmpty then
    .error (.invalidConfig ("Region at " ++ Text.hex r.base.toNat ++ " is empty"))
  else if 0x10000000000000000 ≤ r.limit then
    .error (.invalidConfig ("Region at " ++ Text.hex r.base.toNat ++ " wraps the address space"))
  else match p.regions.find? (·.overlaps r) with
    | some other =>
        .error (.invalidConfig ("Region " ++ r.rangeText ++ " overlaps " ++ other.rangeText))
    | none =>
        let before (s : Region) : Bool := decide (s.base < r.base)
        .ok { p with regions := p.regions.takeWhile before ++ r :: p.regions.dropWhile before }

/-- Adds executable bytes. -/
def withCode (p : Program) (base : Word) (bytes : List UInt8) : Except Error Program :=
  p.map ⟨base, bytes.toArray, true⟩

/-- Adds bytes that are no code. -/
def withData (p : Program) (base : Word) (bytes : List UInt8) : Except Error Program :=
  p.map ⟨base, bytes.toArray, false⟩

/-- Gives an address a name; a name used again moves. -/
def addSymbol (p : Program) (name : String) (address : Word) : Program :=
  { p with symbols := p.symbols.insert name address }

/-- The address with a name. -/
def symbol? (p : Program) (name : String) : Option Word := p.symbols[name]?

/-- The region that holds an address: the last one that starts at or before it, if it reaches far
    enough. -/
def region? (p : Program) (address : Word) : Option Region :=
  (p.regions.takeWhile fun r => decide (r.base ≤ address)).getLast?.filter (·.contains address)

/-- The byte that the image has at an address. -/
def byte? (p : Program) (address : Word) : Option UInt8 := do
  let r ← p.region? address
  r.byte? address

def isCode (p : Program) (address : Word) : Bool := (p.region? address).any (·.executable)

/-- The instruction at an address of an executable region. -/
def decode (p : Program) (address : Word) : Except DecodeError Instruction :=
  match (p.region? address).filter (·.executable) with
  | some r => Instruction.decode (r.bytesFrom address) address
  | none => .error ⟨address, .outsideCode⟩

/-- The address with a name, as a request. -/
def lookup (p : Program) (name : String) : Except Error Word :=
  match p.symbol? name with
  | some a => .ok a
  | none => .error (.unknownLabel name)

/-- Decodes at most `fuel` instructions, up to the end of the bytes or the first fault. -/
def disassembleFor : (fuel : Nat) → List UInt8 → Word → List (Except DecodeError Instruction)
  | 0, _, _ => []
  | fuel + 1, bytes, address =>
      match Instruction.decode bytes address with
      | .error e => [.error e]
      | .ok i =>
          let rest := bytes.drop i.length
          .ok i :: if rest.isEmpty then [] else disassembleFor fuel rest i.fallthrough

/-- The instructions of bytes that stand at an address, up to the end or the first fault. No bytes
    at all are a truncated instruction. -/
def disassemble (bytes : List UInt8) (address : Word) : List (Except DecodeError Instruction) :=
  disassembleFor (bytes.length + 1) bytes address

/-- The instructions of a region from its start, up to the end or the first fault. -/
def listing (r : Region) : List (Except DecodeError Instruction) :=
  disassemble r.bytes.toList r.base

end Program

end PathSearch
