import PathSearch.Expr.Build
import PathSearch.Machine.Program
import Std.Data.TreeMap

/-! # Memory

Bytes that were written lie over the bytes of the image, and these over what memory that nobody
wrote is taken to hold. Numbers of several bytes have their least significant byte first, and
addresses wrap at `2 ^ 64`.
-/

namespace PathSearch

/-- What memory holds that neither the image nor the program wrote. -/
inductive Uninitialized where
  | zero
  /-- A variable for every byte. -/
  | symbolic
  deriving Repr, DecidableEq, Inhabited

/-- The memory of a state. -/
structure Memory where
  written : Std.TreeMap Word Expr := ∅
  image : Program
  uninitialized : Uninitialized := .zero
  deriving Inhabited

namespace Memory

/-- The name of the variable for a byte that nobody wrote. -/
def uninitializedName (address : Word) : String := "mem_" ++ Text.hex address.toNat

/-- The byte that a memory without writes has at an address. -/
def background (image : Program) (uninitialized : Uninitialized) (address : Word) : Expr :=
  match image.byte? address with
  | some b => Expr.byte b
  | none => match uninitialized with
    | .zero => Expr.byte 0
    | .symbolic => .var (uninitializedName address) 8

/-- The byte at an address. -/
def byte (m : Memory) (address : Word) : Expr :=
  match m.written[address]? with
  | some e => e
  | none => background m.image m.uninitialized address

/-- Puts an expression of eight bits at an address. -/
def put (m : Memory) (address : Word) (value : Expr) : Memory :=
  { m with written := m.written.insert address value }

/-- Writes one byte. -/
def writeByte (m : Memory) (address : Word) (value : Expr) : Except Error Memory := do
  Expr.expectWidth "write_byte" 8 value.width
  pure (m.put address value)

/-- The bytes at `n` consecutive addresses. -/
def bytes (m : Memory) (address : Word) (n : Nat) : List Expr :=
  (List.range n).map fun i => m.byte (address + UInt64.ofNat i)

/-- The number that bytes form, the least significant first. -/
def join : List Expr → Except Error Expr
  | [] => .error (.invalidWidth 0)
  | [b] => .ok b
  | b :: rest => do Expr.mkConcat (← join rest) b

/-- The number of `size` bytes at an address, from one byte to eight. -/
def read (m : Memory) (address : Word) (size : Nat) : Except Error Expr :=
  if size = 0 ∨ 8 < size then .error (.invalidWidth (size * 8))
  else join (m.bytes address size)

/-- The bytes of a number, the least significant first. -/
def split (value : Expr) : Except Error (List Expr) :=
  if value.width % 8 ≠ 0 then .error (.invalidWidth value.width)
  else (List.range (value.width / 8)).mapM fun i => Expr.mkExtract (8 * i + 7) (8 * i) value

/-- Puts expressions of eight bits at consecutive addresses. -/
def putAll (m : Memory) (address : Word) : List Expr → Memory
  | [] => m
  | b :: rest => (m.put address b).putAll (address + 1) rest

/-- Writes a number of whole bytes. -/
def write (m : Memory) (address : Word) (value : Expr) : Except Error Memory :=
  return m.putAll address (← split value)

/-- Writes known bytes. -/
def writeBytes (m : Memory) (address : Word) (bytes : List UInt8) : Memory :=
  m.putAll address (bytes.map Expr.byte)

/-- The addresses that were written, ascending. -/
def writtenAddresses (m : Memory) : List Word := m.written.keys

end Memory

end PathSearch
