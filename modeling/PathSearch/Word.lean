/-! # Words of up to 64 bits

Values of every width are kept in one 64-bit word whose upper bits are zero. `mask` cuts a word to
a width, `toSigned` reads the low bits as a two's-complement integer.
-/

namespace PathSearch

/-- A 64-bit machine word: a value or an address. -/
abbrev Word := UInt64

namespace Word

/-- The widest value a word can hold. -/
def maxWidth : Nat := 64

/-- The low `width` bits set, all of them from width 64 on. -/
def mask (width : Nat) : Word :=
  if maxWidth ≤ width then 0xffffffffffffffff else UInt64.ofNat (Nat.pow 2 width - 1)

/-- The low `width` bits of a word. -/
def truncate (width : Nat) (value : Word) : Word := value &&& mask width

/-- The low `width` bits read as a two's-complement integer; widths above 64 count as 64. -/
def toSigned (width : Nat) (value : Word) : Int :=
  let bits := min width maxWidth
  let low := (truncate width value).toNat
  if 2 * low < Nat.pow 2 bits then low else (low : Int) - (Nat.pow 2 bits : Nat)

/-- The two's-complement word of an integer. -/
def ofSigned (value : Int) : Word := UInt64.ofNat (value % 0x10000000000000000).toNat

/-- One for true and zero for false. -/
def ofBool (b : Bool) : Word := if b then 1 else 0

end Word

end PathSearch
