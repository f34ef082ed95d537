/-! # Little-endian numbers

Numbers as byte strings, the least significant byte first.
-/

namespace PathSearch.Bytes

/-- The `n` low bytes of a number, the least significant first. -/
def toLE : (n : Nat) → (value : Nat) → List UInt8
  | 0, _ => []
  | n + 1, value => UInt8.ofNat value :: toLE n (value / 256)

/-- The number that bytes stand for, the least significant first. -/
def ofLE : List UInt8 → Nat
  | [] => 0
  | b :: rest => b.toNat + 256 * ofLE rest

/-- The first `n` bytes and the rest, where there are as many. -/
def split? (n : Nat) (bytes : List UInt8) : Option (List UInt8 × List UInt8) :=
  if bytes.length < n then none else some (bytes.splitAt n)

/-- The integer types that byte strings hold. -/
inductive IntType where
  | u8 | i8 | u16 | i16 | u32 | i32 | u64 | i64
  deriving Repr, DecidableEq, Inhabited

namespace IntType

/-- The number of bytes of a type. -/
def size : IntType → Nat
  | .u8 | .i8 => 1
  | .u16 | .i16 => 2
  | .u32 | .i32 => 4
  | .u64 | .i64 => 8

/-- Whether the top bit counts negatively. -/
def signed : IntType → Bool
  | .i8 | .i16 | .i32 | .i64 => true
  | .u8 | .u16 | .u32 | .u64 => false

/-- The number of different values of a type. -/
def modulus (t : IntType) : Nat := Nat.pow 2 (8 * t.size)

/-- The bytes of an integer, cut to the type. -/
def encode (t : IntType) (value : Int) : List UInt8 :=
  toLE t.size (value % t.modulus).toNat

/-- The integer that bytes of the type's size stand for. -/
def decode (t : IntType) (bytes : List UInt8) : Int :=
  let n := ofLE bytes
  if t.signed ∧ t.modulus ≤ 2 * n then (n : Int) - t.modulus else n

end IntType

end PathSearch.Bytes
