import PathSearch.Bytes.LittleEndian
import PathSearch.Error

/-! # A cursor over bytes

A cursor divides its data into what lies behind it and what is ahead, so it can never stand outside
them. An operation that would pass the end fails and leaves the cursor where it is.
-/

namespace PathSearch

/-- A place in a byte string: the bytes behind it and the bytes ahead of it. -/
structure Cursor where
  behind : List UInt8
  ahead : List UInt8
  deriving Repr, DecidableEq, Inhabited

namespace Cursor

/-- A cursor at the start. -/
def ofBytes (bytes : List UInt8) : Cursor := ⟨[], bytes⟩

/-- All the bytes. -/
def data (c : Cursor) : List UInt8 := c.behind ++ c.ahead

/-- The number of bytes behind the cursor. -/
def position (c : Cursor) : Nat := c.behind.length

/-- The number of bytes ahead of the cursor. -/
def remaining (c : Cursor) : Nat := c.ahead.length

def size (c : Cursor) : Nat := c.data.length

/-- Moves to a position counted from the start. -/
def seek (c : Cursor) (position : Nat) : Except Error Cursor :=
  if c.size < position then .error .outOfBounds
  else .ok ⟨c.data.take position, c.data.drop position⟩

/-- The next `n` bytes and the cursor behind them. -/
def read (c : Cursor) (n : Nat) : Except Error (List UInt8 × Cursor) :=
  match Bytes.split? n c.ahead with
  | some (taken, rest) => .ok (taken, ⟨c.behind ++ taken, rest⟩)
  | none => .error .outOfBounds

/-- Moves ahead by `n` bytes. -/
def advance (c : Cursor) (n : Nat) : Except Error Cursor := (c.read n).map (·.2)

/-- The next byte, without moving. -/
def peek (c : Cursor) : Except Error UInt8 :=
  match c.ahead with
  | b :: _ => .ok b
  | [] => .error .outOfBounds

/-- The next integer of a type. -/
def readInt (c : Cursor) (t : Bytes.IntType) : Except Error (Int × Cursor) :=
  (c.read t.size).map fun (bytes, next) => (t.decode bytes, next)

end Cursor

/-- The integer of a type that starts at an offset, and the offset behind it. -/
def Bytes.readIntAt (bytes : List UInt8) (t : Bytes.IntType) (offset : Nat) :
    Except Error (Int × Nat) := do
  let c ← (Cursor.ofBytes bytes).seek offset
  let (value, next) ← c.readInt t
  pure (value, next.position)

end PathSearch
