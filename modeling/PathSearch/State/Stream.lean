import PathSearch.Expr.Build

/-! # Input streams

Bytes that a program reads one after the other. A stream is divided into what was read and what is
left, so bytes are neither lost nor given twice.
-/

namespace PathSearch

/-- The bytes of a stream, before and behind its reading position. -/
structure Stream where
  taken : List Expr := []
  left : List Expr
  deriving DecidableEq, Inhabited

namespace Stream

/-- The name of a byte of a symbolic input. -/
def byteName (name : String) (i : Nat) : String := name ++ "[" ++ toString i ++ "]"

/-- A stream of one variable for every byte. -/
def symbolic (name : String) (length : Nat) : Stream where
  left := (List.range length).map fun i => .var (byteName name i) 8

/-- A stream of known bytes. -/
def concrete (bytes : List UInt8) : Stream where
  left := bytes.map Expr.byte

/-- All bytes, read or not. -/
def bytes (s : Stream) : List Expr := s.taken ++ s.left

def length (s : Stream) : Nat := s.bytes.length

/-- The number of bytes read. -/
def position (s : Stream) : Nat := s.taken.length

/-- The number of bytes left. -/
def remaining (s : Stream) : Nat := s.left.length

/-- The next `n` bytes, or as many as are left, and the stream behind them. -/
def read (s : Stream) (n : Nat) : List Expr × Stream :=
  (s.left.take n, ⟨s.taken ++ s.left.take n, s.left.drop n⟩)

end Stream

end PathSearch
