/-! # Hexadecimal text

Addresses, constants and byte strings are written in lower-case hexadecimal. Numbers carry the
mark `0x`, byte strings do not.
-/

namespace PathSearch.Text

/-- The hexadecimal digits of `n`, padded with zeros in front to at least `places` of them. -/
def hexDigits (places n : Nat) : String :=
  let digits := Nat.toDigits 16 n
  String.ofList (List.replicate (places - digits.length) '0' ++ digits)

/-- A number with its `0x` mark and no padding. -/
def hex (n : Nat) : String := "0x" ++ hexDigits 1 n

/-- Two digits per byte and nothing between them. -/
def hexBytes (bytes : List UInt8) : String :=
  String.join (bytes.map fun b => hexDigits 2 b.toNat)

/-- The value of one hexadecimal digit of either case. -/
def hexDigit? (c : Char) : Option Nat :=
  if '0' ≤ c ∧ c ≤ '9' then some (c.toNat - '0'.toNat)
  else if 'a' ≤ c ∧ c ≤ 'f' then some (c.toNat - 'a'.toNat + 10)
  else if 'A' ≤ c ∧ c ≤ 'F' then some (c.toNat - 'A'.toNat + 10)
  else none

/-- Reads digits in the given base, most significant first. -/
def digits? (base : Nat) (cs : List Char) : Option Nat :=
  if cs.isEmpty then none
  else cs.foldlM (fun n c => do
    let d ← hexDigit? c
    guard (d < base)
    pure (n * base + d)) 0

/-- Reads a number: hexadecimal after `0x`, decimal otherwise. -/
def number? (s : String) : Option Nat :=
  match s.toList with
  | '0' :: 'x' :: ds => digits? 16 ds
  | ds => digits? 10 ds

/-- Reads pairs of hexadecimal digits as bytes. -/
def bytes? : List Char → Option (List UInt8)
  | [] => some []
  | [_] => none
  | hi :: lo :: rest => do
    let h ← hexDigit? hi
    let l ← hexDigit? lo
    let tail ← bytes? rest
    pure (UInt8.ofNat (16 * h + l) :: tail)

end PathSearch.Text
