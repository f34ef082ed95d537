/-! # Durations as text

A duration is shown in the largest unit that it reaches, with as many decimal places as it needs.
-/

namespace PathSearch.Text

/-- Drops the zeros at the end. -/
def trimZeros (cs : List Char) : List Char := (cs.reverse.dropWhile (· == '0')).reverse

/-- A number of units and a rest counted in `places` decimal places. -/
def decimal (whole rest places : Nat) : String :=
  let digits := Nat.toDigits 10 rest
  let padded := List.replicate (places - digits.length) '0' ++ digits
  let shown := if rest = 0 then [] else trimZeros padded
  if shown.isEmpty then toString whole else toString whole ++ "." ++ String.ofList shown

/-- A duration given in nanoseconds. -/
def duration (ns : Nat) : String :=
  if 1000000000 ≤ ns then decimal (ns / 1000000000) (ns % 1000000000) 9 ++ "s"
  else if 1000000 ≤ ns then decimal (ns / 1000000) (ns % 1000000) 6 ++ "ms"
  else if 1000 ≤ ns then decimal (ns / 1000) (ns % 1000) 3 ++ "µs"
  else toString ns ++ "ns"

end PathSearch.Text
