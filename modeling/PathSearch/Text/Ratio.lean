/-! # Ratios as decimals

A ratio of two counts is shown with six places behind the point. Counts and quotient are first
rounded to 53 significant bits, ties to even, as a floating-point division does it, and the quotient
is rounded to six places in the same way.
-/

namespace PathSearch.Text

/-- A quotient rounded to the nearest integer, ties to even. -/
def roundDiv (num den : Nat) : Nat :=
  let q := num / den
  let r := num % den
  if 2 * r < den ∨ (2 * r = den ∧ q % 2 = 0) then q else q + 1

/-- How far a quotient below one has to be scaled up to have 53 bits before the point. -/
def scaleOf (num den : Nat) : Nat :=
  let s := 52 + den.log2 - num.log2
  if num * Nat.pow 2 s < den * 0x10000000000000 then s + 1 else s

/-- A number rounded to 53 significant bits. -/
def round53 (n : Nat) : Nat :=
  let s := n.log2 - 52
  roundDiv n (Nat.pow 2 s) * Nat.pow 2 s

/-- The quotient of `count` by `total`, not above one, with six decimal places. -/
def sixPlaces (count total : Nat) : String :=
  let num := round53 count
  let den := round53 total
  let s := scaleOf num den
  let mantissa := roundDiv (num * Nat.pow 2 s) den
  let millionths := roundDiv (mantissa * 1000000) (Nat.pow 2 s)
  let places := toString (millionths % 1000000)
  toString (millionths / 1000000) ++ "." ++
    String.ofList (List.replicate (6 - places.length) '0') ++ places

end PathSearch.Text
