import PathSearch.Op

/-! # Polynomials over bit-vectors

Sums, differences and products of bit-vectors of one width obey the laws of a commutative ring. A
polynomial in normal form is a sorted list of monomials with coefficients other than zero, so two
terms that are equal by these laws have the same polynomial.
-/

namespace PathSearch.Smt

/-- A product of atoms, which are numbered, in ascending order. -/
abbrev Monomial := List Nat

namespace Monomial

/-- The product of two monomials. -/
def mul (a b : Monomial) : Monomial := List.merge a b (· ≤ ·)

/-- The order of monomials: by their atoms from the left. -/
def before : Monomial → Monomial → Bool
  | [], [] => false
  | [], _ :: _ => true
  | _ :: _, [] => false
  | a :: as, b :: bs => a < b || (a == b && before as bs)

end Monomial

/-- Monomials with their coefficients, in the order of the monomials. -/
structure Polynomial where
  terms : List (Monomial × Nat) := []
  deriving DecidableEq, Hashable, Repr, Inhabited

namespace Polynomial

/-- Adds a term. Coefficients count modulo `2 ^ width`. -/
def addTerm (width : Nat) (m : Monomial) (k : Nat) : List (Monomial × Nat) → List (Monomial × Nat)
  | [] => if k % Nat.pow 2 width = 0 then [] else [(m, k % Nat.pow 2 width)]
  | (n, j) :: rest =>
      if m = n then
        if (k + j) % Nat.pow 2 width = 0 then rest else (m, (k + j) % Nat.pow 2 width) :: rest
      else if Monomial.before m n then
        if k % Nat.pow 2 width = 0 then (n, j) :: rest else (m, k % Nat.pow 2 width) :: (n, j) :: rest
      else (n, j) :: addTerm width m k rest

/-- A number. -/
def const (width k : Nat) : Polynomial := ⟨addTerm width [] k []⟩

/-- One atom. -/
def atom (i : Nat) : Polynomial := ⟨[([i], 1)]⟩

/-- The sum of a polynomial and `k` times a monomial times another. -/
def addScaled (width : Nat) (p : Polynomial) (m : Monomial) (k : Nat) (q : Polynomial) :
    Polynomial :=
  ⟨q.terms.foldl (fun ts x => addTerm width (m.mul x.1) (k * x.2) ts) p.terms⟩

def add (width : Nat) (p q : Polynomial) : Polynomial := addScaled width p [] 1 q

def scale (width k : Nat) (p : Polynomial) : Polynomial := addScaled width {} [] k p

def neg (width : Nat) (p : Polynomial) : Polynomial := scale width (Nat.pow 2 width - 1) p

def sub (width : Nat) (p q : Polynomial) : Polynomial := addScaled width p [] (Nat.pow 2 width - 1) q

def mul (width : Nat) (p q : Polynomial) : Polynomial :=
  p.terms.foldl (fun r x => addScaled width r x.1 x.2 q) {}

/-- The number that a polynomial without atoms is. -/
def const? (p : Polynomial) : Option Nat :=
  match p.terms with
  | [] => some 0
  | [([], k)] => some k
  | _ => none

/-- Polynomials are kept up to this number of terms. -/
def maxTerms : Nat := 48

/-- Monomials are kept up to this number of atoms. -/
def maxDegree : Nat := 12

/-- Whether a polynomial is small enough to be of use. -/
def isSmall (p : Polynomial) : Bool :=
  p.terms.length ≤ maxTerms && p.terms.all fun (m, _) => m.length ≤ maxDegree

/-- The polynomial of an operation on polynomials, where it is one of the ring. A shift to the left
    by a number is a product. -/
def binary? (op : Op) (width : Nat) (p q : Polynomial) : Option Polynomial :=
  match op with
  | .add => some (add width p q)
  | .sub => some (sub width p q)
  | .mul => if p.terms.length * q.terms.length ≤ maxTerms then some (mul width p q) else none
  | .shl => q.const?.bind fun k => if k < width then some (scale width (Nat.pow 2 k) p) else none
  | _ => none

/-- The polynomial of an operation on a polynomial. The complement of `x` is `-x - 1`. -/
def unary? (op : Op) (width : Nat) (p : Polynomial) : Option Polynomial :=
  match op with
  | .neg => some (neg width p)
  | .not => some (sub width (neg width p) (const width 1))
  | _ => none

end Polynomial

end PathSearch.Smt
