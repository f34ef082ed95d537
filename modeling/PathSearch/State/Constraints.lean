import PathSearch.Digest
import PathSearch.Expr.Build
import PathSearch.Expr.Canonical

/-! # Path constraints

The one-bit expressions that have to be 1 for a path to be taken, in the order in which they were
found. Every sequence has a digest, which is carried along as constraints are added.
-/

namespace PathSearch

/-- The digest of a sequence that a constraint is added to. -/
def Digest.extend (d : Digest) (c : Expr) : Digest :=
  let encoded := c.canonical
  Digest.sha1 (d.bytes ++ Bytes.toLE 8 encoded.length ++ encoded)

/-- The digest of the empty sequence. -/
def Digest.empty : Digest := ⟨0x787E34A7, 0xA6014401, 0x996E1CF9, 0x37D1782D, 0x5F3BDEF8⟩

/-- The digest of a sequence. -/
def Digest.ofSequence (cs : List Expr) : Digest := cs.foldl Digest.extend Digest.empty

/-- A sequence of constraints, oldest first, with its digest. -/
structure Constraints where
  items : List Expr := []
  digest : Digest := Digest.empty
  digest_eq : digest = Digest.ofSequence items := by rfl
  deriving DecidableEq

namespace Constraints

instance : Inhabited Constraints := ⟨{}⟩

/-- Puts an expression at the end. -/
def append (cs : Constraints) (c : Expr) : Constraints where
  items := cs.items ++ [c]
  digest := cs.digest.extend c
  digest_eq := by simp [Digest.ofSequence, cs.digest_eq]

/-- Adds a constraint. It has to be one bit wide, and one that is always true is left out. -/
def push (cs : Constraints) (c : Expr) : Except Error Constraints := do
  Expr.expectWidth "constraint" 1 c.width
  pure (if c.isTrue then cs else cs.append c)

/-- The constraints of a list, in order. -/
def ofList (list : List Expr) : Except Error Constraints := list.foldlM push {}

/-- Holds the constant 0, so no assignment satisfies the sequence. -/
def isTriviallyFalse (cs : Constraints) : Bool := cs.items.any (·.isFalse)

/-- Holds constants only. -/
def isConcrete (cs : Constraints) : Bool := cs.items.all (·.isConst)

def contains (cs : Constraints) (c : Expr) : Bool := cs.items.contains c

/-- Starts with all constraints of the other sequence. -/
def startsWith (cs other : Constraints) : Bool := other.items.isPrefixOf cs.items

/-- The number of constraints that two lists have in common at their start. -/
def commonLength : List Expr → List Expr → Nat
  | a :: as, b :: bs => if a = b then commonLength as bs + 1 else 0
  | _, _ => 0

/-- The number of constraints that two sequences have in common at their start. -/
def commonPrefix (cs other : Constraints) : Nat := commonLength cs.items other.items

/-- The constraints behind the first `n`. -/
def suffix (cs : Constraints) (n : Nat) : List Expr := cs.items.drop n

end Constraints

end PathSearch
