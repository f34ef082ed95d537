import PathSearch.Expr.Build
import PathSearch.Machine.Instruction

/-! # The register file

Ten expressions of 64 bits. A narrower value is extended with zeros when it is written.
-/

namespace PathSearch

/-- The contents of the registers. -/
structure Registers where
  slots : Vector Expr 10 := Vector.replicate 10 (Expr.word 0)
  deriving DecidableEq

namespace Registers

instance : Inhabited Registers := ⟨{}⟩

def get (rs : Registers) (r : Register) : Expr := rs.slots.get r.index

/-- A value as a register holds it. -/
def widen (value : Expr) : Expr :=
  if value.width < 64 then ((Expr.mkZext value 64).toOption).getD value else value

def set (rs : Registers) (r : Register) (value : Expr) : Registers :=
  ⟨rs.slots.set r.index (widen value) r.index.isLt⟩

/-- Every register with its content. -/
def toList (rs : Registers) : List (Register × Expr) := Register.all.map fun r => (r, rs.get r)

end Registers

end PathSearch
