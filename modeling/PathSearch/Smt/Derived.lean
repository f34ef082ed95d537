import PathSearch.Smt.Literal
import Std.Data.HashSet

/-! # Derived clauses

Clauses that follow from given ones. A clause is taken up only if unit propagation refutes its negation:
from the literals that its negation makes true one clause after the other sets one more literal, until
some clause has none left that could be true.
-/

namespace PathSearch.Smt

/-- Clauses and literals that were derived from the clauses of a circuit. -/
structure Derived where
  /-- The clauses, with the numbers that they have in the search. -/
  clauses : Array (Array Lit) := #[]
  /-- Literals that are true in every satisfying assignment. -/
  units : Std.HashSet Lit := ∅
  /-- The number of literals of the trail that are among them. -/
  settled : Nat := 0
  deriving Inhabited

namespace Derived

/-- The literals of a clause that are not false where the given ones are true. -/
def openIn (d : Derived) (given : Std.HashSet Lit) (clause : Array Lit) : List Lit :=
  (clause.filter fun l => !(given.contains l.neg || d.units.contains l.neg)).toList

/-- Whether the given literals cannot all be true: clauses are gone through, and each may set the one
    literal that it leaves open, or leave none. -/
def refutes (d : Derived) : (sources : List Nat) → (given : Std.HashSet Lit) → Bool
  | [], _ => false
  | c :: rest, given => match d.clauses[c]? with
    | none => d.refutes rest given
    | some clause => match d.openIn given clause with
      | [] => true
      | [l] => d.refutes rest (given.insert l)
      | _ => d.refutes rest given

/-- Takes up a clause, where its negation is refuted. -/
def learn (d : Derived) (clause : Array Lit) (sources : List Nat) : Option Derived :=
  if d.refutes sources (clause.foldl (fun given l => given.insert l.neg) ∅) then
    match clause.toList with
    | [l] => some { d with units := d.units.insert l }
    | _ => some { d with clauses := d.clauses.push clause }
  else none

/-- Takes up a literal, where a clause leaves no other. -/
def takeUnit (d : Derived) (l : Lit) (clause : Array Lit) : Option Derived :=
  if d.units.contains l then some d
  else if d.openIn ∅ clause = [l] then some { d with units := d.units.insert l }
  else none

end Derived

end PathSearch.Smt
