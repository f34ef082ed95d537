/-! # Literals

A literal is twice the number of a variable, plus one where it is negated.
-/

namespace PathSearch.Smt

/-- A variable or its negation. -/
abbrev Lit := Nat

namespace Lit

def yes : Lit := 0
def no : Lit := 1
def ofBool (b : Bool) : Lit := if b then yes else no
def neg (l : Lit) : Lit := l ^^^ 1

end Lit

end PathSearch.Smt
