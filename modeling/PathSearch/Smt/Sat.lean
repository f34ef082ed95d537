import PathSearch.Smt.Search

/-! # Deciding scripts

A script is turned into clauses, and the clauses are searched for a satisfying assignment.
-/

namespace PathSearch.Smt.Sat

/-- The number of decisions and conflicts after which a search is given up. -/
def budget : Nat := 0x100000000

/-- The number that bits stand for under an assignment. -/
def numberOf (values : Array UInt8) : List Lit → Nat
  | [] => 0
  | l :: rest => (if values.getD l 0 = 1 then 1 else 0) + 2 * numberOf values rest

/-- Decides a script by search, where the operands of all lines fit. A model is given out only after the
    script was evaluated in it. -/
def check (script : Script) : Verdict :=
  match script.widths? with
  | none => .unknown "operands do not fit"
  | some _ =>
      let circuit := Circuit.ofScript script
      match Search.solve circuit budget with
      | .unsat => .unsat
      | .exhausted => .timeout
      | .sat found =>
          let model := circuit.inputs.map fun (name, bits) => (name, numberOf found.values bits)
          if script.holds (modelOf model) then .sat model else .unknown "model check failed"

/-- The decision procedure by search. -/
def backend : Backend := ⟨check⟩

end PathSearch.Smt.Sat
