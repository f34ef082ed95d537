import PathSearch.Solver.Basic
import PathSearch.State.Basic

/-! # What the states of a search share

All states of a search take their identities from one counter and ask one solver. An operation that
fails gives up its result, but identities and answers that it used stay used.
-/

namespace PathSearch

/-- What stepping counted. -/
structure StepStats where
  instructions : Nat := 0
  hooks : Nat := 0
  /-- Successors beyond the first of each step. -/
  forks : Nat := 0
  /-- Successors dropped because no input reaches them. -/
  infeasible : Nat := 0
  errors : Nat := 0
  deriving Repr, DecidableEq, Inhabited

def StepStats.text (s : StepStats) : String :=
  toString s.instructions ++ " instructions, " ++ toString s.hooks ++ " hooks, " ++
    toString s.forks ++ " forks, " ++ toString s.infeasible ++ " infeasible, " ++
    toString s.errors ++ " errors"

/-- The solver, the next identity and the counts. -/
structure Session where
  solver : Solver
  nextId : Nat := 1
  stats : StepStats := {}
  deriving Inhabited

/-- Work that takes identities from a counter. -/
abbrev Fresh := ExceptT Error (StateM Nat)

/-- A new identity. -/
def freshId : Fresh Nat := modifyGet fun n => (n, n + 1)

/-- A copy of a state with a new identity. -/
def State.forkFresh (s : State) : Fresh State := return s.fork (← freshId)

/-- Work on a path within a session. -/
abbrev Attempt := ExceptT Reason (StateM Session)

namespace Session

/-- Asks the solver of the session. -/
def ask {α : Type} (question : Ask α) : StateM Session (Except SolverError α) := do
  let s ← get
  let (answer, solver) := question.run s.solver
  set { s with solver }
  pure answer

/-- Takes identities from the session. -/
def fresh {α : Type} (work : Fresh α) : StateM Session (Except Error α) := do
  let s ← get
  let (result, nextId) := work.run s.nextId
  set { s with nextId }
  pure result

/-- Work whose failure is a fault of the path. -/
def orFault {α : Type} (result : Except Error α) : Attempt α :=
  match result with
  | .ok a => pure a
  | .error e => throw (.executionFault e.message)

end Session

namespace State

/-- A fork on which an expression has the given value. -/
def pin (s : State) (e : Expr) (value : Word) : Attempt State := do
  let fork ← Session.orFault (← Session.fresh s.forkFresh)
  Session.orFault do
    let c ← Expr.mkConst value e.width
    fork.addConstraint (← e.equals c)

/-- The values that an address can have, each with a state in which it has it. A constant needs no
    fork; more than `cap` values are a failure. -/
def resolveAddress (s : State) (address : Expr) (cap : Nat) : Attempt (List (State × Word)) := do
  match address.const? with
  | some value => pure [(s, value)]
  | none =>
      -- one value more than allowed tells that there are too many
      let wanted := min (cap + 1) 0xffffffffffffffff
      match ← Session.ask (Solver.evaluateMany address s.constraints wanted) with
      | .error e => match Reason.ofSolver? e with
        | some reason => throw reason
        | none => pure []
      | .ok values =>
          if cap < values.length then
            throw (.unconstrainedMemoryAccess address.text cap)
          else values.mapM fun value => do
            pure (← s.pin address value, value)

/-- Reads at an address that may have several values. -/
def readResolved (s : State) (address : Expr) (size cap : Nat) : Attempt (List (State × Expr)) := do
  (← s.resolveAddress address cap).mapM fun (t, a) => do
    pure (t, ← Session.orFault (t.readMemory a size))

/-- Writes at an address that may have several values. -/
def writeResolved (s : State) (address value : Expr) (cap : Nat) : Attempt (List State) := do
  (← s.resolveAddress address cap).mapM fun (t, a) => Session.orFault (t.writeMemory a value)

end State

end PathSearch
