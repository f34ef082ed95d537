import PathSearch.Solver.Basic
import PathSearch.State.Memory
import PathSearch.Text.Duration

/-! # Settings and limits of a search -/

namespace PathSearch

/-- Where a search ends. Zero, for a number of steps or a time, is no limit. -/
structure Limits where
  maxTotalSteps : Nat := 1000000
  timeoutMs : Nat := 60000
  /-- A path of so many steps is ended. -/
  maxPathSteps : Nat := 10000
  /-- A path that arrives where it was so often is ended. -/
  loopUnrollLimit : Option Nat := none
  /-- The search ends when so many states are found. -/
  maxFound : Nat := 1
  /-- More active states than this are given up. -/
  maxActive : Option Nat := none
  deriving Repr, DecidableEq, Inhabited

/-- The settings of a search. -/
structure Config where
  limits : Limits := {}
  /-- An address with more values than this is an error of its state. -/
  addressCap : Nat := 16
  uninitialized : Uninitialized := .zero
  solver : SolverConfig := {}
  /-- The number of states stepped in one round. -/
  batchSize : Nat := 1
  /-- The seed of a random strategy. -/
  seed : Word := 0
  deriving Repr, DecidableEq, Inhabited

namespace Config

/-- Small limits, for a quick answer. -/
def quick : Config where
  limits :=
    { maxTotalSteps := 100000, timeoutMs := 10000, maxPathSteps := 5000,
      loopUnrollLimit := some 64 }
  solver := { timeoutMs := 1000 }

/-- Large limits, for a deep search. -/
def thorough : Config where
  limits := { maxTotalSteps := 50000000, timeoutMs := 1800000, maxPathSteps := 1000000 }
  addressCap := 256
  solver := { timeoutMs := 30000 }
  batchSize := 16

/-- No limit but the length of a path. -/
def bounded (maxPathSteps : Nat) : Config where
  limits := { maxTotalSteps := 0, timeoutMs := 0, maxPathSteps }

/-- Refuses settings under which a search could do nothing, or could have no end. -/
def validate (c : Config) : Except Error Unit :=
  let l := c.limits
  if l.maxFound = 0 then .error (.invalidConfig "max_found must be at least 1")
  else if c.batchSize = 0 then .error (.invalidConfig "batch_size must be at least 1")
  else if c.addressCap = 0 then .error (.invalidConfig "symbolic_address_cap must be at least 1")
  else if l.loopUnrollLimit = some 0 then
    .error (.invalidConfig "loop_unroll_limit must be at least 1")
  else if l.maxActive = some 0 then .error (.invalidConfig "max_active must be at least 1")
  else if l.maxTotalSteps = 0 ∧ l.timeoutMs = 0 ∧ l.maxPathSteps = 0 ∧ l.loopUnrollLimit = none then
    .error (.invalidConfig
      "no step budget, timeout, path bound or loop bound limits the exploration")
  else .ok ()

end Config

/-- A limit that was reached. -/
inductive LimitExceeded where
  | steps (executed limit : Nat)
  /-- Durations in nanoseconds. -/
  | timeout (elapsed limit : Nat)
  deriving Repr, DecidableEq, Inhabited

def LimitExceeded.text : LimitExceeded → String
  | .steps executed limit =>
      "step limit exceeded: " ++ toString executed ++ " (limit: " ++ toString limit ++ ")"
  | .timeout elapsed limit =>
      "timeout exceeded: " ++ Text.duration elapsed ++ " (limit: " ++ Text.duration limit ++ ")"

/-- Whether a number of steps reaches the limit. -/
def Limits.stepsExceeded (l : Limits) (executed : Nat) : Bool :=
  l.maxTotalSteps ≠ 0 && decide (l.maxTotalSteps ≤ executed)

/-- The limit that a number of steps reaches. -/
def Limits.exceeded? (l : Limits) (executed : Nat) : Option LimitExceeded :=
  if l.stepsExceeded executed then some (.steps executed l.maxTotalSteps) else none

end PathSearch
