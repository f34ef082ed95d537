import PathSearch.Smt.Lowering
import PathSearch.Smt.Sat
import PathSearch.State.Constraints
import PathSearch.Text.Ratio
import Std.Data.HashMap

/-! # The solver

Questions about constraints: whether some assignment satisfies them, and which values expressions
take under such assignments. Constraints without variables are answered at once, and whether a
sequence is satisfiable is remembered under its digest.
-/

namespace PathSearch

/-- Settings of a solver. -/
structure SolverConfig where
  /-- The time a single check may take, in milliseconds; 0 for no limit. -/
  timeoutMs : Nat := 5000
  cacheResults : Bool := true
  maxCacheEntries : Nat := 65536
  deriving Repr, DecidableEq, Inhabited

/-- What a solver was asked, and how it answered. -/
structure SolverCounters where
  queries : Nat := 0
  /-- Answered without a look at the variables. -/
  fastPath : Nat := 0
  cacheHits : Nat := 0
  /-- Checks by the decision procedure. -/
  solverCalls : Nat := 0
  timeouts : Nat := 0
  unknowns : Nat := 0
  deriving Repr, DecidableEq, Inhabited

namespace SolverCounters

def text (c : SolverCounters) : String :=
  toString c.queries ++ " queries (" ++ toString c.fastPath ++ " fast, " ++
    toString c.cacheHits ++ " cached, " ++ toString c.solverCalls ++ " solved, " ++
    toString c.timeouts ++ " timeouts, " ++ toString c.unknowns ++ " unknown)"

/-- The share of lookups that the cache answered, with six places. -/
def hitRate (c : SolverCounters) : String :=
  if c.cacheHits = 0 then "0.000000" else Text.sixPlaces c.cacheHits (c.cacheHits + c.solverCalls)

end SolverCounters

/-- Answers that are known, by the digest of the constraints. -/
structure SatCache where
  capacity : Nat
  entries : Std.HashMap Digest Bool := ∅
  deriving Inhabited

namespace SatCache

/-- Takes up an answer. A full cache is emptied first. -/
def insert (c : SatCache) (d : Digest) (satisfiable : Bool) : SatCache :=
  if c.capacity = 0 then c
  else if c.capacity ≤ c.entries.size then { c with entries := Std.HashMap.ofList [(d, satisfiable)] }
  else { c with entries := c.entries.insert d satisfiable }

def clear (c : SatCache) : SatCache := { c with entries := ∅ }

end SatCache

/-- A solver: its decision procedure, what it remembers and what it counted. -/
structure Solver where
  backend : Smt.Backend
  config : SolverConfig
  cache : SatCache
  counters : SolverCounters := {}
  deriving Inhabited

/-- A question to a solver: it may fail, and the solver goes on in any case. -/
abbrev Ask := ExceptT SolverError (StateM Solver)

namespace Solver

/-- A solver that was not asked yet. -/
def new (backend : Smt.Backend) (config : SolverConfig) : Solver where
  backend
  config
  cache := { capacity := if config.cacheResults then config.maxCacheEntries else 0 }

/-- Counts something. -/
def count (f : SolverCounters → SolverCounters) : Ask Unit :=
  modify fun s => { s with counters := f s.counters }

/-- Keeps the answer for constraints that needed the decision procedure. -/
def remember (cs : Constraints) (satisfiable : Bool) : Ask Unit :=
  modify fun s =>
    if s.config.cacheResults && !cs.isConcrete then
      { s with cache := s.cache.insert cs.digest satisfiable }
    else s

/-- Takes up an answer of the decision procedure: a model, or none. -/
def takeVerdict (v : Smt.Verdict) : Ask (Option Smt.Model) := do
  count fun c => { c with solverCalls := c.solverCalls + 1 }
  match v with
  | .sat model => pure (some (Smt.modelOf model))
  | .unsat => pure none
  | .timeout => do
      count fun c => { c with timeouts := c.timeouts + 1 }
      throw (.timeout (← get).config.timeoutMs)
  | .unknown reason => do
      count fun c => { c with unknowns := c.unknowns + 1 }
      throw (.unknown reason)

/-- One check by the decision procedure: a model, or none. -/
def check (script : Smt.Script) : Ask (Option Smt.Model) := do
  takeVerdict ((← get).backend.check script)

/-- Whether constraints are satisfiable, from their look, from memory or by a check. -/
def decide (cs : Constraints) : Ask Bool := do
  if cs.isTriviallyFalse then
    count fun c => { c with fastPath := c.fastPath + 1 }
    return false
  if cs.isConcrete then
    count fun c => { c with fastPath := c.fastPath + 1 }
    return true
  match (← get).cache.entries[cs.digest]? with
  | some known => do
      count fun c => { c with cacheHits := c.cacheHits + 1 }
      return known
  | none => do
      let (script, _) ← (Smt.Lowering.scriptOf cs.items [] : Except SolverError _)
      let satisfiable := (← check script).isSome
      remember cs satisfiable
      return satisfiable

/-- Whether some assignment satisfies the constraints. -/
def isSatisfiable (cs : Constraints) : Ask Bool := do
  count fun c => { c with queries := c.queries + 1 }
  decide cs

/-- Up to `n` values of a line. The value in each model is excluded before the next check, and the
    loop stops where there is no model. -/
def enumerate (line : Nat) : (n : Nat) → Smt.Script → Ask (List Word)
  | 0, _ => pure []
  | n + 1, script => do
      match ← check script with
      | none => pure []
      | some model =>
          let value := script.value model line
          return UInt64.ofNat value :: (← enumerate line n (script.exclude line value))

/-- Constraints that hold the constant 0 are refused at once. -/
def refuseFalse (cs : Constraints) : Ask Unit := do
  if cs.isTriviallyFalse then
    count fun c => { c with fastPath := c.fastPath + 1 }
    throw .unsatisfiable

/-- Up to `n` different values that an expression takes under the constraints. -/
def evaluateMany (e : Expr) (cs : Constraints) (n : Nat) : Ask (List Word) := do
  count fun c => { c with queries := c.queries + 1 }
  if n = 0 then return []
  if let some value := e.const? then
    if ← decide cs then return [value] else throw .unsatisfiable
  refuseFalse cs
  let (script, lines) ← (Smt.Lowering.scriptOf cs.items [e] : Except SolverError _)
  let values ← enumerate (lines.headD 0) n script
  if values.isEmpty then
    remember cs false
    throw .unsatisfiable
  remember cs true
  return values

/-- One value that an expression takes under the constraints. -/
def evaluate (e : Expr) (cs : Constraints) : Ask Word := do
  match ← evaluateMany e cs 1 with
  | value :: _ => pure value
  | [] => throw .unsatisfiable

/-- Values that expressions take together under one assignment. -/
def evaluateAll (es : List Expr) (cs : Constraints) : Ask (List Word) := do
  count fun c => { c with queries := c.queries + 1 }
  if es.all (·.isConst) then
    if ← decide cs then return es.filterMap (·.const?) else throw .unsatisfiable
  refuseFalse cs
  let (script, lines) ← (Smt.Lowering.scriptOf cs.items es : Except SolverError _)
  match ← check script with
  | none => do
      remember cs false
      throw .unsatisfiable
  | some model => do
      remember cs true
      let values := script.values model
      return lines.map fun i => UInt64.ofNat (values.getD i default).value.toNat

/-- The low bytes of values that expressions take together. -/
def evaluateBytes (es : List Expr) (cs : Constraints) : Ask (List UInt8) :=
  return (← evaluateAll es cs).map (·.toUInt8)

/-- Forgets all answers. -/
def clearCache (s : Solver) : Solver := { s with cache := s.cache.clear }

/-- The number of answers remembered. -/
def cacheEntries (s : Solver) : Nat := s.cache.entries.size

end Solver

end PathSearch
