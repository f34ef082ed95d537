import PathSearch.Search.Config
import PathSearch.Search.Merge
import PathSearch.Search.Predicate
import PathSearch.Search.Strategy
import PathSearch.Step

/-! # The search

An explorer holds a queue of active states. Each round takes states off the queue, steps them, and
sorts their successors: found, avoided, failed, ended, or back into the queue. The search ends when
enough is found, when the queue is empty, or when a limit is reached; it can be taken up again.

Nothing here reads a clock. A search that its time limit ends stands where it stood after some number of
rounds, so what holds after any number of them holds of it too. Lines that are written to a log are left
out.
-/

namespace PathSearch

/-- How a search ended. -/
inductive Outcome where
  | found
  /-- No active state is left. -/
  | exhausted
  | budgetExceeded (limit : LimitExceeded)
  deriving Repr, DecidableEq, Inhabited

namespace Outcome

def text : Outcome → String
  | .found => "found"
  | .exhausted => "exhausted"
  | .budgetExceeded limit => "inconclusive (" ++ limit.text ++ ")"

/-- Whether more search could give more. -/
def isInconclusive : Outcome → Bool
  | .budgetExceeded _ => true
  | _ => false

end Outcome

/-- States that left the queue, by what became of them, oldest first. -/
structure Sorted where
  found : List State := []
  avoided : List State := []
  errored : List (State × Reason) := []
  /-- Ended without being found or avoided. -/
  deadended : List State := []
  deriving Inhabited

/-- A search that can be started, stopped and taken up again. -/
structure Explorer where
  image : Program
  hooks : HookTable
  config : Config
  session : Session
  /-- The queue, oldest first. -/
  active : List State := []
  /-- Constraints that hold on every state. -/
  global : List Expr := []
  /-- The number of merges made. -/
  merges : Nat := 0
  deriving Inhabited

namespace Explorer

/-- An explorer without states, where the settings make sense. -/
def new (backend : Smt.Backend) (image : Program) (hooks : HookTable) (config : Config) :
    Except Error Explorer := do
  config.validate
  pure { image, hooks, config, session := { solver := Solver.new backend config.solver } }

/-- A state at the entry of the program. -/
def entryState (x : Explorer) : State × Explorer :=
  (State.start x.image x.config.uninitialized x.session.nextId,
    { x with session := { x.session with nextId := x.session.nextId + 1 } })

/-- Adds the constraints that a state does not have yet. -/
def imposeAll (global : List Expr) (s : State) : Except Error State :=
  global.foldlM (fun s c => if s.constraints.contains c then .ok s else s.addConstraint c) s

/-- Puts a state at the end of the queue. -/
def addState (x : Explorer) (s : State) : Except Error Explorer :=
  return { x with active := x.active ++ [← imposeAll x.global s] }

/-- Makes a constraint hold on all active states and on all states added later. -/
def assertGlobal (x : Explorer) (c : Expr) : Except Error Explorer := do
  Expr.expectWidth "assert_global" 1 c.width
  pure { x with
    active := ← x.active.mapM (·.addConstraint c)
    global := x.global ++ [c] }

/-- Whether a state is kept in the queue; an undecided question keeps it. -/
def isFeasible (s : State) : StateM Session Bool := do
  match ← Session.ask (Solver.isSatisfiable s.constraints) with
  | .ok sat => pure sat
  | .error _ => pure true

/-- Drops the active states that no input reaches. -/
def prune (x : Explorer) : Explorer :=
  let (active, session) := (x.active.filterM isFeasible).run x.session
  { x with active, session }

/-- The active states by address, in the order in which the addresses first occur. -/
def groups (states : List State) : List (List State) :=
  (states.map (·.ip)).eraseDups.map fun ip => states.filter (·.ip == ip)

/-- The name of the variable of the next merge. -/
def selectorName (merges : Nat) : String := "merge_sel_" ++ toString merges

/-- Merges one group into the queue, where that is possible, and says how many states were folded
    away. -/
def mergeGroup (x : Explorer) (group : List State) : Explorer × Nat :=
  if group.length < 2 then ({ x with active := x.active ++ group }, 0)
  else
    let (result, session) := (Session.fresh (Merge.merge group (selectorName x.merges))).run x.session
    match result with
    | .ok merged =>
        ({ x with session, active := x.active ++ [merged], merges := x.merges + 1 }, group.length - 1)
    | .error _ => ({ x with session, active := x.active ++ group }, 0)

/-- Merges groups into the queue, one after the other. -/
def mergeGroups : Explorer → List (List State) → Explorer × Nat
  | x, [] => (x, 0)
  | x, group :: rest =>
      let (x, folded) := x.mergeGroup group
      let (x, more) := x.mergeGroups rest
      (x, folded + more)

/-- Merges active states that stand at one address, and says how many were folded away. -/
def mergeActive (x : Explorer) : Explorer × Nat :=
  mergeGroups { x with active := [] } (groups x.active)

end Explorer

/-- A search in progress. -/
structure Progress (σ : Type) where
  session : Session
  active : List State
  /-- The memory of the strategy. -/
  memory : σ
  sorted : Sorted := {}
  /-- The number of states stepped. -/
  steps : Nat := 0
  iterations : Nat := 0

namespace Progress

variable {σ : Type}

/-- Takes a state off the queue, if the strategy picks one that is there. -/
def take (pick : List State → σ → Option Nat × σ) (p : Progress σ) :
    Option State × Progress σ :=
  let (place, memory) := pick p.active p.memory
  match place.bind fun i => p.active[i]?.map (·, i) with
  | some (s, i) => (some s, { p with memory, active := p.active.eraseIdx i })
  | none => (none, { p with memory })

/-- Takes up to `n` states off the queue. -/
def selectBatch (pick : List State → σ → Option Nat × σ) :
    (n : Nat) → Progress σ → List State × Progress σ
  | 0, p => ([], p)
  | n + 1, p =>
      match p.take pick with
      | (some s, p) =>
          let (rest, p) := selectBatch pick n p
          (s :: rest, p)
      | (none, p) => ([], p)

/-- Whether a path is too long or has been at its address too often. -/
def isSpent (l : Limits) (s : State) : Bool :=
  (l.maxPathSteps ≠ 0 && decide (l.maxPathSteps ≤ s.steps)) ||
    l.loopUnrollLimit.any fun limit => limit ≤ s.history.visits s.ip

/-- Sorts a successor. -/
def classify (l : Limits) (find avoid : Predicate) (p : Progress σ) (x : Successor) : Progress σ :=
  let q := p.sorted
  match x with
  | .errored s reason => { p with sorted := { q with errored := q.errored ++ [(s, reason)] } }
  | .active s | .exited s =>
      if avoid.accepts s then { p with sorted := { q with avoided := q.avoided ++ [s] } }
      else if find.accepts s then { p with sorted := { q with found := q.found ++ [s] } }
      else if !x.isActive || isSpent l s then
        { p with sorted := { q with deadended := q.deadended ++ [s] } }
      else { p with active := p.active ++ [s] }

/-- Gives up states until the queue is short enough, at most `n` of them. -/
def evictFor (evict : List State → σ → Option Nat × σ) (cap : Nat) :
    (n : Nat) → Progress σ → Progress σ
  | 0, p => p
  | n + 1, p =>
      if p.active.length ≤ cap then p
      else match p.take evict with
        | (some s, p) =>
            evictFor evict cap n
              { p with sorted := { p.sorted with deadended := p.sorted.deadended ++ [s] } }
        | (none, p) => p

/-- Gives up states until the queue is within its limit. -/
def enforceCap (l : Limits) (evict : List State → σ → Option Nat × σ) (p : Progress σ) :
    Progress σ :=
  match l.maxActive with
  | some cap => evictFor evict cap p.active.length p
  | none => p

/-- Whether the search is over, and how. -/
def outcome? (l : Limits) (p : Progress σ) : Option Outcome :=
  if l.maxFound ≤ p.sorted.found.length then some .found
  else if p.active.isEmpty then some .exhausted
  else (l.exceeded? p.steps).map .budgetExceeded

/-- Steps states in order. Where a batch is stepped on several threads at once, these draw the identities
    of new states from one supply in any order; here each state of the batch draws before the next one. -/
def stepAll (hooks : HookTable) (cap : Nat) (batch : List State) :
    StateM Session (List StepResult) :=
  batch.mapM (Step.step hooks cap)

/-- One round: a batch is taken off the queue and stepped, and its successors are sorted. -/
def round (hooks : HookTable) (c : Config) (strategy : Strategy σ) (find avoid : Predicate)
    (p : Progress σ) : Progress σ :=
  let (batch, p) := selectBatch strategy.select c.batchSize p
  let (results, session) := (stepAll hooks c.addressCap batch).run p.session
  let p := { p with
    session
    steps := p.steps + batch.length
    iterations := p.iterations + 1 }
  let p := (results.flatMap (·.successors)).foldl (classify c.limits find avoid) p
  enforceCap c.limits strategy.evict p

/-- Goes on round by round until the search is over; `none` if that takes more than `fuel`
    rounds. -/
def runFor (hooks : HookTable) (c : Config) (strategy : Strategy σ) (find avoid : Predicate) :
    (fuel : Nat) → Progress σ → Option (Outcome × Progress σ)
  | fuel, p =>
      match outcome? c.limits p with
      | some o => some (o, p)
      | none => match fuel with
        | 0 => none
        | fuel + 1 => runFor hooks c strategy find avoid fuel (round hooks c strategy find avoid p)

end Progress

/-- The result of a search. -/
structure Result where
  outcome : Outcome
  sorted : Sorted
  /-- The states still in the queue. -/
  active : List State
  steps : Nat
  iterations : Nat
  stepper : StepStats
  solver : Solver
  deriving Inhabited

namespace Explorer

variable {σ : Type}

/-- Searches for states that `find` describes, leaving aside those that `avoid` does. Gives the
    result, the explorer as the search leaves it and the memory of the strategy; `none` if the
    search takes more than `fuel` rounds. -/
def explore (fuel : Nat) (x : Explorer) (find avoid : Predicate) (strategy : Strategy σ)
    (memory : σ) : Except Error (Option (Result × Explorer × σ)) := do
  Predicate.checkDisjoint find avoid
  let start : Progress σ := { session := x.session, active := x.active, memory }
  pure <| (Progress.runFor x.hooks x.config strategy find avoid fuel start).map fun (outcome, p) =>
    ({ outcome
       sorted := p.sorted
       active := p.active
       steps := p.steps
       iterations := p.iterations
       stepper := p.session.stats
       solver := p.session.solver },
     { x with session := p.session, active := p.active },
     p.memory)

end Explorer

namespace Result

/-- Whether a found state is kept, given the values seen before it: it is not if its observed
    expression can only have a value that was seen. -/
def keepDistinct (values : List Word) (seen : List Word) : Bool × List Word :=
  match values with
  | [pinned] => if seen.contains pinned then (false, seen) else (true, pinned :: seen)
  | _ => (true, seen)

/-- Up to two values of an expression. -/
def twoValues (e : Expr) (cs : Constraints) : ExceptT Error (StateM Solver) (List Word) := fun solver =>
  let (r, solver) := (Solver.evaluateMany e cs 2).run solver
  (r.mapError Error.solver, solver)

/-- For each state of a list, whether it is kept. -/
def distinctFlags (observe : State → Except Error Expr) :
    List State → (seen : List Word) → ExceptT Error (StateM Solver) (List Bool)
  | [], _ => pure []
  | s :: rest, seen => do
      let e ← observe s
      let values ← twoValues e s.constraints
      let (keep, seen) := keepDistinct values seen
      let flags ← distinctFlags observe rest seen
      pure (keep :: flags)

/-- For each found state, whether it is kept. -/
def foundFlags (observe : State → Except Error Expr) :
    ExceptT Error (StateM (Result × Solver)) (List Bool) := fun (r, solver) =>
  let (flags, solver) := (distinctFlags observe r.sorted.found []).run solver
  (flags, r, solver)

/-- The states that are kept of a list. One without a flag is. -/
def retain : List State → (flags : List Bool) → List State
  | s :: rest, keep :: flags => if keep then s :: retain rest flags else retain rest flags
  | states, _ => states

/-- The result with other found states. -/
def withFound (r : Result) (found : List State) : Result := { r with sorted := { r.sorted with found } }

/-- Drops found states that are pinned to a value to which an earlier one is pinned, and counts them. -/
def dedup (observe : State → Except Error Expr) : ExceptT Error (StateM (Result × Solver)) Nat := do
  let flags ← foundFlags observe
  let (r, solver) ← get
  let found := retain r.sorted.found flags
  set (r.withFound found, solver)
  pure (r.sorted.found.length - found.length)

/-- A value of an expression on the first found state. -/
def witness (r : Result) (e : Expr) : Ask Word :=
  match r.sorted.found with
  | s :: _ => Solver.evaluate e s.constraints
  | [] => throw .unsatisfiable

end Result

end PathSearch
