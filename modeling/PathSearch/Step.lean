import PathSearch.Hook

/-! # One step of a state

A step executes the instruction, or the hook, at the address of a state. It gives the states that
follow: one for each way that the step can go, as far as some input takes it.
-/

namespace PathSearch

/-- A state after a step. -/
inductive Successor where
  | active (s : State)
  /-- The program halted. -/
  | exited (s : State)
  | errored (s : State) (reason : Reason)
  deriving Inhabited

def Successor.state : Successor → State
  | .active s | .exited s | .errored s _ => s

def Successor.isErrored : Successor → Bool
  | .errored .. => true
  | _ => false

def Successor.isActive : Successor → Bool
  | .active _ => true
  | _ => false

/-- What a step gives. -/
structure StepResult where
  successors : List Successor := []
  /-- The number of ways that no input takes. -/
  pruned : Nat := 0
  /-- Whether a hook was applied. -/
  hooked : Bool := false
  deriving Inhabited

namespace StepResult

/-- One successor and nothing else. -/
def single (s : Successor) : StepResult := { successors := [s] }

/-- States that are known to be feasible. None at all is a path that no input takes. -/
def ofStates (states : List State) : StepResult :=
  { successors := states.map .active, pruned := if states.isEmpty then 1 else 0 }

/-- One result after another. -/
def append (a b : StepResult) : StepResult where
  successors := a.successors ++ b.successors
  pruned := a.pruned + b.pruned
  hooked := a.hooked || b.hooked

/-- The successors that can be stepped again. -/
def active (r : StepResult) : List State :=
  r.successors.filterMap fun
    | .active s => some s
    | _ => none

end StepResult

namespace State

/-- The value of an operand. -/
def operand (s : State) : Operand → Expr
  | .reg r => s.readRegister r
  | .imm v => Expr.word v

/-- The address at a displacement from a base. -/
def effectiveAddress (s : State) (base : Operand) (offset : Int32) : Except Error Expr :=
  Expr.mkBinary .add (s.operand base) (Expr.word (Word.ofSigned offset.toInt))

end State

namespace Step

/-- A successor if its constraints are satisfiable; an undecided question is an error of the
    state. -/
def ifFeasible (s : State) : StateM Session StepResult := do
  match ← Session.ask (Solver.isSatisfiable s.constraints) with
  | .ok true => pure (.single (.active s))
  | .ok false => pure { pruned := 1 }
  | .error e => match Reason.ofSolver? e with
    | some reason => pure (.single (.errored s reason))
    | none => pure { pruned := 1 }

/-- Goes on at a target that may have several values. -/
def transfer (s : State) (target : Expr) (cap : Nat) : Attempt StepResult := do
  match target.const? with
  | some address => pure (.single (.active (s.setIp address)))
  | none =>
      let candidates ← s.resolveAddress target cap
      pure (.ofStates (candidates.map fun (t, address) => t.setIp address))

/-- One side of a branch: a fork on which the assumption holds. -/
def side (s : State) (assumption : Expr) (target : Word) : Attempt StepResult := do
  let fork ← Session.orFault (← Session.fresh s.forkFresh)
  let fork ← Session.orFault (fork.addConstraint assumption)
  ifFeasible (fork.setIp target)

/-- Goes on at the first address where a condition holds, at the second where it does not. -/
def branch (s : State) (condition : Expr) (taken next : Word) : Attempt StepResult := do
  match condition.const? with
  | some value => pure (.single (.active (s.setIp (if value = 1 then taken else next))))
  | none =>
      let negated ← Session.orFault condition.lnot
      let yes ← side s condition taken
      let no ← side s negated next
      pure (yes.append no)

/-- Puts a value into a register and goes on. -/
def assign (s : State) (dst : Register) (value : Except Error Expr) (next : Word) :
    Attempt StepResult := do
  let value ← Session.orFault value
  pure (.single (.active ((s.writeRegister dst value).setIp next)))

/-- Executes an instruction. -/
def execute (s : State) (i : Instruction) (cap : Nat) : Attempt StepResult := do
  let next := i.fallthrough
  match i.opcode with
  | .nop => pure (.single (.active (s.setIp next)))
  | .mov dst src => assign s dst (.ok (s.operand src)) next
  | .alu op dst lhs rhs =>
      assign s dst (Expr.mkBinary op.toOp (s.readRegister lhs) (s.operand rhs)) next
  | .not dst src => assign s dst (Expr.mkUnary .not (s.readRegister src)) next
  | .neg dst src => assign s dst (Expr.mkUnary .neg (s.readRegister src)) next
  | .set cond dst lhs rhs =>
      assign s dst (Expr.mkBinary cond.toOp (s.readRegister lhs) (s.operand rhs)) next
  | .load dst base offset size => do
      let address ← Session.orFault (s.effectiveAddress base offset)
      let loaded ← s.readResolved address size.toNat cap
      pure (.ofStates (loaded.map fun (t, value) => (t.writeRegister dst value).setIp next))
  | .store src base offset size => do
      let address ← Session.orFault (s.effectiveAddress base offset)
      let value ← Session.orFault <|
        if size < 8 then Expr.mkExtract (size.toNat * 8 - 1) 0 (s.operand src)
        else .ok (s.operand src)
      let stored ← s.writeResolved address value cap
      pure (.ofStates (stored.map fun t => t.setIp next))
  | .jump target => transfer s (s.operand target) cap
  | .branch cond lhs rhs target => do
      let condition ← Session.orFault
        (Expr.mkBinary cond.toOp (s.readRegister lhs) (s.operand rhs))
      branch s condition target next
  | .call target => transfer (s.writeRegister .lr (Expr.word next)) (s.operand target) cap
  | .ret => transfer s (s.readRegister .lr) cap
  | .halt => pure (.single (.exited s))

/-- Takes up a result in the counts. -/
def account (r : StepResult) (stats : StepStats) : StepStats :=
  { stats with
    errors := stats.errors + r.successors.countP (·.isErrored)
    infeasible := stats.infeasible + r.pruned
    forks := stats.forks + (r.successors.length - 1) }

/-- Counts something. -/
def count (f : StepStats → StepStats) : StateM Session Unit :=
  modify fun s => { s with stats := f s.stats }

/-- Admits the states that a hook gave. A state with the constraints of the one that arrived needs
    no check. -/
def feasibleOf (arrived : Digest) (states : List State) : StateM Session StepResult :=
  states.foldlM (fun r s => do
    if s.constraints.digest = arrived then pure (r.append (.single (.active s)))
    else return r.append (← ifFeasible s)) {}

/-- Applies a hook. Where it fails, the state that arrived is kept as it was. -/
def applyHook (h : Hook) (s : State) : StateM Session StepResult := do
  count fun c => { c with hooks := c.hooks + 1 }
  let r ← match ← Session.fresh (h.apply s) with
    | .ok states => feasibleOf s.constraints.digest states
    | .error e => pure (.single (.errored s (.hookFailure h.name e.message)))
  count (account r)
  pure { r with hooked := true }

/-- Executes what stands at the address of a state. Where that fails, the state is kept as it was,
    with the step counted. -/
def step (hooks : HookTable) (cap : Nat) (s : State) : StateM Session StepResult := do
  let s := s.recordStep
  match hooks.lookup? s.ip with
  | some h => applyHook h s
  | none => match s.memory.image.decode s.ip with
    | .error e => do
        count fun c => { c with errors := c.errors + 1 }
        pure (.single (.errored s (.ofDecode e)))
    | .ok i => do
        count fun c => { c with instructions := c.instructions + 1 }
        let r ← match ← (execute s i cap).run with
          | .ok r => pure r
          | .error reason => pure (.single (.errored s reason))
        count (account r)
        pure r

end Step

end PathSearch
