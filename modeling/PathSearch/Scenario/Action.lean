import PathSearch.Scenario.Program
import PathSearch.Scenario.Recipe
import PathSearch.State.Session

/-! # Actions on states

What is done to prepare a state, or to stand for code that is not there. Expressions are given as
recipes and see the state as it is at that moment.
-/

namespace PathSearch

/-- A change to a state. -/
inductive Action where
  | register (name : String) (value : Recipe)
  | memory (address : Word) (value : Recipe)
  | constraint (condition : Recipe)
  | input (name : String) (value : Recipe)
  | symbolicRegister (r name : String)
  | symbolicMemory (address : Word) (length : Nat) (name : String)
  | symbolicStream (fd : Nat) (name : String) (length : Nat)
  | stream (fd : Nat) (bytes : List UInt8)
  | readStream (fd count : Nat)
  | goto (address : Word)
  /-- Goes on at the address in `lr`. -/
  | toCaller
  deriving Inhabited

/-- An expression that a state holds. -/
def State.held (e : Except Error Expr) : Placed.Build Placed := return ⟨← e, .held⟩

/-- The input recorded first under a name. -/
def State.inputNamed (s : State) (name : String) : Except Error Expr :=
  match s.input? name with
  | some e => .ok e
  | none => .error (.unknownLabel name)

/-- What recipes see of a state. -/
def State.scope (s : State) : Recipe.Scope where
  register name := held (s.readRegister <$> Register.named name)
  memory address size := held (s.readMemory address size)
  input name := held (s.inputNamed name)

namespace Action

/-- Reads an action: a keyword and what it needs. -/
def ofDatum (d : Datum) : Reading Action := do
  match ← d.command with
  | ("reg", [r, e]) => return .register (← r.string) (← Recipe.ofDatum e)
  | ("mem", [a, e]) => return .memory (← a.word) (← Recipe.ofDatum e)
  | ("constraint", [e]) => return .constraint (← Recipe.ofDatum e)
  | ("input", [name, e]) => return .input (← name.string) (← Recipe.ofDatum e)
  | ("symreg", [r, name]) => return .symbolicRegister (← r.string) (← name.string)
  | ("symmem", [a, n, name]) => return .symbolicMemory (← a.word) (← n.nat) (← name.string)
  | ("symstream", [fd, name, n]) => return .symbolicStream (← fd.nat) (← name.string) (← n.nat)
  | ("stream", [fd, bytes]) => return .stream (← fd.nat) (← bytes.bytes)
  | ("readstream", [fd, n]) => return .readStream (← fd.nat) (← n.nat)
  | ("ip", [a]) => return .goto (← a.word)
  | ("return", []) => return .toCaller
  | _ => Datum.malformed

/-- Reads a list of actions. -/
def listOfDatum (d : Datum) : Reading (List Action) := do (← d.items).mapM ofDatum

/-- Applies an action to a state. -/
def apply (s : State) : Action → Except Error State
  | .register name value => do
      let value ← value.expr s.scope
      pure (s.writeRegister (← Register.named name) value)
  | .memory address value => do s.writeMemory address (← value.expr s.scope)
  | .constraint condition => do s.addConstraint (← condition.expr s.scope)
  | .input name value => return s.recordInput name (← value.expr s.scope)
  | .symbolicRegister r name => return s.makeSymbolicRegister (← Register.named r) name
  | .symbolicMemory address length name => pure (s.makeSymbolicMemory address length name)
  | .symbolicStream fd name length => pure (s.addSymbolicStream fd name length)
  | .stream fd bytes => pure (s.addConcreteStream fd bytes)
  | .readStream fd count => return (← s.readStream fd count).2
  | .goto address => pure (s.setIp address)
  | .toCaller => return s.setIp (← s.concreteRegister .lr)

/-- Applies actions up to the first that fails, and gives the state before that one. -/
def applyAll (s : State) : List Action → State × Option Error
  | [] => (s, none)
  | a :: rest => match a.apply s with
    | .ok s => applyAll s rest
    | .error e => (s, some e)

/-- The state after all actions, or the failure of one. -/
def perform (s : State) (actions : List Action) : Except Error State :=
  match applyAll s actions with
  | (s, none) => .ok s
  | (_, some e) => .error e

/-- One fork for every list of actions, with the actions applied. -/
def alternatives (s : State) (choices : List (List Action)) : Fresh (List State) :=
  choices.mapM fun actions => do
    let fork ← s.forkFresh
    perform fork actions

end Action

end PathSearch
