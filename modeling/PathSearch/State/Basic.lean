import PathSearch.Expr.Printer
import PathSearch.State.Constraints
import PathSearch.State.History
import PathSearch.State.Memory
import PathSearch.State.Registers
import PathSearch.State.Stream

/-! # The state of one path

What the machine holds after some instructions, as expressions over the inputs, together with the
constraints under which the path is taken.
-/

namespace PathSearch

/-- A symbolic state of the machine. -/
structure State where
  id : Nat
  /-- The state that this one was forked from. -/
  parent : Option Nat := none
  /-- The address of the next instruction. -/
  ip : Word
  /-- The number of instructions and hooks executed. -/
  steps : Nat := 0
  registers : Registers := {}
  memory : Memory
  constraints : Constraints := {}
  /-- Open streams by their number. -/
  streams : Std.TreeMap Nat Stream := ∅
  /-- Recorded inputs, oldest first. -/
  inputs : List (String × Expr) := []
  history : History := {}
  deriving Inhabited

namespace State

/-- A state at the entry of an image. -/
def start (image : Program) (uninitialized : Uninitialized) (id : Nat) : State where
  id
  ip := image.entry
  memory := { image, uninitialized }

/-- A copy with an identity of its own. -/
def fork (s : State) (id : Nat) : State := { s with id, parent := some s.id }

/-- Counts one more step, at the current address. -/
def recordStep (s : State) : State :=
  { s with steps := s.steps + 1, history := s.history.record s.ip }

def readRegister (s : State) (r : Register) : Expr := s.registers.get r

def writeRegister (s : State) (r : Register) (value : Expr) : State :=
  { s with registers := s.registers.set r value }

/-- The number that a register holds. -/
def concreteRegister (s : State) (r : Register) : Except Error Word :=
  match (s.readRegister r).const? with
  | some v => .ok v
  | none => .error (.symbolicValue "register" (s.readRegister r).text)

def readMemory (s : State) (address : Word) (size : Nat) : Except Error Expr :=
  s.memory.read address size

def writeMemory (s : State) (address : Word) (value : Expr) : Except Error State :=
  return { s with memory := ← s.memory.write address value }

def addConstraint (s : State) (c : Expr) : Except Error State :=
  return { s with constraints := ← s.constraints.push c }

/-- Keeps an expression under a name. -/
def recordInput (s : State) (name : String) (value : Expr) : State :=
  { s with inputs := s.inputs ++ [(name, value)] }

/-- The expression recorded first under a name. -/
def input? (s : State) (name : String) : Option Expr := s.inputs.lookup name

/-- Puts a new variable into a register. -/
def makeSymbolicRegister (s : State) (r : Register) (name : String) : State :=
  (s.writeRegister r (.var name 64)).recordInput name (.var name 64)

/-- Puts new variables into consecutive bytes. -/
def makeSymbolicMemory (s : State) (address : Word) (length : Nat) (name : String) : State :=
  let bytes := (List.range length).map fun i =>
    (Stream.byteName name i, Expr.var (Stream.byteName name i) 8)
  { s with
    memory := s.memory.putAll address (bytes.map (·.2))
    inputs := s.inputs ++ bytes }

/-- Opens a stream of new variables. -/
def addSymbolicStream (s : State) (fd : Nat) (name : String) (length : Nat) : State :=
  let stream := Stream.symbolic name length
  { s with
    inputs := s.inputs ++ (List.range length).map fun i =>
      (Stream.byteName name i, Expr.var (Stream.byteName name i) 8)
    streams := s.streams.insert fd stream }

/-- Opens a stream of known bytes. -/
def addConcreteStream (s : State) (fd : Nat) (bytes : List UInt8) : State :=
  { s with streams := s.streams.insert fd (Stream.concrete bytes) }

/-- Reads from an open stream. -/
def readStream (s : State) (fd n : Nat) : Except Error (List Expr × State) :=
  match s.streams[fd]? with
  | some stream =>
      let (bytes, rest) := stream.read n
      .ok (bytes, { s with streams := s.streams.insert fd rest })
  | none => .error (.hook ("no stream open on fd " ++ toString fd))

def setIp (s : State) (address : Word) : State := { s with ip := address }

end State

end PathSearch
