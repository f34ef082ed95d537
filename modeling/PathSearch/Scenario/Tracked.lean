import PathSearch.Scenario.Action
import PathSearch.Search.Merge

/-! # States with tracked nodes

Expressions that a state holds share nodes, and reading them twice gives one node twice. A tracked
state knows the places of the nodes in its registers, its memory and its inputs, so an expression
built on it can tell a shared node from a second one of the same shape.
-/

namespace PathSearch

/-- A state together with the places of what it holds. -/
structure Tracked where
  state : State
  /-- The places of written registers, the latest first. -/
  registers : List (Register × Place) := []
  /-- The places of written bytes. -/
  memory : Std.TreeMap Word Place := ∅
  /-- The places of the recorded inputs, in their order. -/
  inputs : List Place := []
  deriving Inhabited

namespace Tracked

open Placed (Build)

/-- What a register holds. -/
def register (t : Tracked) (r : Register) : Placed :=
  ⟨t.state.readRegister r, (t.registers.lookup r).getD .held⟩

/-- The byte at an address. A byte that nobody wrote is made when it is read. -/
def byte (t : Tracked) (address : Word) : Build Placed :=
  match t.state.memory.written[address]? with
  | some e => pure ⟨e, t.memory.getD address .held⟩
  | none => Placed.make (t.state.memory.byte address) []

/-- The number that bytes form, the least significant first. -/
def join : List Placed → Build Placed
  | [] => throw (.invalidWidth 0)
  | [b] => pure b
  | b :: rest => do Placed.mkConcat (← join rest) b

/-- The number of `size` bytes at an address. -/
def readMemory (t : Tracked) (address : Word) (size : Nat) : Build Placed := do
  let _ ← t.state.readMemory address size
  join (← (List.range size).mapM fun i => t.byte (address + UInt64.ofNat i))

/-- Recorded inputs by their names. -/
def namedInputs (t : Tracked) : List (String × Placed) :=
  (t.state.inputs.zip t.inputs).map fun ((name, e), place) => (name, ⟨e, place⟩)

/-- What recipes see of a tracked state. -/
def scope (t : Tracked) : Recipe.Scope where
  register name := return t.register (← Register.named name)
  memory := t.readMemory
  input name := match t.namedInputs.lookup name with
    | some p => pure p
    | none => throw (.unknownLabel name)

/-- A new variable for a byte. -/
def byteVariable (name : String) (i : Nat) : Build Placed :=
  Placed.make (.var (Stream.byteName name i) 8) []

/-- Takes up the places of bytes put at consecutive addresses. -/
def putPlaces (memory : Std.TreeMap Word Place) (address : Word) : List Place → Std.TreeMap Word Place
  | [] => memory
  | p :: rest => putPlaces (memory.insert address p) (address + 1) rest

/-- Takes up the places of a number written to memory. -/
def placeBytes (t : Tracked) (address : Word) (value : Placed) : Build Tracked := do
  let bytes ← (List.range (value.expr.width / 8)).mapM fun i =>
    Placed.mkExtract (8 * i + 7) (8 * i) value
  pure { t with memory := putPlaces t.memory address (bytes.map (·.place)) }

/-- A value as a register holds it. -/
def widen (value : Placed) : Build Placed :=
  if value.expr.width < 64 then Placed.mkZext value 64 else pure value

/-- Takes up the places of what an action puts into a state. -/
def place (t : Tracked) : Action → Build Tracked
  | .register name value => do
      let value ← value.build t.scope
      let r ← Register.named name
      let value ← widen value
      pure { t with registers := (r, value.place) :: t.registers }
  | .memory address value => do t.placeBytes address (← value.build t.scope)
  | .input _ value => do
      let value ← value.build t.scope
      pure { t with inputs := t.inputs ++ [value.place] }
  | .symbolicRegister r name => do
      let r ← Register.named r
      let v ← Placed.make (.var name 64) []
      pure { t with registers := (r, v.place) :: t.registers, inputs := t.inputs ++ [v.place] }
  | .symbolicMemory address length name => do
      let places := (← (List.range length).mapM (byteVariable name)).map (·.place)
      pure { t with
        memory := putPlaces t.memory address places
        inputs := t.inputs ++ places }
  | .symbolicStream _ name length => do
      let vs ← (List.range length).mapM (byteVariable name)
      pure { t with inputs := t.inputs ++ vs.map (·.place) }
  | .constraint _ | .stream .. | .readStream .. | .goto _ | .toCaller => pure t

/-- Applies an action. -/
def apply (t : Tracked) (a : Action) : Build Tracked := do
  let state ← a.apply t.state
  let placed ← t.place a
  pure { placed with state }

/-- Applies actions up to the first that fails. Gives the state before that one, and the number of
    the next building step. -/
def applyAll (t : Tracked) (step : Nat) : List Action → Tracked × Nat × Option Error
  | [] => (t, step, none)
  | a :: rest => match (t.apply a).run step with
    | .ok (t, step) => applyAll t step rest
    | .error e => (t, step, some e)

/-- The value of the selected state, each value with its guard; the last needs none. -/
def select : List (Placed × Placed) → Build Placed
  | [] => throw (.mergeIncompatible "no values to select")
  | [(_, value)] => pure value
  | (guard, value) :: rest => do
      let merged ← select rest
      if value.expr = merged.expr then pure merged else Placed.mkIte guard value merged

/-- The conditions that select each of `count` states. -/
def guards (selector : String) (count : Nat) : Build (List Placed) := do
  let width := Merge.selectorWidth count
  let sel ← Placed.leaf (Expr.mkVar selector width)
  (List.range count).mapM fun i => do
    Placed.mkBinary .eq sel (← Placed.leaf (Expr.mkConst (UInt64.ofNat i) width))

/-- Adds the place of an input with a new name. -/
def addInput (known : List (String × Place)) (input : String × Placed) : List (String × Place) :=
  if known.any (·.1 == input.1) then known else known ++ [(input.1, input.2.place)]

/-- The places of the inputs of all states, the first of each name. -/
def mergedInputs (ts : List Tracked) : List (String × Place) :=
  match ts with
  | [] => []
  | first :: others =>
      let own := first.namedInputs.map fun input => (input.1, input.2.place)
      others.foldl (fun known t => t.namedInputs.foldl addInput known) own

/-- Takes up the places of a state that several were merged into. -/
def placeMerged (ts : List Tracked) (merged : State) (selector : String) : Build Tracked := do
  match ts with
  | [t] => pure { t with state := merged }
  | _ => do
      let gs ← guards selector ts.length
      let registers ← Register.all.mapM fun r => do
        return (r, (← select (gs.zip (ts.map (·.register r)))).place)
      let memory ← (Merge.writtenAddresses (ts.map (·.state))).foldlM (fun m a => do
        return m.insert a (← select (gs.zip (← ts.mapM (·.byte a)))).place)
        (∅ : Std.TreeMap Word Place)
      pure { state := merged, registers, memory, inputs := (mergedInputs ts).map (·.2) }

end Tracked

end PathSearch
