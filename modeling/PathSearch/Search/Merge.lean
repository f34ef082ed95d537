import PathSearch.State.Session

/-! # Merging states

States at one address become one state. A new variable selects which of them it stands for: every
register and byte is a choice by that variable, and the constraints say that those of the selected
state hold.
-/

namespace PathSearch.Merge

/-- The number of bits that tell `count` states apart. -/
def selectorWidth (count : Nat) : Nat := if count ≤ 2 then 1 else (count - 1).log2 + 1

/-- The value of the selected state, as a chain of choices in which equal values are passed over;
    each value comes with its guard, and the last needs none. -/
def select : List (Expr × Expr) → Except Error Expr
  | [] => .error (.mergeIncompatible "no values to select")
  | [(_, value)] => .ok value
  | (guard, value) :: rest => do
      let merged ← select rest
      if value = merged then pure merged else Expr.mkIte guard value merged

/-- Refuses a state that stands elsewhere than the first or has other streams. -/
def checkCompatible (first other : State) : Except Error Unit :=
  if other.ip ≠ first.ip then
    .error (.mergeIncompatible ("instruction pointers differ: " ++ Text.hex first.ip.toNat ++
      " and " ++ Text.hex other.ip.toNat))
  else if first.streams.toList ≠ other.streams.toList then
    .error (.mergeIncompatible ("states " ++ toString first.id ++ " and " ++ toString other.id ++
      " have different input streams"))
  else .ok ()

/-- The conditions that select each of `count` states. -/
def guards (selector : String) (count : Nat) : Except Error (List Expr) := do
  let width := selectorWidth count
  let sel ← Expr.mkVar selector width
  (List.range count).mapM fun i => do sel.equals (← Expr.mkConst (UInt64.ofNat i) width)

/-- The guard of a state together with its own constraints. -/
def conjunction (guard : Expr) (constraints : List Expr) : Except Error Expr :=
  constraints.foldlM Expr.land guard

/-- The disjunction of conditions. -/
def disjunction : List Expr → Except Error (Option Expr)
  | [] => .ok none
  | c :: rest => return some (← rest.foldlM Expr.lor c)

/-- The constraints that all states have in common at their start, and then that the constraints of
    the selected state hold. -/
def constraints (first : State) (others : List State) (gs : List Expr) :
    Except Error Constraints := do
  let shared := (others.map fun s => first.constraints.commonPrefix s.constraints).min?.getD 0
  let common ← Constraints.ofList (first.constraints.items.take shared)
  let sides ← ((first :: others).zip gs).mapM fun (s, g) =>
    conjunction g (s.constraints.suffix shared)
  match ← disjunction sides with
  | some d => common.push d
  | none => pure common

/-- The registers of the selected state. -/
def registers (states : List State) (gs : List Expr) : Except Error Registers :=
  Register.all.foldlM (fun rs r => do
    pure (rs.set r (← select (gs.zip (states.map (·.readRegister r)))))) {}

/-- The inputs of all states, the first of each name. -/
def inputs (states : List State) : List (String × Expr) :=
  match states with
  | [] => []
  | first :: others => others.foldl (fun known s =>
      s.inputs.foldl (fun known (name, value) =>
        if known.any (·.1 == name) then known else known ++ [(name, value)]) known) first.inputs

/-- The addresses that some state wrote, ascending. -/
def writtenAddresses (states : List State) : List Word :=
  (states.foldl (fun set s => s.memory.written.foldl (fun set a _ => set.insert a ()) set)
    (∅ : Std.TreeMap Word Unit)).keys

/-- The memory of the selected state. -/
def memory (base : Memory) (states : List State) (gs : List Expr) : Except Error Memory :=
  (writtenAddresses states).foldlM (fun m a => do
    m.writeByte a (← select (gs.zip (states.map (·.memory.byte a))))) base

/-- One state for several, told apart by a variable with the given name. A single state stays as it
    is. -/
def merge (states : List State) (selector : String) : Fresh State := do
  match states with
  | [] => throw (.mergeIncompatible "no states to merge")
  | [s] => pure s
  | first :: others => do
      others.forM fun s => liftExcept (checkCompatible first s)
      let gs ← guards selector states.length
      let constraints ← constraints first others gs
      let registers ← registers states gs
      let merged ← first.forkFresh
      let memory ← memory merged.memory states gs
      pure { merged with
        steps := states.foldl (fun n s => max n s.steps) 0
        registers, constraints, memory
        inputs := inputs states }
where
  liftExcept {α : Type} (r : Except Error α) : Fresh α := r

end PathSearch.Merge
