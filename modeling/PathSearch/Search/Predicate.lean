import PathSearch.State.Basic
import Std.Data.TreeSet

/-! # Targets of a search

Which states are looked for, and which are avoided.
-/

namespace PathSearch

/-- A condition on states. -/
inductive Predicate where
  | never
  /-- At one of the addresses. -/
  | addresses (set : Std.TreeSet Word)
  | custom (holds : State → Bool)

instance : Inhabited Predicate := ⟨.never⟩

namespace Predicate

/-- At one of the listed addresses. -/
def ofAddresses (list : List Word) : Predicate := .addresses (Std.TreeSet.ofList list)

/-- After at least so many steps. -/
def stepsAtLeast (n : Nat) : Predicate := .custom fun s => n ≤ s.steps

/-- Where a register holds a known number. -/
def registerIs (r : Register) (value : Word) : Predicate :=
  .custom fun s => (s.readRegister r).const? == some value

/-- In front of an instruction of one kind. -/
def atMnemonic (mnemonic : String) : Predicate := .custom fun s =>
  match s.memory.image.decode s.ip with
  | .ok i => i.opcode.mnemonic == mnemonic
  | .error _ => false

/-- Whether the condition holds on a state. -/
def accepts (p : Predicate) (s : State) : Bool :=
  match p with
  | .never => false
  | .addresses set => set.contains s.ip
  | .custom holds => holds s

/-- Refuses to look for and to avoid one address; the lowest such is named. -/
def checkDisjoint (find avoid : Predicate) : Except Error Unit :=
  match find, avoid with
  | .addresses f, .addresses a => match f.toList.find? (a.contains ·) with
    | some address => .error (.contradictoryPredicates address)
    | none => .ok ()
  | _, _ => .ok ()

/-- A predicate as diagnostics show it: addresses on lines of their own. -/
def describe : Predicate → String
  | .never => "Never"
  | .addresses set =>
      if set.isEmpty then "Addresses(\x7b\x7d)"
      else "Addresses(\x7b\n" ++
        String.join (set.toList.map fun a => "    " ++ Text.hex a.toNat ++ ",\n") ++ "\x7d)"
  | .custom _ => "Custom(..)"

end Predicate

end PathSearch
