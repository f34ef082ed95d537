import PathSearch.State.Session
import PathSearch.Text.Quoted

/-! # Hooks

A hook stands for the code at an address. When a state arrives there, the hook's summary is applied
in place of an instruction and gives the states that go on.
-/

namespace PathSearch

/-- What a hook does with the state that arrives. -/
inductive Summary where
  /-- Puts a number into `r0` and returns. -/
  | returnValue (value : Word)
  /-- Puts a new variable, named for the hook and the step, into `r0` and returns. -/
  | returnSymbolic
  /-- Ends the path. -/
  | abort
  /-- Returns. -/
  | skip
  /-- Copies up to `r2` bytes of a stream to the address in `r1`, puts their number into `r0` and
      returns. A stream that is not open has no bytes. -/
  | readStream (fd : Nat)
  | custom (run : State → Fresh (List State))

instance : Inhabited Summary := ⟨.skip⟩

namespace Summary

/-- Goes on at the address in `lr`. -/
def returnToCaller (s : State) : Except Error State :=
  return s.setIp (← s.concreteRegister .lr)

/-- The name of the variable that a hook returns. -/
def resultName (hook : String) (s : State) : String := hook ++ "@" ++ toString s.steps

/-- Copies bytes of a stream and returns their number. -/
def copyStream (fd : Nat) (s : State) : Except Error State := do
  let buffer ← s.concreteRegister .r1
  let length ← s.concreteRegister .r2
  let (bytes, s) ← match s.streams[fd]? with
    | some _ => s.readStream fd length.toNat
    | none => pure ([], s)
  let s := { s with memory := s.memory.putAll buffer bytes }
  returnToCaller (s.writeRegister .r0 (Expr.word (UInt64.ofNat bytes.length)))

/-- Applies a summary under the name of its hook. -/
def apply (hook : String) (s : State) : Summary → Fresh (List State)
  | .returnValue v => return [← returnToCaller (s.writeRegister .r0 (Expr.word v))]
  | .returnSymbolic => do
      let name := resultName hook s
      let s := (s.writeRegister .r0 (.var name 64)).recordInput name (.var name 64)
      return [← returnToCaller s]
  | .abort => return []
  | .skip => return [← returnToCaller s]
  | .readStream fd => return [← copyStream fd s]
  | .custom run => run s

end Summary

/-- A summary with its name and address. -/
structure Hook where
  name : String
  address : Word
  summary : Summary
  deriving Inhabited

namespace Hook

def apply (h : Hook) (s : State) : Fresh (List State) := h.summary.apply h.name s

/-- A hook as diagnostics show it. -/
def describe (h : Hook) : String :=
  "Hook \x7b name: " ++ Text.quoted h.name ++ ", address: " ++ Text.hex h.address.toNat ++ ", .. \x7d"

end Hook

/-- Hooks by their address, one for each. -/
structure HookTable where
  hooks : Std.TreeMap Word Hook := ∅
  deriving Inhabited

namespace HookTable

def lookup? (t : HookTable) (address : Word) : Option Hook := t.hooks[address]?

/-- Adds a hook, in place of one at the same address. -/
def insert (t : HookTable) (h : Hook) : HookTable := ⟨t.hooks.insert h.address h⟩

/-- Adds a summary under a name made from its address. -/
def register (t : HookTable) (address : Word) (summary : Summary) : HookTable :=
  t.insert ⟨"hook_" ++ Text.hex address.toNat, address, summary⟩

def remove (t : HookTable) (address : Word) : HookTable := ⟨t.hooks.erase address⟩

def contains (t : HookTable) (address : Word) : Bool := t.hooks.contains address

def size (t : HookTable) : Nat := t.hooks.size

/-- The hooks in the order of their addresses. -/
def toList (t : HookTable) : List Hook := t.hooks.values

end HookTable

end PathSearch
