import PathSearch.Text.Hex
import PathSearch.Word

/-! # What can go wrong

Misuse of the library and direct queries fail with an `Error`. A failure on one path of a search
is a `Reason`: it is kept with the state it concerns and the search goes on. Each cause is a
constructor, and its wording is in one place, `message`.
-/

namespace PathSearch

/-- Why bytes are not an instruction. -/
inductive DecodeFault where
  /-- The address lies in no executable region. -/
  | outsideCode
  | unknownOpcode (byte : UInt8)
  | invalidRegister (byte : UInt8)
  | invalidOperator (byte : UInt8)
  /-- The tag that tells registers from immediates is neither. -/
  | invalidOperand (tag : UInt8)
  /-- An access of a number of bytes other than 1, 2, 4 or 8. -/
  | invalidSize (size : UInt8)
  /-- The bytes end inside the instruction. -/
  | truncated
  deriving Repr, DecidableEq, Inhabited

/-- A decoding fault and the address of the instruction it concerns. -/
structure DecodeError where
  address : Word
  fault : DecodeFault
  deriving Repr, DecidableEq, Inhabited

/-- The wording of a decoding fault. -/
def DecodeError.message (e : DecodeError) : String :=
  let place := Text.hex e.address.toNat
  match e.fault with
  | .outsideCode => "Address " ++ place ++ " is outside any code region"
  | .unknownOpcode b => "Unknown opcode 0x" ++ Text.hexDigits 2 b.toNat ++ " at " ++ place
  | .invalidRegister b => "Invalid register index " ++ toString b.toNat ++ " at " ++ place
  | .invalidOperator b => "Invalid operator " ++ toString b.toNat ++ " at " ++ place
  | .invalidOperand t => "Invalid operand tag " ++ toString t.toNat ++ " at " ++ place
  | .invalidSize s => "Invalid access size " ++ toString s.toNat ++ " at " ++ place
  | .truncated => "Truncated instruction at " ++ place

/-- Why a query has no answer. -/
inductive SolverError where
  /-- The query asked for a value, and no assignment satisfies the constraints. -/
  | unsatisfiable
  | timeout (milliseconds : Nat)
  | unknown (reason : String)
  deriving Repr, DecidableEq, Inhabited

/-- The wording of a query failure. -/
def SolverError.message : SolverError → String
  | .unsatisfiable => "Constraint set is unsatisfiable"
  | .timeout ms => "Solver timed out after " ++ toString ms ++ " ms"
  | .unknown reason => "Solver returned unknown: " ++ reason

/-- Why a request to the library is refused. -/
inductive Error where
  | invalidConfig (text : String)
  /-- One address is both looked for and avoided. -/
  | contradictoryPredicates (address : Word)
  /-- A width outside 1 to 64 bits. -/
  | invalidWidth (width : Nat)
  /-- An operation was given an operand of the wrong width. -/
  | widthMismatch (operation : String) (expected found : Nat)
  /-- A constant was needed and the expression is none. -/
  | symbolicValue (what expr : String)
  | decode (error : DecodeError)
  /-- A byte cursor would pass the end of its data. -/
  | outOfBounds
  | unknownLabel (label : String)
  | duplicateLabel (label : String)
  | unknownRegister (name : String)
  | solver (error : SolverError)
  | mergeIncompatible (text : String)
  /-- A hook rejected the state it was given. -/
  | hook (text : String)
  /-- A number left the range in which it is counted. This is no refusal: where counts are checked, the
      program stops at that point. It is a cause here so that one can say when that happens. -/
  | overflow
  deriving Repr, DecidableEq, Inhabited

/-- The wording of an error. -/
def Error.message : Error → String
  | .invalidConfig text => "Invalid configuration: " ++ text
  | .contradictoryPredicates a =>
      "Address " ++ Text.hex a.toNat ++ " is both a find and an avoid target"
  | .invalidWidth w => "Invalid bit-width " ++ toString w ++ ", expected 1..=64"
  | .widthMismatch operation expected found =>
      "Width mismatch in '" ++ operation ++ "': expected " ++ toString expected ++
        " bits, found " ++ toString found ++ " bits"
  | .symbolicValue what expr =>
      "Expected a concrete value for " ++ what ++ ", found symbolic expression " ++ expr
  | .decode e => e.message
  | .outOfBounds => "Out of Bound read would have occurred!"
  | .unknownLabel label => "Unknown label '" ++ label ++ "'"
  | .duplicateLabel label => "Duplicate label '" ++ label ++ "'"
  | .unknownRegister name => "Unknown register '" ++ name ++ "'"
  | .solver e => e.message
  | .mergeIncompatible text => "Cannot merge states: " ++ text
  | .hook text => "Hook error: " ++ text
  | .overflow => "attempt to count past the largest number"

/-- Why one state of a search could not go on. -/
inductive Reason where
  | decodeFailure (error : DecodeError)
  | invalidInstructionPointer (address : Word)
  /-- An address or target has more feasible values than are followed. -/
  | unconstrainedMemoryAccess (address : String) (cap : Nat)
  | solverTimeout
  | solverUnknown (reason : String)
  | hookFailure (hook text : String)
  /-- An instruction could not be applied. -/
  | executionFault (text : String)
  deriving Repr, DecidableEq, Inhabited

namespace Reason

/-- The wording of a reason. -/
def message : Reason → String
  | .decodeFailure e => "Decode failure: " ++ e.message
  | .invalidInstructionPointer a =>
      "Instruction pointer " ++ Text.hex a.toNat ++ " is outside any code region"
  | .unconstrainedMemoryAccess address cap =>
      "Symbolic address " ++ address ++ " has more than " ++ toString cap ++ " feasible values"
  | .solverTimeout => "Solver timed out"
  | .solverUnknown reason => "Solver returned unknown: " ++ reason
  | .hookFailure hook text => "Hook '" ++ hook ++ "' failed: " ++ text
  | .executionFault text => "Execution fault: " ++ text

/-- A query failure as a reason; an unsatisfiable path is dropped and has none. -/
def ofSolver? : SolverError → Option Reason
  | .unsatisfiable => none
  | .timeout _ => some .solverTimeout
  | .unknown reason => some (.solverUnknown reason)

/-- A decoding fault as a reason. -/
def ofDecode (e : DecodeError) : Reason :=
  match e.fault with
  | .outsideCode => .invalidInstructionPointer e.address
  | _ => .decodeFailure e

end Reason

end PathSearch
