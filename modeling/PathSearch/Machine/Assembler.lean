import PathSearch.Machine.Program

/-! # The assembler

Statements are laid out one after the other from a base address. Jumps, calls and branches may name
labels, which can be defined before or after they are used.
-/

namespace PathSearch

/-- What can stand in the code of an assembled program. -/
inductive Statement where
  | op (opcode : Opcode)
  | jumpTo (label : String)
  | callTo (label : String)
  | branchTo (cond : CmpOp) (lhs : Register) (rhs : Operand) (label : String)
  | raw (bytes : List UInt8)
  deriving Repr, DecidableEq, Inhabited

namespace Statement

/-- The label that a statement refers to. -/
def label? : Statement → Option String
  | .jumpTo l | .callTo l | .branchTo _ _ _ l => some l
  | .op _ | .raw _ => none

/-- The instruction of a statement whose label stands at `target`. -/
def opcode? (target : Word) : Statement → Option Opcode
  | .op o => some o
  | .jumpTo _ => some (.jump (.imm target))
  | .callTo _ => some (.call (.imm target))
  | .branchTo c l r _ => some (.branch c l r target)
  | .raw _ => none

/-- The bytes of a statement whose label stands at `target`. -/
def bytes (target : Word) : Statement → List UInt8
  | .raw bs => bs
  | s => ((s.opcode? target).map Opcode.encode).getD []

/-- The number of bytes of a statement, which does not depend on where its label stands. -/
def size (s : Statement) : Nat := (s.bytes 0).length

end Statement

/-- An unfinished program. -/
structure Assembler where
  base : Word
  /-- The address of the next statement. -/
  position : Word := base
  /-- Statements with their addresses, the latest first. -/
  statements : List (Word × Statement) := []
  /-- Labels with their addresses, the latest first. -/
  labels : List (String × Word) := []
  /-- Data regions, the latest first. -/
  data : List (Word × List UInt8) := []
  entry : Option String := none
  deriving Repr, Inhabited

namespace Assembler

/-- An assembler without statements. -/
def new (base : Word) : Assembler := { base }

/-- The address of a label. -/
def labelAddress? (a : Assembler) (name : String) : Option Word := a.labels.lookup name

/-- Gives the next statement a name that is not in use. -/
def label (a : Assembler) (name : String) : Except Error Assembler :=
  match a.labelAddress? name with
  | some _ => .error (.duplicateLabel name)
  | none => .ok { a with labels := (name, a.position) :: a.labels }

/-- Appends a statement. -/
def emit (a : Assembler) (s : Statement) : Assembler :=
  { a with
    position := a.position + UInt64.ofNat s.size
    statements := (a.position, s) :: a.statements }

/-- Sets the label at which the program starts. -/
def setEntry (a : Assembler) (label : String) : Assembler := { a with entry := some label }

/-- Adds a data region. -/
def addData (a : Assembler) (base : Word) (bytes : List UInt8) : Assembler :=
  { a with data := (base, bytes) :: a.data }

/-- The address of a label that is needed. -/
def resolve (a : Assembler) (name : String) : Except Error Word :=
  match a.labelAddress? name with
  | some address => .ok address
  | none => .error (.unknownLabel name)

/-- The bytes of one statement: its label has to be defined and its access size to be possible. -/
def encodeStatement (a : Assembler) (address : Word) (s : Statement) :
    Except Error (List UInt8) := do
  let target ← match s.label? with
    | some name => a.resolve name
    | none => pure 0
  match (s.opcode? target).bind Opcode.accessSize? with
  | some size =>
      if size ∈ Opcode.accessSizes then pure (s.bytes target)
      else .error (.decode ⟨address, .invalidSize size⟩)
  | none => pure (s.bytes target)

/-- The bytes of all statements, up to the first that cannot be encoded. -/
def encodeAll (a : Assembler) : Except Error (List UInt8) := do
  let parts ← a.statements.reverse.mapM fun (address, s) => a.encodeStatement address s
  pure parts.flatten

/-- The finished program: code, entry, data regions in the order in which they were added, and the
    labels as symbols. -/
def finish (a : Assembler) : Except Error Program := do
  let code ← a.encodeAll
  let entry ← match a.entry with
    | some name => a.resolve name
    | none => pure a.base
  let program ← Program.withCode { entry } a.base code
  let program ← a.data.reverse.foldlM (fun p (base, bytes) => p.withData base bytes) program
  pure (a.labels.foldl (fun p (name, address) => p.addSymbol name address) program)

end Assembler

end PathSearch
