import PathSearch.Op

/-! # Bit-vector scripts

What a decision procedure is asked: lines that define bit-vectors from constants, variables and
earlier lines, and demands on some of the lines. The meaning of a line is the bit-vector operation
of the SMT-LIB standard, so a script stands on its own and says nothing of where it came from.
-/

namespace PathSearch.Smt

/-- A bit-vector of some width. -/
structure Bits where
  width : Nat
  value : BitVec width
  deriving Repr, DecidableEq

instance : Inhabited Bits := ⟨⟨1, 0⟩⟩

/-- A bit-vector from a number, cut to the width. -/
def Bits.ofNat (width n : Nat) : Bits := ⟨width, BitVec.ofNat width n⟩

/-- One bit. -/
def Bits.ofBool (b : Bool) : Bits := ⟨1, BitVec.ofBool b⟩

/-- The definition of one bit-vector. Operands are numbers of earlier lines. -/
inductive Line where
  | const (width value : Nat)
  | var (name : String) (width : Nat)
  | unary (op : Op) (x : Nat)
  | binary (op : Op) (l r : Nat)
  | ite (c y n : Nat)
  | extract (high low x : Nat)
  | zext (x width : Nat)
  | sext (x width : Nat)
  | concat (h l : Nat)
  deriving Repr, DecidableEq, Inhabited

/-- A unary operation on a bit-vector; a binary operator leaves it as it is. -/
def unaryBits (op : Op) {w : Nat} (a : BitVec w) : BitVec w :=
  match op with
  | .neg => -a
  | .not => ~~~a
  | _ => a

/-- A binary operation on bit-vectors of one width; a unary operator gives the left one. -/
def binaryBits (op : Op) {w : Nat} (a b : BitVec w) : Bits :=
  match op with
  | .add => ⟨w, a + b⟩
  | .sub => ⟨w, a - b⟩
  | .mul => ⟨w, a * b⟩
  | .udiv => ⟨w, a.smtUDiv b⟩
  | .sdiv => ⟨w, a.smtSDiv b⟩
  | .urem => ⟨w, a % b⟩
  | .srem => ⟨w, a.srem b⟩
  | .and => ⟨w, a &&& b⟩
  | .or => ⟨w, a ||| b⟩
  | .xor => ⟨w, a ^^^ b⟩
  | .shl => ⟨w, if w ≤ b.toNat then 0 else a <<< b⟩
  | .lshr => ⟨w, if w ≤ b.toNat then 0 else a >>> b⟩
  | .ashr => ⟨w, a.sshiftRight (min b.toNat w)⟩
  | .eq => .ofBool (a == b)
  | .ne => .ofBool (a != b)
  | .ult => .ofBool (a.ult b)
  | .ule => .ofBool (a.ule b)
  | .ugt => .ofBool (b.ult a)
  | .uge => .ofBool (b.ule a)
  | .slt => .ofBool (a.slt b)
  | .sle => .ofBool (a.sle b)
  | .sgt => .ofBool (b.slt a)
  | .sge => .ofBool (b.sle a)
  | .neg | .not => ⟨w, a⟩

/-- What variables stand for; a variable counts modulo `2 ^ width`. -/
abbrev Model := String → Nat

/-- The bit-vector that a line defines, given those of the lines before it. -/
def Line.eval (m : Model) (before : Array Bits) : Line → Bits
  | .const w v => .ofNat w v
  | .var n w => .ofNat w (m n)
  | .unary op x => let a := before.getD x default; ⟨a.width, unaryBits op a.value⟩
  | .binary op l r =>
      let a := before.getD l default
      let b := before.getD r default
      binaryBits op a.value (b.value.setWidth a.width)
  | .ite c y n =>
      if (before.getD c default).value.toNat = 1 then before.getD y default
      else before.getD n default
  | .extract high low x => ⟨high - low + 1, (before.getD x default).value.extractLsb high low⟩
  | .zext x w => ⟨w, (before.getD x default).value.setWidth w⟩
  | .sext x w => ⟨w, (before.getD x default).value.signExtend w⟩
  | .concat h l =>
      let a := before.getD h default
      let b := before.getD l default
      ⟨a.width + b.width, a.value ++ b.value⟩

/-- The width of the bit-vector that a line defines, given those of the lines before it. There is none
    where an operand is missing or has a width that does not fit. -/
def Line.width? (before : Array Nat) : Line → Option Nat
  | .const w _ => some w
  | .var _ w => some w
  | .unary _ x => before[x]?
  | .binary op l r => do
      let w ← before[l]?
      if before[r]? = some w then some (if op.isComparison then 1 else w) else none
  | .ite c y n => do
      let w ← before[y]?
      if before[c]? = some 1 ∧ before[n]? = some w then some w else none
  | .extract high low x => do
      let w ← before[x]?
      if low ≤ high ∧ high < w then some (high - low + 1) else none
  | .zext x w => do
      let v ← before[x]?
      if v ≤ w then some w else none
  | .sext x w => do
      let v ← before[x]?
      if v ≤ w then some w else none
  | .concat h l => do
      let v ← before[h]?
      let w ← before[l]?
      some (v + w)

/-- Lines with demands on their values. -/
structure Script where
  lines : Array Line := #[]
  /-- Lines that have to be 1. -/
  asserted : List Nat := []
  /-- Lines that have to differ from a value. -/
  excluded : List (Nat × Nat) := []
  deriving Inhabited

namespace Script

/-- The values of all lines. -/
def values (s : Script) (m : Model) : Array Bits :=
  s.lines.foldl (fun vs line => vs.push (line.eval m vs)) #[]

/-- The widths of all lines, where all operands fit. -/
def widths? (s : Script) : Option (Array Nat) :=
  s.lines.toList.foldlM (fun widths line => (line.width? widths).map widths.push) #[]

/-- The value of one line as a number. -/
def value (s : Script) (m : Model) (i : Nat) : Nat := ((s.values m).getD i default).value.toNat

/-- Whether a model meets all demands. -/
def holds (s : Script) (m : Model) : Bool :=
  let vs := s.values m
  let value (i : Nat) : Nat := (vs.getD i default).value.toNat
  s.asserted.all (fun i => value i == 1) && s.excluded.all fun (i, v) => value i != v

/-- The script with one more demand: that a line differs from a value. -/
def exclude (s : Script) (line value : Nat) : Script :=
  { s with excluded := (line, value) :: s.excluded }

end Script

/-- The answer of a decision procedure. -/
inductive Verdict where
  /-- Some model meets all demands. -/
  | sat (model : List (String × Nat))
  /-- No model does. -/
  | unsat
  | timeout
  | unknown (reason : String)
  deriving Repr, Inhabited

/-- The model that a list of values stands for. -/
def modelOf (values : List (String × Nat)) : Model := fun name => (values.lookup name).getD 0

/-- A decision procedure: what it answers when it is asked for a model of a script. -/
structure Backend where
  check : Script → Verdict

instance : Inhabited Backend := ⟨⟨fun _ => .timeout⟩⟩

end PathSearch.Smt
