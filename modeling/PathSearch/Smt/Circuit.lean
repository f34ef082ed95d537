import PathSearch.Smt.Forced
import PathSearch.Smt.Literal
import PathSearch.Smt.Polynomial
import PathSearch.Smt.Script
import Std.Data.HashMap

/-! # From scripts to clauses

Every bit of every line becomes a literal. Gates are written as clauses that determine the output
from the inputs; a gate with the same inputs is made once, and constants are folded away, as are
inputs that occur twice in a gate and the gate before it. Lines that are the same polynomial of other
lines have the same literals. Variable 0 is true.
-/

namespace PathSearch.Smt

/-- Gates of a circuit, by kind. -/
inductive Gate where
  | and | xor | majority | mux
  deriving DecidableEq, Hashable, Repr

/-- Clauses over numbered variables. -/
structure Circuit where
  /-- The number of variables in use. -/
  size : Nat := 1
  /-- Clauses, the latest first. -/
  clauses : List (Array Lit) := [#[Lit.yes]]
  gates : Std.HashMap (Gate × Lit × Lit × Lit) Lit := ∅
  /-- The kind and the first two inputs of the gate that an output belongs to. -/
  makers : Std.HashMap Lit (Gate × Lit × Lit) := ∅
  /-- The bits of the script's variables, the least significant first. -/
  inputs : List (String × List Lit) := []
  /-- What is known of bits as a polynomial. -/
  polynomials : Std.HashMap (List Lit) Polynomial := ∅
  /-- The bits of each polynomial of a width. -/
  represented : Std.HashMap (Nat × Polynomial) (List Lit) := ∅
  deriving Inhabited

/-- Building a circuit. -/
abbrev Wiring := StateM Circuit

namespace Circuit

/-- A new variable. -/
def fresh : Wiring Lit := modifyGet fun c => (2 * c.size, { c with size := c.size + 1 })

/-- Adds clauses. -/
def addClauses (cs : List (Array Lit)) : Wiring Unit :=
  modify fun c => { c with clauses := cs ++ c.clauses }

/-- The output of a gate that may exist already. -/
def gate (kind : Gate) (a b c : Lit) (define : Lit → List (Array Lit)) : Wiring Lit := do
  match (← get).gates[(kind, a, b, c)]? with
  | some out => pure out
  | none =>
      let out ← fresh
      addClauses (define out)
      modify fun s => { s with
        gates := s.gates.insert (kind, a, b, c) out
        makers := s.makers.insert out (kind, a, b) }
      pure out

/-- The conjunction of two literals, where the first comes from a conjunction that has the second or
    its negation as an input. -/
def absorbed? (a b : Lit) : Wiring (Option Lit) := do
  match (← get).makers[2 * (a / 2)]? with
  | some (.and, p, q) =>
      if a % 2 = 0 then
        if b = p ∨ b = q then pure (some a)
        else if b = p.neg ∨ b = q.neg then pure (some Lit.no)
        else pure none
      else if b = p.neg ∨ b = q.neg then pure (some b)
      else pure none
  | _ => pure none

def and (a b : Lit) : Wiring Lit := do
  if a = Lit.no ∨ b = Lit.no ∨ a = b.neg then pure Lit.no
  else if a = Lit.yes ∨ a = b then pure b
  else if b = Lit.yes then pure a
  else match ← absorbed? a b, ← absorbed? b a with
    | some o, _ => pure o
    | none, some o => pure o
    | none, none =>
        gate .and (min a b) (max a b) 0 fun o => [#[o.neg, a], #[o.neg, b], #[o, a.neg, b.neg]]

def or (a b : Lit) : Wiring Lit := return (← and a.neg b.neg).neg

/-- The exclusive disjunction of two outputs, where the first comes from an exclusive disjunction
    that has the second as an input. -/
def cancelled? (x y : Lit) : Wiring (Option Lit) := do
  match (← get).makers[x]? with
  | some (.xor, p, q) =>
      if y = p then pure (some q) else if y = q then pure (some p) else pure none
  | _ => pure none

def xor (a b : Lit) : Wiring Lit := do
  if a = Lit.no then pure b
  else if b = Lit.no then pure a
  else if a = Lit.yes then pure b.neg
  else if b = Lit.yes then pure a.neg
  else if a = b then pure Lit.no
  else if a = b.neg then pure Lit.yes
  else
    -- negations move to the output, so four gates are one
    let x := 2 * (a / 2)
    let y := 2 * (b / 2)
    let o ← match ← cancelled? x y, ← cancelled? y x with
      | some o, _ => pure o
      | none, some o => pure o
      | none, none => gate .xor (min x y) (max x y) 0 fun o =>
          [#[o.neg, x, y], #[o.neg, x.neg, y.neg], #[o, x.neg, y], #[o, x, y.neg]]
    pure (if (a + b) % 2 = 0 then o else o.neg)

/-- The first of two literals where the condition holds, the second where it does not. -/
def mux (c a b : Lit) : Wiring Lit :=
  if c = Lit.yes ∨ a = b then pure a
  else if c = Lit.no then pure b
  else if a = Lit.yes then or c b
  else if a = Lit.no then and c.neg b
  else if b = Lit.yes then or c.neg a
  else if b = Lit.no then and c a
  else if a = b.neg then return (← xor c a).neg
  else gate .mux c a b fun o =>
    [#[c.neg, a.neg, o], #[c.neg, a, o.neg], #[c, b.neg, o], #[c, b, o.neg],
     #[a.neg, b.neg, o], #[a, b, o.neg]]

/-- The gate for whether two of three literals hold. Its inputs are in ascending order. -/
def majorityGate (a b c : Lit) : Wiring Lit :=
  let lo := min a (min b c)
  let hi := max a (max b c)
  let mid := a + b + c - lo - hi
  gate .majority lo mid hi fun o =>
    [#[o.neg, lo, mid], #[o.neg, lo, hi], #[o.neg, mid, hi],
     #[o, lo.neg, mid.neg], #[o, lo.neg, hi.neg], #[o, mid.neg, hi.neg]]

/-- Whether two of three literals hold. -/
def majority (a b c : Lit) : Wiring Lit :=
  if a = b then pure a
  else if a = c then pure a
  else if b = c then pure b
  else if a = b.neg then pure c
  else if a = c.neg then pure b
  else if b = c.neg then pure a
  else if a = Lit.no then and b c
  else if a = Lit.yes then or b c
  else if b = Lit.no then and a c
  else if b = Lit.yes then or a c
  else if c = Lit.no then and a b
  else if c = Lit.yes then or a b
  else majorityGate a b c

/-- A constant, the least significant bit first. -/
def constBits (width value : Nat) : List Lit :=
  (List.range width).map fun i => Lit.ofBool (value.testBit i)

/-- Combines bits in pairs. -/
def zipBits (f : Lit → Lit → Wiring Lit) : List Lit → List Lit → Wiring (List Lit)
  | a :: as, b :: bs => do
      let o ← f a b
      return o :: (← zipBits f as bs)
  | _, _ => pure []

/-- The sum of two numbers and a carry, without the last carry. -/
def addBits : (carry : Lit) → List Lit → List Lit → Wiring (List Lit)
  | carry, a :: as, b :: bs => do
      let s ← xor (← xor a b) carry
      let next ← majority a b carry
      return s :: (← addBits next as bs)
  | _, _, _ => pure []

/-- The carry out of a sum. -/
def carryOut : (carry : Lit) → List Lit → List Lit → Wiring Lit
  | carry, a :: as, b :: bs => do carryOut (← majority a b carry) as bs
  | carry, _, _ => pure carry

def notBits (a : List Lit) : List Lit := a.map Lit.neg

def negBits (a : List Lit) : Wiring (List Lit) :=
  addBits Lit.yes (notBits a) (a.map fun _ => Lit.no)

def subBits (a b : List Lit) : Wiring (List Lit) := addBits Lit.yes a (notBits b)

/-- Whether the first number is at least the second. -/
def ugeBit (a b : List Lit) : Wiring Lit := carryOut Lit.yes a (notBits b)

def eqBit : List Lit → List Lit → Wiring Lit
  | a :: as, b :: bs => do
      let same := (← xor a b).neg
      and same (← eqBit as bs)
  | _, _ => pure Lit.yes

/-- The first number where the condition holds, the second where it does not. -/
def muxBits (c : Lit) (a b : List Lit) : Wiring (List Lit) := zipBits (mux c) a b

/-- The product, as shifted copies of the first number added up; `acc` and `a` are cut to the width
    that is left. -/
def mulBits : (acc a b : List Lit) → Wiring (List Lit)
  | acc, a, b :: bs => do
      let sum ← addBits Lit.no acc (← a.mapM (and · b))
      match sum with
      | [] => pure []
      | s :: rest => return s :: (← mulBits rest a.dropLast bs)
  | acc, _, [] => pure acc

/-- Long division by `b`, which has one bit more than needed: the bits of the dividend come in with
    the most significant first, `r` is the remainder so far and `q` the quotient so far. -/
def divBits (b : List Lit) : (dividend : List Lit) → (r q : List Lit) → Wiring (List Lit × List Lit)
  | [], r, q => pure (q, r)
  | d :: ds, r, q => do
      let shifted := d :: r.dropLast
      let fits ← ugeBit shifted b
      let reduced ← muxBits fits (← subBits shifted b) shifted
      divBits b ds reduced (fits :: q)

/-- Facts about quotient and remainder that long division shows only step by step: the remainder is
    at most the dividend, and where the divisor is not zero, the remainder is below it and the
    quotient is at most the dividend. -/
def divisionFacts (a b q r : List Lit) : Wiring Unit := do
  let isZero ← eqBit b (b.map fun _ => Lit.no)
  addClauses [#[← ugeBit a r], #[isZero, (← ugeBit r b).neg], #[isZero, ← ugeBit a q]]

/-- Quotient and remainder of unsigned numbers. -/
def udivBits (a b : List Lit) : Wiring (List Lit × List Lit) := do
  let (q, r) ← divBits (b ++ [Lit.no]) a.reverse ((a ++ [Lit.no]).map fun _ => Lit.no) []
  let r := r.dropLast
  divisionFacts a b q r
  pure (q, r)

def signBit (a : List Lit) : Lit := a.getLastD Lit.no

/-- The number, negated where the condition holds. -/
def negIf (c : Lit) (a : List Lit) : Wiring (List Lit) := do muxBits c (← negBits a) a

/-- Quotient and remainder of signed numbers: the quotient goes toward zero and the remainder has
    the sign of the dividend. -/
def sdivBits (a b : List Lit) : Wiring (List Lit × List Lit) := do
  let sa := signBit a
  let sb := signBit b
  let (q, r) ← udivBits (← negIf sa a) (← negIf sb b)
  return (← negIf (← xor sa sb) q, ← negIf sa r)

/-- Moves bits toward the most significant one by `n`, filling with `fill`. -/
def moveUp (n : Nat) (fill : Lit) (a : List Lit) : List Lit :=
  (List.replicate n fill ++ a).take a.length

/-- Moves bits toward the least significant one by `n`, filling with `fill`. -/
def moveDown (n : Nat) (fill : Lit) (a : List Lit) : List Lit :=
  (a ++ List.replicate n fill).drop n

/-- Moves bits by a number given in bits: each bit moves by its place value, and a place value past
    the width leaves the fill only. -/
def shiftBits (move : Nat → List Lit → List Lit) (fill : Lit) :
    (place : Nat) → (amount a : List Lit) → Wiring (List Lit)
  | _, [], a => pure a
  | place, s :: ss, a => do
      let moved := if a.length ≤ place then a.map fun _ => fill else move place a
      shiftBits move fill (min (2 * place) (a.length + 1)) ss (← muxBits s moved a)

/-- The number with its top bit flipped, so that signed order becomes unsigned order. -/
def flipSign (a : List Lit) : List Lit := a.dropLast ++ (a.getLast?.map Lit.neg).toList

/-- The bits of a binary operation. -/
def binary (op : Op) (a b : List Lit) : Wiring (List Lit) :=
  let bit (w : Wiring Lit) : Wiring (List Lit) := return [← w]
  let notBit (w : Wiring Lit) : Wiring (List Lit) := return [(← w).neg]
  match op with
  | .add => addBits Lit.no a b
  | .sub => subBits a b
  | .mul => mulBits (a.map fun _ => Lit.no) a b
  | .udiv => return (← udivBits a b).1
  | .urem => return (← udivBits a b).2
  | .sdiv => return (← sdivBits a b).1
  | .srem => return (← sdivBits a b).2
  | .and => zipBits and a b
  | .or => zipBits or a b
  | .xor => zipBits xor a b
  | .shl => shiftBits (moveUp · Lit.no) Lit.no 1 b a
  | .lshr => shiftBits (moveDown · Lit.no) Lit.no 1 b a
  | .ashr => shiftBits (moveDown · (signBit a)) (signBit a) 1 b a
  | .eq => bit (eqBit a b)
  | .ne => notBit (eqBit a b)
  | .uge => bit (ugeBit a b)
  | .ult => notBit (ugeBit a b)
  | .ule => bit (ugeBit b a)
  | .ugt => notBit (ugeBit b a)
  | .sge => bit (ugeBit (flipSign a) (flipSign b))
  | .slt => notBit (ugeBit (flipSign a) (flipSign b))
  | .sle => bit (ugeBit (flipSign b) (flipSign a))
  | .sgt => notBit (ugeBit (flipSign b) (flipSign a))
  | .neg | .not => pure a

/-- The bits of a variable with a width, made on first use. -/
def input (name : String) (width : Nat) : Wiring (List Lit) := do
  match (← get).inputs.find? fun known => known.1 = name ∧ known.2.length = width with
  | some known => pure known.2
  | none =>
      let bits ← (List.replicate width ()).mapM fun _ => fresh
      modify fun c => { c with inputs := (name, bits) :: c.inputs }
      pure bits

/-- The bits of a line, given those of the lines before it. -/
def lineBits (before : Array (List Lit)) : Line → Wiring (List Lit)
  | .const w v => pure (constBits w v)
  | .var n w => input n w
  | .unary op x =>
      let a := before.getD x []
      match op with
      | .neg => negBits a
      | .not => pure (notBits a)
      | _ => pure a
  | .binary op l r => binary op (before.getD l []) (before.getD r [])
  | .ite c y n => muxBits ((before.getD c []).headD Lit.no) (before.getD y []) (before.getD n [])
  | .extract high low x => pure (((before.getD x []).drop low).take (high - low + 1))
  | .zext x w =>
      let a := before.getD x []
      pure (a ++ List.replicate (w - a.length) Lit.no)
  | .sext x w =>
      let a := before.getD x []
      pure (a ++ List.replicate (w - a.length) (signBit a))
  | .concat h l => pure (before.getD l [] ++ before.getD h [])

/-- The number that constant bits stand for. -/
def constOf? : List Lit → Option Nat
  | [] => some 0
  | l :: rest =>
      if l = Lit.yes then (constOf? rest).map (2 * · + 1)
      else if l = Lit.no then (constOf? rest).map (2 * ·)
      else none

/-- Takes up bits and the polynomial that they are. -/
def represent (bits : List Lit) (p : Polynomial) : Wiring Unit :=
  modify fun c => { c with
    polynomials := c.polynomials.insertIfNew bits p
    represented := c.represented.insertIfNew (bits.length, p) bits }

/-- The polynomial that bits are. Bits of which nothing is known become a new atom. -/
def polynomialOf (bits : List Lit) : Wiring Polynomial := do
  match constOf? bits with
  | some k => pure (.const bits.length k)
  | none => match (← get).polynomials[bits]? with
    | some p => pure p
    | none => do
        let p := Polynomial.atom (← get).polynomials.size
        represent bits p
        pure p

/-- The width and the polynomial of a line, where it is a polynomial of the lines before it. -/
def linePolynomial? (before : Array (List Lit)) : Line → Wiring (Option (Nat × Polynomial))
  | .unary op x => do
      let a := before.getD x []
      return (Polynomial.unary? op a.length (← polynomialOf a)).map (a.length, ·)
  | .binary op l r => do
      if op = .add ∨ op = .sub ∨ op = .mul ∨ op = .shl then
        let a := before.getD l []
        let p ← polynomialOf a
        let q ← polynomialOf (before.getD r [])
        return (Polynomial.binary? op a.length p q).map (a.length, ·)
      else return none
  | _ => return none

/-- The bits of a line, which are taken over from a line that is the same polynomial. -/
def sharedBits (before : Array (List Lit)) (line : Line) : Wiring (List Lit) := do
  match ← linePolynomial? before line with
  | none => lineBits before line
  | some (width, p) =>
      match p.const?, (← get).represented[(width, p)]? with
      | some k, _ => pure (constBits width k)
      | none, some bits => pure bits
      | none, none => do
          let bits ← lineBits before line
          if p.isSmall then represent bits p
          pure bits

/-- The bits of all lines. -/
def allBits (lines : Array Line) : Wiring (Array (List Lit)) :=
  lines.toList.foldlM (fun before line => return before.push (← sharedBits before line)) #[]

/-- The clause that bits are another number than the given one; none where they always are. -/
def differs (bits : List Lit) (value : Nat) : List (Array Lit) :=
  let lits := (bits.zip (constBits bits.length value)).map fun (l, bit) =>
    if bit = Lit.yes then l.neg else l
  if Nat.pow 2 bits.length ≤ value ∨ lits.contains Lit.yes then []
  else [(lits.filter (· ≠ Lit.no)).eraseDups.toArray]

/-- Makes variables of the script constants. -/
def setInputs (known : List (String × Bits)) : Wiring Unit :=
  modify fun c => { c with inputs := known.map fun x => (x.1, constBits x.2.width x.2.value.toNat) }

/-- Adds the demands of a script as clauses. Variables that the script settles are constants. -/
def demand (s : Script) : Wiring Unit := do
  setInputs (Forced.inputs s)
  let bits ← allBits s.lines
  s.asserted.forM fun i => addClauses [#[(bits.getD i []).headD Lit.no]]
  s.excluded.forM fun x => addClauses (differs (bits.getD x.1 []) x.2)

/-- The circuit of a script. -/
def ofScript (s : Script) : Circuit := ((demand s).run {}).2

end Circuit

end PathSearch.Smt
