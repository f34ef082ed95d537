import PathSearch.Smt.Script

/-! # Values that a script forces

A demand on a line can settle the lines that it is made of: where a sum with a constant has to be
some number, the other side has one value. The lines are gone through backward, from demands to
operands, and forward, from operands to results, for as long as that settles more of them.

A settled line has its value in every model of the script, so a settled variable can be replaced by
its value. Where two demands settle a line differently there is no model, and the first value is
kept: the demands themselves are still to be met.
-/

namespace PathSearch.Smt

/-- What is known of the lines of a script. -/
structure Forced where
  /-- The value of every settled line; of another line, the width only. -/
  values : Array Bits
  settled : Array Bool
  /-- The number of settled lines. -/
  count : Nat := 0

namespace Forced

/-- The value of a line that is settled. -/
def value? (f : Forced) (i : Nat) : Option Nat :=
  if f.settled.getD i false then some (f.values.getD i default).value.toNat else none

def width (f : Forced) (i : Nat) : Nat := (f.values.getD i default).width

/-- Settles a line, cutting the value to its width. -/
def settle (f : Forced) (i value : Nat) : Forced :=
  if f.settled.getD i false then f
  else { f with
    values := f.values.modify i fun b => .ofNat b.width value
    settled := f.settled.setIfInBounds i true
    count := f.count + 1 }

/-- Settles one of two operands from the other: `left` finds the left one from the right one, and `right`
    the right one from the left one. -/
def settleOther (f : Forced) (l r : Nat) (left right : Nat → Nat) : Forced :=
  match f.value? l, f.value? r with
  | none, some b => f.settle l (left b)
  | some a, none => f.settle r (right a)
  | _, _ => f

/-- Settles what a binary operation with a known result forces on its operands. -/
def settleOperands (f : Forced) (op : Op) (l r v : Nat) : Forced :=
  let modulus := Nat.pow 2 (f.width l)
  match op with
  | .add => f.settleOther l r (fun b => v + modulus - b) (fun a => v + modulus - a)
  | .sub => f.settleOther l r (fun b => v + b) (fun a => a + modulus - v)
  | .xor => f.settleOther l r (v ^^^ ·) (v ^^^ ·)
  | .eq => if v = 1 then f.settleOther l r id id else f
  | .ne => if v = 0 then f.settleOther l r id id else f
  | .and => if v + 1 = modulus then (f.settle l v).settle r v else f
  | .or => if v = 0 then (f.settle l 0).settle r 0 else f
  | _ => f

/-- Settles what a settled line forces on its operands. -/
def stepBack (lines : Array Line) (f : Forced) (i : Nat) : Forced :=
  match f.value? i with
  | none => f
  | some v => match lines.getD i default with
    | .const _ _ | .var _ _ | .extract _ _ _ => f
    | .unary op x =>
        let modulus := Nat.pow 2 (f.width x)
        match op with
        | .neg => f.settle x (modulus - v)
        | .not => f.settle x (modulus - 1 - v)
        | _ => f.settle x v
    | .binary op l r => f.settleOperands op l r v
    | .ite c y n => match f.value? c with
      | none => f
      | some 1 => f.settle y v
      | some _ => f.settle n v
    | .zext x _ | .sext x _ => f.settle x v
    | .concat h l => (f.settle l v).settle h (v >>> f.width l)

/-- Whether all that a line is made of is settled; of a choice, the condition and the side that it takes. -/
def ready (f : Forced) : Line → Bool
  | .const _ _ => true
  | .var _ _ => false
  | .unary _ x => f.settled.getD x false
  | .binary _ l r => f.settled.getD l false && f.settled.getD r false
  | .ite c y n => match f.value? c with
    | none => false
    | some 1 => f.settled.getD y false
    | some _ => f.settled.getD n false
  | .extract _ _ x => f.settled.getD x false
  | .zext x _ => f.settled.getD x false
  | .sext x _ => f.settled.getD x false
  | .concat h l => f.settled.getD h false && f.settled.getD l false

/-- Settles a line whose operands are settled. -/
def stepOn (lines : Array Line) (f : Forced) (i : Nat) : Forced :=
  let line := lines.getD i default
  if f.ready line then f.settle i (line.eval (fun _ => 0) f.values).value.toNat else f

/-- Goes forward and backward through the lines for as long as that settles more, at most `n` times. -/
def rounds (lines : Array Line) : (n : Nat) → Forced → Forced
  | 0, f => f
  | n + 1, f =>
      let on := (List.range lines.size).foldl (stepOn lines) f
      let back := (List.range lines.size).foldr (fun i f => stepBack lines f i) on
      if back.count = f.count then back else rounds lines n back

/-- What a script forces. -/
def ofScript (s : Script) : Forced :=
  let values := s.values fun _ => 0
  let start : Forced := { values, settled := Array.replicate values.size false }
  rounds s.lines s.lines.size (s.asserted.foldl (fun f i => f.settle i 1) start)

/-- The values of settled variables. -/
def inputs (s : Script) : List (String × Bits) :=
  let f := ofScript s
  (List.range s.lines.size).filterMap fun i => match s.lines.getD i default with
    | .var name _ => if f.settled.getD i false then some (name, f.values.getD i default) else none
    | _ => none

end Forced

end PathSearch.Smt
