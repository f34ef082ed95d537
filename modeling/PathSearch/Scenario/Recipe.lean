import PathSearch.Expr.Build
import PathSearch.Expr.Placed
import PathSearch.Scenario.Datum

/-! # Recipes for expressions

A recipe describes how to build an expression from named expressions and from what a state holds.
Operands are built from left to right, and the first failure is the result.
-/

namespace PathSearch

/-- A description of an expression. -/
inductive Recipe where
  | const (value : Word) (width : Nat)
  | var (name : String) (width : Nat)
  | unary (op : Op) (x : Recipe)
  | binary (op : Op) (lhs rhs : Recipe)
  | ite (cond yes no : Recipe)
  | extract (high low : Nat) (x : Recipe)
  | zext (x : Recipe) (width : Nat)
  | sext (x : Recipe) (width : Nat)
  | concat (high low : Recipe)
  | lnot (x : Recipe)
  | land (lhs rhs : Recipe)
  | lor (lhs rhs : Recipe)
  /-- `first`, then `count` times the operator applied to what there is and to one `operand`. -/
  | chain (op : Op) (count : Nat) (first operand : Recipe)
  /-- An expression that was given a name before. -/
  | ref (name : String)
  /-- The content of a register. -/
  | register (name : String)
  /-- `size` bytes of memory. -/
  | memory (address : Word) (size : Nat)
  /-- A recorded input. -/
  | input (name : String)
  deriving Inhabited

/-- An operator by its name. -/
def Op.ofDatum (d : Datum) : Reading Op := do Datum.expect (Op.ofName? (← d.string))

namespace Recipe

/-- Reads a recipe: a list of a keyword, or an operator, and its operands. -/
def ofDatum : Datum → Reading Recipe
  | .list [.text head] => match head with
    | "true" => return .const 1 1
    | "false" => return .const 0 1
    | _ => Datum.malformed
  | .list [.text head, a] => match head with
    | "word" => return .const (← a.word) 64
    | "byte" => return .const (← a.word) 8
    | "neg" => return .unary .neg (← ofDatum a)
    | "not" => return .unary .not (← ofDatum a)
    | "lnot" => return .lnot (← ofDatum a)
    | "ref" => return .ref (← a.string)
    | "reg" => return .register (← a.string)
    | "input" => return .input (← a.string)
    | _ => Datum.malformed
  | .list [.text head, a, b] => match head with
    | "const" => return .const (← a.word) (← b.nat)
    | "var" => return .var (← a.string) (← b.nat)
    | "unary" => return .unary (← Op.ofDatum a) (← ofDatum b)
    | "zext" => return .zext (← ofDatum a) (← b.nat)
    | "sext" => return .sext (← ofDatum a) (← b.nat)
    | "concat" => return .concat (← ofDatum a) (← ofDatum b)
    | "equals" => return .binary .eq (← ofDatum a) (← ofDatum b)
    | "land" => return .land (← ofDatum a) (← ofDatum b)
    | "lor" => return .lor (← ofDatum a) (← ofDatum b)
    | "mem" => return .memory (← a.word) (← b.nat)
    | _ => return .binary (← Op.ofDatum (.text head)) (← ofDatum a) (← ofDatum b)
  | .list [.text head, a, b, c] => match head with
    | "binary" => return .binary (← Op.ofDatum a) (← ofDatum b) (← ofDatum c)
    | "ite" => return .ite (← ofDatum a) (← ofDatum b) (← ofDatum c)
    | "extract" => return .extract (← a.nat) (← b.nat) (← ofDatum c)
    | _ => Datum.malformed
  | .list [.text head, op, n, a, b] => match head with
    | "chain" => return .chain (← Op.ofDatum op) (← n.nat) (← ofDatum a) (← ofDatum b)
    | _ => Datum.malformed
  | _ => Datum.malformed

/-- Reads a list of names with their recipes. -/
def definitionsOf (items : List Datum) : Reading (List (String × Recipe)) :=
  items.mapM fun d => do
    let (name, recipe) ← d.pair
    return (← name.string, ← ofDatum recipe)

/-- What recipes can refer to. -/
structure Scope where
  /-- Named expressions, the latest first. -/
  named : List (String × Placed) := []
  register : String → Placed.Build Placed := fun name => throw (.unknownRegister name)
  memory : Word → Nat → Placed.Build Placed := fun _ _ => throw .outOfBounds
  input : String → Placed.Build Placed := fun name => throw (.unknownLabel name)
  deriving Inhabited

open Placed (Build)

/-- Applies an operator again and again to the same right operand. -/
def chainOn (op : Op) (operand : Placed) : Nat → Placed → Build Placed
  | 0, acc => pure acc
  | n + 1, acc => do chainOn op operand n (← Placed.mkBinary op acc operand)

/-- Builds the expression that a recipe describes. -/
def build (scope : Scope) : Recipe → Build Placed
  | .const v w => Placed.leaf (Expr.mkConst v w)
  | .var n w => Placed.leaf (Expr.mkVar n w)
  | .unary op x => do Placed.mkUnary op (← build scope x)
  | .binary op l r => do Placed.mkBinary op (← build scope l) (← build scope r)
  | .ite c y n => do Placed.mkIte (← build scope c) (← build scope y) (← build scope n)
  | .extract high low x => do Placed.mkExtract high low (← build scope x)
  | .zext x w => do Placed.mkZext (← build scope x) w
  | .sext x w => do Placed.mkSext (← build scope x) w
  | .concat h l => do Placed.mkConcat (← build scope h) (← build scope l)
  | .lnot x => do Placed.lnot (← build scope x)
  | .land a b => do Placed.land (← build scope a) (← build scope b)
  | .lor a b => do Placed.lor (← build scope a) (← build scope b)
  | .chain op n a b => do
      let a ← build scope a
      let b ← build scope b
      chainOn op b n a
  | .ref name => match scope.named.lookup name with
      | some p => pure p
      | none => throw (.unknownLabel name)
  | .register name => scope.register name
  | .memory a size => scope.memory a size
  | .input name => scope.input name

/-- Builds named expressions in order, each of which may refer to those before it. -/
def buildNamed (scope : Scope) (definitions : List (String × Recipe)) : Build Scope :=
  definitions.foldlM (fun scope (name, recipe) => do
    let p ← build scope recipe
    pure { scope with named := (name, p) :: scope.named }) scope

/-- The expression that a recipe describes, without its places. -/
def expr (scope : Scope) (recipe : Recipe) : Except Error Expr :=
  ((build scope recipe).run' 0).map (·.expr)

end Recipe

end PathSearch
