import PathSearch.Expr.Build
import PathSearch.Expr.Variables

/-! # Expressions and the places their nodes were made at

Building the same shape twice makes two nodes, and taking up a node that exists makes none. A
placed expression keeps track of that: every node is known by the step that made it. The functions
here build the expressions that the functions of the same name on expressions build, and tell which
nodes of the operands the result takes up.
-/

namespace PathSearch

/-- Where a node and the nodes below it come from. -/
inductive Place where
  /-- From before anything was tracked. Such nodes are known by their shape. -/
  | held
  /-- From a numbered step, which put it over the places of its operands. -/
  | made (step : Nat) (parts : List Place)
  deriving Inhabited

/-- An expression whose nodes have an identity. -/
structure Placed where
  expr : Expr
  place : Place
  deriving Inhabited

namespace Placed

/-- The operands of a node, with their places. -/
def operands (p : Placed) : List Placed :=
  match p.place with
  | .held => p.expr.operands.map fun e => ⟨e, .held⟩
  | .made _ parts => (p.expr.operands.zip parts).map fun (e, place) => ⟨e, place⟩

/-- An operand by its number. -/
def operand (p : Placed) (i : Nat) : Placed := p.operands.getD i p

/-- Whether two placed expressions are one node. -/
def sameNode (a b : Placed) : Bool :=
  match a.place, b.place with
  | .held, .held => a.expr == b.expr
  | .made m _, .made n _ => m == n
  | _, _ => false

instance : BEq Placed := ⟨sameNode⟩

instance : Hashable Placed where
  hash p := match p.place with
    | .held => mixHash 31 (hash p.expr)
    | .made n _ => mixHash 37 (hash n)

theorem expr_mem_of_mem_operands {a b : Placed} (h : a ∈ b.operands) :
    a.expr ∈ b.expr.operands := by
  unfold operands at h
  split at h
  · obtain ⟨e, member, rfl⟩ := List.mem_map.1 h
    exact member
  · obtain ⟨⟨e, place⟩, member, rfl⟩ := List.mem_map.1 h
    exact (List.of_mem_zip member).1

theorem sizeOf_expr_lt_of_mem_operands {a b : Placed} (h : a ∈ b.operands) :
    sizeOf a.expr < sizeOf b.expr :=
  Expr.sizeOf_lt_of_mem_operands (expr_mem_of_mem_operands h)

/-- Placed expressions as a graph. -/
def graph : Graph Placed where
  operands := operands
  acyclic := Subrelation.wf sizeOf_expr_lt_of_mem_operands (measure fun p : Placed => sizeOf p.expr).wf

/-- The free variables, every node being visited once. -/
def freeVars (p : Placed) : Expr.Widths :=
  (graph.postOrder p).foldl (fun widths node => Expr.collectVariable widths node.expr) ∅

/-- Building counts its steps and may fail. -/
abbrev Build := StateT Nat (Except Error)

/-- A new node over the given operands. -/
def make (e : Expr) (parts : List Placed) : Build Placed := do
  let step ← modifyGet fun n => (n, n + 1)
  pure ⟨e, .made step (parts.map (·.place))⟩

/-- A constant or a variable. -/
def leaf (e : Except Error Expr) : Build Placed := do make (← e) []

def mkUnary (op : Op) (x : Placed) : Build Placed := do
  let e ← Expr.mkUnary op x.expr
  if e.isConst then make e []
  else if e = .unary op x.expr then make e [x]
  else pure (x.operand 0)

def mkBinary (op : Op) (l r : Placed) : Build Placed := do
  let e ← Expr.mkBinary op l.expr r.expr
  if e.isConst then make e []
  else if e = l.expr then pure l
  else if e = r.expr then pure r
  else make e [l, r]

def mkIte (c y n : Placed) : Build Placed := do
  let e ← Expr.mkIte c.expr y.expr n.expr
  match c.expr.const? with
  | some v => pure (if v = 1 then y else n)
  | none => if y.expr = n.expr then pure y else make e [c, y, n]

/-- The node that a slice is taken from in the end: the way leads through slices, through the side of
    a concatenation that holds the bits, and through zero extension, up to a node that is just the
    slice. -/
def sliced (high low : Nat) (p : Placed) : Placed :=
  if low = 0 ∧ high + 1 = p.expr.width then p
  else match p.expr, _h : p.operands with
    | .extract _ innerLow _, [x] => sliced (high + innerLow) (low + innerLow) x
    | .concat .., [hi, lo] =>
        if high < lo.expr.width then sliced high low lo
        else if lo.expr.width ≤ low then sliced (high - lo.expr.width) (low - lo.expr.width) hi
        else p
    | .zext .., [x] => if high < x.expr.width then sliced high low x else p
    | _, _ => p
termination_by sizeOf p.expr
decreasing_by
  all_goals exact sizeOf_expr_lt_of_mem_operands (by simp [_h])

def mkExtract (high low : Nat) (x : Placed) : Build Placed := do
  let e ← Expr.mkExtract high low x.expr
  let source := x.sliced high low
  if e = source.expr then pure source
  else if e.isConst then make e []
  else make e [source]

/-- The result of an extension, which changes nothing where the width stays. -/
def extended (x : Placed) (result : Except Error Expr) : Build Placed := do
  let e ← result
  if e = x.expr then pure x
  else if e.isConst then make e []
  else make e [x]

def mkZext (x : Placed) (width : Nat) : Build Placed := extended x (Expr.mkZext x.expr width)

def mkSext (x : Placed) (width : Nat) : Build Placed := extended x (Expr.mkSext x.expr width)

def mkConcat (high low : Placed) : Build Placed := do
  let e ← Expr.mkConcat high.expr low.expr
  if e.isConst then make e []
  else if e = .concat high.expr low.expr then make e [high, low]
  else match high.expr, low.expr with
    | .extract h _ _, .extract _ l _ => mkExtract h l (high.operand 0)
    | _, _ => mkZext low e.width

def lnot (x : Placed) : Build Placed := do
  Expr.expectWidth "not" 1 x.expr.width
  match x.expr with
  | .binary op _ _ => match op.negated? with
    | some opposite => mkBinary opposite (x.operand 0) (x.operand 1)
    | none => mkUnary .not x
  | _ => mkUnary .not x

def land (a b : Placed) : Build Placed := do
  Expr.expectWidth "and" 1 a.expr.width
  mkBinary .and a b

def lor (a b : Placed) : Build Placed := do
  Expr.expectWidth "or" 1 a.expr.width
  mkBinary .or a b

end Placed

end PathSearch
