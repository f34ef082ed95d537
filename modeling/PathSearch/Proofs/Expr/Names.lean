import PathSearch.Proofs.Expr.Occurrence
import PathSearch.Proofs.Expr.Slice

/-! # Building expressions brings in no variables

Whatever an expression is built from, the variables that occur in it occur in one of its parts. The
rules that fold and simplify drop parts, and they make constants, but no variables.
-/

namespace PathSearch.Expr

/-- Only variables with these names occur. -/
def Within (names : Set String) (e : Expr) : Prop := ∀ name, e.Mentions name → name ∈ names

section Constructors

variable {names : Set String} {x y z : Expr}

theorem Within.mono {more : Set String} (h : x.Within names) (larger : names ⊆ more) :
    x.Within more := by
  intro name mentioned
  exact larger (h name mentioned)

/-- The variables of a node are those of its operands. -/
theorem within_iff_operands {e : Expr} (node : ∀ name bits, e ≠ .var name bits) :
    e.Within names ↔ ∀ x ∈ e.operands, x.Within names := by
  constructor
  · intro h x hx name mentioned
    exact h name (mentioned.of_mem_operands hx)
  · intro each name mentioned
    rcases mentions_iff.mp mentioned with ⟨bits, variable'⟩ | ⟨x, hx, below⟩
    · exact absurd variable' (node name bits)
    · exact each x hx name below

@[simp] theorem within_const (v : Word) (bits : Nat) : (const v bits).Within names := by
  simp [within_iff_operands, operands]

@[simp] theorem within_var {name : String} {bits : Nat} :
    (var name bits).Within names ↔ name ∈ names := by
  simp [Within, mentions_var_iff]

@[simp] theorem within_unary {op : Op} : (unary op x).Within names ↔ x.Within names := by
  simp [within_iff_operands, operands]

@[simp] theorem within_binary {op : Op} :
    (binary op x y).Within names ↔ x.Within names ∧ y.Within names := by
  simp [within_iff_operands, operands]

@[simp] theorem within_ite :
    (ite x y z).Within names ↔ x.Within names ∧ y.Within names ∧ z.Within names := by
  simp [within_iff_operands, operands]

@[simp] theorem within_extract {high low : Nat} :
    (extract high low x).Within names ↔ x.Within names := by
  simp [within_iff_operands, operands]

@[simp] theorem within_zext {bits : Nat} : (zext x bits).Within names ↔ x.Within names := by
  simp [within_iff_operands, operands]

@[simp] theorem within_sext {bits : Nat} : (sext x bits).Within names ↔ x.Within names := by
  simp [within_iff_operands, operands]

@[simp] theorem within_concat :
    (concat x y).Within names ↔ x.Within names ∧ y.Within names := by
  simp [within_iff_operands, operands]

@[simp] theorem within_word (v : Word) : (word v).Within names := within_const v 64

@[simp] theorem within_byte (v : UInt8) : (byte v).Within names := within_const _ 8

@[simp] theorem within_truth (b : Bool) : (truth b).Within names := within_const _ 1

end Constructors

variable {names : Set String} {x y z e : Expr}

theorem within_mkConst {v : Word} {bits : Nat} (built : mkConst v bits = .ok e) :
    e.Within names := by
  obtain ⟨_, -, result⟩ := bind_ok built
  cases result
  exact within_const _ _

theorem within_mkVar {name : String} {bits : Nat} (known : name ∈ names)
    (built : mkVar name bits = .ok e) : e.Within names := by
  obtain ⟨_, -, result⟩ := bind_ok built
  cases result
  exact within_var.mpr known

/-- Folding and simplifying drop parts of the operands, and add no variable. -/
theorem within_hereditary (names : Set String) : Hereditary (Within names) where
  operand {e x} within hx name mentioned := within name (mentioned.of_mem_operands hx)
  node {e} fresh parts := by
    refine (within_iff_operands fun name bits same => ?_).mpr parts
    subst same
    exact fresh

end PathSearch.Expr
