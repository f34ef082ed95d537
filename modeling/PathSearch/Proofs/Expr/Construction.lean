import PathSearch.Proofs.Expr.Build

/-! # Constructions and the plain operations they stand for

A construction is one call of a constructor of the expression language with its operands. Beside
what it builds stands the plain bit-vector operation on the values of its operands, and the two
agree under every assignment.
-/

namespace PathSearch

open Word

/-- A call of a constructor of the expression language. -/
inductive Construction where
  | const (v : Word) (width : Nat)
  | var (name : String) (width : Nat)
  | unary (op : Op) (x : Expr)
  | binary (op : Op) (l r : Expr)
  | ite (c y n : Expr)
  | extract (high low : Nat) (x : Expr)
  | zext (x : Expr) (width : Nat)
  | sext (x : Expr) (width : Nat)
  | concat (hi lo : Expr)
  | equals (l r : Expr)
  | not (x : Expr)
  | and (l r : Expr)
  | or (l r : Expr)

namespace Construction

def operands : Construction → List Expr
  | .const _ _ | .var _ _ => []
  | .unary _ x | .extract _ _ x | .zext x _ | .sext x _ | .not x => [x]
  | .binary _ l r | .concat l r | .equals l r | .and l r | .or l r => [l, r]
  | .ite c y n => [c, y, n]

/-- What the constructor gives. -/
def build : Construction → Except Error Expr
  | .const v width => Expr.mkConst v width
  | .var name width => Expr.mkVar name width
  | .unary op x => Expr.mkUnary op x
  | .binary op l r => Expr.mkBinary op l r
  | .ite c y n => Expr.mkIte c y n
  | .extract high low x => Expr.mkExtract high low x
  | .zext x width => Expr.mkZext x width
  | .sext x width => Expr.mkSext x width
  | .concat hi lo => Expr.mkConcat hi lo
  | .equals l r => Expr.equals l r
  | .not x => Expr.lnot x
  | .and l r => Expr.land l r
  | .or l r => Expr.lor l r

/-- The plain operation on the values of the operands. -/
def plain (σ : Expr.Assignment) : Construction → Option Word
  | .const v width => some (ofBits (bits width v))
  | .var name width => some (ofBits (bits width (σ name)))
  | .unary op x => op.foldUnary (x.value σ) x.width
  | .binary op l r => op.foldBinary (l.value σ) (r.value σ) l.width
  | .ite c y n => some (if c.value σ = 1 then y.value σ else n.value σ)
  | .extract high low x => some (ofBits ((bits x.width (x.value σ)).extractLsb high low))
  | .zext x width => some (ofBits ((bits x.width (x.value σ)).setWidth width))
  | .sext x width => some (ofBits ((bits x.width (x.value σ)).signExtend width))
  | .concat hi lo => some (ofBits (bits hi.width (hi.value σ) ++ bits lo.width (lo.value σ)))
  | .equals l r => some (ofBool (l.value σ == r.value σ))
  | .not x => some (ofBits (~~~ bits 1 (x.value σ)))
  | .and l r => some (ofBits (bits 1 (l.value σ) &&& bits 1 (r.value σ)))
  | .or l r => some (ofBits (bits 1 (l.value σ) ||| bits 1 (r.value σ)))

/-- The width of what is built. -/
def width : Construction → Nat
  | .const _ width | .var _ width | .zext _ width | .sext _ width => width
  | .unary _ x => x.width
  | .binary op l _ => if op.isComparison then 1 else l.width
  | .ite _ y _ => y.width
  | .extract high low _ => high - low + 1
  | .concat hi lo => hi.width + lo.width
  | .equals _ _ | .not _ | .and _ _ | .or _ _ => 1

end Construction

namespace Expr

theorem mkExtract_inside {high low : Nat} {x e : Expr} (h : mkExtract high low x = .ok e) :
    low ≤ high ∧ high < x.width := by
  unfold mkExtract at h
  split at h
  · cases h
  · omega

theorem equals_widths {l r e : Expr} (h : equals l r = .ok e) : l.width = r.width := by
  obtain ⟨_, checked, _⟩ := bind_ok h
  exact expectWidth_ok checked

/-- The meaning may be replaced by one that agrees with it. -/
theorem Denotes.congr {e : Expr} {width : Nat} {meaning meaning' : Assignment → Option Word}
    (h : e.Denotes width meaning) (agree : ∀ σ, meaning σ = meaning' σ) : e.Denotes width meaning' :=
  ⟨h.wellFormed, h.width_eq, fun σ => (h.evaluate_eq σ).trans (agree σ)⟩

theorem Denotes.width_le {e : Expr} {width : Nat} {meaning : Assignment → Option Word}
    (h : e.Denotes width meaning) : width ≤ 64 := h.width_eq ▸ h.wellFormed.width_le

end Expr

namespace Construction

open PathSearch.Expr

/-- A construction with well-formed operands builds an expression of its plain operation. -/
theorem build_denotes {c : Construction} {e : Expr} (operands : ∀ x ∈ c.operands, x.WellFormed)
    (built : c.build = .ok e) : e.Denotes c.width c.plain := by
  cases c with
  | const v width =>
      have denotes := mkConst_denotes built
      exact denotes.congr fun σ => congrArg some (truncate_eq_ofBits denotes.width_le v)
  | var name width =>
      have denotes := mkVar_denotes built
      exact denotes.congr fun σ => congrArg some (truncate_eq_ofBits denotes.width_le _)
  | unary op x => exact mkUnary_denotes (operands x (.head _)) built
  | binary op l r =>
      have hl := operands l (.head _)
      have hr := operands r (.tail _ (.head _))
      exact mkBinary_denotes hl hr built
  | ite c y n =>
      have hc := operands c (.head _)
      have hy := operands y (.tail _ (.head _))
      have hn := operands n (.tail _ (.tail _ (.head _)))
      exact mkIte_denotes hc hy hn built
  | extract high low x =>
      have hx := operands x (.head _)
      obtain ⟨ordered, inside⟩ := mkExtract_inside built
      refine (mkExtract_denotes hx built).congr fun σ => congrArg some ?_
      exact slice_eq_extractLsb hx.width_le ordered inside (hx.value_lt σ)
  | zext x width =>
      have hx := operands x (.head _)
      have denotes := mkZext_denotes hx built
      refine denotes.congr fun σ => congrArg some ?_
      exact eq_setWidth (mkZext_wider built) denotes.width_le (hx.value_lt σ)
  | sext x width =>
      have hx := operands x (.head _)
      have denotes := mkSext_denotes hx built
      refine denotes.congr fun σ => congrArg some ?_
      exact truncate_ofSigned_eq_signExtend hx.width_le denotes.width_le _
  | concat hi lo =>
      have hh := operands hi (.head _)
      have hl := operands lo (.tail _ (.head _))
      have denotes := mkConcat_denotes hh hl built
      refine denotes.congr fun σ => congrArg some ?_
      exact shiftLeft_or_eq_append hh.width_pos denotes.width_le (hh.value_lt σ) (hl.value_lt σ)
  | equals l r =>
      have hl := operands l (.head _)
      have hr := operands r (.tail _ (.head _))
      have same := equals_widths built
      refine (equals_denotes hl hr built).congr fun σ => ?_
      exact Op.foldBinary_eq_ofBool hl.width_pos hl.width_le (hl.value_lt σ) (same ▸ hr.value_lt σ)
  | not x =>
      have hx := operands x (.head _)
      refine (lnot_denotes hx built).congr fun σ => ?_
      exact Op.foldUnary_eq (by omega) rfl _
  | and l r =>
      have hl := operands l (.head _)
      have hr := operands r (.tail _ (.head _))
      refine (land_denotes hl hr built).congr fun σ => ?_
      exact Op.foldBinary_eq (by omega) (by omega) rfl _ _
  | or l r =>
      have hl := operands l (.head _)
      have hr := operands r (.tail _ (.head _))
      refine (lor_denotes hl hr built).congr fun σ => ?_
      exact Op.foldBinary_eq (by omega) (by omega) rfl _ _

/-- Under every assignment the operands have values, and what is built has the value that the plain
    operation has on them. -/
theorem evaluate_build_eq_plain {c : Construction} {e : Expr}
    (operands : ∀ x ∈ c.operands, x.WellFormed) (built : c.build = .ok e) (σ : Assignment) :
    (∀ x ∈ c.operands, x.evaluate σ.bindings = some (x.value σ)) ∧
      ∃ v, c.plain σ = some v ∧ e.evaluate σ.bindings = some v := by
  have denotes := build_denotes operands built
  refine ⟨fun x hx => (operands x hx).evaluate_eq σ, e.value σ, ?_, ?_⟩
  · exact (denotes.some_value σ).symm
  · exact denotes.wellFormed.evaluate_eq σ

theorem evaluate_build_eq_plain_slices :
    (concat (.extract 15 8 (.var "x" 16)) (.extract 7 0 (.var "x" 16))).build = .ok (.var "x" 16) ∧
      ∃ v, (concat (.extract 15 8 (.var "x" 16)) (.extract 7 0 (.var "x" 16))).plain
          (fun _ => 0x51234) = some v ∧
        (Expr.var "x" 16).evaluate (Assignment.bindings fun _ => 0x51234) = some v := by
  have parts : ∀ x ∈ (concat (.extract 15 8 (.var "x" 16)) (.extract 7 0 (.var "x" 16))).operands,
      x.WellFormed := by
    simp [Construction.operands, Expr.WellFormed, Expr.width]
  have built : (concat (.extract 15 8 (.var "x" 16)) (.extract 7 0 (.var "x" 16))).build =
      .ok (.var "x" 16) := by cbv
  exact ⟨built, (evaluate_build_eq_plain parts built _).2⟩

end Construction

end PathSearch
