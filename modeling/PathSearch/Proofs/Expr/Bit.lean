import PathSearch.Proofs.Expr.Build

/-! # Conditions

One-bit expressions stand for conditions. The constructors that join them never fail on such
expressions, and give a condition that holds where it should.
-/

namespace PathSearch.Expr

open Word

/-- A well-formed expression of one bit. -/
def IsBit (e : Expr) : Prop := e.WellFormed ∧ e.width = 1

theorem IsBit.value_cases {e : Expr} (h : e.IsBit) (σ : Assignment) :
    e.value σ = 0 ∨ e.value σ = 1 := by
  have small := h.1.value_lt σ
  rw [h.2] at small
  have number : (e.value σ).toNat = 0 ∨ (e.value σ).toNat = 1 := by omega
  rcases number with zero | one
  · exact .inl (UInt64.toNat_inj.mp zero)
  · exact .inr (UInt64.toNat_inj.mp one)

/-- The negation of a condition holds where the condition does not. -/
theorem value_lnot {c negated : Expr} (hc : c.IsBit) (built : c.lnot = .ok negated) (σ : Assignment) :
    negated.value σ = 1 ↔ c.value σ ≠ 1 := by
  have value := (lnot_denotes hc.1 built).some_value σ
  rcases hc.value_cases σ with zero | one
  · rw [zero] at value ⊢
    rw [Option.some.inj value]
    decide
  · rw [one] at value ⊢
    rw [Option.some.inj value]
    decide

theorem expectWidth_self (operation : String) (width : Nat) :
    expectWidth operation width width = .ok () := by simp [expectWidth]

theorem checkWidth_total {width : Nat} (pos : 0 < width) (atMost : width ≤ 64) :
    checkWidth width = .ok () := by
  have inside : ¬ (width = 0 ∨ maxWidth < width) := by
    simp only [maxWidth]
    omega
  rw [checkWidth, if_neg inside]

theorem mkBinary_total {op : Op} {l r : Expr} (binary : op.isUnary = false) (same : l.width = r.width) :
    mkBinary op l r = .ok (applyBinary op l r) := by
  simp only [mkBinary, binary, same, expectWidth_self]
  rfl

theorem foldBinary_and_bit {a b : Word} (ha : a = 0 ∨ a = 1) (hb : b = 0 ∨ b = 1) :
    Op.and.foldBinary a b 1 = some (ofBool (a = 1 ∧ b = 1)) := by
  rcases ha with rfl | rfl <;> rcases hb with rfl | rfl <;> decide

theorem foldBinary_or_bit {a b : Word} (ha : a = 0 ∨ a = 1) (hb : b = 0 ∨ b = 1) :
    Op.or.foldBinary a b 1 = some (ofBool (a = 1 ∨ b = 1)) := by
  rcases ha with rfl | rfl <;> rcases hb with rfl | rfl <;> decide

theorem ofBool_eq_one_iff {b : Bool} : ofBool b = 1 ↔ b = true := by
  cases b <;> decide

theorem land_total {a b : Expr} (ha : a.IsBit) (hb : b.IsBit) :
    land a b = .ok (applyBinary .and a b) := by
  have built : mkBinary .and a b = .ok (applyBinary .and a b) :=
    mkBinary_total rfl (ha.2.trans hb.2.symm)
  rw [land, ha.2, expectWidth_self]
  exact built

theorem lor_total {a b : Expr} (ha : a.IsBit) (hb : b.IsBit) :
    lor a b = .ok (applyBinary .or a b) := by
  have built : mkBinary .or a b = .ok (applyBinary .or a b) :=
    mkBinary_total rfl (ha.2.trans hb.2.symm)
  rw [lor, ha.2, expectWidth_self]
  exact built

/-- Both conditions hold. -/
theorem land_bit {a b : Expr} (ha : a.IsBit) (hb : b.IsBit) :
    ∃ e, land a b = .ok e ∧ e.IsBit ∧ ∀ σ, e.value σ = 1 ↔ a.value σ = 1 ∧ b.value σ = 1 := by
  have built := land_total ha hb
  have denotes := land_denotes ha.1 hb.1 built
  refine ⟨_, built, ⟨denotes.wellFormed, denotes.width_eq⟩, fun σ => ?_⟩
  have value := denotes.some_value σ
  rw [foldBinary_and_bit (ha.value_cases σ) (hb.value_cases σ)] at value
  rw [Option.some.inj value, ofBool_eq_one_iff, decide_eq_true_iff]

/-- One of the conditions holds. -/
theorem lor_bit {a b : Expr} (ha : a.IsBit) (hb : b.IsBit) :
    ∃ e, lor a b = .ok e ∧ e.IsBit ∧ ∀ σ, e.value σ = 1 ↔ a.value σ = 1 ∨ b.value σ = 1 := by
  have built := lor_total ha hb
  have denotes := lor_denotes ha.1 hb.1 built
  refine ⟨_, built, ⟨denotes.wellFormed, denotes.width_eq⟩, fun σ => ?_⟩
  have value := denotes.some_value σ
  rw [foldBinary_or_bit (ha.value_cases σ) (hb.value_cases σ)] at value
  rw [Option.some.inj value, ofBool_eq_one_iff, decide_eq_true_iff]

theorem mkUnary_total {op : Op} (unary : op.isUnary = true) (x : Expr) :
    mkUnary op x = .ok (applyUnary op x) := by rw [mkUnary, if_pos unary]

theorem isUnary_of_negated {op opposite : Op} (h : op.negated? = some opposite) :
    opposite.isUnary = false := by
  cases op <;> simp [Op.negated?] at h <;> subst h <;> rfl

/-- The condition does not hold. -/
theorem lnot_bit {c : Expr} (hc : c.IsBit) :
    ∃ e, lnot c = .ok e ∧ e.IsBit ∧ ∀ σ, e.value σ = 1 ↔ c.value σ ≠ 1 := by
  obtain ⟨e, built⟩ : ∃ e, lnot c = .ok e := by
    have complement : ∃ e, mkUnary .not c = .ok e := ⟨_, mkUnary_total rfl c⟩
    unfold lnot
    simp only [hc.2, expectWidth_self, bind, Except.bind]
    split
    · split
      · rename_i negated
        exact ⟨_, mkBinary_total (isUnary_of_negated negated) hc.1.2.1⟩
      · exact complement
    · exact complement
  have denotes := lnot_denotes hc.1 built
  exact ⟨e, built, ⟨denotes.wellFormed, denotes.width_eq⟩, value_lnot hc built⟩

/-- Two expressions have one value. -/
theorem equals_bit {a b : Expr} (ha : a.WellFormed) (hb : b.WellFormed) (same : a.width = b.width) :
    ∃ e, equals a b = .ok e ∧ e.IsBit ∧ ∀ σ, e.value σ = 1 ↔ a.value σ = b.value σ := by
  have built : equals a b = .ok (applyBinary .eq a b) := mkBinary_total rfl same
  have denotes := equals_denotes ha hb built
  refine ⟨_, built, ⟨denotes.wellFormed, denotes.width_eq⟩, fun σ => ?_⟩
  have value := denotes.some_value σ
  rw [Op.foldBinary_eq_ofBool ha.width_pos ha.width_le (ha.value_lt σ) (same ▸ hb.value_lt σ)] at value
  rw [Option.some.inj value, ofBool_eq_one_iff, beq_iff_eq]

/-- One of two expressions, as a condition tells. -/
theorem mkIte_bit {c y n : Expr} (hc : c.IsBit) (hy : y.WellFormed) (hn : n.WellFormed)
    (same : y.width = n.width) :
    ∃ e, mkIte c y n = .ok e ∧ e.WellFormed ∧ e.width = y.width ∧
      ∀ σ, e.value σ = if c.value σ = 1 then y.value σ else n.value σ := by
  obtain ⟨e, built⟩ : ∃ e, mkIte c y n = .ok e := by
    simp only [mkIte, hc.2, same, expectWidth_self]
    exact ⟨_, rfl⟩
  have denotes := mkIte_denotes hc.1 hy hn built
  exact ⟨e, built, denotes.wellFormed, denotes.width_eq, fun σ => Option.some.inj (denotes.some_value σ)⟩

end PathSearch.Expr
