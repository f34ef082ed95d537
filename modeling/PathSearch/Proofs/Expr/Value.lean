import PathSearch.Expr.Eval
import PathSearch.Proofs.Graph
import PathSearch.Proofs.Op

/-! # Well-formed expressions and their values

Evaluation with one visit per part gives what evaluation by recursion gives. An expression whose
widths agree has a value under every assignment, and the value fits the width.
-/

namespace PathSearch.Expr

open Word

/-- The value of a node depends on the values of its operands only. -/
theorem nodeValue_eq_eval (b : Bindings) {value : Expr → Option Word} {e : Expr}
    (operands : ∀ x ∈ e.operands, value x = x.eval b) : nodeValue b value e = e.eval b := by
  cases e <;> simp_all [Expr.operands, nodeValue, eval]

theorem recordValue_eq (b : Bindings) :
    recordValue b = Graph.record fun values => nodeValue b (values[·]?) := by
  funext values node
  rw [recordValue, Graph.record]
  cases nodeValue b (values[·]?) node <;> rfl

/-- The values recorded in a walk that lists operands first are those of the nodes it lists. -/
theorem foldl_recordValue (b : Bindings) {order : List Expr}
    (h : graph.OperandsFirst (fun _ => false) order) (e : Expr) :
    (order.foldl (recordValue b) ∅)[e]? = if e ∈ order then e.eval b else none := by
  rw [recordValue_eq]
  apply Graph.foldl_record h
  intro values v operands
  exact nodeValue_eq_eval b operands

theorem evaluate_eq_eval (b : Bindings) (e : Expr) : e.evaluate b = e.eval b := by
  have ordered := graph.operandsFirst_postOrderWhere (fun _ => false) e
  have listed : e ∈ (graph.postOrderWhere (fun _ => false) e).toList :=
    graph.mem_postOrderWhere rfl
  simp only [evaluate, shareParts_eq, Graph.postOrder, ← Array.foldl_toList]
  rw [foldl_recordValue b ordered, if_pos listed]

/-- A value for every variable. -/
abbrev Assignment := String → Word

/-- The bindings that leave no variable open. -/
def Assignment.bindings (σ : Assignment) : Bindings := fun name => some (σ name)

/-- The value under an assignment. -/
def value (σ : Assignment) (e : Expr) : Word := (e.evaluate σ.bindings).getD 0

/-- The widths of the parts agree with the operation that joins them, and constants fit their
    width. -/
def WellFormed : Expr → Prop
  | .const v bits => 0 < bits ∧ bits ≤ 64 ∧ v.toNat < 2 ^ bits
  | .var _ bits => 0 < bits ∧ bits ≤ 64
  | .unary op x => op.isUnary = true ∧ x.WellFormed
  | .binary op l r => op.isUnary = false ∧ l.width = r.width ∧ l.WellFormed ∧ r.WellFormed
  | .ite c y n => c.width = 1 ∧ y.width = n.width ∧ c.WellFormed ∧ y.WellFormed ∧ n.WellFormed
  | .extract high low x => low ≤ high ∧ high < x.width ∧ x.WellFormed
  | .zext x bits => x.width ≤ bits ∧ bits ≤ 64 ∧ x.WellFormed
  | .sext x bits => x.width ≤ bits ∧ bits ≤ 64 ∧ x.WellFormed
  | .concat h l => h.width + l.width ≤ 64 ∧ h.WellFormed ∧ l.WellFormed

theorem WellFormed.of_mem_operands {e x : Expr} (h : e.WellFormed) (part : x ∈ e.operands) :
    x.WellFormed := by
  cases e <;> simp only [operands, List.mem_cons, List.not_mem_nil, or_false] at part <;>
    simp only [WellFormed] at h <;> grind

theorem WellFormed.width_bounds {e : Expr} (h : e.WellFormed) : 0 < e.width ∧ e.width ≤ 64 := by
  induction e with
  | const v bits => exact ⟨h.1, h.2.1⟩
  | var name bits => exact h
  | unary op x ih => exact ih h.2
  | binary op l r ihl _ =>
      have := ihl h.2.2.1
      simp only [width]
      split <;> omega
  | ite c y n _ ihy _ => exact ihy h.2.2.2.1
  | extract high low x ih =>
      obtain ⟨ordered, inside, hx⟩ := h
      have := ih hx
      simp only [width]
      omega
  | zext x bits ih | sext x bits ih =>
      obtain ⟨wider, atMost, hx⟩ := h
      have := ih hx
      simp only [width]
      omega
  | concat hi lo ihh ihl =>
      obtain ⟨atMost, hh, hl⟩ := h
      have := ihh hh
      simp only [width]
      omega

theorem WellFormed.width_pos {e : Expr} (h : e.WellFormed) : 0 < e.width := h.width_bounds.1

theorem WellFormed.width_le {e : Expr} (h : e.WellFormed) : e.width ≤ 64 := h.width_bounds.2

/-- A well-formed expression has a value that fits its width. -/
theorem WellFormed.eval_lt {e : Expr} (h : e.WellFormed) (σ : Assignment) :
    ∃ v, e.eval σ.bindings = some v ∧ v.toNat < 2 ^ e.width := by
  induction e with
  | const v bits => exact ⟨v, rfl, h.2.2⟩
  | var name bits =>
      exact ⟨truncate bits (σ name), rfl, toNat_truncate_lt h.2 _⟩
  | unary op x ih =>
      obtain ⟨unary, hx⟩ := h
      obtain ⟨v, hv, -⟩ := ih hx
      have folded := Op.foldUnary_eq hx.width_le unary v
      exact ⟨_, by simpa [eval, hv] using folded, Op.foldUnary_lt hx.width_le folded⟩
  | binary op l r ihl ihr =>
      obtain ⟨binary, same, hl, hr⟩ := h
      obtain ⟨a, ha, -⟩ := ihl hl
      obtain ⟨b, hb, -⟩ := ihr hr
      have folded := Op.foldBinary_eq hl.width_pos hl.width_le binary a b
      exact ⟨_, by simpa [eval, ha, hb] using folded,
        Op.foldBinary_lt hl.width_pos hl.width_le binary folded⟩
  | ite c y n ihc ihy ihn =>
      obtain ⟨_, same, hc, hy, hn⟩ := h
      obtain ⟨vc, evalC, -⟩ := ihc hc
      obtain ⟨vy, evalY, ltY⟩ := ihy hy
      obtain ⟨vn, evalN, ltN⟩ := ihn hn
      by_cases taken : vc = 1
      · exact ⟨vy, by simp [eval, evalC, taken, evalY], ltY⟩
      · exact ⟨vn, by simp [eval, evalC, taken, evalN], same ▸ ltN⟩
  | extract high low x ih =>
      obtain ⟨ordered, inside, hx⟩ := h
      obtain ⟨v, hv, -⟩ := ih hx
      have atMost : high - low + 1 ≤ 64 := by have := hx.width_le; omega
      exact ⟨truncate (high - low + 1) (v >>> UInt64.ofNat low), by simp [eval, hv],
        toNat_truncate_lt atMost _⟩
  | zext x bits ih =>
      obtain ⟨wider, atMost, hx⟩ := h
      obtain ⟨v, hv, lt⟩ := ih hx
      exact ⟨v, hv, Nat.lt_of_lt_of_le lt (Nat.pow_le_pow_right (by omega) wider)⟩
  | sext x bits ih =>
      obtain ⟨wider, atMost, hx⟩ := h
      obtain ⟨v, hv, -⟩ := ih hx
      exact ⟨truncate bits (ofSigned (toSigned x.width v)), by simp [eval, hv],
        toNat_truncate_lt atMost _⟩
  | concat hi lo ihh ihl =>
      obtain ⟨atMost, hh, hl⟩ := h
      obtain ⟨a, ha, ltA⟩ := ihh hh
      obtain ⟨b, hb, ltB⟩ := ihl hl
      refine ⟨(a <<< UInt64.ofNat lo.width) ||| b, by simp [eval, ha, hb], ?_⟩
      rw [toNat_shiftLeft_or hh.width_pos atMost ltA ltB]
      exact concat_lt ltA ltB

section Value

variable {σ : Assignment}

theorem WellFormed.evaluate_eq {e : Expr} (h : e.WellFormed) (σ : Assignment) :
    e.evaluate σ.bindings = some (e.value σ) := by
  obtain ⟨v, hv, -⟩ := h.eval_lt σ
  simp [value, evaluate_eq_eval, hv]

theorem WellFormed.value_lt {e : Expr} (h : e.WellFormed) (σ : Assignment) :
    (e.value σ).toNat < 2 ^ e.width := by
  obtain ⟨v, hv, lt⟩ := h.eval_lt σ
  simpa [value, evaluate_eq_eval, hv] using lt

theorem WellFormed.eval_eq {e : Expr} (h : e.WellFormed) (σ : Assignment) :
    e.eval σ.bindings = some (e.value σ) := by
  rw [← evaluate_eq_eval, h.evaluate_eq]

@[simp] theorem value_const (v : Word) (bits : Nat) : (const v bits).value σ = v := by
  simp [value, evaluate_eq_eval, eval]

@[simp] theorem value_var (name : String) (bits : Nat) :
    (var name bits).value σ = truncate bits (σ name) := by
  simp [value, evaluate_eq_eval, eval, Assignment.bindings]

theorem WellFormed.value_unary {op : Op} {x : Expr} (h : (unary op x).WellFormed) :
    op.foldUnary (x.value σ) x.width = some ((unary op x).value σ) := by
  have := h.eval_eq σ
  simpa [eval, h.2.eval_eq] using this

theorem WellFormed.value_binary {op : Op} {l r : Expr} (h : (binary op l r).WellFormed) :
    op.foldBinary (l.value σ) (r.value σ) l.width = some ((binary op l r).value σ) := by
  have := h.eval_eq σ
  simpa [eval, h.2.2.1.eval_eq, h.2.2.2.eval_eq] using this

theorem WellFormed.value_ite {c y n : Expr} (h : (ite c y n).WellFormed) :
    (ite c y n).value σ = if c.value σ = 1 then y.value σ else n.value σ := by
  obtain ⟨_, _, hc, hy, hn⟩ := id h
  have whole := h.eval_eq σ
  simp only [eval, hc.eval_eq, hy.eval_eq, hn.eval_eq, Option.bind_eq_bind, Option.bind_some,
    ← apply_ite some, Option.some.injEq] at whole
  exact whole.symm

theorem WellFormed.value_extract {high low : Nat} {x : Expr} (h : (extract high low x).WellFormed) :
    (extract high low x).value σ =
      truncate (high - low + 1) (x.value σ >>> UInt64.ofNat low) := by
  have := h.eval_eq σ
  simpa [eval, h.2.2.eval_eq] using this.symm

@[simp] theorem value_zext (x : Expr) (bits : Nat) : (zext x bits).value σ = x.value σ := by
  simp [value, evaluate_eq_eval, eval]

theorem WellFormed.value_sext {x : Expr} {bits : Nat} (h : (sext x bits).WellFormed) :
    (sext x bits).value σ = truncate bits (ofSigned (toSigned x.width (x.value σ))) := by
  have := h.eval_eq σ
  simpa [eval, h.2.2.eval_eq] using this.symm

theorem WellFormed.value_concat {hi lo : Expr} (h : (concat hi lo).WellFormed) :
    (concat hi lo).value σ = (hi.value σ <<< UInt64.ofNat lo.width) ||| lo.value σ := by
  have := h.eval_eq σ
  simpa [eval, h.2.1.eval_eq, h.2.2.eval_eq] using this.symm

/-- A slice, as numbers. -/
theorem WellFormed.toNat_value_extract {high low : Nat} {x : Expr}
    (h : (extract high low x).WellFormed) :
    ((extract high low x).value σ).toNat =
      (x.value σ).toNat / 2 ^ low % 2 ^ (high - low + 1) := by
  obtain ⟨ordered, inside, hx⟩ := id h
  have := hx.width_le
  have small : low % 2 ^ 64 % 64 = low := by omega
  rw [h.value_extract, toNat_truncate (by omega), UInt64.toNat_shiftRight, UInt64.toNat_ofNat',
    small, Nat.shiftRight_eq_div_pow]

/-- A concatenation, as numbers. -/
theorem WellFormed.toNat_value_concat {hi lo : Expr} (h : (concat hi lo).WellFormed) :
    ((concat hi lo).value σ).toNat = (hi.value σ).toNat * 2 ^ lo.width + (lo.value σ).toNat := by
  obtain ⟨atMost, hh, hl⟩ := id h
  rw [h.value_concat, toNat_shiftLeft_or hh.width_pos atMost (hh.value_lt σ) (hl.value_lt σ)]

end Value

end PathSearch.Expr
