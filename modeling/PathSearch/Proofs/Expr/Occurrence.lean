import PathSearch.Expr.Variables
import PathSearch.Proofs.Expr.Value

/-! # The variables of an expression

The value of an expression depends on the variables that occur in it and on nothing else. A value
that is there with some variables left open stays the same when more of them get a value.
-/

namespace PathSearch.Expr

/-- The variables with the widths at which they occur, from left to right. -/
def occurrences : Expr → List (String × Nat)
  | .const _ _ => []
  | .var name bits => [(name, bits)]
  | .unary _ x | .extract _ _ x | .zext x _ | .sext x _ => x.occurrences
  | .binary _ l r | .concat l r => l.occurrences ++ r.occurrences
  | .ite c y n => c.occurrences ++ (y.occurrences ++ n.occurrences)

def Mentions (e : Expr) (name : String) : Prop := ∃ bits, (name, bits) ∈ e.occurrences

theorem mem_occurrences_iff {e : Expr} {p : String × Nat} :
    p ∈ e.occurrences ↔ e = .var p.1 p.2 ∨ ∃ x ∈ e.operands, p ∈ x.occurrences := by
  cases e with
  | var name bits =>
      obtain ⟨n, w⟩ := p
      simp only [occurrences, operands, List.mem_singleton, Prod.mk.injEq, var.injEq,
        List.not_mem_nil, false_and, exists_false, or_false]
      exact and_congr eq_comm eq_comm
  | _ => simp [occurrences, operands]

theorem occurrences_of_mem_operands {e x : Expr} (hx : x ∈ e.operands) {p : String × Nat}
    (hp : p ∈ x.occurrences) : p ∈ e.occurrences :=
  mem_occurrences_iff.mpr (.inr ⟨x, hx, hp⟩)

theorem Mentions.of_mem_operands {e x : Expr} (hx : x ∈ e.operands) {name : String}
    (h : x.Mentions name) : e.Mentions name := by
  obtain ⟨bits, hp⟩ := h
  exact ⟨bits, occurrences_of_mem_operands hx hp⟩

theorem mentions_var_iff {name other : String} {bits : Nat} :
    (var other bits).Mentions name ↔ name = other := by
  simp [Mentions, occurrences]

/-- What occurs in an expression is the expression itself or occurs in an operand. -/
theorem mentions_iff {e : Expr} {name : String} :
    e.Mentions name ↔ (∃ bits, e = .var name bits) ∨ ∃ x ∈ e.operands, x.Mentions name := by
  constructor
  · rintro ⟨bits, occurs⟩
    rcases mem_occurrences_iff.mp occurs with here | ⟨x, hx, below⟩
    · exact .inl ⟨bits, here⟩
    · exact .inr ⟨x, hx, bits, below⟩
  · rintro (⟨bits, rfl⟩ | ⟨x, hx, below⟩)
    · exact mentions_var_iff.mpr rfl
    · exact below.of_mem_operands hx

section Values

variable {b b' : Bindings}

/-- The value depends on the variables that occur. -/
theorem eval_congr {e : Expr} (agree : ∀ name, e.Mentions name → b name = b' name) :
    e.eval b = e.eval b' := by
  have operands : ∀ x ∈ e.operands, x.eval b' = x.eval b := by
    intro x hx
    exact (eval_congr fun name h => agree name (h.of_mem_operands hx)).symm
  rw [← nodeValue_eq_eval b operands, ← nodeValue_eq_eval b' fun _ _ => rfl]
  cases e with
  | var name bits => simp only [nodeValue, agree name ⟨bits, by simp [occurrences]⟩]
  | _ => rfl
termination_by e
decreasing_by exact sizeOf_lt_of_mem_operands hx

theorem value_congr {σ τ : Assignment} {e : Expr} (agree : ∀ name, e.Mentions name → σ name = τ name) :
    e.value σ = e.value τ := by
  have same : e.eval σ.bindings = e.eval τ.bindings :=
    eval_congr fun name h => congrArg some (agree name h)
  rw [value, value, evaluate_eq_eval, evaluate_eq_eval, same]

/-- More bindings keep a value that is there. -/
theorem eval_mono {e : Expr} {v : Word} (more : ∀ name x, b name = some x → b' name = some x)
    (h : e.eval b = some v) : e.eval b' = some v := by
  induction e generalizing v with
  | const x bits => exact h
  | var name bits =>
      obtain ⟨x, bound, rfl⟩ := Option.map_eq_some_iff.mp h
      rw [eval, more name x bound, Option.map_some]
  | zext x bits ih => exact ih h
  | unary op x ih | extract high low x ih | sext x bits ih =>
      obtain ⟨a, ha, rest⟩ := Option.bind_eq_some_iff.mp h
      exact Option.bind_eq_some_iff.mpr ⟨a, ih ha, rest⟩
  | binary op l r ihl ihr | concat l r ihl ihr =>
      obtain ⟨a, ha, rest⟩ := Option.bind_eq_some_iff.mp h
      obtain ⟨c, hc, rest⟩ := Option.bind_eq_some_iff.mp rest
      exact Option.bind_eq_some_iff.mpr ⟨a, ihl ha, Option.bind_eq_some_iff.mpr ⟨c, ihr hc, rest⟩⟩
  | ite c y n ihc ihy ihn =>
      obtain ⟨a, ha, rest⟩ := Option.bind_eq_some_iff.mp h
      refine Option.bind_eq_some_iff.mpr ⟨a, ihc ha, ?_⟩
      split at rest
      · rename_i taken
        rw [if_pos taken]
        exact ihy rest
      · rename_i other
        rw [if_neg other]
        exact ihn rest

/-- The assignment that gives 0 to the variables that bindings leave open. -/
def Bindings.close (b : Bindings) : Assignment := fun name => (b name).getD 0

theorem evaluate_close {e : Expr} {v : Word} (h : e.evaluate b = some v) :
    e.evaluate (Bindings.close b).bindings = some v := by
  rw [evaluate_eq_eval] at h ⊢
  refine eval_mono (fun name x bound => ?_) h
  rw [Assignment.bindings, Bindings.close, bound, Option.getD_some]

end Values

end PathSearch.Expr
