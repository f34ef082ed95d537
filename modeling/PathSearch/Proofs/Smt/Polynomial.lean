import Mathlib.Data.List.Basic
import Mathlib.Data.Nat.ModEq
import Mathlib.Tactic.Ring
import PathSearch.Smt.Polynomial

/-! # The numbers that polynomials stand for

Where atoms stand for numbers so do monomials and polynomials. What is computed on polynomials of a width
is computed on these numbers modulo `2 ^ width`.
-/

namespace PathSearch.Smt

/-- The number that a monomial stands for. -/
def Monomial.eval (ρ : Nat → Nat) : Monomial → Nat
  | [] => 1
  | i :: m => ρ i * Monomial.eval ρ m

theorem Monomial.eval_append (ρ : Nat → Nat) (m n : Monomial) :
    Monomial.eval ρ (m ++ n) = m.eval ρ * n.eval ρ := by
  induction m with
  | nil => simp [eval]
  | cons i m ih => rw [List.cons_append, eval, ih, eval, Nat.mul_assoc]

theorem Monomial.eval_perm {ρ : Nat → Nat} {m n : Monomial} (same : m.Perm n) : m.eval ρ = n.eval ρ := by
  induction same with
  | nil => rfl
  | cons i _ ih => rw [eval, eval, ih]
  | swap i j m => exact Nat.mul_left_comm ..
  | trans _ _ first second => exact first.trans second

theorem Monomial.eval_mul (ρ : Nat → Nat) (m n : Monomial) : (m.mul n).eval ρ = m.eval ρ * n.eval ρ :=
  (eval_perm (List.merge_perm_append ..)).trans (eval_append ρ m n)

namespace Polynomial

/-- The number that terms stand for. -/
def sumOf (ρ : Nat → Nat) : List (Monomial × Nat) → Nat
  | [] => 0
  | (m, k) :: rest => k * m.eval ρ + sumOf ρ rest

/-- The number that a polynomial stands for. -/
def eval (ρ : Nat → Nat) (p : Polynomial) : Nat := sumOf ρ p.terms

variable {ρ : Nat → Nat} {w : Nat} {m : Monomial} {p q : Polynomial}

theorem sumOf_addTerm (k : Nat) (terms : List (Monomial × Nat)) :
    sumOf ρ (addTerm w m k terms) ≡ k * m.eval ρ + sumOf ρ terms [MOD 2 ^ w] := by
  have cut (k : Nat) : k % 2 ^ w * m.eval ρ ≡ k * m.eval ρ [MOD 2 ^ w] :=
    (Nat.mod_modEq k _).mul_right _
  have gone {k : Nat} (zero : k % 2 ^ w = 0) : 0 ≡ k * m.eval ρ [MOD 2 ^ w] := by
    simpa [zero] using cut k
  induction terms with
  | nil =>
      simp only [addTerm, Nat.pow_eq]
      split
      · rename_i zero
        exact gone zero
      · exact cut k
  | cons term rest ih =>
      obtain ⟨n, j⟩ := term
      simp only [addTerm, Nat.pow_eq]
      split
      · rename_i same
        subst same
        have both : k * m.eval ρ + sumOf ρ ((m, j) :: rest) = (k + j) * m.eval ρ + sumOf ρ rest := by
          rw [sumOf]
          ring
        rw [both]
        split
        · rename_i zero
          simpa using (gone zero).add_right (sumOf ρ rest)
        · exact (cut (k + j)).add_right _
      split
      · split
        · rename_i zero
          simpa using (gone zero).add_right (sumOf ρ ((n, j) :: rest))
        · exact (cut k).add_right _
      · calc sumOf ρ ((n, j) :: addTerm w m k rest)
            = j * n.eval ρ + sumOf ρ (addTerm w m k rest) := rfl
          _ ≡ j * n.eval ρ + (k * m.eval ρ + sumOf ρ rest) [MOD 2 ^ w] := ih.add_left _
          _ = k * m.eval ρ + sumOf ρ ((n, j) :: rest) := by
              rw [sumOf]
              ring

theorem eval_const (k : Nat) : (const w k).eval ρ ≡ k [MOD 2 ^ w] := by
  simpa [eval, const, sumOf, Monomial.eval] using sumOf_addTerm (ρ := ρ) (w := w) (m := []) k []

theorem eval_atom (i : Nat) : (atom i).eval ρ = ρ i := by
  simp [eval, atom, sumOf, Monomial.eval]

theorem eval_addScaled (p q : Polynomial) (m : Monomial) (k : Nat) :
    (addScaled w p m k q).eval ρ ≡ p.eval ρ + k * m.eval ρ * q.eval ρ [MOD 2 ^ w] := by
  have fold (terms sum : List (Monomial × Nat)) :
      sumOf ρ (terms.foldl (fun ts x => addTerm w (m.mul x.1) (k * x.2) ts) sum) ≡
        sumOf ρ sum + k * m.eval ρ * sumOf ρ terms [MOD 2 ^ w] := by
    induction terms generalizing sum with
    | nil => exact Nat.ModEq.refl _
    | cons term rest ih =>
        obtain ⟨n, j⟩ := term
        refine (ih _).trans (((sumOf_addTerm _ sum).add_right _).trans ?_)
        rw [Monomial.eval_mul, sumOf]
        ring_nf
        exact Nat.ModEq.refl _
  exact fold q.terms p.terms

theorem eval_add (p q : Polynomial) : (add w p q).eval ρ ≡ p.eval ρ + q.eval ρ [MOD 2 ^ w] := by
  simpa [add, Monomial.eval] using eval_addScaled (ρ := ρ) (w := w) p q [] 1

theorem eval_scale (k : Nat) (p : Polynomial) : (scale w k p).eval ρ ≡ k * p.eval ρ [MOD 2 ^ w] := by
  simpa [scale, Monomial.eval, eval, sumOf] using eval_addScaled (ρ := ρ) (w := w) {} p [] k

theorem eval_neg (p : Polynomial) :
    (neg w p).eval ρ ≡ (2 ^ w - 1) * p.eval ρ [MOD 2 ^ w] :=
  eval_scale ..

theorem eval_sub (p q : Polynomial) :
    (sub w p q).eval ρ ≡ p.eval ρ + (2 ^ w - 1) * q.eval ρ [MOD 2 ^ w] := by
  simpa [sub, Monomial.eval] using eval_addScaled (ρ := ρ) (w := w) p q [] (2 ^ w - 1)

theorem eval_mul (p q : Polynomial) : (mul w p q).eval ρ ≡ p.eval ρ * q.eval ρ [MOD 2 ^ w] := by
  have fold (terms : List (Monomial × Nat)) (r : Polynomial) :
      (terms.foldl (fun r x => addScaled w r x.1 x.2 q) r).eval ρ ≡
        r.eval ρ + sumOf ρ terms * q.eval ρ [MOD 2 ^ w] := by
    induction terms generalizing r with
    | nil => simp [sumOf, Nat.ModEq.refl]
    | cons term rest ih =>
        obtain ⟨m, k⟩ := term
        refine (ih _).trans (((eval_addScaled r q m k).add_right _).trans ?_)
        rw [sumOf]
        ring_nf
        exact Nat.ModEq.refl _
  simpa [mul, eval, sumOf] using fold p.terms {}

theorem eval_of_const? {k : Nat} (constant : p.const? = some k) : p.eval ρ = k := by
  obtain ⟨terms⟩ := p
  unfold const? at constant
  split at constant
  · rename_i none
    cases none
    exact Option.some.inj constant
  · rename_i one
    cases one
    simpa [eval, sumOf, Monomial.eval] using constant
  · cases constant

end Polynomial

end PathSearch.Smt
