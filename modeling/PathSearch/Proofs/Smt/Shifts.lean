import PathSearch.Proofs.Smt.Arithmetic

/-! # Shifts

Literals are moved by a number of places that is given in literals: one bit of the number after the other
moves them by its place value.
-/

namespace PathSearch.Smt

/-- What moving by some number of places does to the numbers of a width. Past the width only the fill is
    left, and two moves are one by the sum. -/
structure Moving (width : Nat) (fill : Bool) (S : Nat → Nat → Nat) : Prop where
  zero : ∀ {x}, x < 2 ^ width → S 0 x = x
  add : ∀ {n k x}, x < 2 ^ width → S n (S k x) = S (k + n) x
  past : ∀ {n x}, x < 2 ^ width → width ≤ n → S n x = if fill then 2 ^ width - 1 else 0

/-- Moving past the width does not move more than moving by the width. -/
theorem Moving.min {width : Nat} {fill : Bool} {S : Nat → Nat → Nat} (moving : Moving width fill S) {n x : Nat}
    (small : x < 2 ^ width) : S (min n width) x = S n x := by
  rcases Nat.le_total n width with le | le
  · rw [Nat.min_eq_left le]
  · rw [Nat.min_eq_right le, moving.past small (Nat.le_refl _), moving.past small le]

theorem moving_up (width : Nat) : Moving width false fun n x => x * 2 ^ n % 2 ^ width where
  zero small := by rw [Nat.pow_zero, Nat.mul_one, Nat.mod_eq_of_lt small]
  add {n k x} _ := by rw [Nat.mod_mul_mod, Nat.mul_assoc, ← Nat.pow_add]
  past {n x} _ le := by
    rw [if_neg Bool.false_ne_true, ← Nat.add_sub_of_le le, Nat.pow_add, Nat.mul_left_comm]
    exact Nat.mul_mod_right ..

theorem moving_down (width : Nat) : Moving width false fun n x => x / 2 ^ n where
  zero _ := by rw [Nat.pow_zero, Nat.div_one]
  add {n k x} _ := by rw [Nat.div_div_eq_div_mul, ← Nat.pow_add]
  past small le := by
    rw [if_neg Bool.false_ne_true]
    exact Nat.div_eq_of_lt (small.trans_le (Nat.pow_le_pow_right Nat.two_pos le))

/-- Ones that come in from the top are zeros that come into the complement. -/
theorem moving_down_ones (width : Nat) :
    Moving width true fun n x => 2 ^ width - 1 - (2 ^ width - 1 - x) / 2 ^ n where
  zero small := by
    rw [Nat.pow_zero, Nat.div_one]
    omega
  add {n k x} _ := by
    have := Nat.div_le_self (2 ^ width - 1 - x) (2 ^ k)
    rw [Nat.sub_sub_self (by omega), Nat.div_div_eq_div_mul, ← Nat.pow_add]
  past {n x} small le := by
    have := Nat.pow_le_pow_right Nat.two_pos le
    rw [if_pos rfl, Nat.div_eq_of_lt (by omega), Nat.sub_zero]

/-- A number with ones in front, without its last places. -/
theorem div_ones {width x : Nat} (small : x < 2 ^ width) (n : Nat) :
    (x + 2 ^ width * (2 ^ n - 1)) / 2 ^ n = 2 ^ width - 1 - (2 ^ width - 1 - x) / 2 ^ n := by
  have positive := Nat.two_pow_pos n
  generalize 2 ^ width = M at *
  generalize 2 ^ n = B at *
  have parts := Nat.div_add_mod (M - 1 - x) B
  have rest := Nat.mod_lt (M - 1 - x) positive
  have quotient := Nat.div_le_self (M - 1 - x) B
  generalize (M - 1 - x) / B = q at *
  generalize (M - 1 - x) % B = r at *
  have ones : M * (B - 1) + M = B * M := by
    rw [← Nat.mul_succ, Nat.succ_eq_add_one, Nat.sub_add_cancel positive, Nat.mul_comm]
  have complement : B * (M - 1 - q) + B * q + B = B * M := by
    rw [← Nat.mul_add, ← Nat.mul_succ]
    congr 1
    omega
  have same : x + M * (B - 1) = B * (M - 1 - q) + (B - 1 - r) := by omega
  rw [same, Nat.mul_add_div positive, Nat.div_eq_of_lt (by omega), Nat.add_zero]

namespace World

open Labelled Circuit

variable {m : Model} {W : World m} {a b : List Lit} {l : Lit} {width x n : Nat}

theorem moveUp_shows (ha : W.Shows width a x) (n : Nat) :
    W.Shows width (moveUp n Lit.no a) (x * 2 ^ n % 2 ^ width) := by
  have long := ((Shows.replicate W.no n).append ha).take width
  rw [Nat.min_eq_left (Nat.le_add_left ..)] at long
  rw [moveUp, ha.length_eq]
  exact long.is (by rw [if_neg Bool.false_ne_true, Nat.zero_add, Nat.mul_comm])

theorem moveDown_shows (ha : W.Shows width a x) {fill : Bool} (hl : W.Bit l fill) (n : Nat) :
    W.Shows width (moveDown n l a) ((x + 2 ^ width * if fill then 2 ^ n - 1 else 0) / 2 ^ n) := by
  have long := (ha.append (Shows.replicate hl n)).drop n
  rwa [Nat.add_sub_cancel] at long

theorem shiftBits_gives {move : Nat → List Lit → List Lit} {fill : Bool} {S : Nat → Nat → Nat}
    {amount : List Lit} {k N place P : Nat} (moving : Moving width fill S)
    (moves : ∀ (V : World m) {bits : List Lit} {x : Nat} (n : Nat), W ≤ V → n < width →
      V.Shows width bits x → V.Shows width (move n bits) (S n x))
    (hl : W.Bit l fill) (hs : W.Shows k amount N) (ha : W.Shows width a x)
    (capped : place = min P (width + 1)) :
    W.Gives (shiftBits move l place amount a) fun V out => V.Shows width out (S (P * N) x) := by
  induction amount generalizing W a k x N place P with
  | nil =>
      cases hs
      exact .pure (ha.is (by rw [Nat.mul_zero, moving.zero ha.lt]))
  | cons s ss ih =>
      obtain _ | @⟨_, p, _, _, N, hs, hss⟩ := hs
      have hmoved : W.Shows width (if a.length ≤ place then a.map fun _ => l else move place a) (S P x) := by
        rw [ha.length_eq]
        split
        · rename_i far
          exact (ha.fill hl).is (moving.past ha.lt (by omega)).symm
        · rename_i near
          have same : place = P := by omega
          rw [← same]
          exact moves W place le_rfl (by omega) ha
      rw [shiftBits]
      refine (muxBits_gives hs hmoved ha).bind fun V next grown hnext => ?_
      refine (ih (P := 2 * P) (fun U _ _ n later => moves U n (grown.trans later)) (grown.bit hl)
        (grown.shows hss) hnext (by rw [ha.length_eq]; omega)).mono fun U out _ hout => hout.is ?_
      cases p
      · rw [if_neg Bool.false_ne_true, Nat.bit_val, Bool.toNat_false]
        ring_nf
      · rw [if_pos rfl, moving.add ha.lt, Nat.bit_val, Bool.toNat_true]
        ring_nf

end World

end PathSearch.Smt
