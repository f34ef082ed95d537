import Mathlib.Data.Nat.Bitwise
import PathSearch.Proofs.Smt.Gates

/-! # Literals that show a number

Literals are the bits of one number, and whatever is cut out of them, put before or after them or turned
round shows the number that the same does to its bits.
-/

namespace PathSearch.Smt

/-- A number is its lowest bit and the rest. -/
theorem bit_parts (n : Nat) : Nat.bit (n.testBit 0) (n / 2) = n := by
  rw [← Nat.shiftRight_one]
  exact Nat.bit_testBit_zero_shiftRight_one n

namespace Labelled

variable {L : Labelled} {width : Nat} {bits : List Lit} {n : Nat} {l : Lit} {b : Bool}

namespace Shows

theorem length_eq (h : L.Shows width bits n) : bits.length = width := by
  induction h with
  | nil => rfl
  | cons _ _ ih => exact congrArg (· + 1) ih

theorem lt (h : L.Shows width bits n) : n < 2 ^ width := by
  induction h with
  | nil => exact Nat.one_pos
  | @cons _ b width _ n _ _ ih =>
      rw [Nat.bit_val, Nat.pow_succ]
      have := b.toNat_lt
      omega

theorem testBit (h : L.Shows width bits n) {i : Nat} (here : bits[i]? = some l) : L.Bit l (n.testBit i) := by
  induction h generalizing i with
  | nil => simp at here
  | @cons k b width bits n first _ ih =>
      cases i with
      | zero =>
          cases here
          rw [Nat.testBit_bit_zero]
          exact first
      | succ i =>
          rw [Nat.testBit_bit_succ]
          exact ih here

/-- Literals that are the bits of a number show it. -/
theorem of_testBit (length : bits.length = width) (small : n < 2 ^ width)
    (each : ∀ i l, bits[i]? = some l → L.Bit l (n.testBit i)) : L.Shows width bits n := by
  induction bits generalizing width n with
  | nil =>
      subst length
      obtain rfl : n = 0 := Nat.lt_one_iff.mp small
      exact .nil
  | cons k bits ih =>
      subst length
      have later : L.Shows bits.length bits (n / 2) := by
        refine ih rfl (Nat.div_lt_of_lt_mul (by rwa [List.length_cons, Nat.pow_succ'] at small)) fun i l here => ?_
        rw [Nat.testBit_div_two]
        exact each (i + 1) l here
      have first : L.Bit k (n.testBit 0) := each 0 k rfl
      exact bit_parts n ▸ .cons first later

theorem unique {n' : Nat} (first : L.Shows width bits n) (second : L.Shows width bits n') : n = n' := by
  induction first generalizing n' with
  | nil =>
      cases second
      rfl
  | cons first _ ih =>
      cases second with
      | cons first' later' => rw [first.unique first', ih later']

theorem is {n' : Nat} (h : L.Shows width bits n) (same : n = n') : L.Shows width bits n' := same ▸ h

theorem neg (h : L.Shows width bits n) : L.Shows width (bits.map Lit.neg) (2 ^ width - 1 - n) := by
  refine of_testBit (by rw [List.length_map, h.length_eq]) (by have := h.lt; omega) fun i l here => ?_
  rw [List.getElem?_map] at here
  obtain ⟨k, found, rfl⟩ := Option.map_eq_some_iff.mp here
  have inside : i < width := by
    rw [← h.length_eq]
    exact (List.getElem?_eq_some_iff.mp found).1
  rw [Nat.sub_sub, Nat.add_comm 1, Nat.testBit_two_pow_sub_succ h.lt, decide_eq_true inside, Bool.true_and]
  exact (h.testBit found).neg

theorem append {width' n' : Nat} {bits' : List Lit} (low : L.Shows width bits n)
    (high : L.Shows width' bits' n') : L.Shows (width + width') (bits ++ bits') (n + 2 ^ width * n') := by
  have small : n + 2 ^ width * n' < 2 ^ (width + width') := by
    have := low.lt
    have := Nat.mul_le_mul_left (2 ^ width) (Nat.succ_le_of_lt high.lt)
    rw [Nat.mul_succ] at this
    rw [Nat.pow_add]
    omega
  refine of_testBit (by rw [List.length_append, low.length_eq, high.length_eq]) small fun i l here => ?_
  rw [Nat.add_comm, Nat.testBit_two_pow_mul_add _ low.lt]
  rw [List.getElem?_append, low.length_eq] at here
  split
  · rw [if_pos ‹_›] at here
    exact low.testBit here
  · rw [if_neg ‹_›] at here
    exact high.testBit here

theorem take (h : L.Shows width bits n) (k : Nat) : L.Shows (min k width) (bits.take k) (n % 2 ^ k) := by
  have small : n % 2 ^ k < 2 ^ min k width := by
    rcases Nat.le_total k width with le | le
    · rw [Nat.min_eq_left le]
      exact Nat.mod_lt _ (Nat.two_pow_pos k)
    · rw [Nat.min_eq_right le]
      exact (Nat.mod_le ..).trans_lt h.lt
  refine of_testBit (by rw [List.length_take, h.length_eq]) small fun i l here => ?_
  rw [List.getElem?_take] at here
  split at here
  · rename_i inside
    rw [Nat.testBit_mod_two_pow, decide_eq_true inside, Bool.true_and]
    exact h.testBit here
  · cases here

theorem drop (h : L.Shows width bits n) (k : Nat) : L.Shows (width - k) (bits.drop k) (n / 2 ^ k) := by
  have small : n / 2 ^ k < 2 ^ (width - k) := by
    rcases Nat.le_total k width with le | le
    · refine Nat.div_lt_of_lt_mul ?_
      rw [← Nat.pow_add, Nat.add_sub_of_le le]
      exact h.lt
    · rw [Nat.div_eq_of_lt (h.lt.trans_le (Nat.pow_le_pow_right Nat.two_pos le))]
      exact Nat.two_pow_pos _
  refine of_testBit (by rw [List.length_drop, h.length_eq]) small fun i l here => ?_
  rw [List.getElem?_drop] at here
  rw [Nat.testBit_div_two_pow, Nat.add_comm i]
  exact h.testBit here

theorem dropLast (h : L.Shows width bits n) : L.Shows (width - 1) bits.dropLast (n % 2 ^ (width - 1)) := by
  rw [List.dropLast_eq_take, h.length_eq]
  have cut := h.take (width - 1)
  rwa [Nat.min_eq_left (Nat.sub_le ..)] at cut

/-- Literals with one more at the top. -/
theorem of_append_singleton (h : L.Shows width (bits ++ [l]) n) :
    ∃ w n' b, width = w + 1 ∧ L.Shows w bits n' ∧ L.Bit l b ∧ n = n' + 2 ^ w * b.toNat := by
  have length := h.length_eq
  rw [List.length_append, List.length_singleton] at length
  subst length
  have low := h.take bits.length
  have high := h.drop bits.length
  rw [Nat.min_eq_left (Nat.le_succ _), List.take_left] at low
  rw [Nat.add_sub_cancel_left, List.drop_left] at high
  generalize same : n / 2 ^ bits.length = top at high
  obtain _ | @⟨_, b, _, _, _, hb, rest⟩ := high
  cases rest
  refine ⟨bits.length, _, b, rfl, low, hb, ?_⟩
  rw [Nat.bit_val, Nat.mul_zero, Nat.zero_add] at same
  rw [← same, Nat.mod_add_div]

/-- The same bit again and again. -/
theorem replicate (h : L.Bit l b) (k : Nat) :
    L.Shows k (List.replicate k l) (if b then 2 ^ k - 1 else 0) := by
  refine of_testBit (List.length_replicate ..) ?_ fun i l' here => ?_
  · have := Nat.two_pow_pos k
    split <;> omega
  · obtain ⟨inside, rfl⟩ := List.getElem?_eq_some_iff.mp here
    rw [List.getElem_replicate]
    rw [List.length_replicate] at inside
    cases b
    · simpa using h
    · simpa [Nat.testBit_two_pow_sub_one, inside] using h

theorem fill (h : L.Shows width bits n) (hl : L.Bit l b) :
    L.Shows width (bits.map fun _ => l) (if b then 2 ^ width - 1 else 0) := by
  rw [List.map_const', h.length_eq]
  exact replicate hl width

/-- The top bit. -/
theorem getLastD (h : L.Shows width bits n) (zero : L.Bit Lit.no false) :
    L.Bit (bits.getLastD Lit.no) (n.testBit (width - 1)) := by
  cases width with
  | zero =>
      cases h
      simpa using zero
  | succ w =>
      have last : bits[w]? = some (bits.getLastD Lit.no) := by
        have := h.length_eq
        rw [List.getLastD_eq_getLast?, List.getLast?_eq_getElem?, this]
        simp [this]
      exact h.testBit last

end Shows

theorem shows_const {W : Labelled} (yes : W.Bit Lit.yes true) (width n : Nat) :
    W.Shows width (Circuit.constBits width n) (n % 2 ^ width) := by
  have each (b : Bool) : W.Bit (Lit.ofBool b) b := by
    cases b
    · exact yes.neg
    · exact yes
  refine .of_testBit (by simp [Circuit.constBits]) (Nat.mod_lt _ (Nat.two_pow_pos _)) fun i l here => ?_
  obtain ⟨k, found, rfl⟩ := Option.map_eq_some_iff.mp (List.getElem?_map.symm.trans here)
  obtain ⟨inside, rfl⟩ := List.getElem?_eq_some_iff.mp found
  rw [List.getElem_range, Nat.testBit_mod_two_pow]
  rw [List.length_range] at inside
  simpa [inside] using each (n.testBit i)

end Labelled

end PathSearch.Smt
