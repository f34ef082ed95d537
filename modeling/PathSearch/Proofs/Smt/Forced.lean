import Mathlib.Data.Nat.ModEq
import PathSearch.Proofs.Smt.Fits
import PathSearch.Smt.Forced

/-! # What a script forces

In every model that meets a script the lines that the script settles have the values that they are settled
to. Each settled line settles its operands to what they have to be, and operands settle their line.
-/

namespace PathSearch.Smt

/-- A bit-vector from its number. -/
theorem Bits.ofNat_eq {b : Bits} {w n : Nat} (width : w = b.width) (same : n % 2 ^ w = b.value.toNat) :
    Bits.ofNat w n = b := by
  obtain ⟨v, u⟩ := b
  subst width
  exact congrArg (Bits.mk w) (BitVec.eq_of_toNat_eq ((BitVec.toNat_ofNat ..).trans same))

namespace Forced

/-- What is settled has the values that the lines have, and all lines have their widths. -/
structure Right (f : Forced) (vs : Array Bits) : Prop where
  values : f.values.size = vs.size
  settled : f.settled.size = vs.size
  widths : ∀ i, f.width i = (vs.getD i default).width
  right : ∀ i, f.settled.getD i false = true → f.values.getD i default = vs.getD i default

variable {f : Forced} {vs : Array Bits} {i v : Nat}

theorem Right.of_value? (h : f.Right vs) (known : f.value? i = some v) :
    (vs.getD i default).value.toNat = v := by
  obtain ⟨settled, same⟩ := Option.ite_none_right_eq_some.mp known
  rw [← h.right i settled]
  exact Option.some.inj same

/-- A line is settled to its value, of which only the last bits count. -/
theorem Right.settle (h : f.Right vs)
    (same : v % 2 ^ (vs.getD i default).width = (vs.getD i default).value.toNat) : (f.settle i v).Right vs := by
  unfold Forced.settle
  split
  · exact h
  have there (j : Nat) (inside : j < vs.size) : f.values[j]? = some (f.values.getD j default) := by
    have here := Array.getElem?_eq_getElem (h.values ▸ inside : j < f.values.size)
    rw [here, getD_of_some here]
  have changed (j : Nat) : (f.values.modify i fun b => .ofNat b.width v).getD j default =
      if j = i ∧ j < vs.size then vs.getD j default else f.values.getD j default := by
    rw [Array.getD_eq_getD_getElem?, Array.getElem?_modify]
    split
    · rename_i here
      subst here
      split
      · rename_i inside
        rw [there i inside.2]
        have width : (f.values.getD i default).width = (vs.getD i default).width := h.widths i
        exact Bits.ofNat_eq width (by rw [width]; exact same)
      · rename_i outside
        have outside : f.values.size ≤ i := by
          rw [h.values]
          omega
        rw [Array.getD_eq_getD_getElem?, Array.getElem?_eq_none outside]
        rfl
    · rename_i other
      rw [if_neg fun here => other here.1.symm, Array.getD_eq_getD_getElem?]
  refine ⟨by simpa using h.values, by simpa using h.settled, fun j => ?_, fun j settled => ?_⟩
  · rw [width]
    dsimp only
    rw [changed]
    split
    · rfl
    · exact h.widths j
  · dsimp only at settled ⊢
    rw [changed]
    split
    · rfl
    · rename_i other
      refine h.right j ?_
      rw [Array.getD_eq_getD_getElem?, Array.getElem?_setIfInBounds] at settled
      split at settled
      · rename_i here
        subst here
        rw [if_neg fun inside => other ⟨rfl, h.settled ▸ inside⟩] at settled
        cases settled
      · rwa [Array.getD_eq_getD_getElem?]

theorem Right.settle_of_eq (h : f.Right vs) {w : Nat} {u : BitVec w} (here : vs.getD i default = ⟨w, u⟩)
    (same : v % 2 ^ w = u.toNat) : (f.settle i v).Right vs :=
  h.settle (by rw [here]; exact same)

/-- A sum without one of its parts is the other one. -/
theorem mod_of_add {M x y z : Nat} (hx : x < M) (hy : y < M) (sum : (x + y) % M = z) :
    (z + M - y) % M = x := by
  subst sum
  rcases Nat.lt_or_ge (x + y) M with small | large
  · have same : x + y + M - y = x + M := by omega
    rw [Nat.mod_eq_of_lt small, same, Nat.add_mod_right, Nat.mod_eq_of_lt hx]
  · have same : x + y - M + M - y = x := by omega
    rw [Nat.mod_eq_sub_mod large, Nat.mod_eq_of_lt (by omega : x + y - M < M), same, Nat.mod_eq_of_lt hx]

/-- A difference has both parts. -/
theorem mod_of_sub {M x y z : Nat} (hx : x < M) (hy : y < M) (difference : (M - y + x) % M = z) :
    (z + y) % M = x ∧ (x + M - z) % M = y := by
  subst difference
  rcases Nat.lt_or_ge x y with less | enough
  · have below : M - y + x < M := by omega
    have same : M - y + x + y = x + M := by omega
    have same' : x + M - (M - y + x) = y := by omega
    rw [Nat.mod_eq_of_lt below, same, same', Nat.add_mod_right, Nat.mod_eq_of_lt hx, Nat.mod_eq_of_lt hy]
    exact ⟨rfl, rfl⟩
  · have same : M - y + x = x - y + M := by omega
    have below : x - y < M := by omega
    have whole : x - y + y = x := by omega
    have rest : x + M - (x - y) = y + M := by omega
    rw [same, Nat.add_mod_right, Nat.mod_eq_of_lt below, whole, rest, Nat.add_mod_right,
      Nat.mod_eq_of_lt hx, Nat.mod_eq_of_lt hy]
    exact ⟨rfl, rfl⟩

section

variable {w l r : Nat} {a b : BitVec w} {left right : Nat → Nat}

theorem Right.settleOther (h : f.Right vs) (hl : vs.getD l default = ⟨w, a⟩) (hr : vs.getD r default = ⟨w, b⟩)
    (fromRight : left b.toNat % 2 ^ w = a.toNat) (fromLeft : right a.toNat % 2 ^ w = b.toNat) :
    (f.settleOther l r left right).Right vs := by
  unfold Forced.settleOther
  split
  · rename_i n _ known
    have value := h.of_value? known
    rw [hr] at value
    exact h.settle_of_eq hl (value ▸ fromRight)
  · rename_i n known _
    have value := h.of_value? known
    rw [hl] at value
    exact h.settle_of_eq hr (value ▸ fromLeft)
  · exact h

theorem Right.settleOperands (h : f.Right vs) {op : Op} (hl : vs.getD l default = ⟨w, a⟩)
    (hr : vs.getD r default = ⟨w, b⟩) (result : (binaryBits op a b).value.toNat = v) :
    (f.settleOperands op l r v).Right vs := by
  have modulus : Nat.pow 2 (f.width l) = 2 ^ w := by
    rw [h.widths l, hl]
    rfl
  unfold Forced.settleOperands
  rw [modulus]
  cases op with
  | add =>
      have sum : (a.toNat + b.toNat) % 2 ^ w = v := (BitVec.toNat_add ..).symm.trans result
      exact h.settleOther hl hr (mod_of_add a.isLt b.isLt sum)
        (mod_of_add b.isLt a.isLt (by rw [Nat.add_comm, sum]))
  | sub =>
      have difference : (2 ^ w - b.toNat + a.toNat) % 2 ^ w = v := (BitVec.toNat_sub ..).symm.trans result
      obtain ⟨left, right⟩ := mod_of_sub a.isLt b.isLt difference
      exact h.settleOther hl hr left right
  | xor =>
      have parity : a.toNat ^^^ b.toNat = v := (BitVec.toNat_xor ..).symm.trans result
      refine h.settleOther hl hr ?_ ?_
      · rw [← parity, Nat.xor_assoc, Nat.xor_self, Nat.xor_zero, Nat.mod_eq_of_lt a.isLt]
      · rw [← parity, Nat.xor_comm a.toNat, Nat.xor_assoc, Nat.xor_self, Nat.xor_zero, Nat.mod_eq_of_lt b.isLt]
  | eq =>
      dsimp only
      split
      · rename_i one
        have same : a = b := by simpa [binaryBits, Bits.ofBool, one] using result
        subst same
        exact h.settleOther hl hr (Nat.mod_eq_of_lt a.isLt) (Nat.mod_eq_of_lt a.isLt)
      · exact h
  | ne =>
      dsimp only
      split
      · rename_i zero
        have same : a = b := by simpa [binaryBits, Bits.ofBool, zero] using result
        subst same
        exact h.settleOther hl hr (Nat.mod_eq_of_lt a.isLt) (Nat.mod_eq_of_lt a.isLt)
      · exact h
  | and =>
      dsimp only
      split
      · rename_i ones
        have both : a.toNat &&& b.toNat = v := (BitVec.toNat_and ..).symm.trans result
        have left := Nat.and_le_left (n := a.toNat) (m := b.toNat)
        have right := Nat.and_le_right (n := a.toNat) (m := b.toNat)
        have smallA : a.toNat < 2 ^ w := a.isLt
        have smallB : b.toNat < 2 ^ w := b.isLt
        have isA : v = a.toNat := by omega
        have isB : v = b.toNat := by omega
        exact (h.settle_of_eq hl (by rw [isA, Nat.mod_eq_of_lt smallA])).settle_of_eq hr
          (by rw [isB, Nat.mod_eq_of_lt smallB])
      · exact h
  | or =>
      dsimp only
      split
      · rename_i zero
        have both : a.toNat ||| b.toNat = 0 := (BitVec.toNat_or ..).symm.trans (result.trans zero)
        obtain ⟨left, right⟩ := Nat.or_eq_zero_iff.mp both
        exact (h.settle_of_eq hl ((Nat.zero_mod _).trans left.symm)).settle_of_eq hr
          ((Nat.zero_mod _).trans right.symm)
      · exact h
  | _ => exact h

end

section

variable {m : Model} {lines : Array Line} {w : Nat}

/-- A settled line settles its operands. -/
theorem Right.stepBack (h : f.Right vs) {line : Line} (here : lines.getD i default = line)
    (fits : line.width? (vs.map Bits.width) = some w) (value : vs.getD i default = line.eval m vs) :
    (stepBack lines f i).Right vs := by
  unfold Forced.stepBack
  split
  · exact h
  rename_i v known
  have result : (line.eval m vs).value.toNat = v := by
    rw [← value]
    exact h.of_value? known
  rw [here]
  cases line with
  | const | var | extract => exact h
  | unary op x =>
      obtain ⟨u, -, same⟩ := operand_of_width fits
      have modulus : Nat.pow 2 (f.width x) = 2 ^ w := by
        rw [h.widths x, same]
        rfl
      rw [Line.eval, same] at result
      have small : u.toNat < 2 ^ w := u.isLt
      dsimp only
      rw [modulus]
      split
      · have negative : (2 ^ w - u.toNat) % 2 ^ w = v := (BitVec.toNat_neg u).symm.trans result
        refine h.settle_of_eq same ?_
        rcases Nat.eq_zero_or_pos u.toNat with zero | positive
        · rw [zero, Nat.sub_zero, Nat.mod_self] at negative
          rw [← negative, zero, Nat.sub_zero, Nat.mod_self]
        · rw [Nat.mod_eq_of_lt (by omega)] at negative
          rw [← negative, Nat.sub_sub_self small.le, Nat.mod_eq_of_lt small]
      · have complement : 2 ^ w - 1 - u.toNat = v := BitVec.toNat_not.symm.trans result
        have back : 2 ^ w - 1 - v = u.toNat := by omega
        exact h.settle_of_eq same (by rw [back, Nat.mod_eq_of_lt small])
      · rename_i notNeg notNot
        have idle : u.toNat = v := by rwa [unaryBits_eq_self notNeg notNot] at result
        exact h.settle_of_eq same (idle ▸ Nat.mod_eq_of_lt small)
  | binary op l r =>
      obtain ⟨v', hl, fits⟩ := Option.bind_eq_some_iff.mp fits
      obtain ⟨hr, -⟩ := Option.ite_none_right_eq_some.mp fits
      obtain ⟨a, -, sameL⟩ := operand_of_width hl
      obtain ⟨b, -, sameR⟩ := operand_of_width hr
      rw [Line.eval, sameL, sameR] at result
      dsimp only at result
      rw [BitVec.setWidth_eq] at result
      exact h.settleOperands sameL sameR result
  | ite c y n =>
      obtain ⟨v', hy, fits⟩ := Option.bind_eq_some_iff.mp fits
      obtain ⟨⟨hc, hn⟩, -⟩ := Option.ite_none_right_eq_some.mp fits
      rw [Line.eval] at result
      dsimp only
      split
      · exact h
      · rename_i one
        rw [if_pos (h.of_value? one)] at result
        obtain ⟨a, -, sameY⟩ := operand_of_width hy
        rw [sameY] at result
        exact h.settle_of_eq sameY (result ▸ Nat.mod_eq_of_lt a.isLt)
      · rename_i k notOne known
        rw [if_neg (h.of_value? known ▸ notOne)] at result
        obtain ⟨b, -, sameN⟩ := operand_of_width hn
        rw [sameN] at result
        exact h.settle_of_eq sameN (result ▸ Nat.mod_eq_of_lt b.isLt)
  | zext x width =>
      obtain ⟨v', hx, fits⟩ := Option.bind_eq_some_iff.mp fits
      obtain ⟨wider, -⟩ := Option.ite_none_right_eq_some.mp fits
      obtain ⟨u, -, same⟩ := operand_of_width hx
      rw [Line.eval, same] at result
      have value : u.toNat = v := (BitVec.toNat_setWidth_of_le wider).symm.trans result
      exact h.settle_of_eq same (value ▸ Nat.mod_eq_of_lt u.isLt)
  | sext x width =>
      obtain ⟨v', hx, fits⟩ := Option.bind_eq_some_iff.mp fits
      obtain ⟨wider, -⟩ := Option.ite_none_right_eq_some.mp fits
      obtain ⟨u, -, same⟩ := operand_of_width hx
      rw [Line.eval, same] at result
      have value : u.toNat + (if u.msb then 2 ^ width - 2 ^ v' else 0) = v := by
        rw [← result, BitVec.toNat_signExtend, BitVec.toNat_setWidth_of_le wider]
      have extension : 2 ^ width - 2 ^ v' = 2 ^ v' * (2 ^ (width - v') - 1) := by
        rw [Nat.mul_sub, ← Nat.pow_add, Nat.add_sub_of_le wider, Nat.mul_one]
      refine h.settle_of_eq same ?_
      rw [← value, extension]
      split
      · rw [Nat.add_mul_mod_self_left, Nat.mod_eq_of_lt u.isLt]
      · rw [Nat.add_zero, Nat.mod_eq_of_lt u.isLt]
  | concat hi lo =>
      obtain ⟨v', hh, fits⟩ := Option.bind_eq_some_iff.mp fits
      obtain ⟨w', hl, -⟩ := Option.bind_eq_some_iff.mp fits
      obtain ⟨a, -, sameH⟩ := operand_of_width hh
      obtain ⟨b, -, sameL⟩ := operand_of_width hl
      have width : f.width lo = w' := by rw [h.widths lo, sameL]
      rw [Line.eval, sameH, sameL] at result
      have value : 2 ^ w' * a.toNat + b.toNat = v := by
        rw [← result, BitVec.toNat_append, ← Nat.shiftLeft_add_eq_or_of_lt b.isLt, Nat.shiftLeft_eq, Nat.mul_comm]
      have small : b.toNat < 2 ^ w' := b.isLt
      have small' : a.toNat < 2 ^ v' := a.isLt
      dsimp only
      refine (h.settle_of_eq sameL ?_).settle_of_eq sameH ?_
      · rw [← value, Nat.mul_add_mod, Nat.mod_eq_of_lt small]
      · rw [width, Nat.shiftRight_eq_div_pow, ← value, Nat.mul_add_div (Nat.two_pow_pos _),
          Nat.div_eq_of_lt small, Nat.add_zero, Nat.mod_eq_of_lt small']

/-- A line that is ready is what it is in the model. -/
theorem Right.eval_of_ready (h : f.Right vs) {line : Line} (ready : f.ready line = true) :
    line.eval (fun _ => 0) f.values = line.eval m vs := by
  cases line with
  | const => rfl
  | var => cases ready
  | unary op x => rw [Line.eval, Line.eval, h.right x ready]
  | binary op l r =>
      obtain ⟨hl, hr⟩ := Bool.and_eq_true_iff.mp ready
      rw [Line.eval, Line.eval, h.right l hl, h.right r hr]
  | ite c y n =>
      rw [Forced.ready] at ready
      split at ready
      · cases ready
      · rename_i known
        have test := h.of_value? known
        obtain ⟨hc, -⟩ := Option.ite_none_right_eq_some.mp known
        rw [Line.eval, Line.eval, h.right c hc, if_pos test, if_pos test, h.right y ready]
      · rename_i k notOne known
        have test := h.of_value? known
        obtain ⟨hc, -⟩ := Option.ite_none_right_eq_some.mp known
        rw [Line.eval, Line.eval, h.right c hc, if_neg (test ▸ notOne), if_neg (test ▸ notOne), h.right n ready]
  | extract high low x => rw [Line.eval, Line.eval, h.right x ready]
  | zext x width => rw [Line.eval, Line.eval, h.right x ready]
  | sext x width => rw [Line.eval, Line.eval, h.right x ready]
  | concat hi lo =>
      obtain ⟨hh, hl⟩ := Bool.and_eq_true_iff.mp ready
      rw [Line.eval, Line.eval, h.right hi hh, h.right lo hl]

/-- Settled operands settle their line. -/
theorem Right.stepOn (h : f.Right vs) {line : Line} (here : lines.getD i default = line)
    (value : vs.getD i default = line.eval m vs) : (stepOn lines f i).Right vs := by
  unfold Forced.stepOn
  rw [here]
  dsimp only
  split
  · rename_i ready
    refine h.settle ?_
    rw [h.eval_of_ready (m := m) ready, value, Nat.mod_eq_of_lt (BitVec.isLt _)]
  · exact h

end

section

variable {s : Script} {m : Model} {ws : Array Nat}

theorem Right.rounds (fits : s.widths? = some ws) (n : Nat) (h : f.Right (s.values m)) :
    (rounds s.lines n f).Right (s.values m) := by
  have line {i : Nat} (inside : i ∈ List.range s.lines.size) :
      ∃ line w, s.lines.getD i default = line ∧
        line.width? ((s.values m).map Bits.width) = some w ∧
        (s.values m).getD i default = line.eval m (s.values m) := by
    have here := Array.getElem?_eq_getElem (List.mem_range.mp inside)
    obtain ⟨⟨w, fits⟩, value⟩ := Script.line_of_values fits m here
    exact ⟨_, w, getD_of_some here default, fits, getD_of_some value default⟩
  induction n generalizing f with
  | zero => exact h
  | succ n ih =>
      have on : ((List.range s.lines.size).foldl (Forced.stepOn s.lines) f).Right (s.values m) := by
        refine List.foldlRecOn (motive := fun f : Forced => f.Right (s.values m)) _ _ h fun f h i inside => ?_
        obtain ⟨line, w, here, -, value⟩ := line inside
        exact h.stepOn here value
      have back : ((List.range s.lines.size).foldr (fun i f => Forced.stepBack s.lines f i)
          ((List.range s.lines.size).foldl (Forced.stepOn s.lines) f)).Right (s.values m) := by
        refine List.foldrRecOn (motive := fun f : Forced => f.Right (s.values m)) _ _ on fun f h i inside => ?_
        obtain ⟨line, w, here, fits, value⟩ := line inside
        exact h.stepBack here fits value
      rw [Forced.rounds]
      split
      · exact back
      · exact ih back

/-- What a script forces is so in every model that meets the script. -/
theorem right_ofScript (fits : s.widths? = some ws) (meets : s.holds m = true) :
    (ofScript s).Right (s.values m) := by
  have widths : (s.values fun _ => 0).map Bits.width = (s.values m).map Bits.width :=
    (Script.map_width_values fits _).trans (Script.map_width_values fits m).symm
  have size : (s.values fun _ => 0).size = (s.values m).size := by
    simpa using congrArg Array.size widths
  have start : Right { values := s.values fun _ => 0
                       settled := Array.replicate (s.values fun _ => 0).size false } (s.values m) := by
    refine ⟨size, by simpa using size, fun i => width_getD widths i, fun i settled => ?_⟩
    rw [Array.getD_eq_getD_getElem?, Array.getElem?_replicate] at settled
    split at settled <;> cases settled
  refine Right.rounds fits _ ?_
  refine List.foldlRecOn (motive := fun f : Forced => f.Right (s.values m)) _ _ start fun f h i inside => ?_
  have one : s.value m i = 1 := ((Script.holds_eq_true_iff s m).mp meets).1 i inside
  refine h.settle ?_
  have here : ((s.values m).getD i default).value.toNat = 1 := one
  rw [here]
  exact Nat.mod_eq_of_lt (here ▸ BitVec.isLt _)

/-- A variable that is settled is what the model says. -/
theorem inputs_right (fits : s.widths? = some ws) (meets : s.holds m = true) {name : String} {b : Bits}
    (inside : (name, b) ∈ inputs s) : m name % 2 ^ b.width = b.value.toNat := by
  obtain ⟨i, hi, found⟩ := List.mem_filterMap.mp inside
  split at found
  · rename_i name' w here
    obtain ⟨settled, same⟩ := Option.ite_none_right_eq_some.mp found
    cases same
    have line : s.lines[i]? = some (.var name w) := by
      have inside := Array.getElem?_eq_getElem (List.mem_range.mp hi)
      rw [getD_of_some inside] at here
      rw [inside, here]
    obtain ⟨-, value⟩ := Script.line_of_values fits m line
    rw [(right_ofScript fits meets).right i settled, getD_of_some value]
    exact (BitVec.toNat_ofNat ..).symm
  · cases found

end

end Forced

end PathSearch.Smt
