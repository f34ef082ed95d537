import PathSearch.Proofs.Smt.Fits
import PathSearch.Proofs.Smt.Operations

/-! # Lines as literals

The literals of a line show what the line is in the model, where its operands fit.
-/

namespace PathSearch.Smt

namespace Labelled

/-- Line by line, the literals show the bit-vectors. -/
structure Aligned (L : Labelled) (before : Array (List Lit)) (vs : Array Bits) : Prop where
  size : before.size = vs.size
  shows : ∀ {i b}, vs[i]? = some b → L.ShowsBits (before.getD i []) b

variable {L : Labelled} {before : Array (List Lit)} {vs : Array Bits}

theorem Aligned.nil (L : Labelled) : L.Aligned #[] #[] := ⟨rfl, nofun⟩

theorem Aligned.push (aligned : L.Aligned before vs) {bits : List Lit} {b : Bits} (h : L.ShowsBits bits b) :
    L.Aligned (before.push bits) (vs.push b) where
  size := by rw [Array.size_push, Array.size_push, aligned.size]
  shows {i b'} here := by
    rw [Array.getD_eq_getD_getElem?, Array.getElem?_push, aligned.size]
    rw [Array.getElem?_push] at here
    split
    · rw [if_pos ‹_›] at here
      cases here
      exact h
    · rw [if_neg ‹_›] at here
      rw [← Array.getD_eq_getD_getElem?]
      exact aligned.shows here

theorem Before.aligned {L' : Labelled} (grown : L.Before L') (h : L.Aligned before vs) :
    L'.Aligned before vs :=
  ⟨h.size, fun here => grown.shows (h.shows here)⟩

theorem Aligned.operand (aligned : L.Aligned before vs) {x w : Nat}
    (fits : (vs.map Bits.width)[x]? = some w) :
    ∃ u : BitVec w, vs.getD x default = ⟨w, u⟩ ∧ L.Shows w (before.getD x []) u.toNat := by
  obtain ⟨u, here, same⟩ := operand_of_width fits
  exact ⟨u, same, aligned.shows here⟩

end Labelled

namespace World

open Labelled Circuit

variable {m : Model} {W : World m} {before : Array (List Lit)} {vs : Array Bits}

theorem freshBits_gives (W : World m) {width n : Nat} (small : n < 2 ^ width) :
    W.Gives ((List.replicate width ()).mapM fun _ => fresh) fun V bits => V.Shows width bits n := by
  induction width generalizing W n with
  | zero =>
      obtain rfl : n = 0 := Nat.lt_one_iff.mp small
      exact .pure .nil
  | succ width ih =>
      rw [List.replicate_succ, List.mapM_cons]
      refine (W.fresh_gives (n.testBit 0)).bind fun V l grown hl => ?_
      refine (ih V (Nat.div_lt_of_lt_mul (by rwa [Nat.pow_succ'] at small))).map fun U bits later hbits => ?_
      exact bit_parts n ▸ .cons (later.bit hl) hbits

theorem addInput_gives {name : String} {bits : List Lit}
    (shows : W.Shows bits.length bits (m name % 2 ^ bits.length)) :
    W.Gives (modify fun c => { c with inputs := (name, bits) :: c.inputs }) fun _ _ => True := by
  let L : Labelled := { W with circuit := { W.circuit with inputs := (name, bits) :: W.circuit.inputs } }
  have step : W.Step L :=
    { inputs := fun {other bits'} found => by
        rcases List.mem_cons.mp found with same | old
        · cases same
          exact .inr shows
        · exact .inl old }
  exact .step step rfl trivial

theorem input_gives (W : World m) (name : String) (width : Nat) :
    W.Gives (input name width) fun V bits => V.Shows width bits (m name % 2 ^ width) := by
  refine .get ?_
  split
  · rename_i known found
    obtain ⟨name', bits⟩ := known
    obtain ⟨rfl, rfl⟩ : name' = name ∧ bits.length = width := by simpa using List.find?_some found
    exact .pure (W.inputs (List.mem_of_find?_eq_some found))
  · have small : m name % 2 ^ width < 2 ^ width := Nat.mod_lt _ (Nat.two_pow_pos width)
    refine (W.freshBits_gives small).bind fun V bits grown hbits => ?_
    refine (addInput_gives ?_).map fun U _ later _ => later.shows hbits
    rwa [hbits.length_eq]

theorem lineBits_gives (aligned : W.Aligned before vs) {line : Line} {w : Nat}
    (fits : line.width? (vs.map Bits.width) = some w) :
    W.Gives (lineBits before line) fun V out => V.ShowsBits out (line.eval m vs) := by
  cases line with
  | const w v => exact .pure (shows_const W.yes w v)
  | var name w => exact W.input_gives name w
  | unary op x =>
      obtain ⟨u, same, hx⟩ := aligned.operand fits
      simp only [lineBits, Line.eval]
      generalize vs.getD x default = a at same ⊢
      subst same
      split
      · exact (negBits_gives hx).mono fun V out _ hout => hout.is (BitVec.toNat_neg u).symm
      · exact .pure (hx.neg.is BitVec.toNat_not.symm)
      · rename_i notNeg notNot
        exact .pure (hx.is (congrArg BitVec.toNat (unaryBits_eq_self notNeg notNot u).symm))
  | binary op l r =>
      obtain ⟨v, hl, fits⟩ := Option.bind_eq_some_iff.mp fits
      obtain ⟨hr, -⟩ := Option.ite_none_right_eq_some.mp fits
      obtain ⟨u, sameL, hl⟩ := aligned.operand hl
      obtain ⟨u', sameR, hr⟩ := aligned.operand hr
      simp only [lineBits, Line.eval]
      generalize vs.getD l default = a at sameL ⊢
      generalize vs.getD r default = b at sameR ⊢
      subst sameL sameR
      simp only [BitVec.setWidth_eq]
      exact binary_gives op hl hr
  | ite c y n =>
      obtain ⟨v, hy, fits⟩ := Option.bind_eq_some_iff.mp fits
      obtain ⟨⟨hc, hn⟩, -⟩ := Option.ite_none_right_eq_some.mp fits
      obtain ⟨p, sameC, hc⟩ := aligned.operand hc
      obtain ⟨u, sameY, hy⟩ := aligned.operand hy
      obtain ⟨u', sameN, hn⟩ := aligned.operand hn
      simp only [lineBits, Line.eval]
      generalize vs.getD c default = test at sameC ⊢
      generalize vs.getD y default = a at sameY ⊢
      generalize vs.getD n default = b at sameN ⊢
      subst sameC sameY sameN
      generalize before.getD c [] = cbits at hc ⊢
      generalize p.toNat = k at hc ⊢
      obtain _ | @⟨_, z, _, _, _, hz, none⟩ := hc
      cases none
      refine (muxBits_gives hz hy hn).mono fun V out _ hout => ?_
      cases z
      · exact hout
      · exact hout
  | extract high low x =>
      obtain ⟨v, hx, fits⟩ := Option.bind_eq_some_iff.mp fits
      obtain ⟨⟨ordered, inside⟩, -⟩ := Option.ite_none_right_eq_some.mp fits
      obtain ⟨u, same, hx⟩ := aligned.operand hx
      simp only [lineBits, Line.eval]
      generalize vs.getD x default = a at same ⊢
      subst same
      have cut := (hx.drop low).take (high - low + 1)
      rw [Nat.min_eq_left (by omega)] at cut
      exact .pure (cut.is (by rw [BitVec.extractLsb_toNat, Nat.shiftRight_eq_div_pow]))
  | zext x w =>
      obtain ⟨v, hx, fits⟩ := Option.bind_eq_some_iff.mp fits
      obtain ⟨wider, -⟩ := Option.ite_none_right_eq_some.mp fits
      obtain ⟨u, same, hx⟩ := aligned.operand hx
      simp only [lineBits, Line.eval]
      generalize vs.getD x default = a at same ⊢
      subst same
      have long := hx.append (Shows.replicate W.no (w - v))
      rw [Nat.add_sub_of_le wider] at long
      rw [hx.length_eq]
      refine .pure (long.is ?_)
      rw [if_neg Bool.false_ne_true, Nat.mul_zero, Nat.add_zero, BitVec.toNat_setWidth_of_le wider]
  | sext x w =>
      obtain ⟨v, hx, fits⟩ := Option.bind_eq_some_iff.mp fits
      obtain ⟨wider, -⟩ := Option.ite_none_right_eq_some.mp fits
      obtain ⟨u, same, hx⟩ := aligned.operand hx
      simp only [lineBits, Line.eval]
      generalize vs.getD x default = a at same ⊢
      subst same
      have long := hx.append (Shows.replicate (signBit_shows hx) (w - v))
      rw [Nat.add_sub_of_le wider] at long
      rw [hx.length_eq]
      refine .pure (long.is ?_)
      rw [BitVec.toNat_signExtend, BitVec.toNat_setWidth_of_le wider]
      split
      · rw [Nat.mul_sub, ← Nat.pow_add, Nat.add_sub_of_le wider, Nat.mul_one]
      · rfl
  | concat h l =>
      obtain ⟨v, hh, fits⟩ := Option.bind_eq_some_iff.mp fits
      obtain ⟨v', hl, -⟩ := Option.bind_eq_some_iff.mp fits
      obtain ⟨u, sameH, hh⟩ := aligned.operand hh
      obtain ⟨u', sameL, hl⟩ := aligned.operand hl
      simp only [lineBits, Line.eval]
      generalize vs.getD h default = a at sameH ⊢
      generalize vs.getD l default = b at sameL ⊢
      subst sameH sameL
      have both := hl.append hh
      rw [Nat.add_comm] at both
      refine .pure (both.is ?_)
      rw [BitVec.toNat_append, ← Nat.shiftLeft_add_eq_or_of_lt u'.isLt, Nat.shiftLeft_eq, Nat.mul_comm, Nat.add_comm]

end World

end PathSearch.Smt
