import PathSearch.Proofs.Smt.Lines

/-! # Lines as polynomials

Where a line is a polynomial of the lines before it, the polynomial stands for the line's number. So
literals that were made for a polynomial are those of every line that is the same polynomial.
-/

namespace PathSearch.Smt

/-- The negative of a number, modulo `2 ^ w`. -/
theorem neg_modEq {w x : Nat} (small : x ≤ 2 ^ w) : (2 ^ w - 1) * x ≡ 2 ^ w - x [MOD 2 ^ w] := by
  refine Nat.ModEq.add_right_cancel' x ?_
  have whole : (2 ^ w - 1) * x + x = 2 ^ w * x := by
    rw [← Nat.succ_mul, Nat.succ_eq_add_one, Nat.sub_add_cancel (Nat.two_pow_pos w)]
  rw [whole, Nat.sub_add_cancel small]
  exact (Nat.mul_mod_right ..).trans (Nat.mod_self _).symm

namespace Labelled

variable {L : Labelled} {w x y : Nat} {p q r : Polynomial}

namespace Stands

theorem of_modEq (h : L.Stands w p x) (same : x ≡ y [MOD 2 ^ w]) : L.Stands w p y :=
  fun ρ known => (h ρ known).trans same

/-- What a polynomial stands for is one number of the width. -/
theorem unique (first : L.Stands w p x) (second : L.Stands w p y) (hx : x < 2 ^ w) (hy : y < 2 ^ w) :
    x = y :=
  Nat.ModEq.eq_of_lt_of_lt ((first L.atoms fun _ _ => rfl).symm.trans (second L.atoms fun _ _ => rfl)) hx hy

theorem const (L : Labelled) (w k : Nat) : L.Stands w (.const w k) k :=
  fun _ _ => Polynomial.eval_const k

theorem of_const? {k : Nat} (h : L.Stands w p x) (constant : p.const? = some k) : k ≡ x [MOD 2 ^ w] := by
  rw [← Polynomial.eval_of_const? (ρ := L.atoms) constant]
  exact h L.atoms fun _ _ => rfl

theorem neg (h : L.Stands w p x) (small : x ≤ 2 ^ w) : L.Stands w (p.neg w) (2 ^ w - x) :=
  fun ρ known => (Polynomial.eval_neg p).trans (((h ρ known).mul_left _).trans (neg_modEq small))

theorem sub (hp : L.Stands w p x) (hq : L.Stands w q y) (small : y ≤ 2 ^ w) :
    L.Stands w (p.sub w q) (x + (2 ^ w - y)) :=
  fun ρ known => (Polynomial.eval_sub p q).trans
    ((hp ρ known).add (((hq ρ known).mul_left _).trans (neg_modEq small)))

theorem unary {op : Op} {u : BitVec w} (h : L.Stands w p u.toNat) (found : p.unary? op w = some r) :
    L.Stands w r (unaryBits op u).toNat := by
  unfold Polynomial.unary? at found
  split at found
  · cases found
    refine (h.neg u.isLt.le).of_modEq ?_
    rw [unaryBits, BitVec.toNat_neg]
    exact (Nat.mod_modEq ..).symm
  · cases found
    refine ((h.neg u.isLt.le).sub (const L w 1) Nat.one_le_two_pow).of_modEq ?_
    have small := u.isLt
    have same : 2 ^ w - u.toNat + (2 ^ w - 1) = 2 ^ w - 1 - u.toNat + 2 ^ w := by omega
    rw [unaryBits, BitVec.toNat_not, same]
    exact Nat.add_modEq_right
  · cases found

theorem binary {op : Op} {u v : BitVec w} (hp : L.Stands w p u.toNat) (hq : L.Stands w q v.toNat)
    (found : p.binary? op w q = some r) :
    (binaryBits op u v).width = w ∧ L.Stands w r (binaryBits op u v).value.toNat := by
  unfold Polynomial.binary? at found
  split at found
  · cases found
    refine ⟨rfl, fun ρ known => (Polynomial.eval_add p q).trans (((hp ρ known).add (hq ρ known)).trans ?_)⟩
    rw [binaryBits, BitVec.toNat_add]
    exact (Nat.mod_modEq ..).symm
  · cases found
    refine ⟨rfl, (hp.sub hq v.isLt.le).of_modEq ?_⟩
    rw [binaryBits, BitVec.toNat_sub, Nat.add_comm]
    exact (Nat.mod_modEq ..).symm
  · obtain ⟨-, found⟩ := Option.ite_none_right_eq_some.mp found
    cases found
    refine ⟨rfl, fun ρ known => (Polynomial.eval_mul p q).trans (((hp ρ known).mul (hq ρ known)).trans ?_)⟩
    rw [binaryBits, BitVec.toNat_mul]
    exact (Nat.mod_modEq ..).symm
  · obtain ⟨k, constant, found⟩ := Option.bind_eq_some_iff.mp found
    obtain ⟨near, found⟩ := Option.ite_none_right_eq_some.mp found
    cases found
    have small : k < 2 ^ w := near.trans Nat.lt_two_pow_self
    obtain rfl : k = v.toNat := Nat.ModEq.eq_of_lt_of_lt (hq.of_const? constant) small v.isLt
    refine ⟨rfl, fun ρ known => (Polynomial.eval_scale ..).trans (((hp ρ known).mul_left _).trans ?_)⟩
    rw [binaryBits, if_neg (by omega), BitVec.shiftLeft_eq', BitVec.toNat_shiftLeft, Nat.shiftLeft_eq,
      Nat.pow_eq, Nat.mul_comm]
    exact (Nat.mod_modEq ..).symm
  · cases found

end Stands

theorem Shows.of_constOf? {bits : List Lit} {k : Nat} (h : L.Shows w bits x) (yes : L.Bit Lit.yes true)
    (constant : Circuit.constOf? bits = some k) : x = k := by
  induction h generalizing k with
  | nil => exact Option.some.inj constant
  | @cons l b w bits n first _ ih =>
      rw [Circuit.constOf?] at constant
      split at constant
      · rename_i same
        subst same
        obtain ⟨j, rest, rfl⟩ := Option.map_eq_some_iff.mp constant
        rw [first.unique yes, ih rest, Nat.bit_val, Bool.toNat_true]
      split at constant
      · rename_i same
        subst same
        obtain ⟨j, rest, rfl⟩ := Option.map_eq_some_iff.mp constant
        rw [first.unique yes.neg, ih rest, Nat.bit_val]
        rfl
      · cases constant

end Labelled

namespace World

open Labelled Circuit

variable {m : Model} {W : World m} {before : Array (List Lit)} {vs : Array Bits} {bits : List Lit}
  {w n : Nat} {p : Polynomial}

/-- Literals are taken up with a polynomial. Where that is a new atom, it stands for their number. -/
theorem represent_gives (atoms : Nat → Nat) (shows : W.Shows w bits n)
    (same : ∀ i < W.circuit.polynomials.size, atoms i = W.atoms i)
    (stands : ∀ ρ, (∀ i < (W.circuit.polynomials.insertIfNew bits p).size, ρ i = atoms i) →
      p.eval ρ ≡ n [MOD 2 ^ w]) :
    W.Gives (represent bits p) fun V _ => V.Stands w p n := by
  obtain rfl := shows.length_eq
  let L : Labelled :=
    { circuit := { W.circuit with
        polynomials := W.circuit.polynomials.insertIfNew bits p
        represented := W.circuit.represented.insertIfNew (bits.length, p) bits }
      truth := W.truth
      atoms }
  have before : W.toLabelled.Before L :=
    ⟨Nat.le_refl _, fun _ _ => rfl, Std.HashMap.size_le_size_insertIfNew, same⟩
  have known : L.Represents bits.length bits p := ⟨n, before.shows shows, stands⟩
  have step : W.Step L :=
    { before
      polynomials := fun {bits' p'} found => by
        rw [Std.HashMap.getElem?_insertIfNew] at found
        split at found
        · rename_i new
          cases beq_iff_eq.mp new.1
          cases found
          exact .inr known
        · exact .inl found
      represented := fun {w' p' bits'} found => by
        rw [Std.HashMap.getElem?_insertIfNew] at found
        split at found
        · rename_i new
          cases beq_iff_eq.mp new.1
          cases found
          exact .inr known
        · exact .inl found }
  exact .step step rfl stands

theorem polynomialOf_gives (shows : W.Shows w bits n) :
    W.Gives (polynomialOf bits) fun V p => V.Stands w p n := by
  unfold polynomialOf
  split
  · rename_i k constant
    rw [shows.length_eq, shows.of_constOf? W.yes constant]
    exact .pure (Stands.const _ w k)
  refine .get ?_
  split
  · rename_i p found
    obtain ⟨n', shows', stands⟩ := W.polynomials found
    rw [shows.length_eq] at shows' stands
    exact .pure (shows.unique shows' ▸ stands)
  · rename_i new
    refine .get ?_
    have absent : bits ∉ W.circuit.polynomials := by
      rw [Std.HashMap.mem_iff_isSome_getElem?, new]
      exact Bool.false_ne_true
    refine (represent_gives (Function.update W.atoms W.circuit.polynomials.size n) shows
      (fun i hi => Function.update_of_ne (Nat.ne_of_lt hi) ..) fun ρ known => ?_).map
        fun _ _ _ stands => stands
    rw [Polynomial.eval_atom, known W.circuit.polynomials.size (by simp [Std.HashMap.size_insertIfNew, absent]),
      Function.update_self]

theorem linePolynomial_gives (aligned : W.Aligned before vs) {line : Line} {w : Nat}
    (fits : line.width? (vs.map Bits.width) = some w) :
    W.Gives (linePolynomial? before line) fun V found => ∀ v p, found = some (v, p) →
      v = w ∧ V.Stands w p (line.eval m vs).value.toNat := by
  have nothing : W.Gives (pure none) fun V found => ∀ v p, found = some (v, p) →
      v = w ∧ V.Stands w p (line.eval m vs).value.toNat :=
    .pure fun _ _ found => by cases found
  cases line with
  | unary op x =>
      obtain ⟨u, same, hx⟩ := aligned.operand fits
      simp only [Line.eval]
      generalize vs.getD x default = a at same ⊢
      subst same
      refine (polynomialOf_gives hx).map fun V p grown stands v r found => ?_
      obtain ⟨q, found, result⟩ := Option.map_eq_some_iff.mp found
      cases result
      rw [hx.length_eq] at found
      exact ⟨hx.length_eq, stands.unary found⟩
  | binary op l r =>
      refine .ite (fun _ => ?_) fun _ => nothing
      obtain ⟨v, hl, fits⟩ := Option.bind_eq_some_iff.mp fits
      obtain ⟨hr, result⟩ := Option.ite_none_right_eq_some.mp fits
      obtain ⟨u, sameL, hl⟩ := aligned.operand hl
      obtain ⟨u', sameR, hr⟩ := aligned.operand hr
      simp only [Line.eval]
      generalize vs.getD l default = a at sameL ⊢
      generalize vs.getD r default = b at sameR ⊢
      subst sameL sameR
      refine (polynomialOf_gives hl).bind fun V p grown hp => ?_
      refine (polynomialOf_gives (grown.shows hr)).map fun U q later hq v' r found => ?_
      obtain ⟨r, found, same⟩ := Option.map_eq_some_iff.mp found
      cases same
      rw [hl.length_eq] at found
      obtain ⟨width, stands⟩ := (later.stands hp).binary hq found
      have whole : v = w := by
        rw [← Option.some.inj result, ← binaryBits_width op u u', width]
      subst whole
      rw [BitVec.setWidth_eq]
      exact ⟨hl.length_eq, stands⟩
  | const | var | ite | extract | zext | sext | concat => exact nothing

theorem sharedBits_gives (aligned : W.Aligned before vs) {line : Line} {w : Nat}
    (fits : line.width? (vs.map Bits.width) = some w) :
    W.Gives (sharedBits before line) fun V out => V.ShowsBits out (line.eval m vs) := by
  have width : (line.eval m vs).width = w := Line.width_eval fits
  refine (linePolynomial_gives aligned fits).bind fun V found grown stands => ?_
  have aligned := grown.aligned aligned
  split
  · exact lineBits_gives aligned fits
  rename_i v p
  obtain ⟨rfl, stands⟩ := stands v p rfl
  have small : (line.eval m vs).value.toNat < 2 ^ v := width ▸ (line.eval m vs).value.isLt
  refine .get ?_
  split
  · rename_i k constant
    refine .pure ((showsBits_iff width).mpr ((shows_const V.yes v k).is ?_))
    rw [stands.of_const? constant, Nat.mod_eq_of_lt small]
  · rename_i bits _ found
    obtain ⟨n, shows, stands'⟩ := V.represented found
    exact .pure ((showsBits_iff width).mpr (shows.is (stands'.unique stands shows.lt small)))
  · refine (lineBits_gives aligned fits).bind fun U bits later hbits => ?_
    have shows : U.Shows v bits (line.eval m vs).value.toNat := (showsBits_iff width).mp hbits
    refine .ite (fun _ => ?_) fun _ => .pure hbits
    refine (represent_gives U.atoms shows (fun _ _ => rfl) fun ρ known => ?_).map
      fun T _ last _ => last.shows hbits
    exact later.stands stands ρ fun i hi => known i (hi.trans_le Std.HashMap.size_le_size_insertIfNew)

end World

end PathSearch.Smt
