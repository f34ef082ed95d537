import PathSearch.Proofs.Smt.Shown

/-! # Arithmetic on literals

Sums, products, quotients and comparisons of the numbers that literals show.
-/

namespace PathSearch.Smt

/-- The lowest bit stays when a number is cut. -/
theorem bit_mod (b : Bool) (n w : Nat) : Nat.bit b (n % 2 ^ w) = Nat.bit b n % 2 ^ (w + 1) := by
  have := b.toNat_lt
  rw [Nat.bit_val, Nat.bit_val, Nat.pow_succ', Nat.mod_mul, Nat.mul_add_mod, Nat.mod_eq_of_lt this,
    Nat.mul_add_div Nat.two_pos, Nat.div_eq_of_lt this, Nat.add_zero, Nat.add_comm]

/-- One place of a sum. -/
theorem bit_add (p q c : Bool) (x y : Nat) :
    Nat.bit ((p != q) != c) (x + y + (Bool.atLeastTwo p q c).toNat) =
      Nat.bit p x + Nat.bit q y + c.toNat := by
  simp only [Nat.bit_val]
  cases p <;> cases q <;> cases c <;> simp [Bool.atLeastTwo] <;> omega

/-- One place of a product: the rest of the sum takes the other places of the second factor. -/
theorem bit_mul {n x y r width : Nat} {p q : Bool}
    (sum : Nat.bit p r = (n + if q then x else 0) % 2 ^ (width + 1)) :
    Nat.bit p ((r + x % 2 ^ width * y) % 2 ^ width) = (n + x * Nat.bit q y) % 2 ^ (width + 1) := by
  have cut : 2 * (x % 2 ^ width) ≡ 2 * x [MOD 2 ^ (width + 1)] := by
    rw [Nat.pow_succ']
    exact (Nat.mod_modEq x _).mul_left' 2
  have first : Nat.bit p r ≡ n + (if q then x else 0) [MOD 2 ^ (width + 1)] := by
    rw [sum]
    exact Nat.mod_modEq ..
  rw [bit_mod]
  calc Nat.bit p (r + x % 2 ^ width * y)
      = Nat.bit p r + 2 * (x % 2 ^ width) * y := by
        rw [Nat.bit_val, Nat.bit_val]
        ring
    _ ≡ n + (if q then x else 0) + 2 * x * y [MOD 2 ^ (width + 1)] := first.add (cut.mul_right y)
    _ = n + x * Nat.bit q y := by
        rw [Nat.bit_val]
        cases q <;> simp <;> ring

/-- The difference of numbers where there is one, cut to the width. -/
theorem sub_or_keep {w y s : Nat} (hy : y < 2 ^ w) (hs : s < 2 ^ w) :
    (if decide (y ≤ s) = true then (2 ^ w - y + s) % 2 ^ w else s) = if y ≤ s then s - y else s := by
  by_cases fits : y ≤ s
  · have same : 2 ^ w - y + s = s - y + 2 ^ w := by omega
    rw [if_pos (decide_eq_true fits), if_pos fits, same, Nat.add_mod_right, Nat.mod_eq_of_lt (by omega)]
  · rw [if_neg (by simpa using fits), if_neg fits]

/-- One place of a long division: where the divisor `y` fits into what is left with the next bit of the
    dividend, it is taken away and the quotient gets a one. -/
theorem bit_div (y R Q : Nat) (p : Bool) :
    let s := Nat.bit p R
    let R' := if y ≤ s then s - y else s
    let Q' := Nat.bit (decide (y ≤ s)) Q
    Q' * y + R' = 2 * (Q * y + R) + p.toNat ∧ (R < y → R' < y) ∧ (y = 0 → Q' + 1 = (Q + 1) * 2) := by
  have := p.toNat_lt
  intro s R' Q'
  have hs : s = 2 * R + p.toNat := Nat.bit_val ..
  by_cases fits : y ≤ s
  · have hR : R' = s - y := if_pos fits
    have hQ : Q' = 2 * Q + 1 := by
      simp only [Q', fits, decide_true, Nat.bit_val, Bool.toNat_true]
    refine ⟨?_, fun small => by omega, fun _ => by omega⟩
    rw [hQ, Nat.add_mul, Nat.mul_assoc, Nat.one_mul]
    omega
  · have hR : R' = s := if_neg fits
    have hQ : Q' = 2 * Q := by
      simp only [Q', fits, decide_false, Nat.bit_val, Bool.toNat_false, Nat.add_zero]
    refine ⟨?_, fun _ => by omega, fun zero => by omega⟩
    rw [hQ, Nat.mul_assoc]
    omega

namespace World

open Labelled Circuit

variable {m : Model} {W : World m} {a b : List Lit} {c : Lit} {width x y : Nat} {z : Bool}

theorem addBits_gives (hc : W.Bit c z) (ha : W.Shows width a x) (hb : W.Shows width b y) :
    W.Gives (addBits c a b) fun V out => V.Shows width out ((x + y + z.toNat) % 2 ^ width) := by
  induction width generalizing W a b c x y z with
  | zero =>
      cases ha
      cases hb
      exact .pure (Shows.nil.is (Nat.mod_one _).symm)
  | succ width ih =>
      obtain _ | ⟨hp, ha⟩ := ha
      obtain _ | ⟨hq, hb⟩ := hb
      rw [addBits]
      refine (xor_gives hp hq).bind fun V t grown ht => ?_
      refine (xor_gives ht (grown.bit hc)).bind fun V s later hs => ?_
      have grown := grown.trans later
      refine (majority_gives (grown.bit hp) (grown.bit hq) (grown.bit hc)).bind fun V next later hnext => ?_
      have grown := grown.trans later
      refine (ih hnext (grown.shows ha) (grown.shows hb)).map fun V rest last hrest => ?_
      refine (Shows.cons ((later.trans last).bit hs) hrest).is ?_
      rw [bit_mod, bit_add]

/-- The carry out of a sum that has a number of bits. -/
theorem carryOut_gives (hc : W.Bit c z) (ha : W.Shows width a x) (hb : W.Shows width b y) :
    W.Gives (carryOut c a b) fun V out => V.Bit out (decide (2 ^ width ≤ x + y + z.toNat)) := by
  induction width generalizing W a b c x y z with
  | zero =>
      cases ha
      cases hb
      exact .pure (hc.is (by cases z <;> rfl))
  | succ width ih =>
      obtain _ | @⟨_, p, _, _, x, hp, ha⟩ := ha
      obtain _ | @⟨_, q, _, _, y, hq, hb⟩ := hb
      rw [carryOut]
      refine (majority_gives hp hq hc).bind fun V next grown hnext => ?_
      refine (ih hnext (grown.shows ha) (grown.shows hb)).mono fun V out _ hout => hout.is ?_
      rw [← bit_add, Nat.pow_succ', Nat.bit_val, decide_eq_decide]
      have := Bool.toNat_lt ((p != q) != z)
      omega

theorem negBits_gives (ha : W.Shows width a x) :
    W.Gives (negBits a) fun V out => V.Shows width out ((2 ^ width - x) % 2 ^ width) := by
  refine (addBits_gives W.yes ha.neg (ha.fill W.no)).mono fun V out _ hout => hout.is ?_
  have := ha.lt
  rw [if_neg Bool.false_ne_true, Bool.toNat_true]
  congr 1
  omega

theorem subBits_gives (ha : W.Shows width a x) (hb : W.Shows width b y) :
    W.Gives (subBits a b) fun V out => V.Shows width out ((2 ^ width - y + x) % 2 ^ width) := by
  refine (addBits_gives W.yes ha hb.neg).mono fun V out _ hout => hout.is ?_
  have := hb.lt
  rw [Bool.toNat_true]
  congr 1
  omega

theorem ugeBit_gives (ha : W.Shows width a x) (hb : W.Shows width b y) :
    W.Gives (ugeBit a b) fun V out => V.Bit out (decide (y ≤ x)) := by
  refine (carryOut_gives W.yes ha hb.neg).mono fun V out _ hout => hout.is ?_
  have := hb.lt
  rw [Bool.toNat_true, decide_eq_decide]
  omega

theorem eqBit_gives (ha : W.Shows width a x) (hb : W.Shows width b y) :
    W.Gives (eqBit a b) fun V out => V.Bit out (decide (x = y)) := by
  induction width generalizing W a b x y with
  | zero =>
      cases ha
      cases hb
      exact .pure W.yes
  | succ width ih =>
      obtain _ | @⟨_, p, _, _, x, hp, ha⟩ := ha
      obtain _ | @⟨_, q, _, _, y, hq, hb⟩ := hb
      rw [eqBit]
      refine (xor_gives hp hq).bind fun V differ grown hdiffer => ?_
      refine (ih (grown.shows ha) (grown.shows hb)).bind fun V rest later hrest => ?_
      refine (and_gives (later.bit hdiffer.neg) hrest).mono fun V out _ hout => hout.is ?_
      cases p <;> cases q <;> simp [Nat.bit_val] <;> omega

/-- What is done bit by bit is done to the numbers. -/
theorem zipBits_gives {f : Lit → Lit → Wiring Lit} {g : Bool → Bool → Bool} {F : Nat → Nat → Nat}
    (each : ∀ (V : World m) {k l : Lit} {p q : Bool}, W ≤ V → V.Bit k p → V.Bit l q →
      V.Gives (f k l) fun U out => U.Bit out (g p q))
    (zero : F 0 0 = 0) (step : ∀ p x q y, F (Nat.bit p x) (Nat.bit q y) = Nat.bit (g p q) (F x y))
    (ha : W.Shows width a x) (hb : W.Shows width b y) :
    W.Gives (zipBits f a b) fun V out => V.Shows width out (F x y) := by
  induction width generalizing W a b x y with
  | zero =>
      cases ha
      cases hb
      exact .pure (Shows.nil.is zero.symm)
  | succ width ih =>
      obtain _ | ⟨hp, ha⟩ := ha
      obtain _ | ⟨hq, hb⟩ := hb
      rw [zipBits]
      refine (each W le_rfl hp hq).bind fun V out grown hout => ?_
      refine (ih (fun U _ _ _ _ later => each U (grown.trans later)) (grown.shows ha) (grown.shows hb)).map
        fun U rest later hrest => ?_
      exact (Shows.cons (later.bit hout) hrest).is (step ..).symm

theorem muxBits_gives (hc : W.Bit c z) (ha : W.Shows width a x) (hb : W.Shows width b y) :
    W.Gives (muxBits c a b) fun V out => V.Shows width out (if z then x else y) :=
  zipBits_gives (F := fun x y => if z then x else y) (fun _ _ _ _ _ grown => mux_gives (grown.bit hc))
    (ite_self _) (fun _ _ _ _ => by cases z <;> rfl) ha hb

theorem andBits_gives (ha : W.Shows width a x) (hb : W.Shows width b y) :
    W.Gives (zipBits and a b) fun V out => V.Shows width out (x &&& y) :=
  zipBits_gives (fun _ _ _ _ _ _ => and_gives) rfl Nat.land_bit ha hb

theorem orBits_gives (ha : W.Shows width a x) (hb : W.Shows width b y) :
    W.Gives (zipBits or a b) fun V out => V.Shows width out (x ||| y) :=
  zipBits_gives (fun _ _ _ _ _ _ => or_gives) rfl Nat.lor_bit ha hb

theorem xorBits_gives (ha : W.Shows width a x) (hb : W.Shows width b y) :
    W.Gives (zipBits xor a b) fun V out => V.Shows width out (x ^^^ y) :=
  zipBits_gives (fun _ _ _ _ _ _ => xor_gives) rfl Nat.xor_bit ha hb

/-- The bits of a number, or none of them. -/
theorem mask_gives (ha : W.Shows width a x) (hc : W.Bit c z) :
    W.Gives (a.mapM (and · c)) fun V out => V.Shows width out (if z then x else 0) := by
  induction width generalizing W a x with
  | zero =>
      cases ha
      exact .pure (Shows.nil.is (ite_self 0).symm)
  | succ width ih =>
      obtain _ | @⟨_, p, _, _, x, hp, ha⟩ := ha
      rw [List.mapM_cons]
      refine (and_gives hp hc).bind fun V out grown hout => ?_
      refine (ih (grown.shows ha) (grown.bit hc)).map fun U rest later hrest => ?_
      refine (Shows.cons (later.bit hout) hrest).is ?_
      cases p <;> cases z <;> rfl

theorem mulBits_gives {acc : List Lit} {n : Nat} (hacc : W.Shows width acc n) (ha : W.Shows width a x)
    (hb : W.Shows width b y) :
    W.Gives (mulBits acc a b) fun V out => V.Shows width out ((n + x * y) % 2 ^ width) := by
  induction width generalizing W acc a b n x y with
  | zero =>
      cases hacc
      cases hb
      exact .pure (Shows.nil.is (Nat.mod_one _).symm)
  | succ width ih =>
      obtain _ | @⟨_, q, _, _, y, hq, hb⟩ := hb
      rw [mulBits]
      refine (mask_gives ha hq).bind fun V masked grown hmasked => ?_
      refine (addBits_gives V.no (grown.shows hacc) hmasked).bind fun U sum later hsum => ?_
      generalize same : (n + (if q then x else 0) + false.toNat) % 2 ^ (width + 1) = S at hsum
      obtain _ | @⟨s, p, _, rest, r, hs, hrest⟩ := hsum
      have grown := grown.trans later
      refine (ih hrest (grown.shows ha).dropLast (grown.shows hb)).map fun T out last hout => ?_
      exact (Shows.cons (last.bit hs) hout).is (bit_mul same.symm)

theorem divBits_gives {dividend r q : List Lit} {j k D R Q : Nat} (hb : W.Shows (width + 1) b y)
    (hd : W.Shows j dividend.reverse D) (hr : W.Shows (width + 1) r R) (hq : W.Shows k q Q)
    (small : (Q * y + R) * 2 ^ j + D < 2 ^ width) :
    W.Gives (divBits b dividend r q) fun V out => ∃ Q' R',
      V.Shows (k + j) out.1 Q' ∧ V.Shows (width + 1) out.2 R' ∧
        Q' * y + R' = (Q * y + R) * 2 ^ j + D ∧ (R < y → R' < y) ∧
        (y = 0 → Q' + 1 = (Q + 1) * 2 ^ j) := by
  induction dividend generalizing W r q j k D R Q with
  | nil =>
      cases hd
      exact .pure ⟨Q, R, hq, hr, by simp, id, by simp⟩
  | cons d ds ih =>
      rw [List.reverse_cons] at hd
      obtain ⟨j, D, p, rfl, hds, hp, rfl⟩ := hd.of_append_singleton
      -- what is left and the next bit have room
      have whole : (2 * (Q * y + R) + p.toNat) * 2 ^ j + D =
          (Q * y + R) * 2 ^ (j + 1) + (D + 2 ^ j * p.toNat) := by ring
      have room : Nat.bit p R < 2 ^ width := by
        rw [Nat.bit_val]
        have := Nat.le_mul_of_pos_right (2 * (Q * y + R) + p.toNat) (Nat.two_pow_pos j)
        omega
      have hshifted : W.Shows (width + 1) (d :: r.dropLast) (Nat.bit p R) := by
        have cut := hr.dropLast
        have fits : R < 2 ^ width := by
          rw [Nat.bit_val] at room
          omega
        rw [Nat.add_sub_cancel, Nat.mod_eq_of_lt fits] at cut
        exact .cons hp cut
      obtain ⟨sum, below, zero⟩ := bit_div y R Q p
      rw [divBits]
      refine (ugeBit_gives hshifted hb).bind fun V fits grown hfits => ?_
      refine (subBits_gives (grown.shows hshifted) (grown.shows hb)).bind fun U less later hless => ?_
      refine (muxBits_gives (later.bit hfits) hless ((grown.trans later).shows hshifted)).bind
        fun T reduced later' hreduced => ?_
      have grown := (grown.trans later).trans later'
      rw [sub_or_keep hb.lt (hshifted.lt)] at hreduced
      refine (ih (grown.shows hb) (grown.shows hds) hreduced (.cons ((later.trans later').bit hfits) (grown.shows hq))
        ?_).mono fun S out last ⟨Q', R', hQ, hR, total, less, ones⟩ => ⟨Q', R', ?_, hR, ?_, ?_, ?_⟩
      · rw [sum, whole]
        exact small
      · rwa [Nat.add_right_comm] at hQ
      · rw [total, sum, whole]
      · exact fun h => less (below h)
      · intro h
        rw [ones h, zero h]
        ring

theorem divisionFacts_gives {q r : List Lit} {Q R : Nat} (ha : W.Shows width a x) (hb : W.Shows width b y)
    (hq : W.Shows width q Q) (hr : W.Shows width r R) (remainder : R ≤ x)
    (facts : y ≠ 0 → R < y ∧ Q ≤ x) : W.Gives (divisionFacts a b q r) fun _ _ => True := by
  refine (eqBit_gives hb (hb.fill W.no)).bind fun V isZero grown hzero => ?_
  refine (ugeBit_gives (grown.shows ha) (grown.shows hr)).bind fun V first later hfirst => ?_
  have hzero := later.bit hzero
  have grown := grown.trans later
  refine (ugeBit_gives (grown.shows hr) (grown.shows hb)).bind fun V second later hsecond => ?_
  have hzero := later.bit hzero
  have hfirst := later.bit hfirst
  have grown := grown.trans later
  refine (ugeBit_gives (grown.shows ha) (grown.shows hq)).bind fun V third later hthird => ?_
  have hzero := later.bit hzero
  refine addClauses_gives ?_
  simp only [List.forall_mem_cons, List.not_mem_nil, false_implies, implies_true, and_true]
  refine ⟨⟨first, by simp, (later.bit hfirst).is (decide_eq_true remainder)⟩,
    meets_two hzero (later.bit hsecond).neg ?_, meets_two hzero hthird ?_⟩
  all_goals
    by_cases zero : y = 0
    · simp [zero]
    · have := facts zero
      simp [zero]
      omega

/-- Quotient and remainder, where nothing divided by zero has all bits set. -/
theorem udivBits_gives (ha : W.Shows width a x) (hb : W.Shows width b y) :
    W.Gives (udivBits a b) fun V out =>
      V.Shows width out.1 (if y = 0 then 2 ^ width - 1 else x / y) ∧ V.Shows width out.2 (x % y) := by
  have hb' : W.Shows (width + 1) (b ++ [Lit.no]) y :=
    (hb.append (Shows.replicate W.no 1)).is (by simp)
  have hr : W.Shows (width + 1) ((a ++ [Lit.no]).map fun _ => Lit.no) 0 :=
    (ha.append (Shows.replicate W.no 1)).fill W.no
  have hd : W.Shows width a.reverse.reverse x := by rwa [List.reverse_reverse]
  refine (divBits_gives hb' hd hr .nil (by simpa using ha.lt)).bind
    fun V out grown ⟨Q, R, hQ, hR, sum, below, ones⟩ => ?_
  simp only [Nat.zero_mul, Nat.zero_add] at sum
  have remainder : R ≤ x := by omega
  have hR : V.Shows width out.2.dropLast R :=
    hR.dropLast.is (Nat.mod_eq_of_lt (remainder.trans_lt ha.lt))
  rw [Nat.zero_add] at hQ
  have quotient : Q = if y = 0 then 2 ^ width - 1 else x / y := by
    split
    · rename_i zero
      have := ones zero
      omega
    · rename_i positive
      rw [← sum, Nat.mul_comm, Nat.mul_add_div (by omega), Nat.div_eq_of_lt (below (by omega)), Nat.add_zero]
  have rest : R = x % y := by
    by_cases zero : y = 0
    · subst zero
      rw [Nat.mod_zero]
      omega
    · rw [← sum, Nat.mul_comm, Nat.mul_add_mod, Nat.mod_eq_of_lt (below (by omega))]
  have facts (positive : y ≠ 0) : R < y ∧ Q ≤ x := by
    refine ⟨below (by omega), ?_⟩
    rw [quotient, if_neg positive]
    exact Nat.div_le_self ..
  dsimp only
  refine (divisionFacts_gives (grown.shows ha) (grown.shows hb) hQ hR remainder facts).map
    fun U _ later _ => ?_
  exact ⟨later.shows (hQ.is quotient), later.shows (hR.is rest)⟩

end World

end PathSearch.Smt
