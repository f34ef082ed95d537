import PathSearch.Proofs.Except
import PathSearch.Proofs.Expr.Simplify
import PathSearch.Proofs.Expr.Value

/-! # Building expressions keeps their meaning

Whenever a constructor gives an expression for well-formed operands, the expression is well-formed,
has the width of the operation, and has the value of the operation on the values of the operands.
The rules that make expressions smaller never show in the value.
-/

namespace PathSearch.Expr

open Word

/-- A well-formed expression of a width whose value under each assignment is as given. -/
structure Denotes (e : Expr) (width : Nat) (meaning : Assignment → Option Word) : Prop where
  wellFormed : e.WellFormed
  width_eq : e.width = width
  evaluate_eq : ∀ σ, e.evaluate σ.bindings = meaning σ

namespace Denotes

variable {e : Expr} {width : Nat} {meaning : Assignment → Option Word}

theorem some_value (h : e.Denotes width meaning) (σ : Assignment) : some (e.value σ) = meaning σ := by
  rw [← h.evaluate_eq σ, h.wellFormed.evaluate_eq]

theorem of_value (wellFormed : e.WellFormed) (width_eq : e.width = width)
    (values : ∀ σ, some (e.value σ) = meaning σ) : e.Denotes width meaning :=
  ⟨wellFormed, width_eq, fun σ => (wellFormed.evaluate_eq σ).trans (values σ)⟩

end Denotes

theorem checkWidth_ok {width : Nat} (h : checkWidth width = .ok ()) : 0 < width ∧ width ≤ 64 := by
  unfold checkWidth at h
  split at h
  · cases h
  · rename_i inside
    simp only [maxWidth] at inside
    omega

theorem expectWidth_ok {operation : String} {expected found : Nat}
    (h : expectWidth operation expected found = .ok ()) : expected = found := by
  simp only [expectWidth] at h
  split at h
  · cases h
  · omega

theorem mkConst_denotes {v : Word} {width : Nat} {e : Expr} (h : mkConst v width = .ok e) :
    e.Denotes width fun _ => some (truncate width v) := by
  obtain ⟨_, checked, result⟩ := bind_ok h
  obtain ⟨hpos, hw⟩ := checkWidth_ok checked
  cases result
  exact .of_value ⟨hpos, hw, toNat_truncate_lt hw v⟩ rfl fun σ => by simp

theorem mkVar_denotes {name : String} {width : Nat} {e : Expr} (h : mkVar name width = .ok e) :
    e.Denotes width fun σ => some (truncate width (σ name)) := by
  obtain ⟨_, checked, result⟩ := bind_ok h
  cases result
  exact .of_value (checkWidth_ok checked) rfl fun σ => by simp

theorem const?_eq_some {e : Expr} {v : Word} (h : e.const? = some v) : e = .const v e.width := by
  cases e <;> simp only [const?, Option.some.injEq, reduceCtorEq] at h
  subst h
  rfl

theorem evaluate_of_const? {b : Bindings} {e : Expr} {v : Word} (h : e.const? = some v) :
    e.evaluate b = some v := by
  rw [const?_eq_some h, evaluate_eq_eval]
  rfl

theorem value_of_const? {e : Expr} {v : Word} (h : e.const? = some v) (σ : Assignment) :
    e.value σ = v := by
  rw [const?_eq_some h, value_const]

theorem WellFormed.const?_lt {x : Expr} {v : Word} (hx : x.WellFormed) (known : x.const? = some v) :
    v.toNat < 2 ^ x.width :=
  value_of_const? known (fun _ => 0) ▸ hx.value_lt fun _ => 0

theorem applyUnary_denotes {op : Op} {x : Expr} (hx : x.WellFormed) (unary : op.isUnary = true) :
    (applyUnary op x).Denotes x.width fun σ => op.foldUnary (x.value σ) x.width := by
  have plain : (Expr.unary op x).Denotes x.width fun σ => op.foldUnary (x.value σ) x.width :=
    .of_value ⟨unary, hx⟩ rfl fun σ => (WellFormed.value_unary ⟨unary, hx⟩).symm
  unfold applyUnary
  split
  · rename_i v folded
    obtain ⟨c, isConst, folded⟩ := Option.bind_eq_some_iff.mp folded
    refine .of_value ⟨hx.width_pos, hx.width_le, Op.foldUnary_lt hx.width_le folded⟩ rfl fun σ => ?_
    rw [value_const, value_of_const? isConst, folded]
  · split
    · rename_i inner y _
      split
      · rename_i twice
        subst twice
        refine .of_value hx.2 rfl fun σ => ?_
        exact (foldUnary_twice hx.2.width_le (hx.2.value_lt σ) hx.value_unary).symm
      · exact plain
    · exact plain

theorem mkUnary_denotes {op : Op} {x e : Expr} (hx : x.WellFormed) (h : mkUnary op x = .ok e) :
    e.Denotes x.width fun σ => op.foldUnary (x.value σ) x.width := by
  simp only [mkUnary] at h
  split at h
  · rename_i unary
    cases h
    exact applyUnary_denotes hx unary
  · cases h

theorem onSame?_denotes {op : Op} {x e : Expr} (hx : x.WellFormed) (h : onSame? op x = some e) :
    e.Denotes (if op.isComparison then 1 else x.width) fun σ =>
      op.foldBinary (x.value σ) (x.value σ) x.width := by
  have hpos := hx.width_pos
  have hw := hx.width_le
  have constant : ∀ (v : Word) (width : Nat), constOnSame? op = some v → 0 < width → width ≤ 64 →
      v.toNat < 2 ^ width → (Expr.const v width).Denotes width fun σ =>
        op.foldBinary (x.value σ) (x.value σ) x.width := by
    intro v width same pos atMost fits
    refine .of_value ⟨pos, atMost, fits⟩ rfl fun σ => ?_
    rw [value_const, foldBinary_same_const hpos hw same]
  have self : op = .and ∨ op = .or → x.Denotes x.width fun σ =>
      op.foldBinary (x.value σ) (x.value σ) x.width := fun idempotent =>
    .of_value hx rfl fun σ => (foldBinary_same_self hpos hw (hx.value_lt σ) idempotent).symm
  cases op <;> simp only [onSame?, Option.some.injEq, reduceCtorEq] at h <;> subst h
  case and => exact self (.inl rfl)
  case or => exact self (.inr rfl)
  case xor | sub => exact constant 0 _ rfl hpos hw (Nat.two_pow_pos _)
  case eq | ule | sle | uge | sge => exact constant 1 1 rfl (by decide) (by decide) (by decide)
  case ne | ult | slt | ugt | sgt => exact constant 0 1 rfl (by decide) (by decide) (by decide)

/-- A comparison has no neutral and no absorbing operand. -/
theorem isComparison_of_neutralRight {op : Op} {width : Nat} {v : Word}
    (h : neutralRight? op width = some v) : op.isComparison = false := by
  cases op <;> simp [neutralRight?] at h <;> rfl

theorem isComparison_of_neutralLeft {op : Op} {width : Nat} {v : Word}
    (h : neutralLeft? op width = some v) : op.isComparison = false := by
  cases op <;> simp [neutralLeft?] at h <;> rfl

theorem isComparison_of_absorbing {op : Op} {width : Nat} {v : Word}
    (h : absorbing? op width = some v) : op.isComparison = false := by
  cases op <;> simp [absorbing?] at h <;> rfl

theorem absorbing_lt {op : Op} {width : Nat} {v : Word} (hw : width ≤ 64)
    (h : absorbing? op width = some v) : v.toNat < 2 ^ width := by
  have bound := Nat.two_pow_pos width
  cases op <;> simp only [absorbing?, Option.some.injEq, reduceCtorEq] at h <;> subst h
  case and | mul => exact bound
  case or =>
      rw [toNat_mask hw]
      omega

theorem simplify?_denotes {op : Op} {l r e : Expr} (hl : l.WellFormed) (hr : r.WellFormed)
    (same : l.width = r.width) (h : simplify? op l r = some e) :
    e.Denotes (if op.isComparison then 1 else l.width) fun σ =>
      op.foldBinary (l.value σ) (r.value σ) l.width := by
  have hpos := hl.width_pos
  have hw := hl.width_le
  have twice : (if l = r then onSame? op l else none) = some e →
      e.Denotes (if op.isComparison then 1 else l.width) fun σ =>
        op.foldBinary (l.value σ) (r.value σ) l.width := by
    intro rule
    split at rule
    · rename_i equal
      subst equal
      exact onSame?_denotes hl rule
    · cases rule
  unfold simplify? at h
  simp only at h
  split at h
  · rename_i rule
    obtain ⟨v, hv⟩ := Option.isSome_iff_exists.mp rule.1
    have neutral : neutralRight? op l.width = some v := by rw [← rule.2, hv]
    cases h
    rw [if_neg (by simp [isComparison_of_neutralRight neutral])]
    refine .of_value hl rfl fun σ => ?_
    rw [value_of_const? hv, foldBinary_neutralRight hpos hw (hl.value_lt σ) neutral]
  · split at h
    · rename_i rule
      obtain ⟨v, hv⟩ := Option.isSome_iff_exists.mp rule.1
      have neutral : neutralLeft? op l.width = some v := by rw [← rule.2, hv]
      cases h
      rw [if_neg (by simp [isComparison_of_neutralLeft neutral])]
      refine .of_value hr same.symm fun σ => ?_
      have fits : (r.value σ).toNat < 2 ^ l.width := same ▸ hr.value_lt σ
      rw [value_of_const? hv, foldBinary_neutralLeft hpos hw fits neutral]
    · split at h
      · rename_i v absorbing
        split at h
        · rename_i given
          cases h
          rw [if_neg (by simp [isComparison_of_absorbing absorbing])]
          refine .of_value ⟨hpos, hw, absorbing_lt hw absorbing⟩ rfl fun σ => ?_
          have present : l.value σ = v ∨ r.value σ = v :=
            given.imp (value_of_const? · σ) (value_of_const? · σ)
          rw [value_const, foldBinary_absorbing hpos hw absorbing present]
        · exact twice h
      · exact twice h

theorem applyBinary_denotes {op : Op} {l r : Expr} (hl : l.WellFormed) (hr : r.WellFormed)
    (same : l.width = r.width) (binary : op.isUnary = false) :
    (applyBinary op l r).Denotes (if op.isComparison then 1 else l.width) fun σ =>
      op.foldBinary (l.value σ) (r.value σ) l.width := by
  have hpos := hl.width_pos
  have hw := hl.width_le
  have plain : (Expr.binary op l r).Denotes (if op.isComparison then 1 else l.width) fun σ =>
      op.foldBinary (l.value σ) (r.value σ) l.width :=
    .of_value ⟨binary, same, hl, hr⟩ rfl fun σ => (WellFormed.value_binary ⟨binary, same, hl, hr⟩).symm
  unfold applyBinary
  split
  · rename_i a b constL constR
    split
    · rename_i v folded
      refine .of_value ⟨?_, ?_, Op.foldBinary_lt hpos hw binary folded⟩ rfl fun σ => ?_
      · split <;> omega
      · split <;> omega
      · rw [value_const, value_of_const? constL, value_of_const? constR, folded]
    · exact plain
  · cases rule : simplify? op l r with
    | none => exact plain
    | some e => exact simplify?_denotes hl hr same rule

theorem mkBinary_denotes {op : Op} {l r e : Expr} (hl : l.WellFormed) (hr : r.WellFormed)
    (h : mkBinary op l r = .ok e) :
    e.Denotes (if op.isComparison then 1 else l.width) fun σ =>
      op.foldBinary (l.value σ) (r.value σ) l.width := by
  unfold mkBinary at h
  split at h
  · cases h
  · rename_i binary
    obtain ⟨_, checked, result⟩ := bind_ok h
    cases result
    exact applyBinary_denotes hl hr (expectWidth_ok checked) (by simpa using binary)

theorem mkIte_denotes {c y n e : Expr} (hc : c.WellFormed) (hy : y.WellFormed) (hn : n.WellFormed)
    (h : mkIte c y n = .ok e) :
    e.Denotes y.width fun σ => some (if c.value σ = 1 then y.value σ else n.value σ) := by
  obtain ⟨_, oneBit, h⟩ := bind_ok h
  obtain ⟨_, same, h⟩ := bind_ok h
  have same := expectWidth_ok same
  cases h
  split
  · rename_i v known
    have value := value_of_const? known
    split
    · rename_i taken
      exact .of_value hy rfl fun σ => by simp [value, taken]
    · rename_i taken
      exact .of_value hn same.symm fun σ => by simp [value, taken]
  · split
    · rename_i equal
      subst equal
      exact .of_value hy rfl fun σ => by simp
    · have whole : (Expr.ite c y n).WellFormed := ⟨(expectWidth_ok oneBit).symm, same, hc, hy, hn⟩
      exact .of_value whole rfl fun σ => congrArg some whole.value_ite

theorem slice_full {width : Nat} {v : Word} (hpos : 0 < width) (hw : width ≤ 64)
    (fits : v.toNat < 2 ^ width) : slice (width - 1) 0 v = v := by
  have whole : width - 1 - 0 + 1 = width := by omega
  apply UInt64.toNat_inj.mp
  rw [toNat_slice (by omega) (by omega), whole, Nat.pow_zero, Nat.div_one, Nat.mod_eq_of_lt fits]

theorem extract_denotes {high low : Nat} {x : Expr} (hx : x.WellFormed)
    (inside : ¬ (high < low ∨ x.width ≤ high)) :
    (Expr.extract high low x).Denotes (high - low + 1) fun σ => some (slice high low (x.value σ)) := by
  have whole : (Expr.extract high low x).WellFormed := ⟨by omega, by omega, hx⟩
  exact .of_value whole rfl fun σ => congrArg some whole.value_extract

/-- A slice of one expression stands for a slice of another that has the same bits there. -/
theorem Denotes.slice_of_eq {high low high' low' : Nat} {x y e : Expr}
    (denotes : e.Denotes (high' - low' + 1) fun σ => some (slice high' low' (y.value σ)))
    (inX : high < 64) (ordX : low ≤ high) (inY : high' < 64) (ordY : low' ≤ high')
    (size : high' - low' = high - low)
    (bits : ∀ σ, (y.value σ).toNat / 2 ^ low' % 2 ^ (high - low + 1) =
      (x.value σ).toNat / 2 ^ low % 2 ^ (high - low + 1)) :
    e.Denotes (high - low + 1) fun σ => some (slice high low (x.value σ)) := by
  refine .of_value denotes.wellFormed (by rw [denotes.width_eq, size]) fun σ => ?_
  rw [denotes.some_value σ]
  congr 1
  apply UInt64.toNat_inj.mp
  rw [toNat_slice inY ordY, toNat_slice inX ordX, size, bits σ]

/-- Slices go through slices, through the side of a concatenation that holds them, and through zero
    extension, and stay the same bits. -/
theorem mkExtract_denotes {high low : Nat} {x e : Expr} (hx : x.WellFormed)
    (h : mkExtract high low x = .ok e) :
    e.Denotes (high - low + 1) fun σ => some (slice high low (x.value σ)) := by
  have wx := hx.width_le
  fun_induction mkExtract high low x generalizing e with
  | case1 => cases h
  | case2 x high low inside size =>
      rename_i full
      cases h
      obtain ⟨rfl, whole⟩ := full
      have last : high = x.width - 1 := by omega
      subst last
      refine .of_value hx (by omega) fun σ => ?_
      rw [slice_full hx.width_pos wx (hx.value_lt σ)]
  | case3 high low size v bits inside =>
      cases h
      simp only [width] at inside wx
      exact .of_value ⟨by omega, by omega, toNat_truncate_lt (by omega) _⟩ rfl fun σ => by
        rw [value_const, value_const, slice]
  | case4 high low size innerHigh innerLow inner inside partial' =>
      rename_i ih
      have wi := hx.2.2.width_le
      obtain ⟨ordered, below, hi⟩ := id hx
      simp only [width] at inside
      refine (ih hi h wi).slice_of_eq (by omega) (by omega) (by omega) (by omega) (by omega) ?_
      intro σ
      rw [hx.toNat_value_extract, slice_slice _ (by omega)]
  | case5 high low size hi lo inLow inside partial' =>
      rename_i ih
      obtain ⟨room, hh, hl⟩ := id hx
      refine (ih hl h hl.width_le).slice_of_eq (by omega) (by omega) (by omega) (by omega) rfl ?_
      intro σ
      rw [hx.toNat_value_concat, slice_concat_low _ _ (by omega)]
  | case6 high low size hi lo notLow inHigh inside partial' =>
      rename_i ih
      obtain ⟨room, hh, hl⟩ := id hx
      simp only [width] at inside
      refine (ih hh h hh.width_le).slice_of_eq (by omega) (by omega) (by omega) (by omega)
        (by omega) ?_
      intro σ
      rw [hx.toNat_value_concat, slice_concat_high _ (hl.value_lt σ) inHigh]
  | case7 high low size hi lo notLow notHigh inside =>
      cases h
      exact extract_denotes hx inside
  | case8 high low size inner bits inInner inside partial' =>
      rename_i ih
      obtain ⟨wider, atMost, hi⟩ := id hx
      refine (ih hi h hi.width_le).slice_of_eq (by omega) (by omega) (by omega) (by omega) rfl ?_
      intro σ
      rw [value_zext]
  | case9 high low size inner bits notInner inZeros inside =>
      cases h
      obtain ⟨wider, atMost, hi⟩ := id hx
      simp only [width] at inside
      refine .of_value ⟨by omega, by omega, Nat.two_pow_pos _⟩ rfl fun σ => ?_
      rw [value_const, value_zext]
      congr 1
      apply UInt64.toNat_inj.mp
      have small : (inner.value σ).toNat < 2 ^ low :=
        Nat.lt_of_lt_of_le (hi.value_lt σ) (Nat.pow_le_pow_right (by omega) inZeros)
      rw [toNat_slice (by omega) (by omega), Nat.div_eq_of_lt small, Nat.zero_mod]
      rfl
  | case10 high low size inner bits notInner notZeros inside =>
      cases h
      exact extract_denotes hx inside
  | case11 x high low inside =>
      cases h
      exact extract_denotes hx inside

theorem checkExtension_ok {x : Expr} {width : Nat} (h : checkExtension x width = .ok ()) :
    x.width ≤ width ∧ width ≤ 64 := by
  obtain ⟨_, checked, rest⟩ := bind_ok h
  have := checkWidth_ok checked
  split at rest
  · cases rest
  · omega

theorem mkZext_total {x : Expr} {width : Nat} (pos : 0 < width) (wider : x.width ≤ width)
    (atMost : width ≤ 64) : ∃ e, mkZext x width = .ok e := by
  have inside : ¬ (width = 0 ∨ maxWidth < width) := by
    simp only [maxWidth]
    omega
  have reaches : ¬ width < x.width := by omega
  simp only [mkZext, checkExtension, checkWidth, if_neg inside, if_neg reaches]
  exact ⟨_, rfl⟩

theorem mkZext_wider {x e : Expr} {width : Nat} (h : mkZext x width = .ok e) : x.width ≤ width := by
  obtain ⟨_, checked, _⟩ := bind_ok h
  exact (checkExtension_ok checked).1

/-- The rules of zero extension: to the same width, of a constant, and none. -/
theorem mkZext_cases {x e : Expr} {width : Nat} (extended : mkZext x width = .ok e) :
    width = x.width ∧ e = x ∨
      x.width < width ∧ ((∃ v, x.const? = some v ∧ e = .const v width) ∨
        x.const? = none ∧ e = .zext x width) := by
  have wider := mkZext_wider extended
  obtain ⟨_, -, h⟩ := bind_ok extended
  cases h
  split
  · rename_i same
    exact .inl ⟨same, rfl⟩
  · refine .inr ⟨by omega, ?_⟩
    cases x with
    | const v bits => exact .inl ⟨v, rfl, rfl⟩
    | _ => exact .inr ⟨rfl, rfl⟩

theorem mkZext_denotes {x e : Expr} {width : Nat} (hx : x.WellFormed) (h : mkZext x width = .ok e) :
    e.Denotes width fun σ => some (x.value σ) := by
  obtain ⟨_, checked, -⟩ := bind_ok h
  obtain ⟨wider, atMost⟩ := checkExtension_ok checked
  have hpos := hx.width_pos
  rcases mkZext_cases h with ⟨same, rfl⟩ | ⟨-, ⟨v, known, rfl⟩ | ⟨-, rfl⟩⟩
  · exact .of_value hx same.symm fun σ => rfl
  · have fits : v.toNat < 2 ^ width :=
      Nat.lt_of_lt_of_le (hx.const?_lt known) (Nat.pow_le_pow_right (by omega) wider)
    refine .of_value ⟨by omega, atMost, fits⟩ rfl fun σ => ?_
    rw [value_const, value_of_const? known]
  · exact .of_value ⟨wider, atMost, hx⟩ rfl fun σ => by simp

theorem mkSext_denotes {x e : Expr} {width : Nat} (hx : x.WellFormed) (h : mkSext x width = .ok e) :
    e.Denotes width fun σ => some (truncate width (ofSigned (toSigned x.width (x.value σ)))) := by
  obtain ⟨_, checked, h⟩ := bind_ok h
  obtain ⟨wider, atMost⟩ := checkExtension_ok checked
  have hpos := hx.width_pos
  cases h
  split
  · rename_i same
    subst same
    refine .of_value hx rfl fun σ => ?_
    rw [truncate_ofSigned_toSigned hx.width_le (hx.value_lt σ)]
  · split
    · rename_i v bits _
      exact .of_value ⟨by omega, atMost, toNat_truncate_lt atMost _⟩ rfl fun σ => by simp [Expr.width]
    · have whole : (Expr.sext x width).WellFormed := ⟨wider, atMost, hx⟩
      exact .of_value whole rfl fun σ => congrArg some whole.value_sext

theorem concat_denotes {hi lo : Expr} (hh : hi.WellFormed) (hl : lo.WellFormed)
    (room : hi.width + lo.width ≤ 64) :
    (Expr.concat hi lo).Denotes (hi.width + lo.width) fun σ =>
      some ((hi.value σ <<< UInt64.ofNat lo.width) ||| lo.value σ) := by
  have whole : (Expr.concat hi lo).WellFormed := ⟨room, hh, hl⟩
  exact .of_value whole rfl fun σ => congrArg some whole.value_concat

/-- The rules of concatenation: two constants, zeros in front, two slices that meet, and none. -/
theorem mkConcat_cases {hi lo e : Expr} (hh : hi.WellFormed) (built : mkConcat hi lo = .ok e) :
    (∃ u v, hi.const? = some u ∧ lo.const? = some v ∧
        e = .const ((u <<< UInt64.ofNat lo.width) ||| v) (hi.width + lo.width)) ∨
      (hi.const? = some 0 ∧ e = .zext lo (hi.width + lo.width)) ∨
      (∃ top middle bottom x, hi = .extract top (middle + 1) x ∧ lo = .extract middle bottom x ∧
        mkExtract top bottom x = .ok e) ∨
      e = .concat hi lo := by
  have pos := hh.width_pos
  obtain ⟨_, -, h⟩ := bind_ok built
  split at h
  · cases h
    exact .inl ⟨_, _, rfl, rfl, rfl⟩
  · rename_i unknown
    split at h
    · rename_i zero
      subst zero
      refine .inr (.inl ⟨rfl, ?_⟩)
      rcases mkZext_cases h with ⟨same, -⟩ | ⟨-, ⟨v, known, -⟩ | ⟨-, extended⟩⟩
      · omega
      · exact (unknown v _ (const?_eq_some known)).elim
      · exact extended
    · cases h
      exact .inr (.inr (.inr rfl))
  · split at h
    · rename_i meet
      obtain ⟨rfl, rfl⟩ := meet
      exact .inr (.inr (.inl ⟨_, _, _, _, rfl, rfl, h⟩))
    · cases h
      exact .inr (.inr (.inr rfl))
  · cases h
    exact .inr (.inr (.inr rfl))

theorem mkConcat_denotes {hi lo e : Expr} (hh : hi.WellFormed) (hl : lo.WellFormed)
    (built : mkConcat hi lo = .ok e) :
    e.Denotes (hi.width + lo.width) fun σ =>
      some ((hi.value σ <<< UInt64.ofNat lo.width) ||| lo.value σ) := by
  obtain ⟨_, checked, -⟩ := bind_ok built
  obtain ⟨pos, room⟩ := checkWidth_ok checked
  rcases mkConcat_cases hh built with ⟨u, v, hu, hv, rfl⟩ | ⟨zero, rfl⟩ |
    ⟨top, middle, bottom, x, rfl, rfl, joined⟩ | rfl
  · have fitsHigh := hh.const?_lt hu
    have fitsLow := hl.const?_lt hv
    refine .of_value ⟨pos, room, ?_⟩ rfl fun σ => ?_
    · rw [toNat_shiftLeft_or hh.width_pos room fitsHigh fitsLow]
      exact concat_lt fitsHigh fitsLow
    · rw [value_const, value_of_const? hu, value_of_const? hv]
  · refine .of_value ⟨by omega, room, hl⟩ rfl fun σ => ?_
    rw [value_zext, value_of_const? zero]
    simp
  · obtain ⟨ord₁, in₁, hx⟩ := id hh
    obtain ⟨ord₂, in₂, _⟩ := id hl
    have atMost := hx.width_le
    have denotes := mkExtract_denotes hx joined
    have size : top - bottom + 1 = middle + 1 - bottom + (top - (middle + 1) + 1) := by omega
    have part : middle - bottom + 1 = middle + 1 - bottom := by omega
    refine .of_value denotes.wellFormed (by simp only [denotes.width_eq, width]; omega) fun σ => ?_
    rw [denotes.some_value σ, ← WellFormed.value_concat ⟨room, hh, hl⟩]
    congr 1
    apply UInt64.toNat_inj.mp
    rw [WellFormed.toNat_value_concat ⟨room, hh, hl⟩, hh.toNat_value_extract,
      hl.toNat_value_extract, toNat_slice (by omega) (by omega), size]
    simp only [width, part]
    exact (slice_join _ (by omega)).symm
  · exact concat_denotes hh hl room

theorem equals_denotes {a b e : Expr} (ha : a.WellFormed) (hb : b.WellFormed)
    (h : equals a b = .ok e) :
    e.Denotes 1 fun σ => Op.eq.foldBinary (a.value σ) (b.value σ) a.width :=
  mkBinary_denotes ha hb h

theorem lnot_denotes {x e : Expr} (hx : x.WellFormed) (built : lnot x = .ok e) :
    e.Denotes 1 fun σ => Op.not.foldUnary (x.value σ) 1 := by
  obtain ⟨_, checked, h⟩ := bind_ok built
  have oneBit : x.width = 1 := (expectWidth_ok checked).symm
  have complement : ∀ {y : Expr}, mkUnary .not x = .ok y →
      y.Denotes 1 fun σ => Op.not.foldUnary (x.value σ) 1 := by
    intro y hy
    have denotes := mkUnary_denotes hx hy
    rwa [oneBit] at denotes
  split at h
  · rename_i op l r
    split at h
    · rename_i opposite negated
      obtain ⟨binary, same, hl, hr⟩ := id hx
      have comparison : opposite.isComparison = true := by
        cases op <;> simp [Op.negated?] at negated <;> subst negated <;> rfl
      have denotes := mkBinary_denotes hl hr h
      rw [if_pos comparison] at denotes
      refine .of_value denotes.wellFormed denotes.width_eq fun σ => ?_
      rw [denotes.some_value σ, foldBinary_negated hl.width_pos hl.width_le negated hx.value_binary]
    · exact complement h
  · exact complement h

theorem land_denotes {a b e : Expr} (ha : a.WellFormed) (hb : b.WellFormed) (h : land a b = .ok e) :
    e.Denotes 1 fun σ => Op.and.foldBinary (a.value σ) (b.value σ) 1 := by
  obtain ⟨_, checked, h⟩ := bind_ok h
  have oneBit : a.width = 1 := (expectWidth_ok checked).symm
  have denotes := mkBinary_denotes ha hb h
  rw [oneBit] at denotes
  exact denotes

theorem lor_denotes {a b e : Expr} (ha : a.WellFormed) (hb : b.WellFormed) (h : lor a b = .ok e) :
    e.Denotes 1 fun σ => Op.or.foldBinary (a.value σ) (b.value σ) 1 := by
  obtain ⟨_, checked, h⟩ := bind_ok h
  have oneBit : a.width = 1 := (expectWidth_ok checked).symm
  have denotes := mkBinary_denotes ha hb h
  rw [oneBit] at denotes
  exact denotes

end PathSearch.Expr
