import PathSearch.Proofs.Expr.Construction

/-! # Slices of what the constructors build

A slice stays a node only where it is a proper part that lies across the parts of its operand. Every
slice in an expression that the constructors built is of this kind. So a slice of a slice is the slice of
the operand with the same bits, and taking a concatenation apart gives what it was made of, whichever rule
joined it: the expression itself, and not only its value.
-/

namespace PathSearch

namespace Expr

open Word

/-- The bits asked for are not found in a part of the expression alone. -/
def Crosses (high low : Nat) : Expr → Prop
  | .const .. | .extract .. => False
  | .concat _ lo => low < lo.width ∧ lo.width ≤ high
  | .zext inner _ => low < inner.width ∧ inner.width ≤ high
  | .var .. | .unary .. | .binary .. | .ite .. | .sext .. => True

/-- No smaller expression has these bits of the operand. -/
structure Tight (high low : Nat) (x : Expr) : Prop where
  ordered : low ≤ high
  inside : high < x.width
  proper : ¬ (low = 0 ∧ high - low + 1 = x.width)
  crosses : x.Crosses high low

/-- Every slice in the expression is tight. -/
def Sliced : Expr → Prop
  | .const .. | .var .. => True
  | .unary _ x | .zext x _ | .sext x _ => x.Sliced
  | .extract high low x => x.Tight high low ∧ x.Sliced
  | .binary _ l r | .concat l r => l.Sliced ∧ r.Sliced
  | .ite c y n => c.Sliced ∧ y.Sliced ∧ n.Sliced

variable {high low a b : Nat} {x hi lo e : Expr}

/-- Where no rule applies, a slice is the whole or a node of its own. -/
theorem mkExtract_of_crosses (ordered : low ≤ high) (inside : high < x.width)
    (crosses : x.Crosses high low) :
    mkExtract high low x =
      .ok (if low = 0 ∧ high - low + 1 = x.width then x else .extract high low x) := by
  unfold mkExtract
  rw [if_neg (by omega)]
  simp only
  split
  · rfl
  · cases x with
    | const | extract => exact crosses.elim
    | concat hi lo =>
        obtain ⟨below, above⟩ := crosses
        simp only [if_neg (Nat.not_lt.mpr above), if_neg (Nat.not_le.mpr below)]
    | zext inner bits =>
        obtain ⟨below, above⟩ := crosses
        simp only [if_neg (Nat.not_lt.mpr above), if_neg (Nat.not_le.mpr below)]
    | var | unary | binary | ite | sext => rfl

theorem Tight.mkExtract_eq (tight : x.Tight high low) :
    mkExtract high low x = .ok (.extract high low x) := by
  rw [mkExtract_of_crosses tight.ordered tight.inside tight.crosses, if_neg tight.proper]

theorem mkExtract_concat_low (pos : 0 < hi.width) (ordered : b ≤ a) (inside : a < lo.width) :
    mkExtract a b (.concat hi lo) = mkExtract a b lo := by
  have size : (Expr.concat hi lo).width = hi.width + lo.width := rfl
  rw [mkExtract, if_neg (by omega)]
  simp only
  rw [if_neg (by omega), if_pos inside]

theorem mkExtract_concat_high (pos : 0 < lo.width) (ordered : b ≤ a) (above : lo.width ≤ b)
    (inside : a < hi.width + lo.width) :
    mkExtract a b (.concat hi lo) = mkExtract (a - lo.width) (b - lo.width) hi := by
  have size : (Expr.concat hi lo).width = hi.width + lo.width := rfl
  rw [mkExtract, if_neg (by omega)]
  simp only
  rw [if_neg (by omega), if_neg (by omega), if_pos above]

theorem mkExtract_zext_low {bits : Nat} (wider : x.width ≤ bits) (ordered : b ≤ a)
    (inside : a < x.width) (proper : ¬ (b = 0 ∧ a - b + 1 = bits)) :
    mkExtract a b (.zext x bits) = mkExtract a b x := by
  have size : (Expr.zext x bits).width = bits := rfl
  rw [mkExtract, if_neg (by omega)]
  simp only
  rw [size, if_neg proper, if_pos inside]

theorem mkExtract_zext_high {bits : Nat} (pos : 0 < x.width) (ordered : b ≤ a) (above : x.width ≤ b)
    (inside : a < bits) : mkExtract a b (.zext x bits) = .ok (.const 0 (a - b + 1)) := by
  have size : (Expr.zext x bits).width = bits := rfl
  rw [mkExtract, if_neg (by omega)]
  simp only
  rw [if_neg (by omega), if_neg (by omega), if_pos above]

theorem slice_zero (high low : Nat) : slice high low 0 = 0 := by simp [slice, truncate]

/-- The bits of a constant, also where all of them are taken. -/
theorem mkExtract_const {v : Word} {bits : Nat} (hv : (Expr.const v bits).WellFormed) (ordered : b ≤ a)
    (inside : a < bits) : mkExtract a b (.const v bits) = .ok (.const (slice a b v) (a - b + 1)) := by
  obtain ⟨pos, atMost, fits⟩ := hv
  have size : (Expr.const v bits).width = bits := rfl
  rw [mkExtract, if_neg (by omega)]
  simp only
  split
  · have bottom : b = 0 := by omega
    have top : a = bits - 1 := by omega
    rw [top, bottom, slice_full pos atMost fits, Nat.sub_zero, Nat.sub_add_cancel pos]
  · rfl

/-- A slice of a tight slice is taken from its operand. -/
theorem Tight.mkExtract_extract (tight : x.Tight high low) (ordered : b ≤ a) (inside : a ≤ high - low) :
    mkExtract a b (.extract high low x) = mkExtract (a + low) (b + low) x := by
  have := tight.ordered
  have size : (Expr.extract high low x).width = high - low + 1 := rfl
  rw [mkExtract, if_neg (by omega)]
  simp only
  split
  · have top : a + low = high := by omega
    have bottom : b + low = low := by omega
    rw [top, bottom, tight.mkExtract_eq]
  · rfl

theorem mkExtract_full (hx : x.WellFormed) : mkExtract (x.width - 1) 0 x = .ok x := by
  have pos := hx.width_pos
  have whole : x.width - 1 - 0 + 1 = x.width := by omega
  rw [mkExtract, if_neg (by omega)]
  simp only [whole, and_self, if_true]

/-- What was extended with zeros is found below them. -/
theorem mkExtract_mkZext {bits : Nat} (hx : x.WellFormed) (extended : mkZext x bits = .ok e) :
    mkExtract (x.width - 1) 0 e = .ok x := by
  have pos := hx.width_pos
  have inside : x.width - 1 < bits := by have := mkZext_wider extended; omega
  rcases mkZext_cases extended with ⟨-, rfl⟩ | ⟨wider, ⟨v, known, rfl⟩ | ⟨-, rfl⟩⟩
  · exact mkExtract_full hx
  · have wide := (mkZext_denotes hx extended).wellFormed
    rw [mkExtract_const wide (Nat.zero_le _) inside, slice_full pos hx.width_le (hx.const?_lt known),
      Nat.sub_zero, Nat.sub_add_cancel pos, ← const?_eq_some known]
  · have last : x.width - 1 < x.width := Nat.sub_lt pos Nat.one_pos
    rw [mkExtract_zext_low (Nat.le_of_lt wider) (Nat.zero_le _) last (by omega), mkExtract_full hx]

/-- A slice across the parts of its operand is the whole operand or a node over it, so a slice of it is
    taken from the operand. -/
theorem Crosses.mkExtract_mkExtract (crosses : x.Crosses high low) (ordered : low ≤ high)
    (inside : high < x.width) (taken : mkExtract high low x = .ok e) (below : b ≤ a)
    (within : a ≤ high - low) : mkExtract a b e = mkExtract (a + low) (b + low) x := by
  rw [mkExtract_of_crosses ordered inside crosses, Except.ok.injEq] at taken
  split at taken
  · rename_i full
    rw [← taken, full.1, Nat.add_zero, Nat.add_zero]
  · rename_i proper
    have tight : x.Tight high low := ⟨ordered, inside, proper, crosses⟩
    rw [← taken, tight.mkExtract_extract below within]

/-- A slice of a slice is a slice of its operand: the ways through the operand, in one go or in two, lead
    to one expression. -/
theorem mkExtract_mkExtract (hx : x.WellFormed) (sliced : x.Sliced) (taken : mkExtract high low x = .ok e)
    (below : b ≤ a) (within : a ≤ high - low) :
    mkExtract a b e = mkExtract (a + low) (b + low) x := by
  obtain ⟨ordered, inside⟩ := mkExtract_inside taken
  induction x generalizing high low e with
  | const v bits =>
      have narrow : bits ≤ 64 := hx.width_le
      have inside : high < bits := inside
      have part := (mkExtract_denotes hx taken).wellFormed
      rw [mkExtract_const hx ordered inside] at taken
      cases taken
      have same : slice a b (slice high low v) = slice (a + low) (b + low) v := by
        apply UInt64.toNat_inj.mp
        rw [toNat_slice (by omega) below, toNat_slice (by omega) ordered,
          toNat_slice (by omega) (by omega), slice_slice _ (by omega), Nat.add_sub_add_right]
      rw [mkExtract_const part below (by omega), mkExtract_const hx (by omega) (by omega), same,
        Nat.add_sub_add_right]
  | extract top bottom y ih =>
      obtain ⟨tight, lower⟩ := sliced
      have order := tight.ordered
      have reach := tight.inside
      have size : (Expr.extract top bottom y).width = top - bottom + 1 := rfl
      rw [tight.mkExtract_extract ordered (by omega)] at taken
      rw [ih hx.2.2 lower taken (by omega) (by omega) (by omega), Nat.add_comm low bottom,
        tight.mkExtract_extract (by omega) (by omega)]
      congr 1 <;> omega
  | concat hi lo ihHigh ihLow =>
      have size : (Expr.concat hi lo).width = hi.width + lo.width := rfl
      obtain ⟨-, hh, hl⟩ := hx
      have posHigh := hh.width_pos
      have posLow := hl.width_pos
      by_cases inLow : high < lo.width
      · rw [mkExtract_concat_low posHigh ordered inLow] at taken
        rw [ihLow hl sliced.2 taken within ordered inLow,
          mkExtract_concat_low posHigh (by omega) (by omega)]
      by_cases inHigh : lo.width ≤ low
      · rw [mkExtract_concat_high posLow ordered inHigh (by omega)] at taken
        rw [ihHigh hh sliced.1 taken (by omega) (by omega) (by omega),
          mkExtract_concat_high posLow (by omega) (by omega) (by omega)]
        congr 1 <;> omega
      · have crosses : (Expr.concat hi lo).Crosses high low := ⟨by omega, by omega⟩
        exact crosses.mkExtract_mkExtract ordered inside taken below within
  | zext y bits ih =>
      have whole := mkExtract_full hx
      have inside : high < bits := inside
      obtain ⟨wider, atMost, hy⟩ := hx
      by_cases full : low = 0 ∧ high - low + 1 = bits
      · obtain ⟨rfl, size⟩ := full
        obtain rfl : high = bits - 1 := by omega
        cases whole.symm.trans taken
        rfl
      by_cases inLow : high < y.width
      · rw [mkExtract_zext_low wider ordered inLow full] at taken
        rw [ih hy sliced taken within ordered inLow,
          mkExtract_zext_low wider (by omega) (by omega) (by omega)]
      by_cases zeros : y.width ≤ low
      · have pos := hy.width_pos
        have known : (Expr.const 0 (high - low + 1)).WellFormed :=
          ⟨by omega, by omega, Nat.two_pow_pos _⟩
        rw [mkExtract_zext_high pos ordered zeros inside] at taken
        cases taken
        rw [mkExtract_const known below (by omega), slice_zero,
          mkExtract_zext_high pos (by omega) (by omega) (by omega), Nat.add_sub_add_right]
      · have crosses : (Expr.zext y bits).Crosses high low := ⟨by omega, by omega⟩
        exact crosses.mkExtract_mkExtract ordered inside taken below within
  | var | unary | binary | ite | sext =>
      exact Crosses.mkExtract_mkExtract trivial ordered inside taken below within

section Apart

variable (hh : hi.WellFormed) (hl : lo.WellFormed) (upper : hi.Sliced) (lower : lo.Sliced)
  (built : mkConcat hi lo = .ok e) (ordered : b ≤ a)

include hh hl upper lower built ordered

/-- Bits of the lower part are taken from it. -/
theorem mkExtract_mkConcat_low (inside : a < lo.width) : mkExtract a b e = mkExtract a b lo := by
  have pos := hh.width_pos
  have denotes := mkConcat_denotes hh hl built
  rcases mkConcat_cases hh built with ⟨u, v, hu, hv, rfl⟩ | ⟨-, rfl⟩ |
    ⟨top, middle, bottom, x, rfl, rfl, joined⟩ | rfl
  · have atMost := denotes.width_le
    have same : slice a b ((u <<< UInt64.ofNat lo.width) ||| v) = slice a b v := by
      apply UInt64.toNat_inj.mp
      rw [toNat_slice (by omega) ordered, toNat_slice (by omega) ordered,
        toNat_shiftLeft_or pos atMost (hh.const?_lt hu) (hl.const?_lt hv),
        slice_concat_low _ _ (by omega)]
    rw [mkExtract_const denotes.wellFormed ordered (by omega), same]
    rw [const?_eq_some hv] at hl ⊢
    exact (mkExtract_const hl ordered inside).symm
  · exact mkExtract_zext_low (by omega) ordered inside (by have := hh.width_pos; omega)
  · have order₁ := upper.1.ordered
    simp only [width] at inside
    rw [mkExtract_mkExtract hh.2.2 upper.2 joined ordered (by omega),
      lower.1.mkExtract_extract ordered (by omega)]
  · exact mkExtract_concat_low pos ordered inside

/-- Bits of the upper part are taken from it. -/
theorem mkExtract_mkConcat_high (above : lo.width ≤ b) (inside : a < hi.width + lo.width) :
    mkExtract a b e = mkExtract (a - lo.width) (b - lo.width) hi := by
  have pos := hl.width_pos
  have denotes := mkConcat_denotes hh hl built
  have atMost := denotes.width_le
  have size : a - lo.width - (b - lo.width) = a - b := by omega
  rcases mkConcat_cases hh built with ⟨u, v, hu, hv, rfl⟩ | ⟨zero, rfl⟩ |
    ⟨top, middle, bottom, x, rfl, rfl, joined⟩ | rfl
  · have same : slice a b ((u <<< UInt64.ofNat lo.width) ||| v) =
        slice (a - lo.width) (b - lo.width) u := by
      apply UInt64.toNat_inj.mp
      rw [toNat_slice (by omega) ordered, toNat_slice (by omega) (by omega),
        toNat_shiftLeft_or hh.width_pos atMost (hh.const?_lt hu) (hl.const?_lt hv),
        slice_concat_high _ (hl.const?_lt hv) above, size]
    rw [mkExtract_const denotes.wellFormed ordered inside, same, ← size]
    rw [const?_eq_some hu] at hh ⊢
    exact (mkExtract_const hh (by omega) (by omega)).symm
  · rw [mkExtract_zext_high pos ordered above inside, ← size,
      ← slice_zero (a - lo.width) (b - lo.width)]
    rw [const?_eq_some zero] at hh ⊢
    exact (mkExtract_const hh (by omega) (by omega)).symm
  · have order₁ := upper.1.ordered
    have order₂ := lower.1.ordered
    simp only [width] at above inside ⊢
    rw [mkExtract_mkExtract hh.2.2 upper.2 joined ordered (by omega),
      upper.1.mkExtract_extract (by omega) (by omega)]
    congr 1 <;> omega
  · exact mkExtract_concat_high pos ordered above inside

end Apart

/-- A node as the constructors make it: a slice is tight, and an extension adds bits to something that
    is no constant. -/
def Fresh : Expr → Prop
  | .var .. => False
  | .extract high low x => x.Tight high low
  | .zext x bits | .sext x bits => x.width < bits ∧ x.const? = none
  | .const .. | .unary .. | .binary .. | .ite .. | .concat .. => True

/-- A property that goes down to the operands of a node, and up from them to a fresh one. -/
structure Hereditary (P : Expr → Prop) : Prop where
  operand : ∀ {e x : Expr}, P e → x ∈ e.operands → P x
  node : ∀ {e : Expr}, e.Fresh → (∀ x ∈ e.operands, P x) → P e

section Constructors

variable {P : Expr → Prop} {op : Op} {c y n l r : Expr}

theorem Hereditary.const (h : Hereditary P) (v : Word) (bits : Nat) : P (.const v bits) :=
  h.node trivial nofun

theorem Hereditary.over_one (h : Hereditary P) (fresh : e.Fresh) (parts : e.operands = [x])
    (hx : P x) : P e := by
  refine h.node fresh fun y hy => ?_
  rw [parts, List.mem_singleton] at hy
  exact hy ▸ hx

theorem Hereditary.over_two (h : Hereditary P) (fresh : e.Fresh) (parts : e.operands = [l, r])
    (hl : P l) (hr : P r) : P e := by
  refine h.node fresh fun y hy => ?_
  rw [parts, List.mem_pair] at hy
  rcases hy with rfl | rfl
  · exact hl
  · exact hr

/-- What is left of a slice is a part of its operand, or tight. -/
theorem Hereditary.of_mkExtract (h : Hereditary P) (hx : P x) (built : mkExtract high low x = .ok e) :
    P e := by
  fun_induction mkExtract high low x generalizing e with
  | case1 => cases built
  | case2 =>
      cases built
      exact hx
  | case3 | case9 =>
      cases built
      exact h.const _ _
  | case4 | case6 | case8 =>
      rename_i ih
      exact ih (h.operand hx (.head _)) built
  | case5 =>
      rename_i ih
      exact ih (h.operand hx (.tail _ (.head _))) built
  | case7 high low _ hi lo notLow notHigh inside | case10 high low _ _ _ notLow notHigh inside =>
      rename_i proper
      cases built
      exact h.over_one ⟨by omega, by omega, proper, by omega, by omega⟩ rfl hx
  | case11 x high low inside _ =>
      rename_i proper notConst notExtract notConcat notZext
      cases built
      refine h.over_one ⟨by omega, by omega, proper, ?_⟩ rfl hx
      cases x with
      | const v bits => exact (notConst v bits rfl).elim
      | extract h l y => exact (notExtract h l y rfl).elim
      | concat hi lo => exact (notConcat hi lo rfl).elim
      | zext y bits => exact (notZext y bits rfl).elim
      | var | unary | binary | ite | sext => trivial

theorem Hereditary.of_mkUnary (h : Hereditary P) (hx : P x) (built : mkUnary op x = .ok e) : P e := by
  have plain : P (.unary op x) := h.over_one trivial rfl hx
  unfold mkUnary at built
  split at built
  · cases built
    unfold applyUnary
    split
    · exact h.const _ _
    · split
      · split
        · exact h.operand hx (.head _)
        · exact plain
      · exact plain
  · cases built

theorem Hereditary.of_onSame? (h : Hereditary P) (hx : P x) (same : onSame? op x = some e) : P e := by
  cases op <;> simp only [onSame?, Option.some.injEq, reduceCtorEq] at same <;> subst same
  case and | or => exact hx
  all_goals exact h.const _ _

theorem Hereditary.of_simplify? (h : Hereditary P) (hl : P l) (hr : P r)
    (simpler : simplify? op l r = some e) : P e := by
  have onSame (twice : (if l = r then onSame? op l else none) = some e) : P e := by
    split at twice
    · exact h.of_onSame? hl twice
    · cases twice
  unfold simplify? at simpler
  simp only at simpler
  split at simpler
  · cases simpler
    exact hl
  split at simpler
  · cases simpler
    exact hr
  split at simpler
  · split at simpler
    · cases simpler
      exact h.const _ _
    · exact onSame simpler
  · exact onSame simpler

theorem Hereditary.of_mkBinary (h : Hereditary P) (hl : P l) (hr : P r)
    (built : mkBinary op l r = .ok e) : P e := by
  have plain : P (.binary op l r) := h.over_two trivial rfl hl hr
  unfold mkBinary at built
  split at built
  · cases built
  obtain ⟨_, -, built⟩ := bind_ok built
  cases built
  unfold applyBinary
  split
  · split
    · exact h.const _ _
    · exact plain
  · cases simpler : simplify? op l r with
    | none => exact plain
    | some e => exact h.of_simplify? hl hr simpler

theorem Hereditary.of_mkIte (h : Hereditary P) (hc : P c) (hy : P y) (hn : P n)
    (built : mkIte c y n = .ok e) : P e := by
  obtain ⟨_, -, built⟩ := bind_ok built
  obtain ⟨_, -, built⟩ := bind_ok built
  cases built
  split
  · split
    · exact hy
    · exact hn
  split
  · exact hy
  refine h.node trivial fun x hx => ?_
  rcases List.mem_cons.mp hx with rfl | hx
  · exact hc
  rcases List.mem_pair.mp hx with rfl | rfl
  · exact hy
  · exact hn

theorem Hereditary.of_mkZext (h : Hereditary P) {bits : Nat} (hx : P x)
    (built : mkZext x bits = .ok e) : P e := by
  rcases mkZext_cases built with ⟨-, rfl⟩ | ⟨wider, ⟨v, -, rfl⟩ | ⟨unknown, rfl⟩⟩
  · exact hx
  · exact h.const _ _
  · exact h.over_one ⟨wider, unknown⟩ rfl hx

theorem Hereditary.of_mkSext (h : Hereditary P) {bits : Nat} (hx : P x)
    (built : mkSext x bits = .ok e) : P e := by
  obtain ⟨_, checked, built⟩ := bind_ok built
  have wider := (checkExtension_ok checked).1
  cases built
  split
  · exact hx
  rename_i other
  split
  · exact h.const _ _
  · rename_i unknown
    refine h.over_one ⟨by omega, ?_⟩ rfl hx
    cases x with
    | const v bits => exact (unknown v bits rfl).elim
    | _ => rfl

theorem Hereditary.of_mkConcat (h : Hereditary P) (hhi : P hi) (hlo : P lo)
    (built : mkConcat hi lo = .ok e) : P e := by
  have plain : P (.concat hi lo) := h.over_two trivial rfl hhi hlo
  obtain ⟨_, -, built⟩ := bind_ok built
  split at built
  · cases built
    exact h.const _ _
  · split at built
    · exact h.of_mkZext hlo built
    · cases built
      exact plain
  · split at built
    · exact h.of_mkExtract (h.operand hhi (.head _)) built
    · cases built
      exact plain
  · cases built
    exact plain

theorem Hereditary.of_lnot (h : Hereditary P) (hx : P x) (built : lnot x = .ok e) : P e := by
  obtain ⟨_, -, built⟩ := bind_ok built
  split at built
  · split at built
    · exact h.of_mkBinary (h.operand hx (.head _)) (h.operand hx (.tail _ (.head _))) built
    · exact h.of_mkUnary hx built
  · exact h.of_mkUnary hx built

theorem Hereditary.of_land (h : Hereditary P) (hl : P l) (hr : P r) (built : land l r = .ok e) :
    P e := by
  obtain ⟨_, -, built⟩ := bind_ok built
  exact h.of_mkBinary hl hr built

theorem Hereditary.of_lor (h : Hereditary P) (hl : P l) (hr : P r) (built : lor l r = .ok e) :
    P e := by
  obtain ⟨_, -, built⟩ := bind_ok built
  exact h.of_mkBinary hl hr built

end Constructors

/-- No constructor leaves a slice that has a smaller form. -/
theorem sliced_hereditary : Hereditary Sliced where
  operand {e x} he hx := by
    cases e <;> simp only [operands, List.mem_cons, List.not_mem_nil, or_false] at hx <;>
      simp only [Sliced] at he <;> grind
  node {e} fresh parts := by
    cases e <;> simp_all [Fresh, Sliced, operands]

end Expr

namespace Construction

open PathSearch.Expr

/-- What a constructor builds takes over the properties of its operands. -/
theorem hereditary_build {P : Expr → Prop} (h : Hereditary P) (leaves : ∀ name bits, P (.var name bits))
    {c : Construction} {e : Expr} (operands : ∀ x ∈ c.operands, P x) (built : c.build = .ok e) :
    P e := by
  cases c with
  | const v width =>
      obtain ⟨_, -, result⟩ := bind_ok built
      cases result
      exact h.const _ _
  | var name width =>
      obtain ⟨_, -, result⟩ := bind_ok built
      cases result
      exact leaves _ _
  | unary op x => exact h.of_mkUnary (operands x (.head _)) built
  | binary op l r => exact h.of_mkBinary (operands l (.head _)) (operands r (.tail _ (.head _))) built
  | ite c y n =>
      exact h.of_mkIte (operands c (.head _)) (operands y (.tail _ (.head _)))
        (operands n (.tail _ (.tail _ (.head _)))) built
  | extract high low x => exact h.of_mkExtract (operands x (.head _)) built
  | zext x width => exact h.of_mkZext (operands x (.head _)) built
  | sext x width => exact h.of_mkSext (operands x (.head _)) built
  | concat hi lo => exact h.of_mkConcat (operands hi (.head _)) (operands lo (.tail _ (.head _))) built
  | equals l r =>
      rw [build, Expr.equals] at built
      exact h.of_mkBinary (operands l (.head _)) (operands r (.tail _ (.head _))) built
  | not x => exact h.of_lnot (operands x (.head _)) built
  | and l r => exact h.of_land (operands l (.head _)) (operands r (.tail _ (.head _))) built
  | or l r => exact h.of_lor (operands l (.head _)) (operands r (.tail _ (.head _))) built

end Construction

namespace Expr

/-- An expression that the constructors built, from nothing but what they built. -/
inductive Built : Expr → Prop where
  | build {c : Construction} {e : Expr} (operands : ∀ x ∈ c.operands, Built x)
      (built : c.build = .ok e) : Built e

variable {e : Expr}

theorem Built.wellFormed (h : e.Built) : e.WellFormed := by
  induction h with
  | build _ built ih => exact (Construction.build_denotes ih built).wellFormed

/-- What is built has every hereditary property that variables have. -/
theorem Built.of_hereditary {P : Expr → Prop} (hereditary : Hereditary P)
    (leaves : ∀ name bits, P (.var name bits)) (h : e.Built) : P e := by
  induction h with
  | build _ built ih => exact Construction.hereditary_build hereditary leaves ih built

theorem Built.sliced (h : e.Built) : e.Sliced := h.of_hereditary sliced_hereditary fun _ _ => trivial

end Expr

end PathSearch
