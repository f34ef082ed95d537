import PathSearch.Proofs.Access
import PathSearch.Proofs.Expr.Slice

/-! # Slices within slices and concatenations

A slice can be asked for in one go, or part by part: from a slice of the expression, or from a side of the
concatenation that it is. The constructors simplify at every step, and each way leads to the same
expression.
-/

namespace PathSearch.Expr

section Ways

variable {x hi lo : Expr} {a b c d : Nat}

/-- A slice of a slice can be taken, and it is the slice with the offsets added. -/
theorem Built.extract_extract (hx : x.Built) (ordered : d ≤ c) (inside : c < x.width) (below : b ≤ a)
    (within : a ≤ c - d) :
    ∃ part e, mkExtract c d x = .ok part ∧ mkExtract a b part = .ok e ∧
      mkExtract (a + d) (b + d) x = .ok e := by
  obtain ⟨part, taken⟩ := mkExtract_total hx.wellFormed ordered inside
  obtain ⟨e, direct⟩ : ∃ e, mkExtract (a + d) (b + d) x = .ok e :=
    mkExtract_total hx.wellFormed (by omega) (by omega)
  have same := mkExtract_mkExtract hx.wellFormed hx.sliced taken below within
  exact ⟨part, e, taken, same.trans direct, direct⟩

variable {whole : Expr} (hh : hi.Built) (hl : lo.Built) (joined : mkConcat hi lo = .ok whole)

include hh hl joined

/-- A slice of the lower side can be taken from the concatenation. -/
theorem Built.extract_low (below : b ≤ a) (inside : a < lo.width) :
    ∃ e, mkExtract a b whole = .ok e ∧ mkExtract a b lo = .ok e := by
  obtain ⟨e, direct⟩ := mkExtract_total hl.wellFormed below inside
  have same := mkExtract_mkConcat_low hh.wellFormed hl.wellFormed hh.sliced hl.sliced joined below inside
  exact ⟨e, same.trans direct, direct⟩

/-- A slice of the upper side can be taken from the concatenation, with the lower side skipped. -/
theorem Built.extract_high (below : b ≤ a) (above : lo.width ≤ b) (inside : a < hi.width + lo.width) :
    ∃ e, mkExtract a b whole = .ok e ∧ mkExtract (a - lo.width) (b - lo.width) hi = .ok e := by
  obtain ⟨e, direct⟩ : ∃ e, mkExtract (a - lo.width) (b - lo.width) hi = .ok e :=
    mkExtract_total hh.wellFormed (by omega) (by omega)
  have same :=
    mkExtract_mkConcat_high hh.wellFormed hl.wellFormed hh.sliced hl.sliced joined below above inside
  exact ⟨e, same.trans direct, direct⟩

theorem Built.extract_halves :
    mkExtract (lo.width - 1) 0 whole = .ok lo ∧
      mkExtract (hi.width + lo.width - 1) lo.width whole = .ok hi := by
  have posHigh := hh.wellFormed.width_pos
  have posLow := hl.wellFormed.width_pos
  constructor
  · have last : lo.width - 1 < lo.width := Nat.sub_lt posLow Nat.one_pos
    obtain ⟨e, found, direct⟩ := Built.extract_low hh hl joined (Nat.zero_le _) last
    exact found.trans (direct.symm.trans (mkExtract_full hl.wellFormed))
  · obtain ⟨e, found, direct⟩ := Built.extract_high hh hl joined
      (a := hi.width + lo.width - 1) (by omega) (Nat.le_refl _) (by omega)
    have top : hi.width + lo.width - 1 - lo.width = hi.width - 1 := by omega
    rw [top, Nat.sub_self] at direct
    exact found.trans (direct.symm.trans (mkExtract_full hh.wellFormed))

end Ways

/-- On expressions that the constructors built, a slice of a slice is the slice with the offsets added. A
    concatenation that fits a word can be made, a slice that lies on one of its sides is the slice of
    that side, and the sides themselves are found in their places. -/
theorem mkExtract_composes {x hi lo : Expr} (hx : x.Built) (hh : hi.Built) (hl : lo.Built) :
    (∀ a b c d, d ≤ c → c < x.width → b ≤ a → a ≤ c - d →
      ∃ part e, mkExtract c d x = .ok part ∧ mkExtract a b part = .ok e ∧
        mkExtract (a + d) (b + d) x = .ok e) ∧
    (hi.width + lo.width ≤ 64 → ∃ whole, mkConcat hi lo = .ok whole ∧
      (∀ a b, b ≤ a → a < lo.width → ∃ e, mkExtract a b whole = .ok e ∧ mkExtract a b lo = .ok e) ∧
      (∀ a b, b ≤ a → lo.width ≤ b → a < hi.width + lo.width →
        ∃ e, mkExtract a b whole = .ok e ∧ mkExtract (a - lo.width) (b - lo.width) hi = .ok e) ∧
      mkExtract (lo.width - 1) 0 whole = .ok lo ∧
      mkExtract (hi.width + lo.width - 1) lo.width whole = .ok hi) := by
  constructor
  · intro a b c d ordered inside below within
    exact hx.extract_extract ordered inside below within
  · intro fits
    obtain ⟨whole, joined⟩ := mkConcat_total hh.wellFormed hl.wellFormed fits
    exact ⟨whole, joined, fun _ _ => Built.extract_low hh hl joined,
      fun _ _ => Built.extract_high hh hl joined, Built.extract_halves hh hl joined⟩

/-- A slice that reaches into the zeros in front of a variable, with a slice of it below them, and two
    halves that are joined to the variable again. -/
theorem mkExtract_composes_joined :
    let y : Expr := .var "y" 16
    let hi : Expr := .extract 15 8 y
    let lo : Expr := .extract 7 0 y
    (∃ part, mkExtract 19 12 (.zext y 32) = .ok part ∧ mkExtract 3 0 part = .ok (.extract 15 12 y)) ∧
      mkConcat hi lo = .ok y ∧ mkExtract 7 0 y = .ok lo ∧ mkExtract 15 8 y = .ok hi ∧
      mkExtract 10 9 y = .ok (.extract 10 9 y) := by
  intro y hi lo
  have built_y : y.Built := .build (c := .var "y" 16) nofun rfl
  have single {c : Construction} {e : Expr} (one : c.operands = [y]) (built : c.build = .ok e) : e.Built :=
    .build (fun x hx => List.mem_singleton.mp (one ▸ hx) ▸ built_y) built
  have built_x : (Expr.zext y 32).Built := single (c := .zext y 32) rfl (by cbv)
  have built_hi : hi.Built := single (c := .extract 15 8 y) rfl (by cbv)
  have built_lo : lo.Built := single (c := .extract 7 0 y) rfl (by cbv)
  obtain ⟨nested, joins⟩ := mkExtract_composes built_x built_hi built_lo
  obtain ⟨part, e, taken, found, direct⟩ :=
    nested 3 0 19 12 (by decide) (by decide) (by decide) (by decide)
  obtain ⟨whole, joined, -, upper, low, high⟩ := joins (by decide)
  have known : mkConcat hi lo = .ok y := by cbv
  obtain rfl : whole = y := Except.ok.inj (joined.symm.trans known)
  have below : mkExtract 15 12 (.zext y 32) = .ok (.extract 15 12 y) := by cbv
  obtain rfl : e = .extract 15 12 y := Except.ok.inj (direct.symm.trans below)
  obtain ⟨e, across, inside⟩ := upper 10 9 (by decide) (by decide) (by decide)
  have bits : mkExtract 2 1 hi = .ok (.extract 10 9 y) := by cbv
  obtain rfl : e = .extract 10 9 y := Except.ok.inj (inside.symm.trans bits)
  exact ⟨⟨part, taken, found⟩, joined, low, high, across⟩

end PathSearch.Expr
