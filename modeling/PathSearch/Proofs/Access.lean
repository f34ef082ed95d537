import PathSearch.Proofs.Expr.Bit
import PathSearch.Proofs.State

/-! # Accesses do not fail

The constructors refuse widths that do not fit, and on well-formed operands all widths of an access to
memory fit: reading from one to eight bytes and writing whole bytes always pass. So does taking up a
condition.
-/

namespace PathSearch

namespace Expr

theorem mkConst_total (v : Word) {width : Nat} (pos : 0 < width) (atMost : width ≤ 64) :
    ∃ e, mkConst v width = .ok e := by
  rw [mkConst, checkWidth_total pos atMost]
  exact ⟨_, rfl⟩

/-- A slice of the bits that there are can be taken. -/
theorem mkExtract_total {high low : Nat} {x : Expr} (hx : x.WellFormed) (order : low ≤ high)
    (inside : high < x.width) : ∃ e, mkExtract high low x = .ok e := by
  fun_induction mkExtract high low x with
  | case1 x high low outside => omega
  | case4 high low _ innerHigh innerLow inner _ _ ih =>
      obtain ⟨ordered, below, hi⟩ := id hx
      simp only [width] at inside
      exact ih hi (by omega) (by omega)
  | case5 high low _ hi lo inLow _ _ ih => exact ih hx.2.2 order inLow
  | case6 high low _ hi lo notLow inHigh _ _ ih =>
      simp only [width] at inside
      exact ih hx.2.1 (by omega) (by omega)
  | case8 high low _ inner bits inInner _ _ ih => exact ih hx.2.2 order inInner
  | _ => exact ⟨_, rfl⟩

theorem mkConcat_total {hi lo : Expr} (hh : hi.WellFormed) (hl : lo.WellFormed)
    (room : hi.width + lo.width ≤ 64) : ∃ e, mkConcat hi lo = .ok e := by
  have pos := hh.width_pos
  unfold mkConcat
  simp only [checkWidth_total (Nat.add_pos_left pos lo.width) room, bind, Except.bind]
  split
  · exact ⟨_, rfl⟩
  · split
    · exact mkZext_total (by omega) (by omega) room
    · exact ⟨_, rfl⟩
  · rename_i h₁ l₁ x₁ h₂ l₂ x₂ _
    split
    · rename_i meet
      obtain ⟨ordered, below, hx⟩ := hh
      obtain ⟨ordered', -, -⟩ := hl
      exact mkExtract_total hx (by omega) below
    · exact ⟨_, rfl⟩
  · exact ⟨_, rfl⟩

end Expr

namespace Memory

theorem join_total {bytes : List Expr} (each : ∀ b ∈ bytes, IsByte b) (some : bytes ≠ [])
    (few : bytes.length ≤ 8) : ∃ e, join bytes = .ok e := by
  fun_induction join bytes with
  | case1 => exact absurd rfl some
  | case2 b => exact ⟨b, rfl⟩
  | case3 b rest more ih =>
      obtain ⟨hb, hrest⟩ := List.forall_mem_cons.mp each
      simp only [List.length_cons] at few
      obtain ⟨upper, joined⟩ := ih hrest (by simpa using more) (by omega)
      obtain ⟨hu, width, -⟩ := join_ok hrest joined
      obtain ⟨e, built⟩ := Expr.mkConcat_total hu hb.wellFormed (by rw [width, hb.width_eq]; omega)
      exact ⟨e, (ok_bind joined _).trans built⟩

theorem read_total {m : Memory} (hm : m.WellFormed) (address : Word) {size : Nat} (pos : 0 < size)
    (few : size ≤ 8) : ∃ e, m.read address size = .ok e := by
  have inside : ¬ (size = 0 ∨ 8 < size) := by omega
  rw [read, if_neg inside]
  refine join_total (fun b hb => ?_) ?_ (by simpa [bytes] using few)
  · obtain ⟨i, -, rfl⟩ := List.mem_map.mp hb
    exact hm _
  · simp [bytes]
    omega

theorem write_total (m : Memory) (address : Word) {v : Expr} (hv : v.WellFormed)
    (whole : v.width % 8 = 0) : ∃ m', m.write address v = .ok m' := by
  have part : ∀ i ∈ List.range (v.width / 8),
      ∃ e, Expr.mkExtract (8 * i + 7) (8 * i) v = .ok e ∧ True := by
    intro i hi
    have inside := List.mem_range.mp hi
    have within : 8 * i + 7 < v.width := by omega
    obtain ⟨e, built⟩ := Expr.mkExtract_total hv (Nat.le_add_right (8 * i) 7) within
    exact ⟨e, built, trivial⟩
  obtain ⟨parts, mapped, -⟩ := mapM_total part
  have splits : split v = .ok parts := by
    rw [split, if_neg (by omega)]
    exact mapped
  exact ⟨m.putAll address parts, by rw [write, splits]; rfl⟩

end Memory

theorem Opcode.accessSize_bounds {size : UInt8} (valid : size ∈ accessSizes) :
    0 < size.toNat ∧ size.toNat ≤ 8 := by
  simp only [accessSizes, List.mem_cons, List.not_mem_nil, or_false] at valid
  rcases valid with rfl | rfl | rfl | rfl <;> decide

theorem Constraints.push_total (cs : Constraints) {c : Expr} (bit : c.IsBit) :
    ∃ cs', cs.push c = .ok cs' := by
  rw [push, bit.2, Expr.expectWidth_self]
  exact ⟨_, rfl⟩

end PathSearch
