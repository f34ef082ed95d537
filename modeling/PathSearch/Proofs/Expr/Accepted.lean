import PathSearch.Proofs.Access
import PathSearch.Proofs.Expr.Slice

/-! # What the constructors accept, and what they give

A constructor asks something of its operator and of the widths of its operands, and of nothing else.
Where that holds it gives an expression, and where it does not it refuses. What it gives has the width
that the operation says, and no part of it is a slice or an extension in place of something smaller.
-/

namespace PathSearch

/-- The refusal of a number of bits. -/
def Error.IsWidth (failure : Error) : Prop := ∃ width, failure = .invalidWidth width

/-- The refusal of operands, or of an operator, that do not go together. -/
def Error.IsMismatch (failure : Error) : Prop :=
  ∃ operation expected found, expected ≠ found ∧ failure = .widthMismatch operation expected found

namespace Expr

def isSlice : Expr → Bool
  | .extract .. => true
  | _ => false

/-- Slices are proper parts of what is neither a constant nor a slice, and extensions add bits to what is
    no constant. -/
def Trim : Expr → Prop
  | .const .. | .var .. => True
  | .unary _ x => x.Trim
  | .binary _ l r | .concat l r => l.Trim ∧ r.Trim
  | .ite c y n => c.Trim ∧ y.Trim ∧ n.Trim
  | .extract high low x =>
      high - low + 1 < x.width ∧ x.isConst = false ∧ x.isSlice = false ∧ x.Trim
  | .zext x bits | .sext x bits => x.width < bits ∧ x.isConst = false ∧ x.Trim

/-- A well-formed expression without parts that have a smaller form. -/
structure Reduced (e : Expr) : Prop where
  wellFormed : e.WellFormed
  trim : e.Trim

variable {high low width : Nat} {x : Expr}

theorem Tight.trim (tight : x.Tight high low) :
    high - low + 1 < x.width ∧ x.isConst = false ∧ x.isSlice = false := by
  have ordered := tight.ordered
  have inside := tight.inside
  have proper := tight.proper
  have crosses := tight.crosses
  refine ⟨by omega, ?_, ?_⟩ <;> cases x <;> first | rfl | exact crosses.elim

theorem isConst_of_unknown (unknown : x.const? = none) : x.isConst = false := by
  rw [isConst, unknown]
  rfl

theorem trim_hereditary : Hereditary Trim where
  operand {e x} he hx := by
    cases e <;> simp only [operands, List.mem_cons, List.not_mem_nil, or_false] at hx <;>
      simp only [Trim] at he <;> grind
  node {e} fresh parts := by
    cases e with
    | const | var => trivial
    | unary op x => exact parts x (.head _)
    | binary op l r | concat l r => exact ⟨parts l (.head _), parts r (.tail _ (.head _))⟩
    | ite c y n =>
        exact ⟨parts c (.head _), parts y (.tail _ (.head _)), parts n (.tail _ (.tail _ (.head _)))⟩
    | extract high low x =>
        obtain ⟨proper, unknown, whole⟩ := Tight.trim fresh
        exact ⟨proper, unknown, whole, parts x (.head _)⟩
    | zext x bits | sext x bits =>
        exact ⟨fresh.1, isConst_of_unknown fresh.2, parts x (.head _)⟩

section Refusals

theorem checkWidth_refuses (outside : ¬ (0 < width ∧ width ≤ 64)) :
    checkWidth width = .error (.invalidWidth width) := by
  rw [checkWidth, if_pos]
  simp only [Word.maxWidth]
  omega

theorem expectWidth_refuses {expected found : Nat} (operation : String) (differ : expected ≠ found) :
    expectWidth operation expected found = .error (.widthMismatch operation expected found) := by
  rw [expectWidth, if_pos differ]

theorem checkExtension_refuses (outside : ¬ (x.width ≤ width ∧ width ≤ 64)) :
    checkExtension x width = .error (.invalidWidth width) := by
  by_cases possible : 0 < width ∧ width ≤ 64
  · rw [checkExtension, checkWidth_total possible.1 possible.2]
    exact if_pos (by omega)
  · rw [checkExtension, checkWidth_refuses possible]
    rfl

theorem sliceError_eq (few : high - low + 1 < boundLimit) :
    sliceError high low = .invalidWidth (high - low + 1) := by
  rw [sliceError, if_pos few]

theorem mkExtract_refuses (outside : ¬ (low ≤ high ∧ high < x.width)) :
    mkExtract high low x = .error (sliceError high low) := by
  rw [mkExtract, if_pos (by omega)]

end Refusals

theorem mkSext_total (pos : 0 < x.width) (wider : x.width ≤ width) (atMost : width ≤ 64) :
    ∃ e, mkSext x width = .ok e := by
  have possible : checkExtension x width = .ok () := by
    rw [checkExtension, checkWidth_total (by omega) atMost]
    exact if_neg (by omega)
  exact ⟨_, ok_bind possible _⟩

theorem reduced_const {v : Word} (pos : 0 < width) (atMost : width ≤ 64) (fits : v.toNat < 2 ^ width) :
    (Expr.const v width).Reduced := ⟨⟨pos, atMost, fits⟩, trivial⟩

theorem reduced_word (v : Word) : (word v).Reduced :=
  reduced_const (by decide) (by decide) v.toNat_lt

theorem reduced_byte (v : UInt8) : (byte v).Reduced := ⟨(Memory.isByte_byte v).wellFormed, trivial⟩

theorem reduced_truth (b : Bool) : (truth b).Reduced := by
  cases b <;> exact reduced_const (by decide) (by decide) (by decide)

end Expr

namespace Construction

open PathSearch.Expr

/-- What a constructor asks of its operator and of the widths. -/
def Accepts : Construction → Prop
  | .const _ width | .var _ width => 1 ≤ width ∧ width ≤ 64
  | .unary op _ => op.isUnary = true
  | .binary op l r => op.isUnary = false ∧ l.width = r.width
  | .ite c y n => c.width = 1 ∧ y.width = n.width
  | .extract high low x => low ≤ high ∧ high < x.width
  | .zext x width | .sext x width => x.width ≤ width ∧ width ≤ 64
  | .concat hi lo => hi.width + lo.width ≤ 64
  | .equals l r => l.width = r.width
  | .not x => x.width = 1
  | .and l r | .or l r => l.width = 1 ∧ r.width = 1

/-- The refusals that a constructor knows. -/
def Refuses (failure : Error) : Construction → Prop
  | .const .. | .var .. | .extract .. | .zext .. | .sext .. | .concat .. => failure.IsWidth
  | .unary .. | .binary .. | .ite .. | .equals .. | .not .. | .and .. | .or .. => failure.IsMismatch

variable {c : Construction} {e : Expr}

theorem build_total (operands : ∀ x ∈ c.operands, x.WellFormed) (accepts : c.Accepts) :
    ∃ e, c.build = .ok e := by
  cases c with
  | const v width => exact mkConst_total v accepts.1 accepts.2
  | var name width => exact ⟨_, ok_bind (checkWidth_total accepts.1 accepts.2) _⟩
  | unary op x => exact ⟨_, mkUnary_total accepts x⟩
  | binary op l r => exact ⟨_, mkBinary_total accepts.1 accepts.2⟩
  | ite c y n =>
      rw [build, mkIte, accepts.1, accepts.2, expectWidth_self, expectWidth_self]
      exact ⟨_, rfl⟩
  | extract high low x => exact mkExtract_total (operands x (.head _)) accepts.1 accepts.2
  | zext x width =>
      have pos := (operands x (.head _)).width_pos
      exact mkZext_total (Nat.lt_of_lt_of_le pos accepts.1) accepts.1 accepts.2
  | sext x width => exact mkSext_total (operands x (.head _)).width_pos accepts.1 accepts.2
  | concat hi lo => exact mkConcat_total (operands hi (.head _)) (operands lo (.tail _ (.head _))) accepts
  | equals l r =>
      obtain ⟨e, built, -⟩ := equals_bit (operands l (.head _)) (operands r (.tail _ (.head _))) accepts
      exact ⟨e, built⟩
  | not x =>
      obtain ⟨e, built, -⟩ := lnot_bit ⟨operands x (.head _), accepts⟩
      exact ⟨e, built⟩
  | and l r =>
      have hl := operands l (.head _)
      have hr := operands r (.tail _ (.head _))
      exact ⟨_, land_total ⟨hl, accepts.1⟩ ⟨hr, accepts.2⟩⟩
  | or l r =>
      have hl := operands l (.head _)
      have hr := operands r (.tail _ (.head _))
      exact ⟨_, lor_total ⟨hl, accepts.1⟩ ⟨hr, accepts.2⟩⟩

section Rejected

variable {op : Op} {l r : Expr}

theorem mkBinary_refuses (binary : op.isUnary = false) (differ : l.width ≠ r.width) :
    mkBinary op l r = .error (.widthMismatch op.name l.width r.width) := by
  rw [mkBinary, binary]
  exact error_bind (expectWidth_refuses op.name differ) _

/-- A junction of conditions is refused for the first side that is no condition. -/
theorem junction_refuses {operation : String} (binary : op.isUnary = false)
    (rejects : ¬ (l.width = 1 ∧ r.width = 1)) :
    ∃ failure, (do expectWidth operation 1 l.width; mkBinary op l r) = .error failure ∧
      failure.IsMismatch := by
  by_cases bit : l.width = 1
  · have differ : l.width ≠ r.width := fun same => rejects ⟨bit, same ▸ bit⟩
    have first : expectWidth operation 1 l.width = .ok () := bit ▸ expectWidth_self operation 1
    exact ⟨_, (ok_bind first _).trans (mkBinary_refuses binary differ), _, _, _, differ, rfl⟩
  · exact ⟨_, error_bind (expectWidth_refuses operation (Ne.symm bit)) _, _, _, _, Ne.symm bit, rfl⟩

end Rejected

theorem build_refuses (few : ∀ high low x, c = .extract high low x → high - low + 1 < boundLimit)
    (rejects : ¬ c.Accepts) : ∃ failure, c.build = .error failure ∧ c.Refuses failure := by
  cases c with
  | const v width => exact ⟨_, error_bind (checkWidth_refuses rejects) _, _, rfl⟩
  | var name width => exact ⟨_, error_bind (checkWidth_refuses rejects) _, _, rfl⟩
  | unary op x => exact ⟨_, if_neg rejects, _, _, _, by decide, rfl⟩
  | binary op l r =>
      cases binary : op.isUnary with
      | true => exact ⟨_, if_pos binary, _, _, _, by decide, rfl⟩
      | false =>
          have differ : l.width ≠ r.width := fun same => rejects ⟨binary, same⟩
          exact ⟨_, mkBinary_refuses binary differ, _, _, _, differ, rfl⟩
  | ite c y n =>
      by_cases bit : c.width = 1
      · have differ : y.width ≠ n.width := fun same => rejects ⟨bit, same⟩
        have first : expectWidth "ite" 1 c.width = .ok () := bit ▸ expectWidth_self "ite" 1
        have second := expectWidth_refuses "ite" differ
        exact ⟨_, (ok_bind first _).trans (error_bind second _), _, _, _, differ, rfl⟩
      · exact ⟨_, error_bind (expectWidth_refuses "ite" (Ne.symm bit)) _, _, _, _, Ne.symm bit, rfl⟩
  | extract high low x => exact ⟨_, mkExtract_refuses rejects, _, sliceError_eq (few high low x rfl)⟩
  | zext x width | sext x width =>
      exact ⟨_, error_bind (checkExtension_refuses rejects) _, _, rfl⟩
  | concat hi lo =>
      have outside : ¬ (0 < hi.width + lo.width ∧ hi.width + lo.width ≤ 64) := fun h => rejects h.2
      exact ⟨_, error_bind (checkWidth_refuses outside) _, _, rfl⟩
  | equals l r =>
      have refused : Expr.equals l r = _ := mkBinary_refuses rfl rejects
      exact ⟨_, refused, _, _, _, rejects, rfl⟩
  | not x =>
      have wide : 1 ≠ x.width := Ne.symm rejects
      exact ⟨_, error_bind (expectWidth_refuses "not" wide) _, _, _, _, wide, rfl⟩
  | and l r => exact junction_refuses rfl rejects
  | or l r => exact junction_refuses rfl rejects

theorem build_reduced (operands : ∀ x ∈ c.operands, x.Reduced) (built : c.build = .ok e) :
    e.Reduced ∧ e.width = c.width := by
  have denotes := build_denotes (fun x hx => (operands x hx).wellFormed) built
  have trim :=
    hereditary_build trim_hereditary (fun _ _ => trivial) (fun x hx => (operands x hx).trim) built
  exact ⟨⟨denotes.wellFormed, trim⟩, denotes.width_eq⟩

/-- On reduced operands a constructor gives an expression exactly if it accepts the widths, and refuses
    otherwise. What it gives is reduced again, with a width from 1 to 64 that the operation says. -/
theorem build_exact (operands : ∀ x ∈ c.operands, x.Reduced)
    (bounds : ∀ high low x, c = .extract high low x → high < 2 ^ 32 - 1 ∧ low < 2 ^ 32 - 1) :
    ((∃ e, c.build = .ok e) ↔ c.Accepts) ∧
    (∀ failure, c.build = .error failure → c.Refuses failure) ∧
    (∀ e, c.build = .ok e → e.Reduced ∧ e.width = c.width ∧ 1 ≤ e.width ∧ e.width ≤ 64) ∧
    (∀ v, (word v).Reduced ∧ (word v).width = 64) ∧ (∀ v, (byte v).Reduced ∧ (byte v).width = 8) ∧
    ∀ b, (truth b).Reduced ∧ (truth b).width = 1 := by
  have few (high low : Nat) (x : Expr) (same : c = .extract high low x) : high - low + 1 < boundLimit := by
    have := bounds high low x same
    simp only [boundLimit]
    omega
  have refused := build_refuses few
  refine ⟨⟨?_, build_total fun x hx => (operands x hx).wellFormed⟩, ?_, ?_, ?_, ?_, ?_⟩
  · rintro ⟨e, built⟩
    by_contra rejects
    obtain ⟨failure, same, -⟩ := refused rejects
    rw [built] at same
    cases same
  · intro failure failed
    by_cases accepts : c.Accepts
    · obtain ⟨e, built⟩ := build_total (fun x hx => (operands x hx).wellFormed) accepts
      rw [built] at failed
      cases failed
    · obtain ⟨found, same, refuses⟩ := refused accepts
      exact Except.error.inj (same.symm.trans failed) ▸ refuses
  · intro e built
    obtain ⟨reduced, size⟩ := build_reduced operands built
    exact ⟨reduced, size, reduced.wellFormed.width_bounds⟩
  · exact fun v => ⟨reduced_word v, rfl⟩
  · exact fun v => ⟨reduced_byte v, rfl⟩
  · exact fun b => ⟨reduced_truth b, rfl⟩

/-- A slice that is found in the lower bits of what was extended, and one that passes the end. -/
theorem build_exact_extended :
    let x : Expr := .concat (.zext (.var "y" 4) 8) (.var "x" 8)
    (extract 9 8 x).build = .ok (.extract 1 0 (.var "y" 4)) ∧
      (Expr.extract 1 0 (.var "y" 4)).Reduced ∧
      ∃ failure, (extract 16 8 x).build = .error failure ∧ failure.IsWidth := by
  intro x
  have reduced : x.Reduced := by
    refine ⟨?_, ?_⟩ <;> simp [x, WellFormed, Trim, Expr.width, isConst, const?]
  have parts {high low : Nat} : ∀ y ∈ (extract high low x).operands, y.Reduced := by
    intro y hy
    exact List.mem_singleton.mp hy ▸ reduced
  have built : (extract 9 8 x).build = .ok (.extract 1 0 (.var "y" 4)) := by cbv
  have refused : (extract 16 8 x).build = .error (.invalidWidth 9) := by cbv
  obtain ⟨-, -, gives, -⟩ := build_exact parts (c := extract 9 8 x) (by rintro _ _ _ ⟨⟩; decide)
  obtain ⟨-, refuses, -⟩ := build_exact parts (c := extract 16 8 x) (by rintro _ _ _ ⟨⟩; decide)
  exact ⟨built, (gives _ built).1, _, refused, refuses _ refused⟩

end Construction

end PathSearch
