import Mathlib.Data.List.Basic
import PathSearch.Smt.Script

/-! # Scripts whose operands fit

Where the operands of all lines are there and have widths that fit, the widths of the lines are the same in
every model, and every line can be read with the bit-vectors of all lines in place of those before it.
-/

namespace PathSearch.Smt

theorem getD_of_some {α : Type} {xs : Array α} {i : Nat} {x : α} (here : xs[i]? = some x) (other : α) :
    xs.getD i other = x := by
  rw [Array.getD_eq_getD_getElem?, here]
  rfl

theorem getD_of_none {α : Type} {xs : Array α} {i : Nat} (outside : xs[i]? = none) (other : α) :
    xs.getD i other = other := by
  rw [Array.getD_eq_getD_getElem?, outside]
  rfl

theorem binaryBits_width (op : Op) {w : Nat} (u v : BitVec w) :
    (binaryBits op u v).width = if op.isComparison then 1 else w := by
  cases op <;> rfl

theorem unaryBits_eq_self {op : Op} (notNeg : op ≠ .neg) (notNot : op ≠ .not) {w : Nat} (u : BitVec w) :
    unaryBits op u = u := by
  cases op <;> first | rfl | exact absurd rfl notNeg | exact absurd rfl notNot

/-- An operand with a width. -/
theorem operand_of_width {vs : Array Bits} {x w : Nat} (fits : (vs.map Bits.width)[x]? = some w) :
    ∃ u : BitVec w, vs[x]? = some ⟨w, u⟩ ∧ vs.getD x default = ⟨w, u⟩ := by
  rw [Array.getElem?_map] at fits
  obtain ⟨⟨v, u⟩, here, rfl⟩ := Option.map_eq_some_iff.mp fits
  exact ⟨u, here, getD_of_some here default⟩

theorem Line.width_eval {m : Model} {vs : Array Bits} {line : Line} {w : Nat}
    (fits : line.width? (vs.map Bits.width) = some w) : (line.eval m vs).width = w := by
  cases line with
  | const width v => exact Option.some.inj fits
  | var name width => exact Option.some.inj fits
  | unary op x =>
      obtain ⟨u, -, same⟩ := operand_of_width fits
      rw [Line.eval, same]
  | binary op l r =>
      obtain ⟨v, hl, fits⟩ := Option.bind_eq_some_iff.mp fits
      obtain ⟨-, result⟩ := Option.ite_none_right_eq_some.mp fits
      obtain ⟨u, -, same⟩ := operand_of_width hl
      rw [Line.eval, same, binaryBits_width]
      exact Option.some.inj result
  | ite c y n =>
      obtain ⟨v, hy, fits⟩ := Option.bind_eq_some_iff.mp fits
      obtain ⟨⟨-, hn⟩, result⟩ := Option.ite_none_right_eq_some.mp fits
      cases result
      obtain ⟨u, -, sameY⟩ := operand_of_width hy
      obtain ⟨u', -, sameN⟩ := operand_of_width hn
      rw [Line.eval, sameY, sameN]
      split <;> rfl
  | extract high low x =>
      obtain ⟨v, -, fits⟩ := Option.bind_eq_some_iff.mp fits
      obtain ⟨-, result⟩ := Option.ite_none_right_eq_some.mp fits
      exact Option.some.inj result
  | zext x width =>
      obtain ⟨v, -, fits⟩ := Option.bind_eq_some_iff.mp fits
      obtain ⟨-, result⟩ := Option.ite_none_right_eq_some.mp fits
      exact Option.some.inj result
  | sext x width =>
      obtain ⟨v, -, fits⟩ := Option.bind_eq_some_iff.mp fits
      obtain ⟨-, result⟩ := Option.ite_none_right_eq_some.mp fits
      exact Option.some.inj result
  | concat h l =>
      obtain ⟨v, hh, fits⟩ := Option.bind_eq_some_iff.mp fits
      obtain ⟨v', hl, result⟩ := Option.bind_eq_some_iff.mp fits
      obtain ⟨u, -, sameH⟩ := operand_of_width hh
      obtain ⟨u', -, sameL⟩ := operand_of_width hl
      rw [Line.eval, sameH, sameL]
      exact Option.some.inj result

/-- Bit-vectors of the same widths, also where there are none. -/
theorem width_getD {vs vs' : Array Bits} (same : vs.map Bits.width = vs'.map Bits.width) (i : Nat) :
    (vs.getD i default).width = (vs'.getD i default).width := by
  have here := congrArg (fun ws : Array Nat => ws[i]?) same
  simp only [Array.getElem?_map] at here
  rw [Array.getD_eq_getD_getElem?, Array.getD_eq_getD_getElem?]
  cases first : vs[i]? <;> cases second : vs'[i]? <;> simp [first, second] at here ⊢
  exact here

/-- What was there is still there. -/
def Kept {α : Type} (xs ys : Array α) : Prop :=
  ∀ (i : Nat) (x : α), xs[i]? = some x → ys[i]? = some x

namespace Kept

variable {α β : Type} {xs ys zs : Array α}

theorem refl (xs : Array α) : Kept xs xs := fun _ _ => id

theorem trans (first : Kept xs ys) (second : Kept ys zs) : Kept xs zs :=
  fun i x here => second i x (first i x here)

theorem push (xs : Array α) (x : α) : Kept xs (xs.push x) := by
  intro i y here
  obtain ⟨inside, -⟩ := Array.getElem?_eq_some_iff.mp here
  rw [Array.getElem?_push, if_neg (by omega)]
  exact here

theorem map (f : α → β) (kept : Kept xs ys) : Kept (xs.map f) (ys.map f) := by
  intro i y here
  rw [Array.getElem?_map] at here ⊢
  obtain ⟨x, found, rfl⟩ := Option.map_eq_some_iff.mp here
  rw [kept i x found]
  rfl

end Kept

namespace Line

variable {m : Model} {vs vs' : Array Bits} {line : Line} {w : Nat}

theorem width?_kept {ws ws' : Array Nat} (kept : Kept ws ws') (fits : line.width? ws = some w) :
    line.width? ws' = some w := by
  cases line with
  | const | var => exact fits
  | unary op x => exact kept _ _ fits
  | binary op l r =>
      obtain ⟨v, hl, fits⟩ := Option.bind_eq_some_iff.mp fits
      obtain ⟨hr, result⟩ := Option.ite_none_right_eq_some.mp fits
      exact Option.bind_eq_some_iff.mpr
        ⟨v, kept _ _ hl, Option.ite_none_right_eq_some.mpr ⟨kept _ _ hr, result⟩⟩
  | ite c y n =>
      obtain ⟨v, hy, fits⟩ := Option.bind_eq_some_iff.mp fits
      obtain ⟨⟨hc, hn⟩, result⟩ := Option.ite_none_right_eq_some.mp fits
      exact Option.bind_eq_some_iff.mpr
        ⟨v, kept _ _ hy, Option.ite_none_right_eq_some.mpr ⟨⟨kept _ _ hc, kept _ _ hn⟩, result⟩⟩
  | extract high low x =>
      obtain ⟨v, hx, fits⟩ := Option.bind_eq_some_iff.mp fits
      exact Option.bind_eq_some_iff.mpr ⟨v, kept _ _ hx, fits⟩
  | zext x width =>
      obtain ⟨v, hx, fits⟩ := Option.bind_eq_some_iff.mp fits
      exact Option.bind_eq_some_iff.mpr ⟨v, kept _ _ hx, fits⟩
  | sext x width =>
      obtain ⟨v, hx, fits⟩ := Option.bind_eq_some_iff.mp fits
      exact Option.bind_eq_some_iff.mpr ⟨v, kept _ _ hx, fits⟩
  | concat h l =>
      obtain ⟨v, hh, fits⟩ := Option.bind_eq_some_iff.mp fits
      obtain ⟨v', hl, result⟩ := Option.bind_eq_some_iff.mp fits
      exact Option.bind_eq_some_iff.mpr
        ⟨v, kept _ _ hh, Option.bind_eq_some_iff.mpr ⟨v', kept _ _ hl, result⟩⟩

theorem eval_kept (kept : Kept vs vs') (fits : line.width? (vs.map Bits.width) = some w) :
    line.eval m vs' = line.eval m vs := by
  have operand {x v : Nat} (h : (vs.map Bits.width)[x]? = some v) : vs'.getD x default = vs.getD x default := by
    obtain ⟨u, here, same⟩ := operand_of_width h
    rw [same, getD_of_some (kept _ _ here)]
  cases line with
  | const | var => rfl
  | unary op x => rw [eval, eval, operand fits]
  | binary op l r =>
      obtain ⟨v, hl, fits⟩ := Option.bind_eq_some_iff.mp fits
      obtain ⟨hr, -⟩ := Option.ite_none_right_eq_some.mp fits
      rw [eval, eval, operand hl, operand hr]
  | ite c y n =>
      obtain ⟨v, hy, fits⟩ := Option.bind_eq_some_iff.mp fits
      obtain ⟨⟨hc, hn⟩, -⟩ := Option.ite_none_right_eq_some.mp fits
      rw [eval, eval, operand hc, operand hy, operand hn]
  | extract high low x =>
      obtain ⟨v, hx, -⟩ := Option.bind_eq_some_iff.mp fits
      rw [eval, eval, operand hx]
  | zext x width =>
      obtain ⟨v, hx, -⟩ := Option.bind_eq_some_iff.mp fits
      rw [eval, eval, operand hx]
  | sext x width =>
      obtain ⟨v, hx, -⟩ := Option.bind_eq_some_iff.mp fits
      rw [eval, eval, operand hx]
  | concat h l =>
      obtain ⟨v, hh, fits⟩ := Option.bind_eq_some_iff.mp fits
      obtain ⟨v', hl, -⟩ := Option.bind_eq_some_iff.mp fits
      rw [eval, eval, operand hh, operand hl]

end Line

namespace Script

/-- The values of lines behind those that are there. -/
def valuesFrom (m : Model) (vs : Array Bits) (lines : List Line) : Array Bits :=
  lines.foldl (fun vs line => vs.push (line.eval m vs)) vs

/-- The widths of lines behind those that are there. -/
def widthsFrom (ws : Array Nat) (lines : List Line) : Option (Array Nat) :=
  lines.foldlM (fun widths line => (line.width? widths).map widths.push) ws

variable {s : Script} {m : Model} {vs : Array Bits} {ws : Array Nat} {lines : List Line}

theorem holds_eq_true_iff (s : Script) (m : Model) :
    s.holds m = true ↔
      (∀ i ∈ s.asserted, s.value m i = 1) ∧ ∀ x ∈ s.excluded, s.value m x.1 ≠ x.2 := by
  simp [holds, value]

theorem values_eq (s : Script) (m : Model) : s.values m = valuesFrom m #[] s.lines.toList :=
  (Array.foldl_toList ..).symm

/-- The first of the lines fits, and so do the others behind it. -/
theorem widthsFrom_cons {line : Line} (fits : widthsFrom (vs.map Bits.width) (line :: lines) = some ws) :
    ∃ w, line.width? (vs.map Bits.width) = some w ∧
      widthsFrom ((vs.push (line.eval m vs)).map Bits.width) lines = some ws := by
  obtain ⟨next, first, later⟩ := Option.bind_eq_some_iff.mp fits
  obtain ⟨w, found, rfl⟩ := Option.map_eq_some_iff.mp first
  refine ⟨w, found, ?_⟩
  rw [Array.map_push, Line.width_eval found]
  exact later

theorem map_width_valuesFrom (fits : widthsFrom (vs.map Bits.width) lines = some ws) :
    (valuesFrom m vs lines).map Bits.width = ws := by
  induction lines generalizing vs with
  | nil => exact Option.some.inj fits
  | cons line rest ih =>
      obtain ⟨w, -, later⟩ := widthsFrom_cons (m := m) fits
      exact ih later

theorem kept_valuesFrom (m : Model) (vs : Array Bits) (lines : List Line) :
    Kept vs (valuesFrom m vs lines) := by
  induction lines generalizing vs with
  | nil => exact .refl vs
  | cons line rest ih => exact Kept.trans (Kept.push vs _) (ih _)

/-- What a line is and that it fits, with all lines in place of those before it. -/
theorem line_of_valuesFrom (fits : widthsFrom (vs.map Bits.width) lines = some ws) {k : Nat} {line : Line}
    (here : lines[k]? = some line) :
    (∃ w, line.width? ((valuesFrom m vs lines).map Bits.width) = some w) ∧
      (valuesFrom m vs lines)[vs.size + k]? = some (line.eval m (valuesFrom m vs lines)) := by
  induction lines generalizing vs k with
  | nil => simp at here
  | cons first rest ih =>
      obtain ⟨w, fits, later⟩ := widthsFrom_cons (m := m) fits
      cases k with
      | zero =>
          cases here
          have kept : Kept vs (valuesFrom m vs (line :: rest)) := kept_valuesFrom m vs _
          refine ⟨⟨w, Line.width?_kept (kept.map _) fits⟩, ?_⟩
          rw [Line.eval_kept kept fits]
          exact kept_valuesFrom m (vs.push (line.eval m vs)) rest _ _ Array.getElem?_push_size
      | succ k =>
          have := ih later here
          rw [Array.size_push, Nat.add_right_comm] at this
          exact this

/-- The lines of a script whose operands fit have the same widths in all models. -/
theorem map_width_values (fits : s.widths? = some ws) (m : Model) : (s.values m).map Bits.width = ws := by
  rw [values_eq]
  exact map_width_valuesFrom (by rwa [Array.map_empty])

theorem line_of_values (fits : s.widths? = some ws) (m : Model) {i : Nat} {line : Line}
    (here : s.lines[i]? = some line) :
    (∃ w, line.width? ((s.values m).map Bits.width) = some w) ∧
      (s.values m)[i]? = some (line.eval m (s.values m)) := by
  have fits : widthsFrom ((#[] : Array Bits).map Bits.width) s.lines.toList = some ws := by
    rwa [Array.map_empty]
  have := line_of_valuesFrom (m := m) fits (Array.getElem?_toList.trans here)
  rwa [← values_eq, Array.size_empty, Nat.zero_add] at this

end Script

end PathSearch.Smt
