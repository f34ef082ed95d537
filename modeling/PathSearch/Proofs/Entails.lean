import PathSearch.Proofs.Expr.Bit
import PathSearch.Proofs.Expr.Occurrence
import PathSearch.Proofs.Sound

/-! # What constraints entail

Constraints entail a condition that is 1 under all bindings under which they are, also under bindings
that leave variables open. What is entailed stays so when constraints are added.
-/

namespace PathSearch

namespace Expr

section Joined

variable {b : Bindings} {op : Op} {l r e : Expr} {v : Word}

theorem value_close (h : e.evaluate b = some v) : e.value b.close = v := by
  rw [value, evaluate_close h, Option.getD_some]

theorem evaluate_operands (h : (Expr.binary op l r).evaluate b = some v) :
    ∃ x y, l.evaluate b = some x ∧ r.evaluate b = some y := by
  rw [evaluate_eq_eval] at h
  obtain ⟨x, left, h⟩ := Option.bind_eq_some_iff.mp h
  obtain ⟨y, right, -⟩ := Option.bind_eq_some_iff.mp h
  exact ⟨x, y, (evaluate_eq_eval b l).trans left, (evaluate_eq_eval b r).trans right⟩

theorem evaluate_of_simplify? (joins : ∀ x, onSame? op x = some x) (simpler : simplify? op l r = some e)
    (h : e.evaluate b = some v) : (∃ x y, l.evaluate b = some x ∧ r.evaluate b = some y) ∨
      absorbing? op l.width = some v ∧ (l.evaluate b = some v ∨ r.evaluate b = some v) := by
  have twice (rule : (if l = r then onSame? op l else none) = some e) :
      ∃ x y, l.evaluate b = some x ∧ r.evaluate b = some y := by
    split at rule
    · rename_i equal
      obtain rfl := Option.some.inj ((joins l).symm.trans rule)
      exact ⟨v, v, h, equal ▸ h⟩
    · cases rule
  unfold simplify? at simpler
  simp only at simpler
  split at simpler
  · rename_i rule
    obtain ⟨w, constant⟩ := Option.isSome_iff_exists.mp rule.1
    cases simpler
    exact .inl ⟨v, w, h, evaluate_of_const? constant⟩
  · split at simpler
    · rename_i rule
      obtain ⟨w, constant⟩ := Option.isSome_iff_exists.mp rule.1
      cases simpler
      exact .inl ⟨w, v, evaluate_of_const? constant, h⟩
    · split at simpler
      · rename_i w absorbing
        split at simpler
        · rename_i given
          cases simpler
          obtain rfl := Option.some.inj ((evaluate_of_const? rfl).symm.trans h)
          exact .inr ⟨absorbing, given.imp evaluate_of_const? evaluate_of_const?⟩
        · exact .inl (twice simpler)
      · exact .inl (twice simpler)

/-- Where a conjunction or a disjunction has a value, both sides have one, or one side has the value
    that decides it. -/
theorem evaluate_of_applyBinary (joins : ∀ x, onSame? op x = some x)
    (h : (applyBinary op l r).evaluate b = some v) :
    (∃ x y, l.evaluate b = some x ∧ r.evaluate b = some y) ∨
      absorbing? op l.width = some v ∧ (l.evaluate b = some v ∨ r.evaluate b = some v) := by
  unfold applyBinary at h
  split at h
  · rename_i left right
    exact .inl ⟨_, _, evaluate_of_const? left, evaluate_of_const? right⟩
  · cases simpler : simplify? op l r with
    | none =>
        rw [simpler] at h
        exact .inl (evaluate_operands h)
    | some e =>
        rw [simpler] at h
        exact evaluate_of_simplify? joins simpler h

/-- Both sides of a conjunction that is 1 are 1. -/
theorem evaluate_of_land (hl : l.IsBit) (hr : r.IsBit) (built : land l r = .ok e)
    (h : e.evaluate b = some 1) : l.evaluate b = some 1 ∧ r.evaluate b = some 1 := by
  obtain ⟨_, both, -, value⟩ := land_bit hl hr
  obtain rfl := Except.ok.inj (both.symm.trans (land_total hl hr))
  obtain rfl := Except.ok.inj (both.symm.trans built)
  rcases evaluate_of_applyBinary (fun _ => rfl) h with ⟨x, y, left, right⟩ | ⟨absorbs, -⟩
  · obtain ⟨one, one'⟩ := (value b.close).mp (value_close h)
    rw [left, right, ← value_close left, ← value_close right, one, one']
    exact ⟨rfl, rfl⟩
  · cases absorbs

/-- A side of a disjunction that is 1 is 1. -/
theorem evaluate_of_lor (hl : l.IsBit) (hr : r.IsBit) (built : lor l r = .ok e)
    (h : e.evaluate b = some 1) : l.evaluate b = some 1 ∨ r.evaluate b = some 1 := by
  obtain ⟨_, either, -, value⟩ := lor_bit hl hr
  obtain rfl := Except.ok.inj (either.symm.trans (lor_total hl hr))
  obtain rfl := Except.ok.inj (either.symm.trans built)
  rcases evaluate_of_applyBinary (fun _ => rfl) h with ⟨x, y, left, right⟩ | ⟨-, decided⟩
  · rw [left, right, ← value_close left, ← value_close right]
    exact ((value b.close).mp (value_close h)).imp (congrArg some) (congrArg some)
  · exact decided

end Joined

end Expr

namespace Constraints

open PathSearch.Expr

variable {cs ds : Constraints} {c g : Expr} {b : Bindings}

/-- Every constraint is 1 under what is bound. -/
def Holds (cs : Constraints) (b : Bindings) : Prop := ∀ c ∈ cs.items, c.evaluate b = some 1

/-- Wherever the constraints hold, the condition does. -/
def Entails (cs : Constraints) (g : Expr) : Prop := ∀ b : Bindings, cs.Holds b → g.evaluate b = some 1

theorem holds_push (pushed : cs.push c = .ok ds) : ds.Holds b ↔ cs.Holds b ∧ c.evaluate b = some 1 := by
  rcases push_items pushed with ⟨always, rfl⟩ | ⟨-, items⟩
  · simp only [Expr.isTrue, Bool.and_eq_true, beq_iff_eq] at always
    exact (and_iff_left (evaluate_of_const? always.2)).symm
  · rw [Holds, items, List.forall_mem_append, List.forall_mem_singleton]
    rfl

theorem holds_foldlM_push {list : List Expr} (pushed : list.foldlM Constraints.push cs = .ok ds) :
    ds.Holds b ↔ cs.Holds b ∧ ∀ c ∈ list, c.evaluate b = some 1 := by
  induction list generalizing cs with
  | nil =>
      cases pushed
      simp
  | cons c rest ih =>
      rw [List.foldlM_cons] at pushed
      obtain ⟨more, first, later⟩ := bind_ok pushed
      rw [ih later, holds_push first, List.forall_mem_cons, and_assoc]

theorem Entails.extends (h : cs.Entails g) (more : ds.Extends cs) : ds.Entails g :=
  fun b holds => h b fun c hc => holds c (more.subset hc)

theorem entails_of_push (pushed : cs.push c = .ok ds) : ds.Entails c :=
  fun _ holds => ((holds_push pushed).mp holds).2

theorem entails_of_contains (here : cs.contains c = true) : cs.Entails c :=
  fun _ holds => holds c (List.contains_iff_mem.mp here)

end Constraints

end PathSearch
