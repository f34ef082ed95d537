import Mathlib.Data.Set.Card
import PathSearch.Proofs.Expr.Bit
import PathSearch.Proofs.Solver.Decisive

/-! # How many values are listed

Values are listed until enough are known or no other is left. So a solver that always decides lists as
many as it is asked for, or all that there are. A constant has one value where the constraints hold, and
is answered by deciding about them; that comes to the same.
-/

namespace PathSearch

open PathSearch.Expr Smt

/-- The values that an expression takes where the constraints hold. -/
def Constraints.feasibleValues (cs : Constraints) (e : Expr) : Set Word :=
  {v | ∃ σ, cs.SatisfiedBy σ ∧ e.evaluate σ.bindings = some v}

namespace Solver

open Ask

section AtMost

variable {backend : Backend} {failure : SolverError → Prop}

/-- The decision procedure of a solver stays the same. -/
def Over (backend : Backend) (s : Solver) : Prop := s.backend = backend

theorem over_count (f : SolverCounters → SolverCounters) :
    Ensures (Over backend) (count f) (fun _ => True) fun _ => True :=
  .modify fun _ hs => hs

theorem over_takeVerdict (v : Verdict) :
    Ensures (Over backend) (takeVerdict v) (fun _ => True) fun _ => True := by
  refine .bind (over_count _) fun _ _ => ?_
  cases v with
  | sat | unsat => exact .pure trivial
  | timeout => exact .bind (over_count _) fun _ _ => .bind .get fun _ _ => .throw trivial
  | unknown => exact .bind (over_count _) fun _ _ => .throw trivial

theorem over_check (script : Script) :
    Ensures (Over backend) (check script) (fun _ => True) fun _ => True :=
  .bind .get fun _ _ => over_takeVerdict _

/-- No more values than were asked for. -/
theorem enumerate_atMost (line n : Nat) (script : Script) :
    Ensures (Over backend) (enumerate line n script) (fun values => values.length ≤ n)
      fun _ => True := by
  induction n generalizing script with
  | zero => exact .pure (Nat.le_refl _)
  | succ n ih =>
      refine .bind (over_check script) fun answer _ => ?_
      cases answer with
      | none => exact .pure (Nat.zero_le _)
      | some m => exact .bind (ih _) fun values fewer => .pure (Nat.succ_le_succ fewer)

theorem over_remember (cs : Constraints) (satisfiable : Bool) :
    Ensures (Over backend) (remember cs satisfiable) (fun _ => True) fun _ => True := by
  refine .modify fun s hs => ?_
  split
  · exact hs
  · exact hs

theorem over_decide (cs : Constraints) :
    Ensures (Over backend) (decide cs) (fun _ => True) fun _ => True := by
  unfold decide
  split
  · exact .bind (over_count _) fun _ _ => .pure trivial
  split
  · exact .bind (over_count _) fun _ _ => .pure trivial
  refine .bind .get fun s _ => ?_
  split
  · exact .bind (over_count _) fun _ _ => .pure trivial
  · refine .bind ((Ensures.lift _).mono (fun _ => id) fun _ _ => trivial) fun lowered _ => ?_
    refine .bind (over_check _) fun answer _ => ?_
    exact .bind (over_remember cs _) fun _ _ => .pure trivial

theorem evaluateMany_atMost (e : Expr) (cs : Constraints) (n : Nat) :
    Ensures (Over backend) (evaluateMany e cs n) (fun values => values.length ≤ n) fun _ => True := by
  unfold evaluateMany
  refine .bind (over_count _) fun _ _ => ?_
  split
  · exact .pure (Nat.zero_le _)
  rename_i positive
  split
  · refine .bind (over_decide cs) fun b _ => ?_
    split
    · exact .pure (Nat.one_le_iff_ne_zero.mpr positive)
    · exact .throw trivial
  · have refused : Ensures (Over backend) (refuseFalse cs) (fun _ => True) fun _ => True := by
      unfold refuseFalse
      split
      · exact .bind (over_count _) fun _ _ => .throw trivial
      · exact .pure trivial
    refine .bind refused fun _ _ => ?_
    refine .bind ((Ensures.lift _).mono (fun _ => id) fun _ _ => trivial) fun ⟨script, lines⟩ _ => ?_
    refine .bind (enumerate_atMost _ n script) fun values fewer => ?_
    split
    · exact .bind (over_remember cs _) fun _ _ => .throw trivial
    · exact .bind (over_remember cs _) fun _ _ => .pure fewer

end AtMost

section Settled

variable {backend : Backend} {config : SolverConfig} {K : Constraints → Prop} {cs : Constraints}
  {e : Expr} {n : Nat} {values : List Word}

theorem mem_feasibleValues (he : e.WellFormed) {v : Word} :
    v ∈ cs.feasibleValues e ↔ ∃ σ, cs.SatisfiedBy σ ∧ e.value σ = v := by
  simp only [Constraints.feasibleValues, Set.mem_ofPred_eq, he.evaluate_eq, Option.some.injEq]

theorem feasibleValues_const (he : e.WellFormed) {v : Word} (known : e.const? = some v)
    (satisfiable : cs.Satisfiable) : cs.feasibleValues e = {v} := by
  obtain ⟨σ, satisfied⟩ := satisfiable
  ext w
  rw [mem_feasibleValues he, Set.mem_singleton_iff]
  constructor
  · rintro ⟨τ, -, rfl⟩
    exact value_of_const? known τ
  · rintro rfl
    exact ⟨σ, satisfied, value_of_const? known σ⟩

theorem finite_words (words : Set Word) : words.Finite := by
  have number : Function.Injective fun w : Word => (⟨w.toNat, w.toNat_lt⟩ : Fin (2 ^ 64)) :=
    fun _ _ same => UInt64.toNat_inj.mp (congrArg Fin.val same)
  have := Finite.of_injective _ number
  exact words.toFinite

/-- A listing has as many values as asked for, or as there are. -/
theorem Lists.length_eq (h : Lists cs e n values) (he : e.WellFormed) (atMost : values.length ≤ n) :
    values.length = min n (cs.feasibleValues e).ncard := by
  have listed : {v | v ∈ values} ⊆ cs.feasibleValues e := fun v hv =>
    (mem_feasibleValues he).mpr (h.sound v hv)
  have size : {v | v ∈ values}.ncard = values.length := by
    rw [← List.coe_toFinset, Set.ncard_coe_finset, List.toFinset_card_of_nodup h.distinct]
  have fewer : values.length ≤ (cs.feasibleValues e).ncard :=
    size ▸ Set.ncard_le_ncard listed (finite_words _)
  rcases Nat.lt_or_eq_of_le atMost with few | full
  · have whole : cs.feasibleValues e ⊆ {v | v ∈ values} := by
      intro v hv
      obtain ⟨σ, satisfied, rfl⟩ := (mem_feasibleValues he).mp hv
      exact h.complete few σ satisfied
    have most : (cs.feasibleValues e).ncard ≤ values.length :=
      size ▸ Set.ncard_le_ncard whole (finite_words _)
    omega
  · omega

/-- Where no variable has two widths, nothing is refused but constraints without a solution. -/
theorem refusal_of_consistent (hcs : cs.WellFormed)
    (oneWidth : Lowering.Consistent ((cs.items ++ [e]).flatMap occurrences)) :
    (cs.Satisfiable → refusal e cs = none) ∧
      (¬ cs.Satisfiable → refusal e cs = some .unsatisfiable) := by
  obtain ⟨r, lowered⟩ := Lowering.scriptOf_isOk_iff.mpr ⟨fun c hc => (hcs c hc).2, oneWidth⟩
  cases trivially : cs.isTriviallyFalse with
  | false => exact refusal_of_ok trivially lowered
  | true =>
      have unsatisfiable := Constraints.unsatisfiable_of_triviallyFalse hcs trivially
      exact ⟨fun ⟨σ, satisfied⟩ => (unsatisfiable σ satisfied).elim, fun _ => if_pos trivially⟩

/-- A constant is answered by deciding about the constraints. -/
theorem evaluateMany_const_settles (exact : backend.Exact) (decides : backend.Decides)
    (distinct : Distinct config K) (about : K cs) (hcs : cs.WellFormed) {v : Word}
    (const : e.const? = some v) (oneWidth : cs.OneWidthEach) (positive : n ≠ 0) :
    Ensures (Faithful backend config K) (evaluateMany e cs n)
      (fun values => Lists cs e n values ∧ cs.Satisfiable)
      (fun failure => ¬ cs.Satisfiable ∧ failure = .unsatisfiable) := by
  refine .bind (count_ensures _) fun _ _ => ?_
  rw [if_neg positive]
  simp only [const]
  refine .bind ((decide_ensures exact distinct about hcs).mono (fun _ => And.left) fun failure failed => ?_)
    fun b decided => ?_
  · exact (Lowering.not_oneWidthEach_of_error hcs (failed.2 decides).2 oneWidth).elim
  · cases b with
    | true =>
        obtain ⟨σ, satisfied⟩ := decided.mp rfl
        refine .pure ⟨⟨by simp, fun w hw => ?_, fun _ τ _ => ?_⟩, σ, satisfied⟩
        · exact List.mem_singleton.mp hw ▸ ⟨σ, satisfied, value_of_const? const σ⟩
        · exact value_of_const? const τ ▸ .head _
    | false =>
        have unsatisfiable : ¬ cs.Satisfiable := fun satisfiable => nomatch decided.mpr satisfiable
        exact .throw ⟨unsatisfiable, rfl⟩

end Settled

variable {K : Constraints → Prop} {s : Solver} {cs : Constraints} {e : Expr} {n : Nat}

/-- A solver that always decides refuses constraints that have no solution, and lists values
    otherwise. -/
theorem Decisive.evaluateMany_cases (h : s.Decisive K) (about : K cs) (hcs : cs.WellFormed)
    (he : e.WellFormed) (oneWidth : Lowering.Consistent ((cs.items ++ [e]).flatMap occurrences))
    (positive : n ≠ 0) :
    cs.Unsatisfiable ∧ ((Solver.evaluateMany e cs n).run s).1 = .error .unsatisfiable ∨
      cs.Satisfiable ∧ ∃ values, ((Solver.evaluateMany e cs n).run s).1 = .ok values ∧
        Lists cs e n values ∧ values.length = min n (cs.feasibleValues e).ncard := by
  have settles : Ensures (Faithful s.backend s.config K) (Solver.evaluateMany e cs n)
      (fun values => Lists cs e n values ∧ cs.Satisfiable)
      (fun failure => ¬ cs.Satisfiable ∧ failure = .unsatisfiable) := by
    cases const : e.const? with
    | some v =>
        refine evaluateMany_const_settles h.exact h.decides h.distinct about hcs const ?_ positive
        exact fun name w w' hw hw' => oneWidth name w w' (by simp [hw]) (by simp [hw'])
    | none =>
        obtain ⟨given, refused⟩ := refusal_of_consistent hcs oneWidth
        refine (evaluateMany_settles h.exact h.decides about hcs he const positive).mono
          (fun values listed => ⟨listed.1, ?_⟩) fun failure same => ?_
        · by_contra unsatisfiable
          cases listed.2.symm.trans (refused unsatisfiable)
        · by_cases satisfiable : cs.Satisfiable
          · cases same.symm.trans (given satisfiable)
          · exact ⟨satisfiable, Option.some.inj (same.symm.trans (refused satisfiable))⟩
  obtain ⟨-, answered, failed⟩ := settles s h.faithful
  cases answer : ((Solver.evaluateMany e cs n).run s).1 with
  | ok values =>
      obtain ⟨lists, satisfiable⟩ := answered values answer
      have atMost := (evaluateMany_atMost e cs n s rfl).2.1 values answer
      exact .inr ⟨satisfiable, values, rfl, lists, lists.length_eq he atMost⟩
  | error failure =>
      obtain ⟨unsatisfiable, rfl⟩ := failed failure answer
      exact .inl ⟨fun σ satisfied => unsatisfiable ⟨σ, satisfied⟩, rfl⟩

/-- Enumeration is exact, whatever the solver was asked before: no values where none are asked for, a
    refusal where the constraints have no solution, and otherwise as many different values of the
    expression as asked for, or all that it takes. -/
theorem evaluateMany_exact {backend : Backend} (exact : backend.Exact) (decides : backend.Decides)
    (config : SolverConfig) (before : List Request) (wellFormed : ∀ r ∈ before, r.WellFormed)
    {cs : Constraints} (hcs : cs.WellFormed) {e : Expr} (he : e.WellFormed) (n : Nat)
    (distinct : Distinct config (About (.evaluateMany e cs n :: before)))
    (oneWidth : Lowering.Consistent ((cs.items ++ [e]).flatMap occurrences)) :
    let answer := ((evaluateMany e cs n).run ((new backend config).after before)).1
    (n = 0 → answer = .ok []) ∧
      (n ≠ 0 → (answer = .error .unsatisfiable ↔ cs.Unsatisfiable) ∧
        (cs.Satisfiable → ∃ values, answer = .ok values ∧ values.Nodup ∧
          (∀ v ∈ values, ∃ σ, cs.SatisfiedBy σ ∧ e.evaluate σ.bindings = some v) ∧
          values.length = min n (cs.feasibleValues e).ncard)) := by
  intro answer
  have faithful : ((new backend config).after before).Faithful backend config _ :=
    after_faithful exact distinct wellFormed (fun ds ⟨r, hr, hds⟩ => ⟨r, .tail _ hr, hds⟩) faithful_new
  refine ⟨?_, fun positive => ?_⟩
  · rintro rfl
    rfl
  have about : About (.evaluateMany e cs n :: before) cs := ⟨_, .head _, .head _⟩
  have decisive := faithful.decisive exact decides distinct
  rcases decisive.evaluateMany_cases about hcs he oneWidth positive with
    ⟨unsatisfiable, refused⟩ | ⟨satisfiable, values, listed, lists, length⟩
  · refine ⟨iff_of_true refused unsatisfiable, fun ⟨σ, satisfied⟩ => ?_⟩
    exact (unsatisfiable σ satisfied).elim
  · constructor
    · obtain ⟨σ, satisfied⟩ := satisfiable
      refine iff_of_false (fun refused => ?_) fun unsatisfiable => unsatisfiable σ satisfied
      cases listed.symm.trans refused
    · refine fun _ => ⟨values, listed, lists.distinct, fun v hv => ?_, length⟩
      obtain ⟨σ, satisfied, value⟩ := lists.sound v hv
      exact ⟨σ, satisfied, value ▸ he.evaluate_eq σ⟩

/-- One bit has two values where nothing is asked for. -/
theorem feasibleValues_bit (name : String) : Constraints.feasibleValues {} (.var name 1) = {0, 1} := by
  have he : (Expr.var name 1).WellFormed := ⟨by decide, by decide⟩
  ext v
  rw [mem_feasibleValues he, Set.mem_insert_iff, Set.mem_singleton_iff]
  constructor
  · rintro ⟨σ, -, rfl⟩
    exact IsBit.value_cases ⟨he, rfl⟩ σ
  · intro bit
    refine ⟨fun _ => v, nofun, ?_⟩
    rw [value_var]
    rcases bit with rfl | rfl <;> decide

theorem consistent_var (name : String) (bits : Nat) :
    Lowering.Consistent ([Expr.var name bits].flatMap occurrences) := by
  intro other w w' hw hw'
  simp only [List.flatMap_singleton, occurrences, List.mem_singleton, Prod.mk.injEq] at hw hw'
  rw [hw.2, hw'.2]

/-- One bit has two values, and a constant has one. -/
theorem evaluateMany_exact_flag :
    (∃ values, ((evaluateMany (.var "flag" 1) {} 5).run (new .perfect {})).1 = .ok values ∧
      values.length = 2) ∧
    ∃ values, ((evaluateMany (.const 3 8) {} 5).run (new .perfect {})).1 = .ok values ∧
      values.length = 1 := by
  have hcs : Constraints.WellFormed {} := nofun
  have satisfied (σ : Assignment) : Constraints.SatisfiedBy {} σ := nofun
  have lists {e : Expr} (he : e.WellFormed) (oneWidth : Lowering.Consistent ([e].flatMap occurrences)) :=
    ((evaluateMany_exact Backend.perfect_exact Backend.perfect_decides {} [] (List.forall_mem_nil _) hcs he
      5 (distinct_single _ rfl) oneWidth).2 (by decide)).2 ⟨fun _ => 0, satisfied _⟩
  constructor
  · have he : (Expr.var "flag" 1).WellFormed := ⟨by decide, by decide⟩
    obtain ⟨values, listed, -, -, length⟩ := lists he (consistent_var "flag" 1)
    rw [feasibleValues_bit, Set.ncard_pair (by decide)] at length
    exact ⟨values, listed, length⟩
  · have he : (Expr.const 3 8).WellFormed := ⟨by decide, by decide, by decide⟩
    have oneWidth : Lowering.Consistent ([Expr.const 3 8].flatMap occurrences) := by
      intro name w w' hw
      simp [occurrences] at hw
    obtain ⟨values, listed, -, -, length⟩ := lists he oneWidth
    rw [feasibleValues_const he rfl ⟨fun _ => 0, satisfied _⟩, Set.ncard_singleton] at length
    exact ⟨values, listed, length⟩

end Solver

end PathSearch
