import Mathlib.Data.List.Perm.Subperm
import PathSearch.Proofs.Solver.Cache

/-! # Solvers that always decide

What a solver over an exact procedure answers is settled by the question, if the procedure never gives
up: the verdict, the failures and, up to their order, the values, as long as there are fewer than asked
for. So two such solvers agree, whatever the procedures and whatever each of them remembers.
-/

namespace PathSearch

open PathSearch.Expr Smt

/-- Results that are failures for one reason, or what was asked for and related. -/
inductive Matches {ε α β : Type} (same : α → β → Prop) : Except ε α → Except ε β → Prop where
  | ok {a : α} {b : β} (h : same a b) : Matches same (.ok a) (.ok b)
  | error (e : ε) : Matches same (.error e) (.error e)

namespace Ask

variable {α β : Type} {I : Solver → Prop} {x : Ask α} {answer answer' : α → Prop}
  {failure failure' : SolverError → Prop}

theorem Ensures.both (h : Ensures I x answer failure) (h' : Ensures I x answer' failure') :
    Ensures I x (fun a => answer a ∧ answer' a) (fun e => failure e ∧ failure' e) := by
  intro s hs
  obtain ⟨kept, answered, failed⟩ := h s hs
  obtain ⟨-, answered', failed'⟩ := h' s hs
  exact ⟨kept, fun a same => ⟨answered a same, answered' a same⟩,
    fun e same => ⟨failed e same, failed' e same⟩⟩

end Ask

namespace Solver

open Ask

variable {backend : Backend} {config : SolverConfig} {K K' : Constraints → Prop} {cs : Constraints}

theorem enumerate_passes (exact : backend.Exact) (decides : backend.Decides) (line n : Nat)
    (script : Script) :
    Ensures (Faithful backend config K) (enumerate line n script) (fun _ => True)
      (fun _ => False) := by
  induction n generalizing script with
  | zero => exact Ensures.pure trivial
  | succ n ih =>
      refine Ensures.bind ((check_ensures exact script).mono (fun _ => id) fun _ gaveUp => gaveUp.2 decides)
        fun answer _ => ?_
      cases answer with
      | none => exact Ensures.pure trivial
      | some m => exact (ih _).returning _

open Classical in
/-- The failure of a question for values of an expression, if it has one: the constraints have no
    solution, or they or the expression cannot be lowered. -/
noncomputable def refusal (e : Expr) (cs : Constraints) : Option SolverError :=
  if cs.isTriviallyFalse then some .unsatisfiable
  else match Lowering.scriptOf cs.items [e] with
    | .error failure => some failure
    | .ok _ => if cs.Satisfiable then none else some .unsatisfiable

theorem refuseFalse_settles (cs : Constraints) :
    Ensures (Faithful backend config K) (refuseFalse cs) (fun _ => cs.isTriviallyFalse = false)
      (fun failure => cs.isTriviallyFalse = true ∧ failure = .unsatisfiable) := by
  unfold refuseFalse
  split
  · rename_i never
    exact Ensures.bind (count_ensures _) fun _ _ => Ensures.throw ⟨never, rfl⟩
  · rename_i possible
    exact Ensures.pure (eq_false_of_ne_true possible)

theorem refusal_of_error (possible : cs.isTriviallyFalse = false) {e : Expr} {failure : SolverError}
    (failed : Lowering.scriptOf cs.items [e] = .error failure) : refusal e cs = some failure := by
  rw [refusal, possible, failed]
  rfl

theorem refusal_of_ok (possible : cs.isTriviallyFalse = false) {e : Expr} {r : Script × List Nat}
    (lowered : Lowering.scriptOf cs.items [e] = .ok r) :
    (cs.Satisfiable → refusal e cs = none) ∧
      (¬ cs.Satisfiable → refusal e cs = some .unsatisfiable) := by
  rw [refusal, possible, lowered]
  exact ⟨fun satisfiable => if_pos satisfiable, fun unsatisfiable => if_neg unsatisfiable⟩

theorem evaluateMany_settles (exact : backend.Exact) (decides : backend.Decides) (about : K cs)
    (hcs : cs.WellFormed) {e : Expr} (he : e.WellFormed) (unknown : e.const? = none) {n : Nat}
    (positive : n ≠ 0) :
    Ensures (Faithful backend config K) (evaluateMany e cs n)
      (fun values => Lists cs e n values ∧ refusal e cs = none)
      (fun failure => refusal e cs = some failure) := by
  refine Ensures.bind (count_ensures _) fun _ _ => ?_
  rw [if_neg positive]
  simp only [unknown]
  refine Ensures.bind ((refuseFalse_settles cs).mono (fun _ => id) fun failure refused => ?_)
    fun _ possible => ?_
  · rw [refusal, if_pos refused.1, refused.2]
  refine Ensures.bind ((Ensures.lift _).mono (fun _ => id) fun failure failed => ?_)
    fun ⟨script, lines⟩ lowered => ?_
  · exact refusal_of_error possible failed
  obtain ⟨line, rfl, listed⟩ := enumerate_ensures exact hcs he lowered n
  obtain ⟨given, refused⟩ := refusal_of_ok possible lowered
  refine Ensures.bind ((listed.both (enumerate_passes exact decides _ _ _)).mono (fun _ => And.left)
    fun _ gaveUp => gaveUp.2.elim) fun values lists => ?_
  split
  · rename_i empty
    have unsatisfiable : ¬ cs.Satisfiable := by
      rintro ⟨σ, satisfied⟩
      rw [List.isEmpty_iff.mp empty] at lists
      have inside := lists.complete (by simp only [List.length_nil]; omega) σ satisfied
      cases inside
    have settled := settled_false lowered fun σ satisfied => unsatisfiable ⟨σ, satisfied⟩
    exact Ensures.bind (remember_ensures about settled) fun _ _ => Ensures.throw (refused unsatisfiable)
  · rename_i some
    obtain ⟨v, hv⟩ := List.exists_mem_of_ne_nil values fun none => some (List.isEmpty_iff.mpr none)
    obtain ⟨σ, satisfied, -⟩ := lists.sound v hv
    refine Ensures.bind (remember_ensures about (settled_true lowered satisfied)) fun _ _ => ?_
    exact Ensures.pure ⟨lists, given ⟨σ, satisfied⟩⟩

/-- Listings of fewer values than were asked for hold the same values. -/
theorem Lists.perm {e : Expr} {n : Nat} {values values' : List Word} (h : Lists cs e n values)
    (h' : Lists cs e n values') (few : values.length < n) : values.Perm values' := by
  have inside : ∀ v ∈ values', v ∈ values := by
    intro v hv
    obtain ⟨σ, satisfied, rfl⟩ := h'.sound v hv
    exact h.complete few σ satisfied
  have fewer : values'.length < n :=
    Nat.lt_of_le_of_lt (List.Subperm.length_le (h'.distinct.subperm inside)) few
  refine (List.perm_ext_iff_of_nodup h.distinct h'.distinct).mpr fun v => ⟨fun hv => ?_, inside v⟩
  obtain ⟨σ, satisfied, rfl⟩ := h.sound v hv
  exact h'.complete fewer σ satisfied

/-- A solver over an exact procedure that never gives up, with a memory that is right and tells
    certain constraints apart. -/
structure Decisive (K : Constraints → Prop) (s : Solver) : Prop where
  exact : s.backend.Exact
  decides : s.backend.Decides
  distinct : Distinct s.config K
  faithful : s.Faithful s.backend s.config K

theorem Faithful.decisive {s : Solver} (h : s.Faithful backend config K) (exact : backend.Exact)
    (decides : backend.Decides) (distinct : Distinct config K) : s.Decisive K := by
  obtain rfl := h.backend_eq
  obtain rfl := h.config_eq
  exact ⟨exact, decides, distinct, h⟩

theorem decisive_new (K : Constraints → Prop) :
    (Solver.new .perfect { cacheResults := false }).Decisive K :=
  faithful_new.decisive Backend.perfect_exact Backend.perfect_decides (distinct_off {} K)

namespace Decisive

variable {s t : Solver}

theorem exactOn (h : s.Decisive K) : s.ExactOn K := h.faithful.exactOn h.exact h.distinct

theorem isSatisfiable (h : s.Decisive K) (about : K cs) (hcs : cs.WellFormed) :
    ((isSatisfiable cs).run s).2.Decisive K :=
  have kept := (isSatisfiable_ensures h.exact h.distinct about hcs s h.faithful).1
  kept.decisive h.exact h.decides h.distinct

theorem evaluateMany (h : s.Decisive K) (about : K cs) (hcs : cs.WellFormed) {e : Expr}
    (he : e.WellFormed) (n : Nat) : ((evaluateMany e cs n).run s).2.Decisive K :=
  have kept := (evaluateMany_ensures h.exact h.distinct about hcs he n s h.faithful).1
  kept.decisive h.exact h.decides h.distinct

variable (hs : s.Decisive K) (ht : t.Decisive K') (about : K cs) (about' : K' cs)
  (hcs : cs.WellFormed)

include hs ht about about' hcs

theorem isSatisfiable_eq :
    ((Solver.isSatisfiable cs).run s).1 = ((Solver.isSatisfiable cs).run t).1 := by
  have decided := decide_agree hs.exact ht.exact hs.decides ht.decides hs.distinct ht.distinct about
    about' hcs
  exact count_agree _ decided s t hs.faithful ht.faithful

theorem evaluateMany_matches {e : Expr} (he : e.WellFormed) (unknown : e.const? = none) {n : Nat}
    (positive : n ≠ 0) :
    Matches (fun vs ws => Lists cs e n vs ∧ Lists cs e n ws)
      ((Solver.evaluateMany e cs n).run s).1 ((Solver.evaluateMany e cs n).run t).1 := by
  obtain ⟨-, answered, failed⟩ :=
    evaluateMany_settles hs.exact hs.decides about hcs he unknown positive s hs.faithful
  obtain ⟨-, answered', failed'⟩ :=
    evaluateMany_settles ht.exact ht.decides about' hcs he unknown positive t ht.faithful
  cases left : ((Solver.evaluateMany e cs n).run s).1 with
  | ok values =>
      obtain ⟨lists, given⟩ := answered values left
      cases other : ((Solver.evaluateMany e cs n).run t).1 with
      | ok values' => exact .ok ⟨lists, (answered' values' other).1⟩
      | error failure => cases given.symm.trans (failed' failure other)
  | error failure =>
      have refused := failed failure left
      cases other : ((Solver.evaluateMany e cs n).run t).1 with
      | ok values' => cases (answered' values' other).2.symm.trans refused
      | error failure' =>
          obtain rfl := Option.some.inj (refused.symm.trans (failed' failure' other))
          exact .error failure

end Decisive

end Solver

end PathSearch
