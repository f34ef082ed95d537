import Mathlib.Data.List.Forall2
import PathSearch.Smt.Search

/-! # What is derived follows

Under every assignment that satisfies the clauses of a circuit, all that was derived from them is true.
So where the search says that no assignment satisfies them there is none. The watched literals, the levels
and the analysis of conflicts have no part in this: they only say what is tried to be derived next.
-/

namespace PathSearch.Smt

/-- The truth of each variable. -/
abbrev Valuation := Nat → Bool

namespace Lit

variable {σ : Valuation} {l : Lit}

/-- The truth of a literal. -/
def holds (σ : Valuation) (l : Lit) : Bool := Bool.xor (σ (l / 2)) (l % 2 == 1)

theorem neg_div (l : Lit) : l.neg / 2 = l / 2 := by
  rw [neg, Nat.xor_div_two]
  simp

theorem neg_mod (l : Lit) : l.neg % 2 = 1 - l % 2 := by
  have odd : l.neg % 2 = 1 ↔ ¬ l % 2 = 1 := by
    rw [neg, Nat.xor_mod_two_eq_one]
    simp
  rcases Nat.mod_two_eq_zero_or_one l with here | here
  · rw [here, odd.mpr (by rw [here]; decide)]
  · rw [here]
    exact (Nat.mod_two_eq_zero_or_one l.neg).resolve_right fun again => odd.mp again here

@[simp] theorem holds_neg (σ : Valuation) (l : Lit) : l.neg.holds σ = !l.holds σ := by
  rw [holds, holds, neg_div, neg_mod]
  rcases Nat.mod_two_eq_zero_or_one l with even | odd
  · simp [even]
  · simp [odd]

end Lit

/-- A literal of the clause is true. -/
def Holds (σ : Valuation) (clause : Array Lit) : Prop := ∃ l ∈ clause, l.holds σ = true

/-- What follows from no assumptions is asked of every assignment. -/
theorem nothing_assumed {σ : Valuation} : ∀ l ∈ (∅ : Std.HashSet Lit), l.holds σ = true :=
  fun _ none => (Std.HashSet.not_mem_empty none).elim

namespace Derived

variable {d d' : Derived} {σ : Valuation} {clause : Array Lit} {given : Std.HashSet Lit} {l : Lit}

/-- All that was derived is true. -/
structure Holds (d : Derived) (σ : Valuation) : Prop where
  clauses : ∀ clause ∈ d.clauses, Smt.Holds σ clause
  units : ∀ l ∈ d.units, l.holds σ = true

theorem mem_openIn : l ∈ d.openIn given clause ↔ l ∈ clause ∧ l.neg ∉ given ∧ l.neg ∉ d.units := by
  simp [openIn]

/-- The true literal of a clause is open. -/
theorem Holds.openIn (h : d.Holds σ) (assumed : ∀ l ∈ given, l.holds σ = true)
    (clauseHolds : Smt.Holds σ clause) : ∃ l ∈ d.openIn given clause, l.holds σ = true := by
  obtain ⟨l, hl, true'⟩ := clauseHolds
  refine ⟨l, mem_openIn.mpr ⟨hl, fun here => ?_, fun here => ?_⟩, true'⟩
  · simpa [true'] using assumed _ here
  · simpa [true'] using h.units _ here

theorem Holds.not_refutes (h : d.Holds σ) (sources : List Nat)
    (assumed : ∀ l ∈ given, l.holds σ = true) : d.refutes sources given = false := by
  induction sources generalizing given with
  | nil => rfl
  | cons c rest ih =>
      rw [refutes]
      split
      · exact ih assumed
      · rename_i clause found
        obtain ⟨l, hl, true'⟩ := h.openIn assumed (h.clauses clause (Array.mem_of_getElem? found))
        split
        · rename_i none
          rw [none] at hl
          cases hl
        · rename_i m one
          rw [one] at hl
          obtain rfl := List.mem_singleton.mp hl
          refine ih fun k hk => ?_
          rcases Std.HashSet.mem_insert.mp hk with same | old
          · exact beq_iff_eq.mp same ▸ true'
          · exact assumed k old
        · exact ih assumed

theorem mem_negated (hl : l ∈ clause.foldl (fun given l => given.insert l.neg) (∅ : Std.HashSet Lit)) :
    ∃ k ∈ clause, l = k.neg := by
  rw [← Array.foldl_toList] at hl
  have fold (ls : List Lit) (set : Std.HashSet Lit)
      (hl : l ∈ ls.foldl (fun given l => given.insert l.neg) set) : l ∈ set ∨ ∃ k ∈ ls, l = k.neg := by
    induction ls generalizing set with
    | nil => exact .inl hl
    | cons k rest ih =>
        rcases ih _ hl with here | ⟨m, hm, same⟩
        · rcases Std.HashSet.mem_insert.mp here with same | old
          · exact .inr ⟨k, .head _, (beq_iff_eq.mp same).symm⟩
          · exact .inl old
        · exact .inr ⟨m, .tail _ hm, same⟩
  rcases fold _ _ hl with none | ⟨k, hk, same⟩
  · exact (Std.HashSet.not_mem_empty none).elim
  · exact ⟨k, Array.mem_toList_iff.mp hk, same⟩

theorem Holds.learn (h : d.Holds σ) {sources : List Nat} (learnt : d.learn clause sources = some d') :
    d'.Holds σ := by
  unfold Derived.learn at learnt
  split at learnt
  · rename_i refuted
    have clauseHolds : Smt.Holds σ clause := by
      by_contra none
      have negation : ∀ l ∈ clause.foldl (fun given l => given.insert l.neg) (∅ : Std.HashSet Lit),
          l.holds σ = true := by
        intro l hl
        obtain ⟨k, hk, rfl⟩ := mem_negated hl
        rw [Lit.holds_neg]
        simpa using fun true' => none ⟨k, hk, true'⟩
      rw [h.not_refutes sources negation] at refuted
      cases refuted
    split at learnt
    · rename_i l one
      cases learnt
      refine ⟨h.clauses, fun k hk => ?_⟩
      rcases Std.HashSet.mem_insert.mp hk with same | old
      · obtain ⟨m, hm, true'⟩ := clauseHolds
        rw [← Array.mem_toList_iff, one] at hm
        rw [← beq_iff_eq.mp same, ← List.mem_singleton.mp hm]
        exact true'
      · exact h.units k old
    · cases learnt
      refine ⟨fun c hc => ?_, h.units⟩
      rcases Array.mem_push.mp hc with old | rfl
      · exact h.clauses c old
      · exact clauseHolds
  · cases learnt

theorem Holds.takeUnit (h : d.Holds σ) (source : clause.isEmpty = false → Smt.Holds σ clause)
    (taken : d.takeUnit l clause = some d') : d'.Holds σ := by
  unfold Derived.takeUnit at taken
  split at taken
  · cases taken
    exact h
  split at taken
  · rename_i one
    cases taken
    refine ⟨h.clauses, fun k hk => ?_⟩
    rcases Std.HashSet.mem_insert.mp hk with same | old
    · have present : l ∈ clause := (mem_openIn.mp (one ▸ List.mem_singleton.mpr rfl : l ∈ d.openIn ∅ clause)).1
      have nonempty : clause.isEmpty = false := by
        rw [Array.isEmpty_eq_false_iff]
        exact Array.ne_empty_of_mem present
      obtain ⟨m, hm, true'⟩ := h.openIn nothing_assumed (source nonempty)
      rw [one] at hm
      rw [← beq_iff_eq.mp same, ← List.mem_singleton.mp hm]
      exact true'
    · exact h.units k old
  · cases taken

end Derived

namespace Search

variable {d d' : Derived} {s : Search} {σ : Valuation}

/-- A clause that was derived holds, and where there is no clause nothing is taken up. -/
theorem holds_getD (h : d.Holds σ) (i : Nat) :
    (d.clauses.getD i #[]).isEmpty = false → Smt.Holds σ (d.clauses.getD i #[]) := by
  intro nonempty
  rw [Array.getD_eq_getD_getElem?] at nonempty ⊢
  cases found : d.clauses[i]? with
  | none => simp [found] at nonempty
  | some clause => exact h.clauses clause (Array.mem_of_getElem? found)

theorem holds_settle (h : d.Holds σ) (settled : s.settle d = some d') : d'.Holds σ := by
  obtain ⟨u, taken, result⟩ := Option.bind_eq_some_iff.mp settled
  cases result
  have fold (ls : List Lit) {d u : Derived} (h : d.Holds σ)
      (taken : ls.foldlM (fun d l =>
        d.takeUnit l (d.clauses.getD (s.reasons.getD (l / 2) 0 - 1) #[])) d = some u) : u.Holds σ := by
    induction ls generalizing d with
    | nil =>
        cases taken
        exact h
    | cons l rest ih =>
        obtain ⟨v, first, later⟩ := Option.bind_eq_some_iff.mp taken
        exact ih (h.takeUnit (holds_getD h _) first) later
  exact ⟨(fold _ h taken).clauses, (fold _ h taken).units⟩

/-- Where the search says that there is no assignment, none makes all true that was derived. -/
theorem not_holds_of_run {fuel : Nat} (none : run fuel d s = .unsat) : ¬ d.Holds σ := by
  intro h
  induction fuel generalizing d s with
  | zero => cases none
  | succ fuel ih =>
      rw [run] at none
      generalize s.propagate (s.levels.size + 1) = outcome at none
      obtain ⟨s, conflict⟩ := outcome
      dsimp only at none
      split at none
      · cases none
      rename_i d' settled
      have h' : d'.Holds σ := by
        split at settled
        · exact holds_settle h settled
        · cases settled
          exact h
      split at none
      · split at none
        · split at none
          · rename_i refuted
            rw [h'.not_refutes _ nothing_assumed] at refuted
            cases refuted
          · cases none
        · split at none
          · cases none
          · rename_i learnt
            exact ih none (h'.learn learnt)
      · split at none
        · exact ih none h'
        · cases none

/-- All that was derived at the start is true. -/
def Start.Holds (σ : Valuation) : Start → Prop
  | .unsat => False
  | .going d _ => d.Holds σ
  | .exhausted => True

theorem holds_addClause {start : Start} (h : start.Holds σ) {clause : Array Lit}
    (clauseHolds : Smt.Holds σ clause) : (addClause start clause).Holds σ := by
  cases start with
  | unsat => exact h
  | exhausted => trivial
  | going d s =>
      unfold addClause
      dsimp only
      split
      · exact h
      split
      · split
        · rename_i none
          obtain ⟨l, hl, -⟩ := Derived.Holds.openIn h nothing_assumed clauseHolds
          rw [none] at hl
          cases hl
        · trivial
      · split
        · trivial
        · rename_i taken
          have h' := Derived.Holds.takeUnit h (fun _ => clauseHolds) taken
          exact ⟨h'.clauses, h'.units⟩
      · change Derived.Holds _ σ at h
        refine ⟨fun c hc => ?_, h.units⟩
        rcases Array.mem_push.mp hc with old | rfl
        · exact h.clauses c old
        · exact clauseHolds

/-- Where the search says that there is no assignment, none satisfies the clauses of the circuit. -/
theorem not_holds_of_solve {c : Circuit} {fuel : Nat} (none : solve c fuel = .unsat) :
    ¬ ∀ clause ∈ c.clauses, Smt.Holds σ clause := by
  intro all
  have fold (clauses : List (Array Lit)) {start : Start} (h : start.Holds σ)
      (all : ∀ clause ∈ clauses, Smt.Holds σ clause) : (clauses.foldl addClause start).Holds σ := by
    induction clauses generalizing start with
    | nil => exact h
    | cons clause rest ih =>
        obtain ⟨here, later⟩ := List.forall_mem_cons.mp all
        exact ih (holds_addClause h here) later
  have start : (ofCircuit c).Holds σ :=
    fold c.clauses ⟨nofun, nothing_assumed⟩ all
  unfold solve at none
  split at none
  · rename_i ended
    exact (ended ▸ start : Start.unsat.Holds σ)
  · cases none
  · rename_i d s begun
    exact not_holds_of_run none (begun ▸ start : (Start.going d s).Holds σ)

end Search

end PathSearch.Smt
