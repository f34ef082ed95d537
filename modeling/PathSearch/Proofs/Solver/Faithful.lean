import PathSearch.Proofs.Smt.Backend
import PathSearch.Proofs.Smt.Widths
import PathSearch.Proofs.Solver.Exact

/-! # Exact procedures make exact solvers

A solver is exact if its decision procedure is, since a script that was lowered from constraints has
the inputs that satisfy them as its models. One that remembers answers is exact about constraints
with different digests.
-/

namespace PathSearch

open PathSearch.Expr Smt

/-- No variable occurs in the constraints with two widths. -/
def Constraints.OneWidthEach (cs : Constraints) : Prop :=
  Lowering.Consistent (cs.items.flatMap occurrences)

/-- The truth about constraints that could be lowered. -/
structure Constraints.Settled (cs : Constraints) (satisfiable : Bool) : Prop where
  right : satisfiable = true ↔ ∃ σ, cs.SatisfiedBy σ
  lowered : cs.OneWidthEach

/-- The models of a script are the inputs that satisfy what it was lowered from. -/
theorem Smt.Lowering.holds_iff_satisfiedBy {cs : Constraints} {asked : List Expr} {script : Script}
    {lines : List Nat} (hcs : cs.WellFormed) (lowered : scriptOf cs.items asked = .ok (script, lines))
    (m : Model) : script.holds m = true ↔ cs.SatisfiedBy m.assignment := by
  obtain ⟨nothing, means, -⟩ := scriptOf_ok lowered
  rw [cs.satisfiedBy_iff hcs]
  exact Script.holds_iff nothing means (fun c hc => (hcs c hc).1) m

theorem Smt.Lowering.unsatisfiable_iff {cs : Constraints} {asked : List Expr} {script : Script}
    {lines : List Nat} (hcs : cs.WellFormed)
    (lowered : scriptOf cs.items asked = .ok (script, lines)) :
    script.Unsatisfiable ↔ cs.Unsatisfiable := by
  constructor
  · intro none σ satisfied
    have meets := (holds_iff_satisfiedBy hcs lowered (.ofAssignment σ)).mpr (by simpa using satisfied)
    rw [none] at meets
    cases meets
  · intro none m
    exact eq_false_of_ne_true fun meets => none _ ((holds_iff_satisfiedBy hcs lowered m).mp meets)

theorem Smt.Lowering.oneWidthEach_of_ok {cs : Constraints} {asked : List Expr}
    {r : Script × List Nat} (lowered : scriptOf cs.items asked = .ok r) : cs.OneWidthEach := by
  obtain ⟨-, consistent⟩ := scriptOf_isOk_iff.mp ⟨r, lowered⟩
  intro name w w' hw hw'
  refine consistent name w w' ?_ ?_ <;> rw [List.flatMap_append]
  · exact List.mem_append_left _ hw
  · exact List.mem_append_left _ hw'

theorem Smt.Lowering.not_oneWidthEach_of_error {cs : Constraints} (hcs : cs.WellFormed)
    {e : SolverError} (failed : scriptOf cs.items [] = .error e) : ¬ cs.OneWidthEach := by
  intro oneWidth
  rw [Constraints.OneWidthEach, ← List.append_nil cs.items] at oneWidth
  obtain ⟨r, lowered⟩ := scriptOf_isOk_iff.mpr ⟨fun c hc => (hcs c hc).2, oneWidth⟩
  rw [failed] at lowered
  cases lowered

namespace Ask

variable {α β : Type} {I : Solver → Prop}

/-- A question keeps a property of the solver, and what it answers or fails with has a property. -/
def Ensures (I : Solver → Prop) (x : Ask α) (answer : α → Prop) (failure : SolverError → Prop) :
    Prop :=
  ∀ s, I s → I (x.run s).2 ∧ (∀ a, (x.run s).1 = .ok a → answer a) ∧
    ∀ e, (x.run s).1 = .error e → failure e

namespace Ensures

variable {answer : α → Prop} {failure : SolverError → Prop}

theorem pure {a : α} (h : answer a) : Ensures I (pure a) answer failure :=
  fun _ hs => ⟨hs, fun _ same => Except.ok.inj same ▸ h, fun _ impossible => by cases impossible⟩

theorem throw {e : SolverError} (h : failure e) :
    Ensures I (throwThe SolverError e : Ask α) answer failure := by
  intro s hs
  refine ⟨hs, fun a impossible => ?_, fun e' same => ?_⟩
  · cases impossible
  · cases same
    exact h

theorem bind {x : Ask α} {f : α → Ask β} {next : β → Prop} (first : Ensures I x answer failure)
    (rest : ∀ a, answer a → Ensures I (f a) next failure) : Ensures I (x >>= f) next failure := by
  intro s hs
  obtain ⟨kept, given, failed⟩ := first s hs
  rw [run_bind]
  generalize x.run s = outcome at kept given failed
  obtain ⟨result, t⟩ := outcome
  cases result with
  | ok a => exact rest a (given a rfl) t kept
  | error e =>
      refine ⟨kept, fun b impossible => ?_, fun e' same => ?_⟩
      · cases impossible
      · cases same
        exact failed e rfl

theorem mono {x : Ask α} {answer' : α → Prop} {failure' : SolverError → Prop}
    (h : Ensures I x answer failure) (given : ∀ a, answer a → answer' a)
    (failed : ∀ e, failure e → failure' e) : Ensures I x answer' failure' := by
  intro s hs
  obtain ⟨kept, answered, refused⟩ := h s hs
  exact ⟨kept, fun a same => given a (answered a same), fun e same => failed e (refused e same)⟩

theorem returning {x : Ask α} (f : α → β) (h : Ensures I x answer failure) :
    Ensures I (do return f (← x)) (fun _ => True) failure :=
  bind h fun _ _ => pure trivial

theorem get : Ensures I get I failure :=
  fun _ hs => ⟨hs, fun _ same => Except.ok.inj same ▸ hs, fun _ impossible => by cases impossible⟩

theorem modify {f : Solver → Solver} (keeps : ∀ s, I s → I (f s)) :
    Ensures I (modify f) (fun _ => True) failure :=
  fun s hs => ⟨keeps s hs, fun _ _ => trivial, fun _ impossible => by cases impossible⟩

theorem lift (result : Except SolverError α) :
    Ensures I (liftM result) (fun a => result = .ok a) (fun e => result = .error e) := by
  cases result with
  | ok a => exact pure rfl
  | error e => exact throw rfl

end Ensures

end Ask

/-- The constants of a list are the values of its members, where all are constants. -/
theorem Expr.filterMap_const? {es : List Expr} (constants : ∀ e ∈ es, e.isConst = true)
    (σ : Assignment) : es.filterMap (·.const?) = es.map (·.value σ) := by
  induction es with
  | nil => rfl
  | cons e rest ih =>
      obtain ⟨here, later⟩ := List.forall_mem_cons.mp constants
      obtain ⟨v, const⟩ : ∃ v, e.const? = some v := Option.isSome_iff_exists.mp here
      rw [List.filterMap_cons_some const, List.map_cons, value_of_const? const, ih later]

namespace Constraints

variable {cs : Constraints}

theorem unsatisfiable_of_triviallyFalse (hcs : cs.WellFormed) (never : cs.isTriviallyFalse = true) :
    cs.Unsatisfiable := by
  obtain ⟨c, hc, isFalse⟩ := List.any_eq_true.mp never
  simp only [Expr.isFalse, Bool.and_eq_true, beq_iff_eq] at isFalse
  intro σ satisfied
  have one := (cs.satisfiedBy_iff hcs σ).mp satisfied c hc
  rw [value_of_const? isFalse.2] at one
  cases one

theorem satisfied_of_concrete (hcs : cs.WellFormed) (possible : ¬ cs.isTriviallyFalse = true)
    (concrete : cs.isConcrete = true) (σ : Assignment) : cs.SatisfiedBy σ := by
  rw [cs.satisfiedBy_iff hcs]
  intro c hc
  obtain ⟨wellFormed, oneBit⟩ := hcs c hc
  have isConst : c.isConst = true := List.all_eq_true.mp concrete c hc
  obtain ⟨v, const⟩ : ∃ v, c.const? = some v := Option.isSome_iff_exists.mp isConst
  have small := wellFormed.value_lt σ
  rw [value_of_const? const] at small ⊢
  rw [oneBit] at small
  have nonzero : v ≠ 0 := by
    rintro rfl
    exact possible (List.any_eq_true.mpr ⟨c, hc, by simp [Expr.isFalse, const, oneBit]⟩)
  have positive : v.toNat ≠ 0 := fun zero => nonzero (UInt64.toNat_inj.mp zero)
  exact UInt64.toNat_inj.mp (by change v.toNat = 1; omega)

end Constraints

theorem Constraints.mem_truth_false_iff {cs : Constraints} :
    Expr.truth false ∈ cs.items ↔ cs.isTriviallyFalse = true := by
  rw [isTriviallyFalse, List.any_eq_true]
  constructor
  · intro inside
    exact ⟨_, inside, rfl⟩
  · rintro ⟨c, hc, isFalse⟩
    simp only [Expr.isFalse, Bool.and_eq_true, beq_iff_eq] at isFalse
    obtain ⟨oneBit, const⟩ := isFalse
    cases c <;> simp only [Expr.const?, Option.some.injEq, reduceCtorEq] at const
    subst const
    cases oneBit
    exact hc

/-- Constants have no variables. -/
theorem Constraints.oneWidthEach_of_isConcrete {cs : Constraints} (concrete : cs.isConcrete = true) :
    cs.OneWidthEach := by
  intro name w w' hw
  obtain ⟨c, hc, hw⟩ := List.mem_flatMap.mp hw
  have isConst : c.const?.isSome = true := List.all_eq_true.mp concrete c hc
  cases c <;> simp [Expr.const?, occurrences] at isConst hw

namespace SatCache

variable {c : SatCache} {d d' : Digest} {b b' : Bool}

theorem capacity_insert : (c.insert d b).capacity = c.capacity := by
  unfold insert
  split
  · rfl
  · split <;> rfl

/-- Taking up an answer never goes beyond the capacity. -/
theorem size_insert_le (h : c.entries.size ≤ c.capacity) :
    (c.insert d b).entries.size ≤ c.capacity := by
  unfold insert
  split
  · exact h
  · rename_i some
    split
    · simp only [Std.HashMap.ofList_singleton, Std.HashMap.size_insert, Std.HashMap.not_mem_empty,
        Std.HashMap.size_empty, if_false]
      omega
    · have grown := Std.HashMap.size_insert_le (m := c.entries) (k := d) (v := b)
      simp only
      omega

/-- An answer that a cache holds is an earlier one, or the one that it took up last. -/
theorem getElem?_insert
    (h : (c.insert d b).entries[d']? = some b') :
    d' = d ∧ b' = b ∨ c.entries[d']? = some b' := by
  unfold insert at h
  split at h
  · exact .inr h
  · split at h
    · have here : d' ∈ Std.HashMap.ofList [(d, b)] :=
        Std.HashMap.mem_iff_isSome_getElem?.mpr (by simp only [h, Option.isSome_some])
      obtain rfl : d = d' := by simpa using here
      simp at h
      exact .inl ⟨rfl, h.symm⟩
    · rw [Std.HashMap.getElem?_insert] at h
      split at h
      · rename_i same
        exact .inl ⟨(beq_iff_eq.mp same).symm, (Option.some.inj h).symm⟩
      · exact .inr h

end SatCache

namespace Solver

/-- A solver whose memory holds nothing but the truth, about constraints in `K`, and no more of it
    than it may. -/
structure Faithful (backend : Backend) (config : SolverConfig) (K : Constraints → Prop) (s : Solver) :
    Prop where
  backend_eq : s.backend = backend
  config_eq : s.config = config
  capacity_eq : s.cache.capacity = if config.cacheResults then config.maxCacheEntries else 0
  size_le : s.cache.entries.size ≤ s.cache.capacity
  entries : ∀ (d : Digest) (b : Bool), s.cache.entries[d]? = some b →
    ∃ cs : Constraints, K cs ∧ cs.digest = d ∧ cs.Settled b

/-- A failure that says nothing about the constraints. -/
def LeavesOpen (e : SolverError) : Prop := e ≠ .unsatisfiable

open Ask

variable {backend : Backend} {config : SolverConfig} {K : Constraints → Prop} {cs : Constraints}

theorem faithful_new : (Solver.new backend config).Faithful backend config K where
  backend_eq := rfl
  config_eq := rfl
  capacity_eq := rfl
  size_le := by simp [Solver.new]
  entries d b found := by simp [Solver.new] at found

/-- Where answers are remembered, no two sequences of constraints in `K` share a digest. -/
def Distinct (config : SolverConfig) (K : Constraints → Prop) : Prop :=
  config.cacheResults = true → ∀ cs ds : Constraints, K cs → K ds → cs.digest = ds.digest → cs = ds

theorem Faithful.known {s : Solver} {b : Bool} (hs : s.Faithful backend config K)
    (distinct : Distinct config K) (about : K cs) (found : s.cache.entries[cs.digest]? = some b) :
    cs.Settled b := by
  obtain ⟨ds, asked, same, settled⟩ := hs.entries cs.digest b found
  by_cases caching : config.cacheResults = true
  · rwa [distinct caching cs ds about asked same.symm]
  · -- a cache without room holds nothing
    have size := hs.size_le
    rw [hs.capacity_eq, if_neg caching] at size
    have inside : cs.digest ∈ s.cache.entries :=
      Std.HashMap.mem_iff_isSome_getElem?.mpr (by rw [found]; rfl)
    have nonempty := Std.HashMap.isEmpty_eq_false_iff_exists_mem.mpr ⟨_, inside⟩
    rw [Std.HashMap.isEmpty_eq_size_eq_zero, beq_eq_false_iff_ne] at nonempty
    omega

theorem count_ensures (f : SolverCounters → SolverCounters) {failure : SolverError → Prop} :
    Ensures (Faithful backend config K) (count f) (fun _ => True) failure :=
  Ensures.modify fun _ hs => { hs with }

/-- The truth may be remembered. -/
theorem remember_ensures (about : K cs) {satisfiable : Bool} (settled : cs.Settled satisfiable)
    {failure : SolverError → Prop} :
    Ensures (Faithful backend config K) (remember cs satisfiable) (fun _ => True) failure := by
  refine Ensures.modify fun s hs => ?_
  split
  · refine ⟨hs.backend_eq, hs.config_eq, ?_, ?_, fun d b found => ?_⟩
    · exact SatCache.capacity_insert.trans hs.capacity_eq
    · exact Nat.le_trans (SatCache.size_insert_le hs.size_le) (Nat.le_of_eq SatCache.capacity_insert.symm)
    · rcases SatCache.getElem?_insert found with ⟨rfl, rfl⟩ | earlier
      · exact ⟨cs, about, rfl, settled⟩
      · exact hs.entries d b earlier
  · exact hs

theorem takeVerdict_ensures (v : Verdict) :
    Ensures (Faithful backend config K) (takeVerdict v)
      (fun answer => (∃ model, v = .sat model ∧ answer = some (modelOf model)) ∨
        v = .unsat ∧ answer = none)
      (fun failure => LeavesOpen failure ∧ ¬ v.Decided) := by
  refine Ensures.bind (count_ensures _) fun _ _ => ?_
  cases v with
  | sat model => exact Ensures.pure (.inl ⟨model, rfl, rfl⟩)
  | unsat => exact Ensures.pure (.inr ⟨rfl, rfl⟩)
  | timeout =>
      refine Ensures.bind (count_ensures _) fun _ _ => ?_
      exact Ensures.bind Ensures.get fun _ _ => Ensures.throw ⟨nofun, by simp [Verdict.Decided]⟩
  | unknown reason =>
      refine Ensures.bind (count_ensures _) fun _ _ => ?_
      exact Ensures.throw ⟨nofun, by simp [Verdict.Decided]⟩

theorem check_ensures (exact : backend.Exact) (script : Script) :
    Ensures (Faithful backend config K) (check script)
      (fun answer => (∀ m, answer = some m → script.holds m = true) ∧
        (answer = none → script.Unsatisfiable))
      (fun failure => LeavesOpen failure ∧ ¬ backend.Decides) := by
  refine Ensures.bind Ensures.get fun s hs => ?_
  rw [hs.backend_eq]
  refine (takeVerdict_ensures _).mono (fun answer given => ?_) fun failure ⟨undecided, gaveUp⟩ => ?_
  · rcases given with ⟨model, verdict, rfl⟩ | ⟨verdict, rfl⟩
    · refine ⟨fun m same => ?_, nofun⟩
      cases same
      exact exact.sound verdict
    · exact ⟨nofun, fun _ => exact.complete verdict⟩
  · exact ⟨undecided, fun decides => gaveUp (decides script)⟩

theorem decide_ensures (exact : backend.Exact) (distinct : Distinct config K) (about : K cs)
    (hcs : cs.WellFormed) :
    Ensures (Faithful backend config K) (decide cs)
      (fun b => (b = true ↔ ∃ σ, cs.SatisfiedBy σ) ∧ (cs.isTriviallyFalse = true ∨ cs.OneWidthEach))
      (fun failure => LeavesOpen failure ∧ (backend.Decides → cs.isTriviallyFalse = false ∧
        Lowering.scriptOf cs.items [] = .error failure)) := by
  unfold decide
  split
  · rename_i never
    refine Ensures.bind (count_ensures _) fun _ _ => Ensures.pure ⟨?_, .inl never⟩
    have unsatisfiable := Constraints.unsatisfiable_of_triviallyFalse hcs never
    exact iff_of_false (by decide) fun ⟨σ, satisfied⟩ => unsatisfiable σ satisfied
  rename_i possible
  split
  · rename_i concrete
    refine Ensures.bind (count_ensures _) fun _ _ => Ensures.pure ⟨?_, .inr ?_⟩
    · have every := Constraints.satisfied_of_concrete hcs possible concrete
      exact iff_of_true rfl ⟨fun _ => 0, every _⟩
    · exact Constraints.oneWidthEach_of_isConcrete concrete
  refine Ensures.bind Ensures.get fun s hs => ?_
  split
  · rename_i b remembered
    have settled := hs.known distinct about remembered
    exact Ensures.bind (count_ensures _) fun _ _ => Ensures.pure ⟨settled.right, .inr settled.lowered⟩
  · refine Ensures.bind ((Ensures.lift _).mono (fun _ => id) fun failure failed => ?_)
      fun ⟨script, lines⟩ lowered => ?_
    · refine ⟨?_, fun _ => ⟨eq_false_of_ne_true possible, failed⟩⟩
      obtain ⟨reason, rfl⟩ := Lowering.scriptOf_error failed
      nofun
    refine Ensures.bind ((check_ensures exact script).mono (fun _ => id) fun failure gaveUp => ?_)
      fun answer ⟨model, noModel⟩ => ?_
    · exact ⟨gaveUp.1, fun decides => (gaveUp.2 decides).elim⟩
    have right : answer.isSome = true ↔ ∃ σ, cs.SatisfiedBy σ := by
      cases answer with
      | some m =>
          have satisfied := (Lowering.holds_iff_satisfiedBy hcs lowered m).mp (model m rfl)
          exact iff_of_true rfl ⟨_, satisfied⟩
      | none =>
          have unsatisfiable := (Lowering.unsatisfiable_iff hcs lowered).mp (noModel rfl)
          exact iff_of_false (by decide) fun ⟨σ, satisfied⟩ => unsatisfiable σ satisfied
    have oneWidth := Lowering.oneWidthEach_of_ok lowered
    refine Ensures.bind (remember_ensures about ⟨right, oneWidth⟩) fun _ _ => ?_
    exact Ensures.pure ⟨right, .inr oneWidth⟩

/-- The loop lists values of a line, by induction on the number that is asked for: each round goes on with
    a script that excludes one value more. -/
theorem enumerate_lists (exact : backend.Exact) (line n : Nat) {script : Script}
    (small : ∀ m, script.value m line < 2 ^ 64) :
    Ensures (Faithful backend config K) (enumerate line n script) (script.Lists line n) LeavesOpen := by
  induction n generalizing script with
  | zero => exact Ensures.pure ⟨.nil, nofun, nofun⟩
  | succ n ih =>
      refine Ensures.bind ((check_ensures exact script).mono (fun _ => id) fun _ => And.left)
        fun answer ⟨model, noModel⟩ => ?_
      cases answer with
      | none =>
          refine Ensures.pure ⟨.nil, nofun, fun _ m meets => ?_⟩
          cases (noModel rfl m).symm.trans meets
      | some m =>
          have number : (UInt64.ofNat (script.value m line)).toNat = script.value m line := by
            rw [UInt64.toNat_ofNat', Nat.mod_eq_of_lt (small m)]
          refine Ensures.bind (@ih (script.exclude line (script.value m line)) small)
            fun values later => Ensures.pure ?_
          exact .cons (model m rfl) number.symm (by rwa [number])

theorem refuseFalse_ensures (hcs : cs.WellFormed) :
    Ensures (Faithful backend config K) (refuseFalse cs) (fun _ => True)
      (fun failure => failure = .unsatisfiable → cs.Unsatisfiable) := by
  unfold refuseFalse
  split
  · rename_i never
    refine Ensures.bind (count_ensures _) fun _ _ => Ensures.throw fun _ => ?_
    exact Constraints.unsatisfiable_of_triviallyFalse hcs never
  · exact Ensures.pure trivial

/-- Failing to lower or to decide is no claim about the constraints. -/
theorem scriptOf_ensures (asserted asked : List Expr) :
    Ensures (Faithful backend config K) (liftM (Lowering.scriptOf asserted asked))
      (fun result => Lowering.scriptOf asserted asked = .ok result)
      (fun failure => failure = .unsatisfiable → cs.Unsatisfiable) := by
  refine (Ensures.lift _).mono (fun _ => id) fun e failed => ?_
  obtain ⟨reason, rfl⟩ := Lowering.scriptOf_error failed
  nofun

theorem open_ok {failure : SolverError} (undecided : LeavesOpen failure) :
    failure = .unsatisfiable → cs.Unsatisfiable := fun same => (undecided same).elim

theorem settled_true {r : Script × List Nat} {asked : List Expr} {σ : Assignment}
    (lowered : Lowering.scriptOf cs.items asked = .ok r) (satisfied : cs.SatisfiedBy σ) :
    cs.Settled true :=
  ⟨iff_of_true rfl ⟨σ, satisfied⟩, Lowering.oneWidthEach_of_ok lowered⟩

theorem settled_false {r : Script × List Nat} {asked : List Expr}
    (lowered : Lowering.scriptOf cs.items asked = .ok r) (unsatisfiable : cs.Unsatisfiable) :
    cs.Settled false :=
  ⟨iff_of_false (by decide) fun ⟨σ, satisfied⟩ => unsatisfiable σ satisfied,
    Lowering.oneWidthEach_of_ok lowered⟩

theorem enumerate_ensures (exact : backend.Exact) (hcs : cs.WellFormed) {e : Expr} (he : e.WellFormed)
    {script : Script} {lines : List Nat}
    (lowered : Lowering.scriptOf cs.items [e] = .ok (script, lines)) (n : Nat) :
    ∃ line, lines = [line] ∧
      Ensures (Faithful backend config K) (enumerate line n script) (Lists cs e n) LeavesOpen := by
  have models := Lowering.holds_iff_satisfiedBy hcs lowered
  obtain ⟨-, -, means⟩ := Lowering.scriptOf_ok lowered
  obtain ⟨line, rfl, value⟩ : ∃ line, lines = [line] ∧
      ∀ m : Model, script.value m line = (e.value m.assignment).toNat := by
    cases means with
    | cons here none =>
        cases none
        exact ⟨_, rfl, Script.value_of_means here he⟩
  have small (m : Model) : script.value m line < 2 ^ 64 := by
    rw [value]
    exact UInt64.toNat_lt _
  refine ⟨line, rfl, (enumerate_lists exact line n small).mono ?_ fun _ => id⟩
  rintro values ⟨distinct, sound, complete⟩
  refine ⟨distinct, fun v hv => ?_, fun few σ satisfied => ?_⟩
  · obtain ⟨m, meets, number⟩ := sound v hv
    rw [value] at number
    exact ⟨m.assignment, (models m).mp meets, UInt64.toNat_inj.mp number⟩
  · have meets := (models (.ofAssignment σ)).mpr (by simpa using satisfied)
    obtain ⟨v, hv, number⟩ := complete few _ meets
    rw [value, Model.assignment_ofAssignment] at number
    rwa [UInt64.toNat_inj.mp number]

section Queries

variable (exact : backend.Exact) (distinct : Distinct config K) (about : K cs) (hcs : cs.WellFormed)

include exact distinct about hcs

theorem decide_ensures_right :
    Ensures (Faithful backend config K) (decide cs) (fun b => b = true ↔ ∃ σ, cs.SatisfiedBy σ)
      (fun failure => failure = .unsatisfiable → cs.Unsatisfiable) :=
  (decide_ensures exact distinct about hcs).mono (fun _ => And.left) fun _ failed => open_ok failed.1

theorem isSatisfiable_ensures :
    Ensures (Faithful backend config K) (isSatisfiable cs)
      (fun b => (b = true ↔ ∃ σ, cs.SatisfiedBy σ) ∧ (cs.isTriviallyFalse = true ∨ cs.OneWidthEach))
      (fun failure => LeavesOpen failure ∧ (backend.Decides → cs.isTriviallyFalse = false ∧
        Lowering.scriptOf cs.items [] = .error failure)) :=
  Ensures.bind (count_ensures _) fun _ _ => decide_ensures exact distinct about hcs

theorem evaluateMany_ensures {e : Expr} (he : e.WellFormed) (n : Nat) :
    Ensures (Faithful backend config K) (evaluateMany e cs n) (Lists cs e n)
      (fun failure => failure = .unsatisfiable → cs.Unsatisfiable) := by
  unfold evaluateMany
  refine Ensures.bind (count_ensures _) fun _ _ => ?_
  split
  · rename_i zero
    subst zero
    exact Ensures.pure ⟨.nil, by simp, by simp⟩
  split
  · rename_i v const
    refine Ensures.bind (decide_ensures_right exact distinct about hcs) fun b decided => ?_
    split
    · rename_i yes
      obtain ⟨σ, satisfied⟩ := decided.mp yes
      refine Ensures.pure ⟨by simp, fun w hw => ?_, fun _ σ' _ => ?_⟩
      · cases List.mem_singleton.mp hw
        exact ⟨σ, satisfied, value_of_const? const σ⟩
      · rw [value_of_const? const]
        exact .head _
    · rename_i no
      exact Ensures.throw fun _ σ satisfied => no (decided.mpr ⟨σ, satisfied⟩)
  · refine Ensures.bind (refuseFalse_ensures hcs) fun _ _ => ?_
    refine Ensures.bind (scriptOf_ensures _ _) fun ⟨script, lines⟩ lowered => ?_
    obtain ⟨line, rfl, listed⟩ := enumerate_ensures exact hcs he lowered n
    refine Ensures.bind (listed.mono (fun _ => id) fun _ => open_ok) fun values answer => ?_
    split
    · rename_i empty
      have unsatisfiable : cs.Unsatisfiable := by
        intro σ satisfied
        rw [List.isEmpty_iff.mp empty] at answer
        have inside := answer.complete (by simp only [List.length_nil]; omega) σ satisfied
        cases inside
      refine Ensures.bind (remember_ensures about (settled_false lowered unsatisfiable)) fun _ _ => ?_
      exact Ensures.throw fun _ => unsatisfiable
    · rename_i some
      obtain ⟨v, hv⟩ := List.exists_mem_of_ne_nil values fun none => some (List.isEmpty_iff.mpr none)
      obtain ⟨σ, satisfied, -⟩ := answer.sound v hv
      refine Ensures.bind (remember_ensures about (settled_true lowered satisfied)) fun _ _ => ?_
      exact Ensures.pure answer

theorem evaluate_ensures {e : Expr} (he : e.WellFormed) :
    Ensures (Faithful backend config K) (evaluate e cs)
      (fun v => ∃ σ, cs.SatisfiedBy σ ∧ e.value σ = v)
      (fun failure => failure = .unsatisfiable → cs.Unsatisfiable) := by
  unfold evaluate
  refine Ensures.bind (evaluateMany_ensures exact distinct about hcs he 1) fun values answer => ?_
  obtain ⟨-, sound, complete⟩ := answer
  cases values with
  | nil =>
      refine Ensures.throw fun _ σ satisfied => ?_
      cases complete Nat.one_pos σ satisfied
  | cons v rest => exact Ensures.pure (sound v (.head _))

/-- One assignment gives all values. -/
theorem evaluateAll_ensures {es : List Expr} (hes : ∀ e ∈ es, e.WellFormed) :
    Ensures (Faithful backend config K) (evaluateAll es cs)
      (fun values => ∃ σ, cs.SatisfiedBy σ ∧ values = es.map (·.value σ))
      (fun failure => failure = .unsatisfiable → cs.Unsatisfiable) := by
  unfold evaluateAll
  refine Ensures.bind (count_ensures _) fun _ _ => ?_
  split
  · rename_i constants
    refine Ensures.bind (decide_ensures_right exact distinct about hcs) fun b decided => ?_
    split
    · rename_i yes
      obtain ⟨σ, satisfied⟩ := decided.mp yes
      exact Ensures.pure ⟨σ, satisfied, filterMap_const? (List.all_eq_true.mp constants) σ⟩
    · rename_i no
      exact Ensures.throw fun _ σ satisfied => no (decided.mpr ⟨σ, satisfied⟩)
  · refine Ensures.bind (refuseFalse_ensures hcs) fun _ _ => ?_
    refine Ensures.bind (scriptOf_ensures _ _) fun ⟨script, lines⟩ lowered => ?_
    obtain ⟨-, -, means⟩ := Lowering.scriptOf_ok lowered
    refine Ensures.bind ((check_ensures exact script).mono (fun _ => id) fun _ gaveUp => ?_)
      fun answer ⟨model, noModel⟩ => ?_
    · exact open_ok gaveUp.1
    cases answer with
    | none =>
        have unsatisfiable := (Lowering.unsatisfiable_iff hcs lowered).mp (noModel rfl)
        refine Ensures.bind (remember_ensures about (settled_false lowered unsatisfiable)) fun _ _ => ?_
        exact Ensures.throw fun _ => unsatisfiable
    | some m =>
        have satisfied := (Lowering.holds_iff_satisfiedBy hcs lowered m).mp (model m rfl)
        refine Ensures.bind (remember_ensures about (settled_true lowered satisfied)) fun _ _ => ?_
        refine Ensures.pure ⟨m.assignment, satisfied, ?_⟩
        have named : List.Forall₂ (fun e i => e.WellFormed ∧ Lowering.Means script.lines e i) es lines :=
          (List.forall₂_and_left es lines).mpr ⟨hes, means⟩
        refine (map_eq_map named fun e i ⟨he, here⟩ => ?_).symm
        apply UInt64.toNat_inj.mp
        have number : script.value m i = (e.value m.assignment).toNat := Script.value_of_means here he m
        rw [← Script.value, number, UInt64.ofNat_toNat]

end Queries

theorem clearCache_faithful {s : Solver} (hs : s.Faithful backend config K) :
    (s.clearCache).Faithful backend config K where
  backend_eq := hs.backend_eq
  config_eq := hs.config_eq
  capacity_eq := hs.capacity_eq
  size_le := by simp [clearCache, SatCache.clear]
  entries d b found := by simp [clearCache, SatCache.clear] at found

section Faithful

variable {s t : Solver} (exact : backend.Exact) (distinct : Distinct config K)

include exact distinct

theorem Faithful.correct (h : s.Faithful backend config K) : s.CorrectOn K where
  satisfiable about hcs answered :=
    ((isSatisfiable_ensures exact distinct about hcs s h).2.1 _ answered).1
  refused about hcs failed :=
    open_ok ((isSatisfiable_ensures exact distinct about hcs s h).2.2 _ failed).1 rfl
  distinct he about hcs answered :=
    ((evaluateMany_ensures exact distinct about hcs he _ s h).2.1 _ answered).distinct
  sound he about hcs answered v hv := by
    have listed := (evaluateMany_ensures exact distinct about hcs he _ s h).2.1 _ answered
    obtain ⟨σ, satisfied, value⟩ := listed.sound v hv
    exact ⟨σ, satisfied, value ▸ he.evaluate_eq σ⟩
  complete he about hcs answered :=
    ((evaluateMany_ensures exact distinct about hcs he _ s h).2.1 _ answered).complete
  unsatisfiable he about hcs failed :=
    (evaluateMany_ensures exact distinct about hcs he _ s h).2.2 _ failed rfl

theorem Faithful.asked (h : s.Faithful backend config K) (later : s.Asked K t) :
    t.Faithful backend config K := by
  induction later with
  | start => exact h
  | satisfiable about hcs _ ih => exact (isSatisfiable_ensures exact distinct about hcs _ ih).1
  | values he about hcs n _ ih => exact (evaluateMany_ensures exact distinct about hcs he n _ ih).1

theorem Faithful.exactOn (h : s.Faithful backend config K) : s.ExactOn K :=
  fun _ later => (h.asked exact distinct later).correct exact distinct

end Faithful

/-- A new solver over an exact procedure is exact, about constraints with different digests if it
    remembers answers, and about all constraints if it does not. -/
theorem exactOn_new (exact : backend.Exact) (config : SolverConfig)
    (distinct : config.cacheResults = true → ∀ cs ds : Constraints, K cs → K ds →
      cs.digest = ds.digest → cs = ds) : (Solver.new backend config).ExactOn K :=
  Faithful.exactOn exact distinct faithful_new

end Solver

end PathSearch
