import Mathlib.Data.List.Perm.Basic
import PathSearch.Search.Explorer

/-! # What the parts of a round do

Selecting and giving up move states out of the queue and change nothing else, and sorting a
successor puts it in one place. A property that every round keeps holds at the end of the search.
-/

namespace PathSearch.Progress

variable {σ : Type} {pick : List State → σ → Option Nat × σ} {p q : Progress σ}

theorem take_some {s : State} (h : p.take pick = (some s, q)) :
    p.active.Perm (s :: q.active) ∧ q = { p with memory := q.memory, active := q.active } := by
  unfold take at h
  simp only at h
  split at h
  · rename_i t i found
    cases h
    obtain ⟨place, -, here⟩ := Option.bind_eq_some_iff.mp found
    obtain ⟨u, inside, same⟩ := Option.map_eq_some_iff.mp here
    cases same
    obtain ⟨below, rfl⟩ := List.getElem?_eq_some_iff.mp inside
    exact ⟨(List.getElem_cons_eraseIdx_perm below).symm, rfl⟩
  · cases h

theorem take_none (h : p.take pick = (none, q)) : q = { p with memory := q.memory } := by
  unfold take at h
  simp only at h
  split at h
  · cases h
  · cases h
    rfl

/-- A batch and what is left are the queue. -/
theorem selectBatch_spec {n : Nat} {batch : List State} (h : selectBatch pick n p = (batch, q)) :
    p.active.Perm (batch ++ q.active) ∧ q = { p with memory := q.memory, active := q.active } := by
  induction n generalizing p batch with
  | zero =>
      cases h
      exact ⟨.refl _, rfl⟩
  | succ n ih =>
      unfold selectBatch at h
      split at h
      · rename_i s mid taken
        obtain ⟨first, frame⟩ := take_some taken
        cases rest : selectBatch pick n mid with
        | mk more last =>
            rw [rest] at h
            cases h
            obtain ⟨others, frame'⟩ := ih rest
            refine ⟨first.trans (others.cons s), ?_⟩
            rw [frame', frame]
      · rename_i mid taken
        cases h
        have frame := take_none taken
        have queue : q.active = p.active := by rw [frame]
        refine ⟨by rw [queue]; exact .refl _, ?_⟩
        rw [queue]
        exact frame

theorem mem_active_of_selected {n : Nat} {s : State} (hs : s ∈ (selectBatch pick n p).1) :
    s ∈ p.active :=
  (selectBatch_spec (Prod.eta _).symm).1.mem_iff.mpr (List.mem_append_left _ hs)

/-- The states given up and what is left are the queue. -/
theorem evictFor_spec {cap n : Nat} (p : Progress σ) :
    ∃ given, p.active.Perm (given ++ (evictFor pick cap n p).active) ∧
      evictFor pick cap n p =
        { p with
          memory := (evictFor pick cap n p).memory
          active := (evictFor pick cap n p).active
          sorted := { p.sorted with deadended := p.sorted.deadended ++ given } } := by
  induction n generalizing p with
  | zero => exact ⟨[], .refl _, by simp [evictFor]⟩
  | succ n ih =>
      unfold evictFor
      split
      · exact ⟨[], .refl _, by simp⟩
      · split
        · rename_i s mid taken
          obtain ⟨first, frame⟩ := take_some taken
          obtain ⟨given, others, frame'⟩ :=
            ih { mid with sorted := { mid.sorted with deadended := mid.sorted.deadended ++ [s] } }
          refine ⟨s :: given, first.trans (others.cons s), ?_⟩
          rw [frame', frame]
          simp
        · rename_i mid taken
          have frame := take_none taken
          have queue : mid.active = p.active := by rw [frame]
          refine ⟨[], by rw [queue]; exact .refl _, ?_⟩
          rw [queue]
          simpa using frame

theorem enforceCap_spec (l : Limits) (pick : List State → σ → Option Nat × σ) (p : Progress σ) :
    ∃ given, p.active.Perm (given ++ (enforceCap l pick p).active) ∧
      enforceCap l pick p =
        { p with
          memory := (enforceCap l pick p).memory
          active := (enforceCap l pick p).active
          sorted := { p.sorted with deadended := p.sorted.deadended ++ given } } := by
  unfold enforceCap
  split
  · exact evictFor_spec p
  · exact ⟨[], .refl _, by simp⟩

section Classify

variable {l : Limits} {find avoid : Predicate}

theorem isSpent_eq_false_iff {s : State} : isSpent l s = false ↔
    (l.maxPathSteps ≠ 0 → s.steps < l.maxPathSteps) ∧
      ∀ limit, l.loopUnrollLimit = some limit → s.history.visits s.ip < limit := by
  unfold isSpent
  cases l.loopUnrollLimit <;> simp

/-- Where a successor goes, and why. -/
inductive Classified (l : Limits) (find avoid : Predicate) (p : Progress σ) :
    Successor → Progress σ → Prop where
  | errored (s : State) (reason : Reason) : Classified l find avoid p (.errored s reason)
      { p with sorted := { p.sorted with errored := p.sorted.errored ++ [(s, reason)] } }
  | avoided {x : Successor} (fine : x.isErrored = false) (avoids : avoid.accepts x.state = true) :
      Classified l find avoid p x
        { p with sorted := { p.sorted with avoided := p.sorted.avoided ++ [x.state] } }
  | found {x : Successor} (fine : x.isErrored = false) (passes : avoid.accepts x.state = false)
      (finds : find.accepts x.state = true) : Classified l find avoid p x
        { p with sorted := { p.sorted with found := p.sorted.found ++ [x.state] } }
  | deadended {x : Successor} (fine : x.isErrored = false) (passes : avoid.accepts x.state = false)
      (misses : find.accepts x.state = false)
      (ends : x.isActive = false ∨ isSpent l x.state = true) : Classified l find avoid p x
        { p with sorted := { p.sorted with deadended := p.sorted.deadended ++ [x.state] } }
  | queued {s : State} (passes : avoid.accepts s = false) (misses : find.accepts s = false)
      (goesOn : isSpent l s = false) : Classified l find avoid p (.active s)
        { p with active := p.active ++ [s] }

theorem classified (l : Limits) (find avoid : Predicate) (p : Progress σ) (x : Successor) :
    Classified l find avoid p x (classify l find avoid p x) := by
  cases x with
  | errored s reason => exact .errored s reason
  | active s =>
      simp only [classify]
      split
      · rename_i avoids
        exact .avoided rfl avoids
      · rename_i passes
        simp only [Bool.not_eq_true] at passes
        split
        · rename_i finds
          exact .found rfl passes finds
        · rename_i misses
          simp only [Bool.not_eq_true] at misses
          split
          · rename_i ends
            exact .deadended rfl passes misses (by simpa [Successor.state] using ends)
          · rename_i goesOn
            exact .queued passes misses (by simpa [Successor.isActive] using goesOn)
  | exited s =>
      simp only [classify]
      split
      · rename_i avoids
        exact .avoided rfl avoids
      · rename_i passes
        simp only [Bool.not_eq_true] at passes
        split
        · rename_i finds
          exact .found rfl passes finds
        · rename_i misses
          simp only [Bool.not_eq_true] at misses
          exact .deadended rfl passes misses (.inl rfl)

end Classify

section Outcome

variable {l : Limits}

theorem outcome?_found_iff : outcome? l p = some .found ↔ l.maxFound ≤ p.sorted.found.length := by
  unfold outcome?
  split
  · simpa
  · split <;> simp_all

theorem outcome?_exhausted_iff :
    outcome? l p = some .exhausted ↔ p.sorted.found.length < l.maxFound ∧ p.active = [] := by
  unfold outcome?
  split
  · simp
    omega
  · split <;> simp_all

theorem outcome?_budgetExceeded_iff {limit : LimitExceeded} :
    outcome? l p = some (.budgetExceeded limit) ↔
      p.sorted.found.length < l.maxFound ∧ p.active ≠ [] ∧ l.exceeded? p.steps = some limit := by
  unfold outcome?
  split
  · simp
    omega
  · split <;> simp_all

theorem outcome?_none_iff : outcome? l p = none ↔
    p.sorted.found.length < l.maxFound ∧ p.active ≠ [] ∧ l.stepsExceeded p.steps = false := by
  unfold outcome?
  split
  · simp
    omega
  · split <;> simp_all [Limits.exceeded?]

end Outcome

section Run

variable {hooks : HookTable} {c : Config} {strategy : Strategy σ} {find avoid : Predicate}

/-- One round, part by part. -/
theorem round_spec (hooks : HookTable) (c : Config) (strategy : Strategy σ) (find avoid : Predicate)
    (p : Progress σ) : ∃ batch selected results session,
    selectBatch strategy.select c.batchSize p = (batch, selected) ∧
      (stepAll hooks c.addressCap batch).run selected.session = (results, session) ∧
      round hooks c strategy find avoid p =
        enforceCap c.limits strategy.evict
          ((results.flatMap (·.successors)).foldl (classify c.limits find avoid)
            { selected with
              session
              steps := selected.steps + batch.length
              iterations := selected.iterations + 1 }) :=
  ⟨_, _, _, _, rfl, rfl, rfl⟩

theorem runFor_ended {o : Outcome} (ended : outcome? c.limits p = some o) (fuel : Nat) :
    runFor hooks c strategy find avoid fuel p = some (o, p) := by
  unfold runFor
  rw [ended]

theorem runFor_zero (goesOn : outcome? c.limits p = none) :
    runFor hooks c strategy find avoid 0 p = none := by
  unfold runFor
  rw [goesOn]

theorem runFor_succ (goesOn : outcome? c.limits p = none) (fuel : Nat) :
    runFor hooks c strategy find avoid (fuel + 1) p =
      runFor hooks c strategy find avoid fuel (round hooks c strategy find avoid p) := by
  rw [runFor, goesOn]

/-- A run is over, or it goes on after a round. -/
theorem runFor_cases {fuel : Nat} {o : Outcome}
    (h : runFor hooks c strategy find avoid fuel p = some (o, q)) :
    (outcome? c.limits p = some o ∧ q = p) ∨ outcome? c.limits p = none ∧ ∃ k, fuel = k + 1 ∧
      runFor hooks c strategy find avoid k (round hooks c strategy find avoid p) = some (o, q) := by
  cases outcome : outcome? c.limits p with
  | some e =>
      rw [runFor_ended outcome] at h
      cases h
      exact .inl ⟨rfl, rfl⟩
  | none => cases fuel with
    | zero =>
        rw [runFor_zero outcome] at h
        cases h
    | succ k =>
        rw [runFor_succ outcome] at h
        exact .inr ⟨rfl, k, rfl, h⟩

/-- What holds at the start and is kept by every round holds at the end. -/
theorem runFor_induction {motive : Progress σ → Prop} {fuel : Nat} {o : Outcome}
    (start : motive p) (kept : ∀ p, outcome? c.limits p = none → motive p →
      motive (round hooks c strategy find avoid p))
    (h : runFor hooks c strategy find avoid fuel p = some (o, q)) :
    motive q ∧ outcome? c.limits q = some o := by
  induction fuel generalizing p with
  | zero =>
      rcases runFor_cases h with ⟨ended, rfl⟩ | ⟨-, _, impossible, -⟩
      · exact ⟨start, ended⟩
      · cases impossible
  | succ fuel ih =>
      rcases runFor_cases h with ⟨ended, rfl⟩ | ⟨goesOn, k, same, later⟩
      · exact ⟨start, ended⟩
      · cases same
        exact ih (kept p goesOn start) later

end Run

end PathSearch.Progress

namespace PathSearch.Explorer

variable {σ : Type}

/-- A search with a result is a run of rounds from the queue of the explorer, on predicates that do
    not contradict each other, and leaves what the last round does. -/
theorem explore_ran {fuel : Nat} {x x' : Explorer} {find avoid : Predicate} {strategy : Strategy σ}
    {memory memory' : σ} {r : Result}
    (h : x.explore fuel find avoid strategy memory = .ok (some (r, x', memory'))) :
    Predicate.checkDisjoint find avoid = .ok () ∧ ∃ p : Progress σ,
      Progress.runFor x.hooks x.config strategy find avoid fuel
        { session := x.session, active := x.active, memory } = some (r.outcome, p) ∧
      r = { outcome := r.outcome, sorted := p.sorted, active := p.active, steps := p.steps,
            iterations := p.iterations, stepper := p.session.stats, solver := p.session.solver } ∧
      x' = { x with session := p.session, active := p.active } ∧ memory' = p.memory := by
  unfold explore at h
  cases disjoint : Predicate.checkDisjoint find avoid with
  | error e =>
      rw [disjoint] at h
      cases h
  | ok _ =>
      rw [disjoint] at h
      obtain ⟨⟨o, p⟩, ran, same⟩ := Option.map_eq_some_iff.mp (Except.ok.inj h)
      cases same
      exact ⟨rfl, p, ran, rfl, rfl, rfl⟩

theorem explore_ok {fuel : Nat} {x x' : Explorer} {find avoid : Predicate} {strategy : Strategy σ}
    {memory memory' : σ} {r : Result}
    (h : x.explore fuel find avoid strategy memory = .ok (some (r, x', memory'))) :
    Predicate.checkDisjoint find avoid = .ok () ∧ ∃ p : Progress σ,
      Progress.runFor x.hooks x.config strategy find avoid fuel
        { session := x.session, active := x.active, memory } = some (r.outcome, p) ∧
      r.sorted = p.sorted ∧ r.active = p.active ∧ r.solver = p.session.solver := by
  obtain ⟨disjoint, p, ran, result, -, -⟩ := explore_ran h
  refine ⟨disjoint, p, ran, ?_⟩
  rw [result]
  exact ⟨rfl, rfl, rfl⟩

/-- On predicates that do not contradict each other a run of rounds is a search with a result. -/
theorem explore_of_runFor {fuel : Nat} {x : Explorer} {find avoid : Predicate}
    {strategy : Strategy σ} {memory : σ} {o : Outcome} {p : Progress σ}
    (disjoint : Predicate.checkDisjoint find avoid = .ok ())
    (ran : Progress.runFor x.hooks x.config strategy find avoid fuel
      { session := x.session, active := x.active, memory } = some (o, p)) :
    x.explore fuel find avoid strategy memory =
      .ok (some ({ outcome := o, sorted := p.sorted, active := p.active, steps := p.steps,
                   iterations := p.iterations, stepper := p.session.stats,
                   solver := p.session.solver },
        { x with session := p.session, active := p.active }, p.memory)) := by
  unfold explore
  rw [disjoint]
  change Except.ok (Option.map _ (Progress.runFor _ _ _ _ _ _ _)) = _
  rw [ran]
  rfl

end PathSearch.Explorer
