import PathSearch.Proofs.Search.Termination

/-! # A search keeps its limits

A state goes back into the queue only where one more step keeps the limits on its path, so that every
successor is within them. The limit on all steps is passed by less than one batch, and the queue is
cut at the end of every round. This holds after every round, and so however a search ends.
-/

namespace PathSearch

/-- The path of a state is no longer than the limits allow, and has been nowhere more often. -/
structure Limits.Within (l : Limits) (s : State) : Prop where
  steps : l.maxPathSteps ≠ 0 → s.steps ≤ l.maxPathSteps
  visits : ∀ limit, l.loopUnrollLimit = some limit → ∀ a, s.history.visits a ≤ limit

/-- The limits leave the path of a state one more step. -/
structure Limits.Admits (l : Limits) (s : State) : Prop where
  steps : l.maxPathSteps ≠ 0 → s.steps < l.maxPathSteps
  visits : ∀ limit, l.loopUnrollLimit = some limit →
    (∀ a, s.history.visits a ≤ limit) ∧ s.history.visits s.ip < limit

namespace Limits

variable {l : Limits} {s t : State}

theorem Admits.within (h : l.Admits s) : l.Within s where
  steps limited := Nat.le_of_lt (h.steps limited)
  visits limit limited := (h.visits limit limited).1

theorem Within.admits (h : l.Within s) (unspent : Progress.isSpent l s = false) : l.Admits s := by
  obtain ⟨steps, visits⟩ := Progress.isSpent_eq_false_iff.mp unspent
  exact ⟨steps, fun limit limited => ⟨h.visits limit limited, visits limit limited⟩⟩

/-- One step from a state to which one is left keeps the limits. -/
theorem Admits.step (h : l.Admits s) (path : s.recordStep.lineage.SamePath t.lineage) :
    l.Within t where
  steps limited := by
    have length : t.steps = s.steps + 1 := path.1
    have room := h.steps limited
    omega
  visits limit limited a := by
    obtain ⟨everywhere, here⟩ := h.visits limit limited
    have history : t.history = s.history.record s.ip := path.2
    rw [history, History.visits_record]
    split
    · omega
    · exact everywhere a

end Limits

theorem Config.loopUnrollLimit_ne_zero {c : Config} (accepted : c.validate = .ok ()) :
    c.limits.loopUnrollLimit ≠ some 0 := by
  intro zero
  unfold validate at accepted
  simp only [zero, ↓reduceIte] at accepted
  repeat' split at accepted
  all_goals cases accepted

/-- Settings that make sense leave a step to a state that has not made any. -/
theorem Config.admits_fresh {c : Config} (accepted : c.validate = .ok ()) {s : State}
    (steps : s.steps = 0) (history : s.history = {}) : c.limits.Admits s where
  steps limited := steps ▸ Nat.pos_of_ne_zero limited
  visits limit limited := by
    have unvisited (a : Word) : s.history.visits a = 0 := by simp [history, History.visits]
    have some : limit ≠ 0 := fun zero => loopUnrollLimit_ne_zero accepted (zero ▸ limited)
    exact ⟨fun a => (unvisited a).trans_le (Nat.zero_le limit),
      (unvisited _).trans_lt (Nat.pos_of_ne_zero some)⟩

/-- The strategies that come with the search. -/
inductive Strategy.BuiltIn : {σ : Type} → Strategy σ → Prop where
  | depthFirst {σ : Type} : BuiltIn (Strategy.depthFirst : Strategy σ)
  | breadthFirst {σ : Type} : BuiltIn (Strategy.breadthFirst : Strategy σ)
  | random : BuiltIn Strategy.random

theorem Strategy.BuiltIn.evicts {σ : Type} {strategy : Strategy σ} (builtIn : strategy.BuiltIn) :
    Picks strategy.evict := by
  cases builtIn with
  | depthFirst => exact picks_first
  | breadthFirst => exact picks_last
  | random => exact picks_draw

namespace Progress

variable {σ : Type}

section Parts

variable {pick : List State → σ → Option Nat × σ}

theorem length_selectBatch_le (n : Nat) (p : Progress σ) : (selectBatch pick n p).1.length ≤ n := by
  induction n generalizing p with
  | zero => exact Nat.le_refl 0
  | succ n ih =>
      unfold selectBatch
      split
      · exact Nat.succ_le_succ (ih _)
      · exact Nat.zero_le _

/-- Each state that is given up makes the queue shorter by one. -/
theorem length_evictFor_le (picks : Strategy.Picks pick) {cap n : Nat} {p : Progress σ}
    (few : p.active.length ≤ cap + n) : (evictFor pick cap n p).active.length ≤ cap := by
  induction n generalizing p with
  | zero => exact few
  | succ n ih =>
      unfold evictFor
      split
      · assumption
      · rename_i many
        have some : p.active ≠ [] := fun none => many (none ▸ Nat.zero_le cap)
        obtain ⟨s, q, taken⟩ := take_of_picks picks some
        have shorter : p.active.length = q.active.length + 1 := (take_some taken).1.length_eq
        rw [taken]
        exact ih (show q.active.length ≤ cap + n by omega)

theorem length_enforceCap_le (picks : Strategy.Picks pick) {l : Limits} {cap : Nat}
    (limited : l.maxActive = some cap) (p : Progress σ) :
    (enforceCap l pick p).active.length ≤ cap := by
  unfold enforceCap
  rw [limited]
  exact length_evictFor_le picks (Nat.le_add_left _ _)

end Parts

/-- So far the search has kept all limits of its settings. -/
structure WithinLimits (c : Config) (p : Progress σ) : Prop where
  states : ∀ s ∈ p.sorted.states, c.limits.Within s
  active : ∀ s ∈ p.active, c.limits.Admits s
  steps : c.limits.maxTotalSteps ≠ 0 → p.steps < c.limits.maxTotalSteps + c.batchSize
  queue : ∀ cap, c.limits.maxActive = some cap → p.iterations ≠ 0 → p.active.length ≤ cap

variable {hooks : HookTable} {c : Config} {strategy : Strategy σ} {find avoid : Predicate}
  {p q : Progress σ}

theorem WithinLimits.start {active : List State} (each : ∀ s ∈ active, c.limits.Admits s)
    (session : Session) (memory : σ) : WithinLimits c { session, active, memory } where
  states s hs := absurd hs (Multiset.notMem_zero s)
  active := each
  steps limited := Nat.add_pos_left (Nat.pos_of_ne_zero limited) _
  queue _ _ ran := absurd rfl ran

/-- The states that leave the queue have a step left, so that their successors are within the limits,
    and those that are not spent may be queued. -/
theorem WithinLimits.round (evicts : Strategy.Picks strategy.evict) (keeps : hooks.KeepsPath)
    (goesOn : outcome? c.limits p = none) (h : p.WithinLimits c) :
    (round hooks c strategy find avoid p).WithinLimits c := by
  obtain ⟨batch, results, left, session, memory, -, queue, chain, picked, sorts⟩ :=
    round_sorts hooks c strategy find avoid p
  have waiting : ∀ s ∈ batch ++ left, c.limits.Admits s := fun s hs =>
    h.active s (queue.mem_iff.mpr hs)
  have successors : ∀ x ∈ results.flatMap (·.successors), c.limits.Within x.state := by
    intro x hx
    obtain ⟨r, hr, member⟩ := List.mem_flatMap.mp hx
    obtain ⟨s, hs, u, v, effect⟩ := chain.exists_left hr
    exact (waiting s (List.mem_append_left _ hs)).step (effect.path keeps x member)
  generalize whole : Progress.round hooks c strategy find avoid p = q at sorts ⊢
  constructor
  · intro s hs
    rcases sorts.mem_states (Multiset.mem_add.mpr (.inl hs)) with before | ⟨x, hx, rfl⟩
    · rcases Multiset.mem_add.mp before with aside | stays
      · exact h.states s aside
      · exact (waiting s (List.mem_append_right _ stays)).within
    · exact successors x hx
  · intro s hs
    rcases sorts.mem_active hs with stays | comes
    · exact waiting s (List.mem_append_right _ stays)
    · have within : c.limits.Within s := successors (.active s) (active_of_mem_fit comes)
      exact within.admits (by simpa using List.of_mem_filter comes)
  · intro limited
    have below := (outcome?_none_iff.mp goesOn).2.2
    have size : batch.length ≤ c.batchSize := picked ▸ length_selectBatch_le _ _
    have steps : q.steps = p.steps + batch.length := sorts.steps
    simp [Limits.stepsExceeded, limited] at below
    omega
  · intro cap limited _
    obtain ⟨_, _, _, _, -, -, parts⟩ := round_spec hooks c strategy find avoid p
    rw [← whole, parts]
    exact length_enforceCap_le evicts limited _

/-- The points that a search comes to between its rounds. -/
inductive Reaches (hooks : HookTable) (c : Config) (strategy : Strategy σ) (find avoid : Predicate)
    (p : Progress σ) : Progress σ → Prop where
  | start : Reaches hooks c strategy find avoid p p
  | round {q : Progress σ} (before : Reaches hooks c strategy find avoid p q)
      (goesOn : outcome? c.limits q = none) :
      Reaches hooks c strategy find avoid p (Progress.round hooks c strategy find avoid q)

theorem Reaches.of_runFor {fuel : Nat} {o : Outcome}
    (ran : runFor hooks c strategy find avoid fuel p = some (o, q)) :
    Reaches hooks c strategy find avoid p q :=
  (runFor_induction .start (fun _ goesOn before => before.round goesOn) ran).1

theorem WithinLimits.reaches (evicts : Strategy.Picks strategy.evict) (keeps : hooks.KeepsPath)
    (h : p.WithinLimits c) (reaches : Reaches hooks c strategy find avoid p q) :
    q.WithinLimits c := by
  induction reaches with
  | start => exact h
  | round _ goesOn ih => exact ih.round evicts keeps goesOn

/-- What a search gives that stops here. -/
def result (p : Progress σ) (outcome : Outcome) : Result where
  outcome
  sorted := p.sorted
  active := p.active
  steps := p.steps
  iterations := p.iterations
  stepper := p.session.stats
  solver := p.session.solver

end Progress

namespace Explorer

variable {σ : Type} {x x' : Explorer} {find avoid : Predicate} {strategy : Strategy σ}
  {memory memory' : σ} {r : Result}

/-- How a search returns: as its rounds end it or, where there is a limit on the time, between any two
    rounds. -/
inductive Returns (x : Explorer) (find avoid : Predicate) (strategy : Strategy σ) (memory : σ) :
    Result → Explorer → σ → Prop where
  | ended {fuel : Nat} {r : Result} {x' : Explorer} {memory' : σ}
      (ran : x.explore fuel find avoid strategy memory = .ok (some (r, x', memory'))) :
      Returns x find avoid strategy memory r x' memory'
  | late {p : Progress σ} {elapsed : Nat}
      (disjoint : Predicate.checkDisjoint find avoid = .ok ())
      (reached : Progress.Reaches x.hooks x.config strategy find avoid
        { session := x.session, active := x.active, memory } p)
      (goesOn : Progress.outcome? x.config.limits p = none)
      (limited : x.config.limits.timeoutMs ≠ 0)
      (past : x.config.limits.timeoutMs * 1000000 ≤ elapsed) :
      Returns x find avoid strategy memory
        (p.result (.budgetExceeded (.timeout elapsed (x.config.limits.timeoutMs * 1000000))))
        { x with session := p.session, active := p.active } p.memory

theorem Returns.reached (h : x.Returns find avoid strategy memory r x' memory') :
    ∃ p, Progress.Reaches x.hooks x.config strategy find avoid
        { session := x.session, active := x.active, memory } p ∧
      r = p.result r.outcome ∧ x'.active = p.active := by
  cases h with
  | ended ran =>
      obtain ⟨-, p, rounds, same, left, -⟩ := explore_ran ran
      exact ⟨p, .of_runFor rounds, same, by rw [left]⟩
  | late _ reached => exact ⟨_, reached, rfl, rfl⟩

end Explorer

/-- However a search returns, the states put aside are within the limits on a path, those in the queue
    may be stepped once more, the limit on all steps is passed by less than one batch, and the queue is
    no longer than it may be. -/
theorem explore_within_limits {σ : Type} {x x' : Explorer} {find avoid : Predicate}
    {strategy : Strategy σ} {memory memory' : σ} {r : Result} (builtIn : strategy.BuiltIn)
    (keeps : x.hooks.KeepsPath) (start : ∀ s ∈ x.active, x.config.limits.Admits s)
    (returns : x.Returns find avoid strategy memory r x' memory') :
    (∀ s ∈ r.sorted.states, x.config.limits.Within s) ∧
    (∀ s ∈ r.active, x.config.limits.Admits s) ∧
    (x.config.limits.maxTotalSteps ≠ 0 →
      r.steps < x.config.limits.maxTotalSteps + x.config.batchSize) ∧
    (∀ cap, x.config.limits.maxActive = some cap → r.iterations ≠ 0 → r.active.length ≤ cap) ∧
    x'.active = r.active := by
  obtain ⟨p, reached, result, left⟩ := returns.reached
  have kept := (Progress.WithinLimits.start start x.session memory).reaches builtIn.evicts keeps reached
  rw [result]
  exact ⟨kept.states, kept.active, kept.steps, kept.queue, left⟩

/-- The looping search with all limits that there are on steps, visits and states. -/
noncomputable def Explorer.loopingInLimits : Explorer :=
  { looping with
    config :=
      { limits :=
          { maxTotalSteps := 20, timeoutMs := 0, maxPathSteps := 5, loopUnrollLimit := some 3,
            maxActive := some 2 }
        batchSize := 2 } }

theorem explore_within_limits_looping : ∃ fuel r x' memory',
    Explorer.loopingInLimits.explore fuel .never .never .random (.ofSeed 7) =
        .ok (some (r, x', memory')) ∧
      (∀ s ∈ r.sorted.states, s.steps ≤ 5 ∧ ∀ a, s.history.visits a ≤ 3) ∧ r.steps < 22 ∧
      (r.iterations ≠ 0 → r.active.length ≤ 2) := by
  have start : ∀ s ∈ Explorer.loopingInLimits.active, Explorer.loopingInLimits.config.limits.Admits s := by
    intro s hs
    obtain ⟨-, steps, history⟩ := Explorer.inFrontOf_fresh [.nop] s hs
    exact Config.admits_fresh rfl steps history
  obtain ⟨fuel, o, p, ran⟩ := Progress.runFor_terminates (c := Explorer.loopingInLimits.config)
    .never .never Strategy.random_valid (by decide) Explorer.looping_keepsPath (.inl (by decide))
    (fun limit limited => by cases limited; decide)
    { session := Explorer.loopingInLimits.session
      active := Explorer.loopingInLimits.active
      memory := .ofSeed 7 }
  have searched := Explorer.explore_of_runFor (x := Explorer.loopingInLimits) rfl ran
  obtain ⟨states, -, steps, queue, -⟩ :=
    explore_within_limits (x := Explorer.loopingInLimits) .random Explorer.looping_keepsPath start
      (.ended searched)
  refine ⟨fuel, _, _, _, searched, fun s hs => ?_, steps (by decide), queue 2 rfl⟩
  exact ⟨(states s hs).steps (by decide), (states s hs).visits 3 rfl⟩

end PathSearch
