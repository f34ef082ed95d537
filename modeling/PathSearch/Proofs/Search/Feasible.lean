import PathSearch.Proofs.Hook
import PathSearch.Proofs.Search.Soundness

/-! # A search keeps no state that no input reaches

Successors come about in several ways that do not ask the solver: constant conditions and addresses,
addresses that take one of their values, and hooks that leave the constraints as they are. Each of
them hands satisfiable constraints on, and the others are asked about. So where a search starts with
satisfiable states, every state that it keeps is satisfiable, hooks or not; only a state that failed
because the solver gave up may be none.
-/

namespace PathSearch

open Session

/-- No two of the sequences have one digest. -/
def Constraints.CollisionFree (K : Constraints → Prop) : Prop :=
  ∀ cs ds, K cs → K ds → cs.digest = ds.digest → cs = ds

namespace Successor

/-- The solver left open whether some input reaches the state. -/
def Undecided : Successor → Prop
  | .errored _ reason => reason.OfSolver
  | .active _ | .exited _ => False

/-- Some input reaches the state, unless the solver left that open. -/
structure Feasible (x : Successor) : Prop where
  proper : x.isErrored = false → x.state.Proper
  satisfiable : ¬ x.Undecided → x.state.constraints.Satisfiable

theorem Feasible.active {s : State} (hs : s.Proper) (sat : s.constraints.Satisfiable) :
    Feasible (.active s) := ⟨fun _ => hs, fun _ => sat⟩

theorem Feasible.errored {s : State} {reason : Reason}
    (sat : ¬ reason.OfSolver → s.constraints.Satisfiable) : Feasible (.errored s reason) where
  proper fine := by cases fine
  satisfiable := sat

end Successor

namespace Step

variable {K : Constraints → Prop} {s : State} {hooks : HookTable}

theorem ensures_checked (hs : s.Proper) (about : K s.constraints) :
    Ensures K (ifFeasible s) fun r => ∀ x ∈ r.successors, x.Feasible := by
  refine (ensures_ifFeasible hs.toWellFormed about).mono fun r outcome => ?_
  rcases outcome with ⟨kept, sat⟩ | ⟨reason, undecided, failed⟩ | ⟨dropped, -⟩
  · rw [kept]
    exact List.forall_mem_singleton.mpr (.active hs sat)
  · rw [failed]
    exact List.forall_mem_singleton.mpr (.errored fun decided => absurd undecided decided)
  · simp [dropped]

/-- A state that a hook gave is let through unasked only if it has the constraints of the state that
    arrived. -/
theorem ensures_feasibleOf {arrived : Constraints} {states : List State}
    (free : Constraints.CollisionFree K) (known : K arrived) (sat : arrived.Satisfiable)
    (proper : ∀ t ∈ states, t.Proper) (about : ∀ t ∈ states, K t.constraints) :
    Ensures K (feasibleOf arrived.digest states) fun r => ∀ x ∈ r.successors, x.Feasible := by
  refine .foldlM (by simp) fun t ht r before => ?_
  have added {more : StepResult} (h : ∀ x ∈ more.successors, x.Feasible) :
      ∀ x ∈ (r.append more).successors, x.Feasible := List.forall_mem_append.mpr ⟨before, h⟩
  split
  · rename_i sameDigest
    -- equal digests are all that is compared, so without collisions the hook added nothing
    have same : t.constraints = arrived := free _ _ (about t ht) known sameDigest
    exact .pure (added (List.forall_mem_singleton.mpr (.active (proper t ht) (same ▸ sat))))
  · exact .bind (ensures_checked (proper t ht) (about t ht)) fun more h => .pure (added h)

theorem ensures_applyHook {h : Hook} (free : Constraints.CollisionFree K) (known : K s.constraints)
    (sat : s.constraints.Satisfiable)
    (proper : ∀ {n m : Nat} {states : List State}, (h.apply s).run n = (.ok states, m) →
      ∀ t ∈ states, t.Proper)
    (about : ∀ {n m : Nat} {states : List State}, (h.apply s).run n = (.ok states, m) →
      ∀ t ∈ states, K t.constraints) :
    Ensures K (applyHook h s) fun r => ∀ x ∈ r.successors, x.Feasible := by
  have applied : Ensures K (fresh (h.apply s)) fun result => ∀ states, result = .ok states →
      ∃ n m, (h.apply s).run n = (.ok states, m) :=
    .fresh fun n states given => ⟨n, _, Prod.ext given rfl⟩
  unfold applyHook
  refine .bind (ensures_count _) fun _ _ => ?_
  refine .bind applied fun result given => ?_
  cases result with
  | ok states =>
      obtain ⟨n, m, ran⟩ := given states rfl
      refine .bind (ensures_feasibleOf free known sat (proper ran) (about ran)) fun r each => ?_
      exact .bind (ensures_count _) fun _ _ => .pure each
  | error e =>
      simp only [pure_bind]
      have kept : Successor.Feasible (.errored s (.hookFailure h.name e.message)) :=
        .errored fun _ => sat
      exact .bind (ensures_count _) fun _ _ => .pure (List.forall_mem_singleton.mpr kept)

theorem feasible_of_exact {i : Instruction} {cap : Nat} {r : StepResult}
    (executed : StepResult.Exact s i cap r) (hs : s.Proper) (sat : s.constraints.Satisfiable) :
    ∀ x ∈ r.successors, x.Feasible := by
  intro x hx
  have proper (fine : x.isErrored = false) : x.state.Proper := by
    have executes := executed.executes x hx fine
    exact ⟨executes.wellFormed, executes.streams ▸ hs.streams⟩
  refine ⟨proper, fun decided => ?_⟩
  cases x with
  | active t | exited t => exact (executed.executes _ hx rfl).feasible sat
  | errored t reason => exact absurd (executed.failed t reason hx) decided

/-- The constraints that a step asks the solver about, or tells apart by their digests. -/
inductive Weighs (hooks : HookTable) (s : State) : Constraints → Prop where
  | own : Weighs hooks s s.constraints
  | asked {cs : Constraints} (free : hooks.lookup? s.ip = none) (asks : s.Asks cs) : Weighs hooks s cs
  | given {h : Hook} {n m : Nat} {states : List State} {t : State}
      (here : hooks.lookup? s.ip = some h) (ran : (h.apply s.recordStep).run n = (.ok states, m))
      (ht : t ∈ states) : Weighs hooks s t.constraints

/-- A step hands satisfiable constraints on. -/
theorem ensures_step_feasible (proper : hooks.Proper) (free : Constraints.CollisionFree K) (cap : Nat)
    (h : Successor.Feasible (.active s)) (about : ∀ cs, Weighs hooks s cs → K cs) :
    Ensures K (step hooks cap s) fun r => ∀ x ∈ r.successors, x.Feasible := by
  have hs : s.Proper := h.proper rfl
  have sat : s.constraints.Satisfiable := h.satisfiable id
  -- a hook stands in place of the instruction, so only one of the two ways to go on applies
  cases here : hooks.lookup? s.ip with
  | some hook =>
      have found : hooks.lookup? s.recordStep.ip = some hook := here
      unfold step
      simp only [found]
      exact ensures_applyHook free (about _ .own) sat (proper.apply here hs.recordStep)
        fun ran t ht => about _ (.given here ran ht)
  | none =>
      refine (ensures_unhooked here hs.toWellFormed fun cs asks => about cs (.asked here asks)).mono
        fun r outcome => ?_
      rcases outcome with ⟨reason, failed⟩ | ⟨i, -, executed⟩
      · rw [failed]
        exact List.forall_mem_singleton.mpr (.errored fun _ => sat)
      · exact feasible_of_exact executed hs.recordStep sat

end Step

namespace Explorer

variable {σ : Type}

/-- The constraints that the steps of a search ask the solver about, or tell apart by their
    digests. -/
def Weighs (x : Explorer) (find avoid : Predicate) (strategy : Strategy σ) (memory : σ)
    (cs : Constraints) : Prop :=
  ∃ s, Progress.Steps x.hooks x.config strategy find avoid
    { session := x.session, active := x.active, memory } s ∧ Step.Weighs x.hooks s cs

end Explorer

theorem Progress.Aside.satisfiable {t : State} (h : Aside Successor.Feasible t) :
    t.constraints.Satisfiable := by
  rcases h with feasible | feasible
  · exact feasible.satisfiable id
  · exact feasible.satisfiable id

/-- A search that starts with satisfiable states keeps satisfiable states only, apart from those that
    failed because the solver gave up. -/
theorem explore_feasible {σ : Type} {fuel : Nat} {x x' : Explorer} {find avoid : Predicate}
    {strategy : Strategy σ} {memory memory' : σ} {r : Result}
    (exact : x.session.solver.ExactOn (x.Weighs find avoid strategy memory))
    (free : Constraints.CollisionFree (x.Weighs find avoid strategy memory)) (proper : x.hooks.Proper)
    (start : ∀ s ∈ x.active, s.Proper ∧ s.constraints.Satisfiable)
    (h : x.explore fuel find avoid strategy memory = .ok (some (r, x', memory'))) :
    (∀ t ∈ r.sorted.found ++ r.sorted.avoided ++ r.sorted.deadended ++ r.active,
      t.constraints.Satisfiable) ∧
    ∀ t reason, (t, reason) ∈ r.sorted.errored → ¬ reason.OfSolver → t.constraints.Satisfiable := by
  obtain ⟨-, p, ran, sorted, active, -⟩ := Explorer.explore_ok h
  have begins (s : State) (hs : s ∈ x.active) : Successor.Feasible (.active s) :=
    .active (start s hs).1 (start s hs).2
  have kept : p.Keeps (x.Weighs find avoid strategy memory) Successor.Feasible :=
    Progress.Keeps.runFor (.start exact begins memory) (fun s steps feasible =>
      Step.ensures_step_feasible proper free x.config.addressCap feasible fun cs weighs =>
        ⟨s, steps, weighs⟩) ran
  rw [sorted, active]
  refine ⟨fun t ht => ?_, fun t reason failed decided => ?_⟩
  · simp only [List.mem_append] at ht
    rcases ht with ((found | avoided) | deadended) | queued
    · exact (kept.found t found).satisfiable
    · exact (kept.avoided t avoided).satisfiable
    · exact (kept.deadended t deadended).satisfiable
    · exact (kept.active t queued).satisfiable id
  · exact (kept.errored (t, reason) failed).satisfiable decided

namespace Explorer

/-- A search in which a hook leads past the code. -/
noncomputable def hooked : Explorer :=
  { inFrontOf [.nop] with
    hooks := HookTable.insert {} ⟨"leave", 0x1000, .custom fun s => pure [s.setIp 0]⟩ }

theorem hooked_proper : hooked.hooks.Proper := by
  intro address h run found same s n m states hs given
  simp only [hooked, HookTable.insert, HookTable.lookup?, Std.TreeMap.getElem?_insert] at found
  split at found
  · cases found
    cases same
    cases given
    exact List.forall_mem_singleton.mpr (hs.setIp 0)
  · simp at found

theorem hooked_start : ∀ s ∈ hooked.active, s.Proper ∧ s.constraints.Satisfiable := by
  intro s hs
  cases List.mem_singleton.mp hs
  refine ⟨⟨Step.inFrontOf_wellFormed _, fun fd stream opened => ?_⟩, ⟨fun _ => 0, fun c hc => ?_⟩⟩
  · cases opened
  · cases hc

theorem hooked_weighs {cs : Constraints}
    (h : hooked.Weighs (.ofAddresses [0]) .never (.breadthFirst : Strategy Unit) () cs) : cs = {} := by
  obtain ⟨s, steps, weighs⟩ := h
  have first : s = Step.inFrontOf [.nop] := by
    cases steps with
    | now _ selected => exact List.mem_singleton.mp selected
    | later _ steps =>
        cases steps with
        | now goesOn _ => cases goesOn
        | later goesOn _ => cases goesOn
  subst first
  cases weighs with
  | own => rfl
  | asked free _ => cases free
  | given here ran ht =>
      cases here
      cases ran
      cases List.mem_singleton.mp ht
      rfl

end Explorer

theorem explore_feasible_hooked : ∃ r x',
    Explorer.hooked.explore 4 (.ofAddresses [0]) .never (.breadthFirst : Strategy Unit) () =
      .ok (some (r, x', ())) ∧
    (∃ t ∈ r.sorted.found, t.constraints.Satisfiable) ∧
    ∀ t reason, (t, reason) ∈ r.sorted.errored → ¬ reason.OfSolver → t.constraints.Satisfiable := by
  obtain ⟨r, x', t, ran, found⟩ : ∃ r x' t, Explorer.hooked.explore 4 (.ofAddresses [0]) .never
      (.breadthFirst : Strategy Unit) () = .ok (some (r, x', ())) ∧ r.sorted.found = [t] :=
    ⟨_, _, _, rfl, rfl⟩
  have free : Constraints.CollisionFree
      (Explorer.hooked.Weighs (.ofAddresses [0]) .never (.breadthFirst : Strategy Unit) ()) :=
    fun cs ds hcs hds _ => (Explorer.hooked_weighs hcs).trans (Explorer.hooked_weighs hds).symm
  have exact : Explorer.hooked.session.solver.ExactOn
      (Explorer.hooked.Weighs (.ofAddresses [0]) .never (.breadthFirst : Strategy Unit) ()) :=
    Explorer.inFrontOf_exact [.nop] _
  obtain ⟨kept, failed⟩ :=
    explore_feasible exact free Explorer.hooked_proper Explorer.hooked_start ran
  have member : t ∈ r.sorted.found := by simp [found]
  exact ⟨r, x', ran, ⟨t, member, kept t (by simp [found])⟩, failed⟩

end PathSearch
