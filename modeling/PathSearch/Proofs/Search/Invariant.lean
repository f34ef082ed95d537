import PathSearch.Proofs.Search.Progress
import PathSearch.Proofs.Session

/-! # What a search keeps of its states

A property that a step hands on from a state to its successors holds, in the end, of every state in
the queue and in the lists. It speaks of successors, so that it can tell a state that goes on from
one that halted or failed.
-/

namespace PathSearch.Progress

open Session

variable {σ : Type} {K : Constraints → Prop} {good : Successor → Prop} {p : Progress σ}

/-- A state that was put aside, going on or at its end. -/
def Aside (good : Successor → Prop) (t : State) : Prop := good (.active t) ∨ good (.exited t)

theorem aside_of_fine {x : Successor} (h : good x) (fine : x.isErrored = false) :
    Aside good x.state := by
  cases x with
  | active t => exact .inl h
  | exited t => exact .inr h
  | errored t reason => cases fine

/-- The solver is exact, and every state has the property, wherever the search has put it. -/
structure Keeps (K : Constraints → Prop) (good : Successor → Prop) (p : Progress σ) : Prop where
  exact : p.session.solver.ExactOn K
  active : ∀ t ∈ p.active, good (.active t)
  found : ∀ t ∈ p.sorted.found, Aside good t
  avoided : ∀ t ∈ p.sorted.avoided, Aside good t
  deadended : ∀ t ∈ p.sorted.deadended, Aside good t
  errored : ∀ q ∈ p.sorted.errored, good (.errored q.1 q.2)

theorem Keeps.start {session : Session} (exact : session.solver.ExactOn K) {active : List State}
    (each : ∀ s ∈ active, good (.active s)) (memory : σ) :
    Keeps K good { session, active, memory } where
  exact := exact
  active := each
  found _ ht := by cases ht
  avoided _ ht := by cases ht
  deadended _ ht := by cases ht
  errored _ hq := by cases hq

theorem forall_append_singleton {α : Type} {P : α → Prop} {list : List α} {a : α}
    (each : ∀ b ∈ list, P b) (last : P a) : ∀ b ∈ list ++ [a], P b := by
  intro b hb
  rcases List.mem_append.mp hb with earlier | here
  · exact each b earlier
  · exact List.mem_singleton.mp here ▸ last

section Classify

variable {l : Limits} {find avoid : Predicate}

theorem Keeps.classify (h : p.Keeps K good) {x : Successor} (hx : good x) :
    (classify l find avoid p x).Keeps K good := by
  have outcome := classified l find avoid p x
  generalize Progress.classify l find avoid p x = q at outcome ⊢
  cases outcome with
  | errored s reason => exact { h with errored := forall_append_singleton h.errored hx }
  | avoided fine =>
      exact { h with avoided := forall_append_singleton h.avoided (aside_of_fine hx fine) }
  | found fine => exact { h with found := forall_append_singleton h.found (aside_of_fine hx fine) }
  | deadended fine =>
      exact { h with deadended := forall_append_singleton h.deadended (aside_of_fine hx fine) }
  | queued => exact { h with active := forall_append_singleton h.active hx }

theorem Keeps.foldl_classify {list : List Successor} (h : p.Keeps K good)
    (each : ∀ x ∈ list, good x) : (list.foldl (Progress.classify l find avoid) p).Keeps K good := by
  induction list generalizing p with
  | nil => exact h
  | cons x rest ih => exact ih (h.classify (each x (by simp))) fun y hy => each y (by simp [hy])

end Classify

theorem Keeps.enforceCap (h : p.Keeps K good) {l : Limits} {pick : List State → σ → Option Nat × σ} :
    (enforceCap l pick p).Keeps K good := by
  obtain ⟨given, queue, frame⟩ := enforceCap_spec l pick p
  generalize Progress.enforceCap l pick p = q at queue frame ⊢
  have kept : ∀ t ∈ given ++ q.active, good (.active t) := fun t ht =>
    h.active t (queue.mem_iff.mpr ht)
  have ended : ∀ t ∈ p.sorted.deadended ++ given, Aside good t := by
    intro t ht
    rcases List.mem_append.mp ht with earlier | now
    · exact h.deadended t earlier
    · exact .inl (kept t (List.mem_append_left _ now))
  rw [frame]
  exact
    { exact := h.exact
      active := fun t ht => kept t (List.mem_append_right _ ht)
      found := h.found
      avoided := h.avoided
      deadended := ended
      errored := h.errored }

section Run

variable {hooks : HookTable} {c : Config} {strategy : Strategy σ} {find avoid : Predicate}

/-- A round, where each step of its batch gives what it should. -/
theorem round_ensures {post : State → StepResult → Prop} (exact : p.session.solver.ExactOn K)
    (each : ∀ s ∈ (selectBatch strategy.select c.batchSize p).1,
      Ensures K (Step.step hooks c.addressCap s) (post s)) :
    ∃ batch selected results session,
      selectBatch strategy.select c.batchSize p = (batch, selected) ∧
      session.solver.ExactOn K ∧ List.Forall₂ post batch results ∧
      round hooks c strategy find avoid p =
        enforceCap c.limits strategy.evict
          ((results.flatMap (·.successors)).foldl (classify c.limits find avoid)
            { selected with
              session
              steps := selected.steps + batch.length
              iterations := selected.iterations + 1 }) := by
  obtain ⟨batch, selected, results, session, picked, ran, whole⟩ :=
    round_spec hooks c strategy find avoid p
  obtain ⟨-, frame⟩ := selectBatch_spec picked
  have before : selected.session.solver.ExactOn K := by
    rw [frame]
    exact exact
  rw [picked] at each
  obtain ⟨stepped, after⟩ := Ensures.mapM each selected.session before
  -- stepping the batch is this very traversal
  change List.Forall₂ post batch ((stepAll hooks c.addressCap batch).run selected.session).1 at stepped
  change ((stepAll hooks c.addressCap batch).run selected.session).2.solver.ExactOn K at after
  rw [ran] at stepped after
  exact ⟨batch, selected, results, session, picked, after, stepped, whole⟩

/-- A round keeps the property if the steps of its batch hand it on. -/
theorem Keeps.round (h : p.Keeps K good)
    (each : ∀ s ∈ (selectBatch strategy.select c.batchSize p).1, good (.active s) →
      Ensures K (Step.step hooks c.addressCap s) fun r => ∀ x ∈ r.successors, good x) :
    (round hooks c strategy find avoid p).Keeps K good := by
  have batchGood : ∀ s ∈ (selectBatch strategy.select c.batchSize p).1, good (.active s) :=
    fun s hs => h.active s (mem_active_of_selected hs)
  obtain ⟨batch, selected, results, session, picked, after, stepped, whole⟩ :=
    round_ensures h.exact fun s hs => each s hs (batchGood s hs)
  obtain ⟨queue, frame⟩ := selectBatch_spec picked
  rw [whole]
  refine Keeps.enforceCap (Keeps.foldl_classify ?_ fun x hx => ?_)
  · rw [frame]
    exact
      { exact := after
        active := fun t ht => h.active t (queue.mem_iff.mpr (List.mem_append_right _ ht))
        found := h.found
        avoided := h.avoided
        deadended := h.deadended
        errored := h.errored }
  · obtain ⟨r, hr, member⟩ := List.mem_flatMap.mp hx
    obtain ⟨t, -, handed⟩ := exists_left stepped hr
    exact handed x member

/-- The states that a search steps from here on. -/
inductive Steps (hooks : HookTable) (c : Config) (strategy : Strategy σ) (find avoid : Predicate) :
    Progress σ → State → Prop where
  | now {p : Progress σ} {s : State} (goesOn : outcome? c.limits p = none)
      (selected : s ∈ (selectBatch strategy.select c.batchSize p).1) :
      Steps hooks c strategy find avoid p s
  | later {p : Progress σ} {s : State} (goesOn : outcome? c.limits p = none)
      (steps : Steps hooks c strategy find avoid (Progress.round hooks c strategy find avoid p) s) :
      Steps hooks c strategy find avoid p s

/-- A search keeps the property to its end if all its steps hand it on. -/
theorem Keeps.runFor (h : p.Keeps K good)
    (each : ∀ s, p.Steps hooks c strategy find avoid s → good (.active s) →
      Ensures K (Step.step hooks c.addressCap s) fun r => ∀ x ∈ r.successors, good x)
    {fuel : Nat} {o : Outcome} {q : Progress σ}
    (ran : runFor hooks c strategy find avoid fuel p = some (o, q)) : q.Keeps K good := by
  have rounds := runFor_induction
    (motive := fun p => p.Keeps K good ∧ ∀ s, p.Steps hooks c strategy find avoid s →
      good (.active s) → Ensures K (Step.step hooks c.addressCap s) fun r => ∀ x ∈ r.successors, good x)
    ⟨h, each⟩ ?_ ran
  · exact rounds.1.1
  · intro p goesOn ⟨now, handed⟩
    exact ⟨now.round fun s selected => handed s (.now goesOn selected),
      fun s steps => handed s (.later goesOn steps)⟩

end Run

end PathSearch.Progress
