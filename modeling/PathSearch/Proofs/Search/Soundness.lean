import PathSearch.Proofs.Search.Invariant
import PathSearch.Proofs.Step

/-! # A search finds nothing but real runs

Every state that a search keeps, wherever it is put, stands for runs of the concrete machine from
one of the states that the search began with: inputs that take its path make the machine visit the
addresses of its history and arrive in it. The scheduling does not matter for that.
-/

namespace PathSearch

open PathSearch.Expr Session

/-- Under the assignment the machine, started in one state, visits the addresses in the history of
    the other, one for each of its steps, and is then that state. -/
def State.RunsTo (s₀ t : State) (α : Assignment) : Prop :=
  s₀.Admits α ∧ ∃ e, (s₀.concrete α).run s₀.memory.image t.steps = some (t.history.addresses, e) ∧
    e.machine = t.concrete α

/-- A successor to which the inputs of its path take the machine. -/
structure Descends (s₀ : State) (x : Successor) : Prop where
  wellFormed : x.state.WellFormed
  image : x.state.memory.image = s₀.memory.image
  within : ∀ α, x.state.Admits α → s₀.Admits α
  run : ∀ α, x.state.Admits α → ∃ e, x.stepped? α = some e ∧
    (s₀.concrete α).run s₀.memory.image x.state.steps = some (x.state.history.addresses, e)

namespace Descends

variable {s₀ t : State} {x : Successor} {i : Instruction}

theorem start (hs : s₀.WellFormed) (steps : s₀.steps = 0) (history : s₀.history = {}) :
    Descends s₀ (.active s₀) where
  wellFormed := hs
  image := rfl
  within _ admits := admits
  run α _ := by
    refine ⟨.running (s₀.concrete α), rfl, ?_⟩
    simp [Successor.state, steps, history, Machine.run, History.addresses]

theorem addresses_record (h : History) (address : Word) :
    (h.record address).addresses = h.addresses ++ [address] := by
  simp [History.addresses, History.record]

/-- One more instruction. -/
theorem step (h : Descends s₀ (.active t)) (decoded : t.memory.image.decode t.ip = .ok i)
    (executes : Executes t.recordStep i x) : Descends s₀ x where
  wellFormed := executes.wellFormed
  image := executes.image.trans h.image
  within α admits := h.within α (executes.within α admits)
  run α admits := by
    obtain ⟨e, same, before⟩ := h.run α (executes.within α admits)
    cases same
    have stepped : (t.concrete α).step s₀.memory.image = some ((t.concrete α).execute i) := by
      have image : t.memory.image = s₀.memory.image := h.image
      rw [← image]
      simp only [Machine.step, State.concrete, decoded]
      rfl
    refine ⟨_, executes.machine α admits, ?_⟩
    rw [executes.steps, executes.history]
    simp only [State.recordStep, addresses_record]
    exact Machine.run_succ before stepped

/-- A descendant is reached by runs. -/
theorem runsTo (h : Descends s₀ x) {α : Assignment} (admits : x.state.Admits α) :
    s₀.RunsTo x.state α := by
  obtain ⟨e, same, visited⟩ := h.run α admits
  refine ⟨h.within α admits, e, visited, ?_⟩
  cases x with
  | active t =>
      cases same
      rfl
  | exited t =>
      cases same
      rfl
  | errored t reason => cases same

end Descends

/-- A successor that descends from one of the states at the start. -/
def Descendant (initial : List State) (x : Successor) : Prop := ∃ s₀ ∈ initial, Descends s₀ x

/-- A state that was put aside, going on or at its end. -/
def Settled (initial : List State) (t : State) : Prop :=
  Descendant initial (.active t) ∨ Descendant initial (.exited t)

namespace Progress

variable {σ : Type} {K : Constraints → Prop} {initial : List State} {p : Progress σ}

/-- The constraints that a search may ask the solver about from here on: those that its steps ask
    about, and those of the states that it has found in the end. -/
inductive Asks (hooks : HookTable) (c : Config) (strategy : Strategy σ) (find avoid : Predicate) :
    Progress σ → Constraints → Prop where
  | step {p : Progress σ} {s : State} {cs : Constraints} (goesOn : outcome? c.limits p = none)
      (selected : s ∈ (selectBatch strategy.select c.batchSize p).1) (asks : s.Asks cs) :
      Asks hooks c strategy find avoid p cs
  | round {p : Progress σ} {cs : Constraints} (goesOn : outcome? c.limits p = none)
      (later : Asks hooks c strategy find avoid (round hooks c strategy find avoid p) cs) :
      Asks hooks c strategy find avoid p cs
  | found {p : Progress σ} {o : Outcome} {t : State} (ended : outcome? c.limits p = some o)
      (found : t ∈ p.sorted.found) : Asks hooks c strategy find avoid p t.constraints

/-- The invariant of a search: all states in the queue and in the lists descend from the states at
    the start, and the solver is exact. -/
def Sound (K : Constraints → Prop) (initial : List State) (p : Progress σ) : Prop :=
  p.Keeps K fun x => x.isErrored = false → Descendant initial x

theorem Sound.exact (h : p.Sound K initial) : p.session.solver.ExactOn K := Keeps.exact h

theorem Sound.active (h : p.Sound K initial) : ∀ t ∈ p.active, Descendant initial (.active t) :=
  fun t ht => Keeps.active h t ht rfl

theorem settled_of_aside {t : State}
    (h : Aside (fun x => x.isErrored = false → Descendant initial x) t) : Settled initial t :=
  h.imp (· rfl) (· rfl)

theorem Sound.found (h : p.Sound K initial) : ∀ t ∈ p.sorted.found, Settled initial t :=
  fun t ht => settled_of_aside (Keeps.found h t ht)

theorem Sound.avoided (h : p.Sound K initial) : ∀ t ∈ p.sorted.avoided, Settled initial t :=
  fun t ht => settled_of_aside (Keeps.avoided h t ht)

theorem Sound.deadended (h : p.Sound K initial) : ∀ t ∈ p.sorted.deadended, Settled initial t :=
  fun t ht => settled_of_aside (Keeps.deadended h t ht)

/-- What a step gives from a descendant descends as well. -/
theorem ensures_step_descends {hooks : HookTable} (empty : hooks.size = 0) (cap : Nat) {t : State}
    (h : Descendant initial (.active t)) (about : ∀ cs, t.Asks cs → K cs) :
    Ensures K (Step.step hooks cap t) fun r =>
      ∀ x ∈ r.successors, x.isErrored = false → Descendant initial x := by
  obtain ⟨s₀, begins, descends⟩ := h
  refine (Step.ensures_step empty descends.wellFormed about).mono fun r outcome x hx fine => ?_
  rcases outcome with ⟨u, reason, failed⟩ | ⟨i, decoded, executed⟩
  · rw [failed, List.mem_singleton] at hx
    subst hx
    cases fine
  · exact ⟨s₀, begins, descends.step decoded (executed.executes x hx fine)⟩

theorem Sound.round (h : p.Sound K initial) {hooks : HookTable} (empty : hooks.size = 0) {c : Config}
    {strategy : Strategy σ} {find avoid : Predicate}
    (about : ∀ s ∈ (selectBatch strategy.select c.batchSize p).1, ∀ cs, s.Asks cs → K cs) :
    (round hooks c strategy find avoid p).Sound K initial :=
  Keeps.round h fun s selected descends =>
    ensures_step_descends empty c.addressCap (descends rfl) (about s selected)

theorem Sound.start {session : Session} (exact : session.solver.ExactOn K) {active : List State}
    (fresh : ∀ s ∈ active, s.WellFormed ∧ s.steps = 0 ∧ s.history = {}) (memory : σ) :
    Sound K active { session, active, memory } := by
  refine Keeps.start exact (fun t ht _ => ?_) memory
  obtain ⟨wellFormed, steps, history⟩ := fresh t ht
  exact ⟨t, ht, .start wellFormed steps history⟩

/-- A search stays sound to its end, and so does what its rounds keep beside that. -/
theorem Sound.runFor {motive : Progress σ → Prop} (h : p.Sound K initial) {hooks : HookTable}
    (empty : hooks.size = 0) {c : Config} {strategy : Strategy σ} {find avoid : Predicate}
    (about : ∀ cs, p.Asks hooks c strategy find avoid cs → K cs) (start : motive p)
    (kept : ∀ p, p.Sound K initial →
      (∀ s ∈ (selectBatch strategy.select c.batchSize p).1, ∀ cs, s.Asks cs → K cs) → motive p →
      motive (Progress.round hooks c strategy find avoid p))
    {fuel : Nat} {o : Outcome} {q : Progress σ}
    (ran : Progress.runFor hooks c strategy find avoid fuel p = some (o, q)) :
    q.Sound K initial ∧ motive q ∧ outcome? c.limits q = some o ∧
      ∀ t ∈ q.sorted.found, K t.constraints := by
  have rounds := runFor_induction
    (motive := fun p => p.Sound K initial ∧ motive p ∧
      ∀ cs, p.Asks hooks c strategy find avoid cs → K cs)
    ⟨h, start, about⟩ ?_ ran
  · obtain ⟨⟨sound, final, asked⟩, ended⟩ := rounds
    exact ⟨sound, final, ended, fun t found => asked _ (.found ended found)⟩
  · intro p goesOn ⟨sound, now, asked⟩
    have batch : ∀ s ∈ (selectBatch strategy.select c.batchSize p).1, ∀ cs, s.Asks cs → K cs :=
      fun s selected cs asks => asked cs (.step goesOn selected asks)
    exact ⟨sound.round empty batch, kept p sound batch now, fun cs later => asked cs (.round goesOn later)⟩

end Progress

theorem Settled.runsTo {initial : List State} {t : State} (h : Settled initial t) {α : Assignment}
    (admits : t.Admits α) : ∃ s₀ ∈ initial, s₀.RunsTo t α := by
  rcases h with ⟨s₀, begins, descends⟩ | ⟨s₀, begins, descends⟩
  · exact ⟨s₀, begins, descends.runsTo admits⟩
  · exact ⟨s₀, begins, descends.runsTo admits⟩

/-- The constraints that a search, or a question for a witness after it, may ask the solver about. -/
def Explorer.Asks {σ : Type} (x : Explorer) (find avoid : Predicate) (strategy : Strategy σ)
    (memory : σ) : Constraints → Prop :=
  Progress.Asks x.hooks x.config strategy find avoid
    { session := x.session, active := x.active, memory }

/-- A search from fresh states keeps only states that stand for real runs, and a witness for an
    expression is its value in a real run that reaches a found state. -/
theorem explore_sound {σ : Type} {fuel : Nat} {x x' : Explorer} {find avoid : Predicate}
    {strategy : Strategy σ} {memory memory' : σ} {r : Result} (empty : x.hooks.size = 0)
    (exact : x.session.solver.ExactOn (x.Asks find avoid strategy memory))
    (fresh : ∀ s ∈ x.active, s.WellFormed ∧ s.steps = 0 ∧ s.history = {})
    (h : x.explore fuel find avoid strategy memory = .ok (some (r, x', memory'))) :
    (∀ t ∈ r.sorted.found ++ r.sorted.avoided ++ r.sorted.deadended ++ r.active, ∀ α, t.Admits α →
      ∃ s₀ ∈ x.active, s₀.RunsTo t α) ∧
    ∀ (e : Expr) (v : Word) (later : Solver), e.WellFormed →
      (r.witness e).run r.solver = (.ok v, later) →
      ∃ t ∈ r.sorted.found, ∃ α, t.Admits α ∧ e.evaluate α.bindings = some v ∧
        ∃ s₀ ∈ x.active, s₀.RunsTo t α := by
  obtain ⟨-, p, ran, sorted, active, solver⟩ := Explorer.explore_ok h
  obtain ⟨sound, -, -, asked⟩ := Progress.Sound.runFor (motive := fun _ => True)
    (.start exact fresh memory) empty (fun _ => id) trivial (fun _ _ _ => id) ran
  rw [sorted, active, solver]
  refine ⟨fun t ht α admits => ?_, fun e v later he answered => ?_⟩
  · simp only [List.mem_append] at ht
    rcases ht with ((found | avoided) | deadended) | queued
    · exact (sound.found t found).runsTo admits
    · exact (sound.avoided t avoided).runsTo admits
    · exact (sound.deadended t deadended).runsTo admits
    · obtain ⟨s₀, begins, descends⟩ := sound.active t queued
      exact ⟨s₀, begins, descends.runsTo admits⟩
  · unfold Result.witness at answered
    rw [sorted] at answered
    split at answered
    · rename_i t others list
      have member : t ∈ p.sorted.found := by simp [list]
      have settled := sound.found t member
      have wellFormed : t.WellFormed := by
        rcases settled with ⟨s₀, -, descends⟩ | ⟨s₀, -, descends⟩
        · exact descends.wellFormed
        · exact descends.wellFormed
      obtain ⟨α, admits, value⟩ :=
        Solver.evaluate_sound sound.exact he (asked t member) wellFormed.constraints answered
      exact ⟨t, member, α, admits, value, settled.runsTo admits⟩
    · cases answered

/-- A search from one state, with no limit but the length of a path, for two states. -/
noncomputable def Explorer.inFrontOf (code : List Opcode) : Explorer :=
  let s := Step.inFrontOf code
  let limits : Limits := { maxTotalSteps := 0, timeoutMs := 0, maxPathSteps := 8, maxFound := 2 }
  { image := s.memory.image
    hooks := {}
    config := { limits, solver := { cacheResults := false } }
    session := { solver := .new .perfect { cacheResults := false } }
    active := [s] }

theorem Explorer.inFrontOf_exact (code : List Opcode) (K : Constraints → Prop) :
    (inFrontOf code).session.solver.ExactOn K :=
  Solver.exactOn_new Smt.Backend.perfect_exact _ fun on => by cases on

theorem Explorer.inFrontOf_fresh (code : List Opcode) :
    ∀ s ∈ (inFrontOf code).active, s.WellFormed ∧ s.steps = 0 ∧ s.history = {} := by
  intro s hs
  cases List.mem_singleton.mp hs
  exact ⟨Step.inFrontOf_wellFormed code, rfl, rfl⟩

theorem explore_sound_increment :
    let x := Explorer.inFrontOf [.alu .add .r0 .r0 (.imm 1), .halt]
    ∃ r x', x.explore 4 (.ofAddresses [0x100D]) .never (.breadthFirst : Strategy Unit) () =
        .ok (some (r, x', ())) ∧
      (∃ t ∈ r.sorted.found, ∀ α, ∃ s₀ ∈ x.active, s₀.RunsTo t α) ∧
      ∃ later, (r.witness (Expr.word 5)).run r.solver = (.ok 5, later) ∧
        ∃ t ∈ r.sorted.found, ∃ α, t.Admits α ∧ (Expr.word 5).evaluate α.bindings = some 5 ∧
          ∃ s₀ ∈ x.active, s₀.RunsTo t α := by
  obtain ⟨r, x', t, later, ran, found, free, answered⟩ : ∃ r x' t later,
      (Explorer.inFrontOf [.alu .add .r0 .r0 (.imm 1), .halt]).explore 4 (.ofAddresses [0x100D]) .never
        (.breadthFirst : Strategy Unit) () = .ok (some (r, x', ())) ∧
      r.sorted.found = [t] ∧ t.constraints.items = [] ∧
      (r.witness (Expr.word 5)).run r.solver = (.ok 5, later) := ⟨_, _, _, _, rfl, rfl, rfl, rfl⟩
  obtain ⟨runs, witnessed⟩ :=
    explore_sound rfl (Explorer.inFrontOf_exact _ _) (Explorer.inFrontOf_fresh _) ran
  have member : t ∈ r.sorted.found := by simp [found]
  refine ⟨r, x', ran, ⟨t, member, fun α => runs t (by simp [found]) α ?_⟩, later, answered,
    witnessed _ 5 later (State.word_wellFormed 5) answered⟩
  simp [State.Admits, Constraints.SatisfiedBy, free]

end PathSearch
