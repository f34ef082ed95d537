import PathSearch.Proofs.Names

/-! # A failed step leaves the state as it was

A step may fail before it has done anything or after some of its effects: a call has put the return
address into a register, a hook has taken bytes of a stream and written them to memory, some values of
an address have been followed. Whatever it had done is taken back, and apart from the failure nothing
comes of the step. Only where the solver leaves open whether a way can be taken do other ways go on.
-/

namespace PathSearch

open Session Attempt

theorem Reason.ofSolver_iff {reason : Reason} :
    reason.OfSolver ↔ reason = .solverTimeout ∨ ∃ text, reason = .solverUnknown text := by
  constructor
  · rintro ⟨e, given⟩
    cases e with
    | unsatisfiable => cases given
    | timeout ms => exact .inl (Option.some.inj given).symm
    | unknown text => exact .inr ⟨text, (Option.some.inj given).symm⟩
  · rintro (rfl | ⟨text, rfl⟩)
    · exact ⟨.timeout 0, rfl⟩
    · exact ⟨.unknown text, rfl⟩

/-- A state after a step that was taken back: the step is counted, and its address is taken up in the
    history. All else is as it was. -/
structure State.Restored (s t : State) : Prop where
  id : t.id = s.id
  parent : t.parent = s.parent
  ip : t.ip = s.ip
  registers : t.registers = s.registers
  memory : t.memory = s.memory
  constraints : t.constraints = s.constraints
  streams : t.streams = s.streams
  inputs : t.inputs = s.inputs
  steps : t.steps = s.steps + 1
  addresses : t.history.addresses = s.history.addresses ++ [s.ip]
  history : t.history = s.history.record s.ip

theorem State.restored_recordStep (s : State) : s.Restored s.recordStep := by
  constructor
  case addresses => exact List.reverse_cons
  all_goals rfl

/-- Every failure among the successors is one of the solver. -/
def StepResult.FailsBySolver (r : StepResult) : Prop :=
  ∀ t reason, .errored t reason ∈ r.successors → reason.OfSolver

namespace StepResult.FailsBySolver

variable {a b : StepResult}

theorem none (r : StepResult) (fine : ∀ x ∈ r.successors, x.isErrored = false) : r.FailsBySolver := by
  intro t reason failed
  cases fine _ failed

theorem single {x : Successor} (fine : x.isErrored = false) : (StepResult.single x).FailsBySolver :=
  none _ (List.forall_mem_singleton.mpr fine)

theorem ofStates (states : List State) : (StepResult.ofStates states).FailsBySolver := by
  refine none _ ?_
  intro x hx
  obtain ⟨t, -, rfl⟩ := List.mem_map.mp hx
  rfl

theorem append (ha : a.FailsBySolver) (hb : b.FailsBySolver) : (a.append b).FailsBySolver := by
  intro t reason failed
  exact (List.mem_append.mp failed).elim (ha t reason) (hb t reason)

end StepResult.FailsBySolver

namespace Step

open StepResult

variable {s : State} {cap : Nat}

/-- Whatever the solver answers, a question fails for want of an answer only. -/
theorem failsBySolver_ifFeasible (t : State) : Always (ifFeasible t) FailsBySolver := by
  refine .after fun answer => ?_
  cases answer with
  | ok b =>
      cases b with
      | true => exact .pure (.single rfl)
      | false => exact .pure (.none _ (List.forall_mem_nil _))
  | error e =>
      simp only
      split
      · rename_i reason given
        refine .pure fun u other failed => ?_
        cases List.mem_singleton.mp failed
        exact ⟨e, given⟩
      · exact .pure (.none _ (List.forall_mem_nil _))

theorem failsBySolver_transfer (target : Expr) : Grants (transfer s target cap) FailsBySolver := by
  unfold transfer
  split
  · exact .pure (.single rfl)
  · exact .after fun _ => .pure (.ofStates _)

theorem failsBySolver_side (assumption : Expr) (target : Word) :
    Grants (side s assumption target) FailsBySolver :=
  .after fun _ => .after fun _ => .after fun _ => .lift (failsBySolver_ifFeasible _)

theorem failsBySolver_branch (condition : Expr) (taken next : Word) :
    Grants (branch s condition taken next) FailsBySolver := by
  unfold branch
  split
  · exact .pure (.single rfl)
  · refine Grants.after fun negated => ?_
    refine Grants.bind (failsBySolver_side condition taken) fun yes taking => ?_
    refine Grants.bind (failsBySolver_side negated next) fun no passing => ?_
    exact .pure (taking.append passing)

theorem failsBySolver_assign (dst : Register) (value : Except Error Expr) (next : Word) :
    Grants (assign s dst value next) FailsBySolver :=
  .after fun _ => .pure (.single rfl)

/-- An instruction that is executed to its end fails on single ways only, and there by the solver. -/
theorem failsBySolver_execute (s : State) (i : Instruction) (cap : Nat) :
    Grants (execute s i cap) FailsBySolver := by
  cases opcode : i.opcode with
  | nop =>
      simp only [execute, opcode]
      exact .pure (.single rfl)
  | mov | alu | not | neg | set =>
      simp only [execute, opcode]
      exact failsBySolver_assign _ _ _
  | load =>
      simp only [execute, opcode]
      exact .after fun _ => .after fun _ => .pure (.ofStates _)
  | store =>
      simp only [execute, opcode]
      exact .after fun _ => .after fun _ => .after fun _ => .pure (.ofStates _)
  | jump | call | ret =>
      simp only [execute, opcode]
      exact failsBySolver_transfer _
  | branch =>
      simp only [execute, opcode]
      exact .after fun _ => failsBySolver_branch _ _ _
  | halt =>
      simp only [execute, opcode]
      exact .pure (.single rfl)

/-- Of the states that a hook gave, those fail for which the solver has no answer. -/
theorem failsBySolver_feasibleOf (arrived : Digest) (states : List State) :
    Always (feasibleOf arrived states) FailsBySolver := by
  refine .foldlM (.none _ (List.forall_mem_nil _)) fun t _ r before => ?_
  split
  · exact .pure (before.append (.single rfl))
  · exact .bind (failsBySolver_ifFeasible t) fun more later => .pure (before.append later)

/-- A step fails as a whole, and gives back the state with the step counted, or it fails on single
    ways by the solver. -/
def FailsWhole (s : State) (r : StepResult) : Prop :=
  (∃ reason, r.successors = [.errored s.recordStep reason]) ∨ r.FailsBySolver

theorem failsWhole_applyHook (h : Hook) (s : State) :
    Always (applyHook h s.recordStep) (FailsWhole s) := by
  refine .after fun _ => .after fun result => ?_
  cases result with
  | error e =>
      simp only [pure_bind]
      exact .after fun _ => .pure (.inl ⟨_, rfl⟩)
  | ok states =>
      refine .bind (failsBySolver_feasibleOf _ states) fun r fails => ?_
      exact .after fun _ => .pure (.inr fails)

theorem failsWhole_step (hooks : HookTable) (cap : Nat) (s : State) :
    Always (step hooks cap s) (FailsWhole s) := by
  cases found : hooks.lookup? s.ip with
  | some h =>
      rw [step_hooked found]
      exact failsWhole_applyHook h s
  | none => cases decoded : s.memory.image.decode s.ip with
    | error e =>
        rw [step_undecoded found decoded]
        exact .after fun _ => .pure (.inl ⟨_, rfl⟩)
    | ok i =>
        rw [step_decoded found decoded]
        refine .after fun _ => .bind (failsBySolver_execute s.recordStep i cap) fun result fails => ?_
        cases result with
        | ok r =>
            simp only [pure_bind]
            exact .after fun _ => .pure (.inr (fails r rfl))
        | error reason =>
            simp only [pure_bind]
            exact .after fun _ => .pure (.inl ⟨reason, rfl⟩)

/-- Where a step fails for another reason than that the solver has no answer, the failure is all that
    the step gives, and the state that it leaves is the one that was stepped, with the step counted. -/
theorem failed_restores (hooks : HookTable) (cap : Nat) (s : State) (session : Session) {t : State}
    {reason : Reason}
    (failed : .errored t reason ∈ ((step hooks cap s).run session).1.successors)
    (decided : ¬ reason.OfSolver) :
    ((step hooks cap s).run session).1.successors = [.errored t reason] ∧ s.Restored t := by
  rcases failsWhole_step hooks cap s session with ⟨other, whole⟩ | fails
  · rw [whole] at failed ⊢
    cases List.mem_singleton.mp failed
    exact ⟨rfl, s.restored_recordStep⟩
  · exact absurd (fails t reason failed) decided

/-- A state at a hook that reads, with bytes to read and without a known caller. -/
def readerWithoutCaller : State :=
  let s := (State.start { entry := 0x1000 } .zero 0).addConcreteStream 0 [0x41, 0x42]
  let s := (s.writeRegister .r1 (Expr.word 0x800)).writeRegister .r2 (Expr.word 4)
  s.makeSymbolicRegister .lr "caller"

theorem failed_restores_read :
    let hooks := HookTable.insert {} ⟨"read", 0x1000, .readStream 0⟩
    let r := ((step hooks 16 readerWithoutCaller).run { solver := .new .perfect {} }).1
    ∃ t reason, .errored t reason ∈ r.successors ∧ ¬ reason.OfSolver ∧
      r.successors = [.errored t reason] ∧ readerWithoutCaller.Restored t := by
  intro hooks r
  obtain ⟨text, outcome⟩ : ∃ text,
      r.successors = [.errored readerWithoutCaller.recordStep (.hookFailure "read" text)] := ⟨_, rfl⟩
  have failed : .errored readerWithoutCaller.recordStep (.hookFailure "read" text) ∈ r.successors := by
    rw [outcome]
    exact .head _
  have decided : ¬ (Reason.hookFailure "read" text).OfSolver := by
    rw [Reason.ofSolver_iff]
    simp
  exact ⟨_, _, failed, decided, failed_restores hooks 16 _ _ failed decided⟩

end Step

end PathSearch
