import PathSearch.Proofs.Codec
import PathSearch.Proofs.Expr.Bit
import PathSearch.Proofs.Session
import PathSearch.Proofs.Solver.Faithful
import PathSearch.Step

/-! # A step is exact

The successors of a step divide the inputs of the state among them, and on each of them the state is
what the concrete machine is after the instruction.
-/

namespace PathSearch

open PathSearch.Expr Attempt Session

/-- The machine after the step, on a successor that did not fail. -/
def Successor.stepped? (σ : Assignment) : Successor → Option Stepped
  | .active t => some (.running (t.concrete σ))
  | .exited t => some (.halted (t.concrete σ))
  | .errored _ _ => none

/-- States that differ in registers, bytes and address only. -/
structure State.SamePath (s t : State) : Prop where
  image : t.memory.image = s.memory.image
  steps : t.steps = s.steps
  history : t.history = s.history
  streams : t.streams = s.streams
  constraints : t.constraints = s.constraints

theorem State.SamePath.refl (s : State) : s.SamePath s := ⟨rfl, rfl, rfl, rfl, rfl⟩

theorem State.SamePath.writeRegister (s : State) (r : Register) (v : Expr) :
    s.SamePath (s.writeRegister r v) := ⟨rfl, rfl, rfl, rfl, rfl⟩

theorem State.SamePath.setIp {s t : State} (h : s.SamePath t) (address : Word) :
    s.SamePath (t.setIp address) := ⟨h.image, h.steps, h.history, h.streams, h.constraints⟩

/-- A successor that is the state after an instruction. -/
structure Executes (s : State) (i : Instruction) (x : Successor) : Prop where
  wellFormed : x.state.WellFormed
  image : x.state.memory.image = s.memory.image
  steps : x.state.steps = s.steps
  history : x.state.history = s.history
  streams : x.state.streams = s.streams
  within : ∀ σ, x.state.Admits σ → s.Admits σ
  feasible : s.constraints.Satisfiable → x.state.constraints.Satisfiable
  machine : ∀ σ, x.state.Admits σ → x.stepped? σ = some ((s.concrete σ).execute i)

/-- The constraints that an instruction may ask the solver about: those of the state, for the values
    of an address, and those of the sides of a branch. -/
inductive Step.Asks (s : State) (i : Instruction) : Constraints → Prop where
  | own : Asks s i s.constraints
  | side {cond : CmpOp} {lhs : Register} {rhs : Operand} {target : Word} {condition c : Expr}
      {cs : Constraints} (opcode : i.opcode = .branch cond lhs rhs target)
      (built : mkBinary cond.toOp (s.readRegister lhs) (s.operand rhs) = .ok condition)
      (sides : c = condition ∨ condition.lnot = .ok c) (pushed : s.constraints.push c = .ok cs) :
      Asks s i cs

/-- The constraints that a step of the state may ask the solver about. -/
def State.Asks (s : State) (cs : Constraints) : Prop :=
  ∃ i, s.memory.image.decode s.ip = .ok i ∧ Step.Asks s i cs

/-- The solver left open what a step asked. -/
def Reason.OfSolver (reason : Reason) : Prop := ∃ e, Reason.ofSolver? e = some reason

/-- Successors that are exactly the state after an instruction, where addresses are resolved up to a
    cap. -/
structure StepResult.Exact (s : State) (i : Instruction) (cap : Nat) (r : StepResult) : Prop where
  executes : ∀ x ∈ r.successors, x.isErrored = false → Executes s i x
  failed : ∀ t reason, .errored t reason ∈ r.successors → reason.OfSolver
  partition : State.Countable cap → (∀ x ∈ r.successors, x.isErrored = false) →
    s.constraints.Partition (r.successors.map (·.state.constraints))

namespace StepResult.Exact

variable {s : State} {i : Instruction} {cap : Nat}

theorem single {x : Successor} (h : Executes s i x) (same : x.state.constraints = s.constraints)
    (fine : x.isErrored = false := by rfl) : Exact s i cap (.single x) where
  executes y hy _ := List.mem_singleton.mp hy ▸ h
  failed t reason ht := by
    cases List.mem_singleton.mp ht
    cases fine
  partition _ _ := by
    simp only [StepResult.single, List.map_cons, List.map_nil, same]
    exact .whole _

theorem ofStates {ts : List State} (each : ∀ t ∈ ts, Executes s i (.active t))
    (partition : State.Countable cap → s.constraints.Partition (ts.map (·.constraints))) :
    Exact s i cap (.ofStates ts) where
  executes x hx _ := by
    obtain ⟨t, ht, rfl⟩ := List.mem_map.mp hx
    exact each t ht
  failed t reason ht := by
    obtain ⟨_, -, impossible⟩ := List.mem_map.mp ht
    cases impossible
  partition below _ := by
    rw [StepResult.ofStates, List.map_map]
    exact partition below

end StepResult.Exact

namespace Step

variable {K : Constraints → Prop} {s : State} {i : Instruction} {cap : Nat}

/-- A state that goes on behind a narrowing, which alone changes the inputs. -/
theorem executes_of_narrows {u v t : State} {holds : Assignment → Prop} (before : s.SamePath u)
    (narrows : u.Narrows v holds) (after : v.SamePath t) (wellFormed : t.WellFormed)
    (feasible : s.constraints.Satisfiable → v.constraints.Satisfiable)
    (machine : ∀ σ, holds σ → (s.concrete σ).execute i = .running (t.concrete σ)) :
    Executes s i (.active t) where
  wellFormed := wellFormed
  image := (after.image.trans (congrArg Memory.image narrows.memory)).trans before.image
  steps := (after.steps.trans narrows.steps).trans before.steps
  history := (after.history.trans narrows.history).trans before.history
  streams := (after.streams.trans narrows.streams).trans before.streams
  feasible possible := after.constraints ▸ feasible possible
  within σ admits := by
    have narrowed := (narrows.admits σ).mp ((State.admits_congr after.constraints σ).mp admits)
    exact (State.admits_congr before.constraints σ).mp narrowed.1
  machine σ admits := by
    have narrowed := (narrows.admits σ).mp ((State.admits_congr after.constraints σ).mp admits)
    exact congrArg some (machine σ narrowed.2).symm

/-- A state that goes on with all inputs. -/
theorem executes_of_samePath {t : State} (hs : s.WellFormed) (path : s.SamePath t)
    (wellFormed : t.WellFormed)
    (machine : ∀ σ, (s.concrete σ).execute i = .running (t.concrete σ)) :
    Executes s i (.active t) :=
  executes_of_narrows (.refl s) (.refl hs) path wellFormed id fun σ _ => machine σ

/-- An instruction that puts into a register what the machine computes. -/
theorem gives_assign (hs : s.WellFormed) {dst : Register} {value : Except Error Expr} {next : Word}
    (computed : Machine → Word)
    (built : ∀ e, value = .ok e → e.WellFormed ∧ ∀ σ, e.value σ = computed (s.concrete σ))
    (machine : ∀ m : Machine, m.execute i = .running ((m.setReg dst (computed m)).goTo next)) :
    Gives K (assign s dst value next) (StepResult.Exact s i cap) := by
  refine .bind (.orFault _) fun e given => .pure ?_
  obtain ⟨he, values⟩ := built e given
  have path := (State.SamePath.writeRegister s dst e).setIp next
  refine .single (executes_of_samePath hs path ((hs.writeRegister dst he).setIp next) fun σ => ?_) rfl
  rw [State.concrete_setIp, State.concrete_writeRegister dst he, values, machine]

theorem truncate_word (v : Word) : Word.truncate 64 v = v := Word.truncate_of_lt (by omega) v.toNat_lt

theorem mkBinary_alu {l r e : Expr} (hl : l.WellFormed ∧ l.width = 64)
    (hr : r.WellFormed ∧ r.width = 64) (op : AluOp) (built : mkBinary op.toOp l r = .ok e) :
    e.WellFormed ∧ ∀ σ, e.value σ = op.apply (l.value σ) (r.value σ) := by
  have denotes := mkBinary_denotes hl.1 hr.1 built
  refine ⟨denotes.wellFormed, fun σ => ?_⟩
  have value := denotes.some_value σ
  rw [hl.2, AluOp.foldBinary_toOp] at value
  exact Option.some.inj value

theorem mkBinary_cmp {l r e : Expr} (hl : l.WellFormed ∧ l.width = 64)
    (hr : r.WellFormed ∧ r.width = 64) (op : CmpOp) (built : mkBinary op.toOp l r = .ok e) :
    e.WellFormed ∧ e.width = 1 ∧
      ∀ σ, e.value σ = if op.holds (l.value σ) (r.value σ) then 1 else 0 := by
  have denotes := mkBinary_denotes hl.1 hr.1 built
  have comparison : op.toOp.isComparison = true := by cases op <;> rfl
  refine ⟨denotes.wellFormed, ?_, fun σ => ?_⟩
  · rw [denotes.width_eq, comparison]
    rfl
  · have value := denotes.some_value σ
    rw [hl.2, CmpOp.foldBinary_toOp] at value
    exact Option.some.inj value

theorem mkUnary_register (hs : s.WellFormed) {op : Op} (src : Register) {computed : Word → Word}
    (fold : ∀ v, op.foldUnary v 64 = some (computed v)) {e : Expr}
    (built : mkUnary op (s.readRegister src) = .ok e) :
    e.WellFormed ∧ ∀ σ, e.value σ = computed ((s.concrete σ).regs src) := by
  obtain ⟨hx, width⟩ := hs.registers src
  have denotes := mkUnary_denotes hx built
  refine ⟨denotes.wellFormed, fun σ => ?_⟩
  have value := denotes.some_value σ
  rw [width, fold] at value
  exact Option.some.inj value

/-- Goes on where the target says, in a state that has the inputs of the one before. -/
theorem gives_transfer {u : State} (hu : u.WellFormed) (before : s.SamePath u)
    (about : K s.constraints) {target : Expr} (ht : target.WellFormed)
    (machine : ∀ σ, (s.concrete σ).execute i = .running ((u.concrete σ).goTo (target.value σ))) :
    Gives K (transfer u target cap) (StepResult.Exact s i cap) := by
  have goesOn : ∀ {t : State} {address : Word},
      u.Narrows t (fun σ => target.value σ = address) →
      (u.constraints.Satisfiable → t.constraints.Satisfiable) →
      Executes s i (.active (t.setIp address)) := by
    intro t address narrows feasible
    have after := (State.SamePath.refl t).setIp address
    have wellFormed := (narrows.wellFormed hu).setIp address
    refine executes_of_narrows before narrows after wellFormed (before.constraints ▸ feasible)
      fun σ reached => ?_
    rw [machine σ, reached, ← narrows.concrete_eq σ, State.concrete_setIp]
  unfold transfer
  split
  · rename_i address known
    have pinned : ∀ σ, target.value σ = address := value_of_const? known
    refine .pure (.single (goesOn ?_ id) before.constraints)
    refine { State.Narrows.refl hu with admits := fun σ => ?_ }
    exact (and_iff_left (pinned σ)).symm
  · refine .bind (State.gives_resolveAddress hu (before.constraints ▸ about) ht cap) fun candidates resolved => .pure ?_
    refine .ofStates (fun t ht => ?_) ?_
    · obtain ⟨p, hp, rfl⟩ := List.mem_map.mp ht
      exact goesOn (resolved.narrows p hp) fun feasible => resolved.feasible feasible p hp
    · rw [List.map_map, ← before.constraints]
      exact resolved.partition

/-- What one side of a branch gives: at most the state on which the assumption holds. -/
structure Side (s : State) (assumption : Expr) (target : Word) (r : StepResult) : Prop where
  narrows : ∀ x ∈ r.successors, x.isErrored = false →
    ∃ t, s.Narrows t (fun σ => assumption.value σ = 1) ∧ t.constraints.Satisfiable ∧
      x = .active (t.setIp target)
  failed : ∀ t reason, .errored t reason ∈ r.successors → reason.OfSolver
  covers : (∀ x ∈ r.successors, x.isErrored = false) → ∀ σ, s.Admits σ → assumption.value σ = 1 →
    ∃ x ∈ r.successors, x.state.Admits σ
  single : r.successors.length ≤ 1

theorem ensures_ifFeasible {t : State} (ht : t.WellFormed) (about : K t.constraints) :
    Ensures K (ifFeasible t) fun r =>
      (r.successors = [.active t] ∧ t.constraints.Satisfiable) ∨
        (∃ reason, reason.OfSolver ∧ r.successors = [.errored t reason]) ∨
        (r.successors = [] ∧ t.constraints.Unsatisfiable) := by
  refine .bind (.isSatisfiable about ht.constraints) fun answer given => ?_
  obtain ⟨decided, refused⟩ := given
  cases answer with
  | ok b =>
      cases b with
      | true => exact .pure (.inl ⟨rfl, (decided true rfl).mp rfl⟩)
      | false =>
          have none : t.constraints.Unsatisfiable := fun σ sat => by
            have := (decided false rfl).mpr ⟨σ, sat⟩
            cases this
          exact .pure (.inr (.inr ⟨rfl, none⟩))
  | error e =>
      cases e with
      | unsatisfiable => exact .pure (.inr (.inr ⟨rfl, refused rfl⟩))
      | timeout ms => exact .pure (.inr (.inl ⟨_, ⟨.timeout ms, rfl⟩, rfl⟩))
      | unknown reason => exact .pure (.inr (.inl ⟨_, ⟨.unknown reason, rfl⟩, rfl⟩))

theorem gives_side (hs : s.WellFormed) {assumption : Expr} (ha : assumption.WellFormed)
    (about : ∀ cs, s.constraints.push assumption = .ok cs → K cs) (target : Word) :
    Gives K (side s assumption target) (Side s assumption target) := by
  refine .bind (.lift s.gives_fork) fun result forked => ?_
  obtain ⟨id, rfl⟩ := forked
  refine .bind (.orFault _) fun fork same => ?_
  cases same
  refine .bind (.orFault _) fun t added => ?_
  have narrows := State.narrows_addConstraint hs ha added
  have wellFormed : (t.setIp target).WellFormed := (narrows.wellFormed hs).setIp target
  have asked : K (t.setIp target).constraints := by
    obtain ⟨cs, pushed, result⟩ := bind_ok added
    cases result
    exact about cs pushed
  refine .lift ((ensures_ifFeasible wellFormed asked).mono fun r outcome => ?_)
  rcases outcome with ⟨kept, feasible⟩ | ⟨reason, undecided, failed⟩ | ⟨dropped, none⟩
  · refine ⟨fun x hx _ => ?_, by simp [kept], fun _ σ admits met => ?_, by simp [kept]⟩
    · rw [kept, List.mem_singleton] at hx
      exact ⟨t, narrows, feasible, hx⟩
    · refine ⟨_, by rw [kept]; exact List.mem_singleton_self _, ?_⟩
      exact (narrows.admits σ).mpr ⟨admits, met⟩
  · refine ⟨fun x hx fine => ?_, fun u why hu => ?_, fun fine => ?_, by simp [failed]⟩
    · rw [failed, List.mem_singleton] at hx
      subst hx
      cases fine
    · rw [failed, List.mem_singleton] at hu
      cases hu
      exact undecided
    · have := fine _ (by rw [failed]; exact List.mem_singleton_self _)
      cases this
  · refine ⟨fun x hx => ?_, by simp [dropped], fun _ σ admits met => ?_, by simp [dropped]⟩
    · rw [dropped] at hx
      cases hx
    · exact absurd ((narrows.admits σ).mpr ⟨admits, met⟩) (none σ)

theorem pairwise_of_length_le_one {α : Type} {R : α → α → Prop} {list : List α}
    (short : list.length ≤ 1) : list.Pairwise R := by
  match list, short with
  | [], _ => exact .nil
  | [_], _ => exact List.pairwise_singleton _ _

theorem Side.admits {assumption : Expr} {target : Word} {r : StepResult}
    (h : Side s assumption target r) {x : Successor} (hx : x ∈ r.successors)
    (fine : x.isErrored = false) {σ : Assignment} (admits : x.state.Admits σ) :
    s.Admits σ ∧ assumption.value σ = 1 := by
  obtain ⟨t, narrows, -, rfl⟩ := h.narrows x hx fine
  exact (narrows.admits σ).mp admits

/-- A side goes where the instruction goes under its assumption. -/
theorem Side.executes {assumption : Expr} {target : Word} {r : StepResult} (hs : s.WellFormed)
    (h : Side s assumption target r)
    (machine : ∀ σ, assumption.value σ = 1 →
      (s.concrete σ).execute i = .running ((s.concrete σ).goTo target)) :
    ∀ x ∈ r.successors, x.isErrored = false → Executes s i x := by
  intro x hx fine
  obtain ⟨t, narrows, feasible, rfl⟩ := h.narrows x hx fine
  have after := (State.SamePath.refl t).setIp target
  have wellFormed := (narrows.wellFormed hs).setIp target
  refine executes_of_narrows (.refl s) narrows after wellFormed (fun _ => feasible) fun σ met => ?_
  rw [machine σ met, State.concrete_setIp, narrows.concrete_eq]

/-- The sides of opposite assumptions divide the inputs. -/
theorem Side.partition {yes no : StepResult} {condition negated : Expr} {taken next : Word}
    (taking : Side s condition taken yes) (passing : Side s negated next no)
    (opposite : ∀ σ, negated.value σ = 1 ↔ condition.value σ ≠ 1)
    (fine : ∀ x ∈ yes.successors ++ no.successors, x.isErrored = false) :
    s.constraints.Partition ((yes.successors ++ no.successors).map (·.state.constraints)) := by
  have fineYes : ∀ x ∈ yes.successors, x.isErrored = false := fun x hx =>
    fine x (List.mem_append_left _ hx)
  have fineNo : ∀ x ∈ no.successors, x.isErrored = false := fun x hx =>
    fine x (List.mem_append_right _ hx)
  refine ⟨fun p hp σ sat => ?_, fun σ admits => ?_, ?_⟩
  · obtain ⟨x, hx, rfl⟩ := List.mem_map.mp hp
    rcases List.mem_append.mp hx with hx | hx
    · exact (taking.admits hx (fineYes x hx) sat).1
    · exact (passing.admits hx (fineNo x hx) sat).1
  · by_cases met : condition.value σ = 1
    · obtain ⟨x, hx, here⟩ := taking.covers fineYes σ admits met
      exact ⟨_, List.mem_map.mpr ⟨x, List.mem_append_left _ hx, rfl⟩, here⟩
    · obtain ⟨x, hx, here⟩ := passing.covers fineNo σ admits ((opposite σ).mpr met)
      exact ⟨_, List.mem_map.mpr ⟨x, List.mem_append_right _ hx, rfl⟩, here⟩
  · rw [List.pairwise_map, List.pairwise_append]
    refine ⟨pairwise_of_length_le_one taking.single, pairwise_of_length_le_one passing.single,
      fun x hx y hy σ here there => ?_⟩
    have holds := (taking.admits hx (fineYes x hx) here).2
    have fails := (opposite σ).mp (passing.admits hy (fineNo y hy) there).2
    exact fails holds

theorem gives_branch (hs : s.WellFormed) {condition : Expr} (hc : condition.WellFormed)
    (oneBit : condition.width = 1)
    (about : ∀ c cs, c = condition ∨ condition.lnot = .ok c → s.constraints.push c = .ok cs → K cs)
    {taken next : Word}
    (machine : ∀ σ, (s.concrete σ).execute i =
      .running ((s.concrete σ).goTo (if condition.value σ = 1 then taken else next))) :
    Gives K (branch s condition taken next) (StepResult.Exact s i cap) := by
  unfold branch
  split
  · rename_i v known
    have pinned : ∀ σ, condition.value σ = v := value_of_const? known
    have path := (State.SamePath.refl s).setIp (if v = 1 then taken else next)
    refine .pure (.single (executes_of_samePath hs path (hs.setIp _) fun σ => ?_) rfl)
    rw [machine, pinned, State.concrete_setIp]
  · refine .bind (.orFault _) fun negated built => ?_
    have hn := (lnot_denotes hc built).wellFormed
    have opposite := value_lnot ⟨hc, oneBit⟩ built
    refine .bind (gives_side hs hc (fun cs => about _ cs (.inl rfl)) taken) fun yes taking => ?_
    refine .bind (gives_side hs hn (fun cs => about _ cs (.inr built)) next) fun no passing => .pure ?_
    refine ⟨fun x hx fine => ?_, fun t reason ht => ?_, fun _ => taking.partition passing opposite⟩
    · rcases List.mem_append.mp hx with hx | hx
      · exact taking.executes hs (fun σ met => by rw [machine, if_pos met]) x hx fine
      · refine passing.executes hs (fun σ met => ?_) x hx fine
        rw [machine, if_neg ((opposite σ).mp met)]
    · rcases List.mem_append.mp ht with ht | ht
      · exact taking.failed t reason ht
      · exact passing.failed t reason ht

theorem effectiveAddress_ok (hs : s.WellFormed) {base : Operand} {offset : Int32} {e : Expr}
    (built : s.effectiveAddress base offset = .ok e) :
    e.WellFormed ∧
      ∀ σ, e.value σ = (s.concrete σ).operand base + Word.ofSigned offset.toInt := by
  obtain ⟨he, values⟩ :=
    mkBinary_alu (hs.operand base) ⟨State.word_wellFormed _, rfl⟩ .add built
  refine ⟨he, fun σ => ?_⟩
  rw [values, State.operand_concrete]
  exact congrArg _ (value_const _ _)

theorem gives_load (hs : s.WellFormed) (about : K s.constraints) {dst : Register} {base : Operand} {offset : Int32}
    {size : UInt8} (opcode : i.opcode = .load dst base offset size) :
    Gives K (execute s i cap) (StepResult.Exact s i cap) := by
  simp only [execute, opcode]
  refine .bind (.orFault _) fun address built => ?_
  obtain ⟨ha, values⟩ := effectiveAddress_ok hs built
  refine .bind (State.gives_readResolved hs about ha _ cap) fun loaded given => .pure ?_
  obtain ⟨each, partition⟩ := given
  refine .ofStates (fun t ht => ?_) fun below => by
    rw [List.map_map]
    exact partition below
  obtain ⟨⟨u, v⟩, hu, rfl⟩ := List.mem_map.mp ht
  obtain ⟨a, narrows, feasible, read⟩ := each _ hu
  have wellFormed := narrows.wellFormed hs
  have hv := wellFormed.readMemory read
  have after := (State.SamePath.writeRegister u dst v).setIp i.fallthrough
  refine executes_of_narrows (.refl s) narrows after ((wellFormed.writeRegister dst hv).setIp _)
    feasible fun σ reached => ?_
  rw [State.concrete_setIp, State.concrete_writeRegister dst hv, ← State.load_concrete wellFormed read,
    narrows.concrete_eq, ← reached, values]
  simp only [Machine.execute, opcode]

/-- The low bytes of a stored word. -/
theorem stored_low (hs : s.WellFormed) {src : Operand} {size : UInt8} {v : Expr}
    (valid : size ∈ Opcode.accessSizes)
    (built : (if size < 8 then mkExtract (size.toNat * 8 - 1) 0 (s.operand src)
      else .ok (s.operand src)) = .ok v) :
    v.WellFormed ∧ v.width = 8 * size.toNat ∧
      ∀ σ, (v.value σ).toNat = ((s.concrete σ).operand src).toNat % 256 ^ size.toNat := by
  obtain ⟨hx, width⟩ := hs.operand src
  have sizes : size.toNat = 1 ∨ size.toNat = 2 ∨ size.toNat = 4 ∨ size.toNat = 8 := by
    simp only [Opcode.accessSizes, List.mem_cons, List.not_mem_nil, or_false] at valid
    rcases valid with rfl | rfl | rfl | rfl <;> decide
  simp only [State.operand_concrete]
  split at built
  · have denotes := mkExtract_denotes hx built
    have bits : size.toNat * 8 - 1 - 0 + 1 = 8 * size.toNat := by omega
    refine ⟨denotes.wellFormed, denotes.width_eq.trans bits, fun σ => ?_⟩
    rw [Option.some.inj (denotes.some_value σ), Word.toNat_slice (by omega) (by omega), bits,
      Nat.pow_mul]
    simp
  · rename_i full
    cases built
    have eight : size.toNat = 8 := by
      have : ¬ size.toNat < 8 := full
      omega
    refine ⟨hx, by omega, fun σ => ?_⟩
    rw [eight]
    exact (Nat.mod_eq_of_lt ((s.operand src).value σ).toNat_lt).symm

theorem gives_store (hs : s.WellFormed) (about : K s.constraints) {src base : Operand} {offset : Int32} {size : UInt8}
    (opcode : i.opcode = .store src base offset size) (valid : size ∈ Opcode.accessSizes) : Gives K (execute s i cap) (StepResult.Exact s i cap) := by
  simp only [execute, opcode]
  refine .bind (.orFault _) fun address built => ?_
  obtain ⟨ha, values⟩ := effectiveAddress_ok hs built
  refine .bind (.orFault _) fun v low => ?_
  obtain ⟨hv, width, number⟩ := stored_low hs valid low
  refine .bind (State.gives_writeResolved hs about ha v cap) fun stored given => .pure ?_
  obtain ⟨each, partition⟩ := given
  refine .ofStates (fun t ht => ?_) fun below => by
    rw [List.map_map]
    exact partition below
  obtain ⟨after, member, rfl⟩ := List.mem_map.mp ht
  obtain ⟨u, a, narrows, feasible, written⟩ := each _ member
  have wellFormed := (narrows.wellFormed hs).writeMemory hv written
  have machine : ∀ σ, after.concrete σ =
      (u.concrete σ).store a size.toNat ((s.concrete σ).operand src) := fun σ =>
    State.concrete_writeMemory hv width (number σ) written
  have image := State.writeMemory_image hv written
  obtain ⟨m, -, rfl⟩ := State.writeMemory_ok written
  refine executes_of_narrows (.refl s) narrows ⟨image, rfl, rfl, rfl, rfl⟩ (wellFormed.setIp _)
    feasible fun σ reached => ?_
  rw [State.concrete_setIp, machine, narrows.concrete_eq, ← reached, values]
  simp only [Machine.execute, opcode]

/-- Every instruction is executed exactly. -/
theorem gives_execute (hs : s.WellFormed) (about : ∀ cs, Asks s i cs → K cs)
    (sizes : ∀ n, i.opcode.accessSize? = some n → n ∈ Opcode.accessSizes) :
    Gives K (execute s i cap) (StepResult.Exact s i cap) := by
  cases opcode : i.opcode with
  | nop =>
      simp only [execute, opcode]
      have path := (State.SamePath.refl s).setIp i.fallthrough
      refine .pure (.single (executes_of_samePath hs path (hs.setIp _) fun σ => ?_) rfl)
      simp only [Machine.execute, opcode, State.concrete_setIp]
  | mov dst src =>
      simp only [execute, opcode]
      refine gives_assign hs (·.operand src) (fun e built => ?_)
        fun m => by simp only [Machine.execute, opcode]
      cases built
      exact ⟨(hs.operand src).1, fun σ => State.operand_concrete src ▸ rfl⟩
  | alu op dst lhs rhs =>
      simp only [execute, opcode]
      refine gives_assign hs (fun m => op.apply (m.regs lhs) (m.operand rhs)) (fun e built => ?_)
        fun m => by simp only [Machine.execute, opcode]
      obtain ⟨he, values⟩ := mkBinary_alu (hs.registers lhs) (hs.operand rhs) op built
      exact ⟨he, fun σ => State.operand_concrete rhs ▸ values σ⟩
  | not dst src =>
      simp only [execute, opcode]
      refine gives_assign hs (fun m => ~~~ m.regs src) (fun e built => ?_)
        fun m => by simp only [Machine.execute, opcode]
      have fold : ∀ v, Op.not.foldUnary v 64 = some (~~~ v) := fun v => congrArg some (truncate_word _)
      exact mkUnary_register hs src fold built
  | neg dst src =>
      simp only [execute, opcode]
      refine gives_assign hs (fun m => - m.regs src) (fun e built => ?_)
        fun m => by simp only [Machine.execute, opcode]
      have fold : ∀ v, Op.neg.foldUnary v 64 = some (- v) := fun v => by
        rw [Op.foldUnary, truncate_word, UInt64.zero_sub]
      exact mkUnary_register hs src fold built
  | set cond dst lhs rhs =>
      simp only [execute, opcode]
      refine gives_assign hs (fun m => if cond.holds (m.regs lhs) (m.operand rhs) then 1 else 0)
        (fun e built => ?_) fun m => by simp only [Machine.execute, opcode]
      obtain ⟨he, -, values⟩ := mkBinary_cmp (hs.registers lhs) (hs.operand rhs) cond built
      exact ⟨he, fun σ => State.operand_concrete rhs ▸ values σ⟩
  | load dst base offset size => exact gives_load hs (about _ .own) opcode
  | store src base offset size =>
      refine gives_store hs (about _ .own) opcode (sizes size ?_)
      rw [opcode]
      rfl
  | jump target =>
      simp only [execute, opcode]
      refine gives_transfer hs (.refl s) (about _ .own) (hs.operand target).1 fun σ => ?_
      simp only [Machine.execute, opcode, State.operand_concrete]
  | branch cond lhs rhs target =>
      simp only [execute, opcode]
      refine .bind (.orFault _) fun condition built => ?_
      obtain ⟨hc, oneBit, values⟩ := mkBinary_cmp (hs.registers lhs) (hs.operand rhs) cond built
      have asked (c : Expr) (cs : Constraints) (sides : c = condition ∨ condition.lnot = .ok c)
          (pushed : s.constraints.push c = .ok cs) : K cs :=
        about cs (.side opcode built sides pushed)
      refine gives_branch hs hc oneBit asked fun σ => ?_
      have decided : condition.value σ = 1 ↔
          cond.holds ((s.concrete σ).regs lhs) ((s.concrete σ).operand rhs) = true := by
        rw [values, State.operand_concrete]
        exact ite_eq_left_iff.trans (by simp [State.concrete, State.readRegister])
      simp only [Machine.execute, opcode, decided]
  | call target =>
      simp only [execute, opcode]
      have link := State.word_wellFormed i.fallthrough
      have path := State.SamePath.writeRegister s .lr (Expr.word i.fallthrough)
      refine gives_transfer (hs.writeRegister .lr link) path (about _ .own) (hs.operand target).1
        fun σ => ?_
      rw [State.concrete_writeRegister .lr link, ← State.operand_concrete]
      simp only [Machine.execute, opcode, Expr.word, value_const]
  | ret =>
      simp only [execute, opcode]
      refine gives_transfer hs (.refl s) (about _ .own) (hs.registers .lr).1 fun σ => ?_
      simp only [Machine.execute, opcode]
      rfl
  | halt =>
      simp only [execute, opcode]
      refine .pure (.single ⟨hs, rfl, rfl, rfl, rfl, fun σ admits => admits, id, fun σ _ => ?_⟩ rfl)
      simp only [Machine.execute, opcode]
      rfl

theorem ensures_count (f : StepStats → StepStats) : Ensures K (count f) fun _ => True :=
  fun _ exact => ⟨trivial, exact⟩

theorem lookup_eq_none {hooks : HookTable} (empty : hooks.size = 0) (address : Word) :
    hooks.lookup? address = none := by
  apply Std.TreeMap.getElem?_of_isEmpty
  rw [Std.TreeMap.isEmpty_eq_size_eq_zero]
  exact beq_iff_eq.mpr empty

theorem Asks.of_recordStep {cs : Constraints} (h : Asks s.recordStep i cs) : Asks s i cs := by
  cases h with
  | own => exact .own
  | side opcode built sides pushed => exact .side opcode built sides pushed

/-- Where no hook stands, a step either fails, and keeps the state, or executes the instruction at the
    address of the state. -/
theorem ensures_unhooked {hooks : HookTable} (free : hooks.lookup? s.ip = none) (hs : s.WellFormed)
    (about : ∀ cs, s.Asks cs → K cs) :
    Ensures K (step hooks cap s) fun r =>
      (∃ reason, r.successors = [.errored s.recordStep reason]) ∨
        ∃ i, s.memory.image.decode s.ip = .ok i ∧ StepResult.Exact s.recordStep i cap r := by
  have counted : s.recordStep.WellFormed := ⟨hs.registers, hs.memory, hs.constraints⟩
  have here : hooks.lookup? s.recordStep.ip = none := free
  unfold step
  simp only [here]
  split
  · exact .bind (ensures_count _) fun _ _ => .pure (.inl ⟨_, rfl⟩)
  · rename_i i decoded
    have sizes : ∀ n, i.opcode.accessSize? = some n → n ∈ Opcode.accessSizes := fun n access =>
      Program.decode_accessSize decoded access
    refine .bind (ensures_count _) fun _ _ => ?_
    have asked (cs : Constraints) (asks : Asks s.recordStep i cs) : K cs :=
      about cs ⟨i, decoded, asks.of_recordStep⟩
    refine .bind (gives_execute counted asked sizes) fun result given => ?_
    cases result with
    | ok r =>
        simp only [pure_bind]
        exact .bind (ensures_count _) fun _ _ => .pure (.inr ⟨i, decoded, given r rfl⟩)
    | error reason =>
        simp only [pure_bind]
        exact .bind (ensures_count _) fun _ _ => .pure (.inl ⟨_, rfl⟩)

/-- Without hooks, a step either fails or executes the instruction at the address of the state. -/
theorem ensures_step {hooks : HookTable} (empty : hooks.size = 0) (hs : s.WellFormed)
    (about : ∀ cs, s.Asks cs → K cs) :
    Ensures K (step hooks cap s) fun r =>
      (∃ t reason, r.successors = [.errored t reason]) ∨
        ∃ i, s.memory.image.decode s.ip = .ok i ∧ StepResult.Exact s.recordStep i cap r :=
  (ensures_unhooked (lookup_eq_none empty _) hs about).mono fun _ outcome =>
    outcome.imp_left fun ⟨reason, failed⟩ => ⟨s.recordStep, reason, failed⟩

/-- A step without failures is exact: every input of the state goes on in exactly one successor, as
    the machine after the instruction, and no successor has other inputs. -/
theorem step_exact {hooks : HookTable} (empty : hooks.size = 0) (below : cap < 0xffffffffffffffff)
    (hs : s.WellFormed) {session after : Session} (exact : session.solver.ExactOn s.Asks) {r : StepResult}
    (ran : (step hooks cap s).run session = (r, after))
    (fine : ∀ x ∈ r.successors, x.isErrored = false) :
    ∃ i, s.memory.image.decode s.ip = .ok i ∧
      (∀ σ, s.Admits σ → ∃ k : Fin r.successors.length,
        (r.successors.get k).state.Admits σ ∧
        (r.successors.get k).stepped? σ = some ((s.concrete σ).execute i) ∧
        ∀ j : Fin r.successors.length, (r.successors.get j).state.Admits σ → j = k) ∧
      ∀ x ∈ r.successors, ∀ σ, x.state.Admits σ → s.Admits σ := by
  obtain ⟨outcome, -⟩ := ensures_step empty hs (fun _ => id) session exact
  rw [ran] at outcome
  rcases outcome with ⟨t, reason, failed⟩ | ⟨i, decoded, executed⟩
  · have member : Successor.errored t reason ∈ r.successors := failed ▸ List.mem_singleton_self _
    cases fine _ member
  · have partition := executed.partition below fine
    refine ⟨i, decoded, fun σ admits => ?_, fun x hx σ admits => ?_⟩
    · obtain ⟨k, here, only⟩ := partition.unique admits
      have member := List.get_mem r.successors k
      have machine := (executed.executes _ member (fine _ member)).machine σ here
      exact ⟨k, here, machine, only⟩
    · exact (executed.executes x hx (fine x hx)).within σ admits

/-- A state in front of code, with an input in the first register. -/
def inFrontOf (code : List Opcode) : State :=
  let region : Region := ⟨0x1000, (code.flatMap Opcode.encode).toArray, true⟩
  (State.start { entry := 0x1000, regions := [region] } .zero 0).makeSymbolicRegister .r0 "x"

theorem inFrontOf_wellFormed (code : List Opcode) : (inFrontOf code).WellFormed :=
  (State.WellFormed.start _ _ _).makeSymbolicRegister .r0 "x"

theorem step_exact_increment :
    let s := inFrontOf [.alu .add .r0 .r0 (.imm 1)]
    let r := ((step {} 16 s).run { solver := .new .perfect {} }).1
    ∃ i, s.memory.image.decode s.ip = .ok i ∧
      (∀ σ, s.Admits σ → ∃ k : Fin r.successors.length,
        (r.successors.get k).state.Admits σ ∧
        (r.successors.get k).stepped? σ = some ((s.concrete σ).execute i) ∧
        ∀ j : Fin r.successors.length, (r.successors.get j).state.Admits σ → j = k) ∧
      ∀ x ∈ r.successors, ∀ σ, x.state.Admits σ → s.Admits σ := by
  have decoded : (inFrontOf [.alu .add .r0 .r0 (.imm 1)]).memory.image.decode 0x1000 =
      .ok ⟨0x1000, 13, .alu .add .r0 .r0 (.imm 1)⟩ := rfl
  have unconstrained (cs : Constraints) (h : (inFrontOf [.alu .add .r0 .r0 (.imm 1)]).Asks cs) :
      cs = {} := by
    obtain ⟨i, here, asks⟩ := h
    obtain rfl := Except.ok.inj (decoded.symm.trans here)
    cases asks with
    | own => rfl
    | side opcode => cases opcode
  have exact : (Solver.new .perfect {}).ExactOn (inFrontOf [.alu .add .r0 .r0 (.imm 1)]).Asks :=
    Solver.exactOn_new Smt.Backend.perfect_exact {} fun _ cs ds hcs hds _ =>
      (unconstrained cs hcs).trans (unconstrained ds hds).symm
  have fine : (((step {} 16 (inFrontOf [.alu .add .r0 .r0 (.imm 1)])).run
      { solver := .new .perfect {} }).1.successors.all fun x => !x.isErrored) = true := rfl
  refine step_exact rfl (by decide) (inFrontOf_wellFormed _) exact (Prod.eta _).symm fun x hx => ?_
  simpa using List.all_eq_true.mp fine x hx

end Step

end PathSearch
