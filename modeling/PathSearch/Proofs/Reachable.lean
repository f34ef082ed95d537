import PathSearch.Proofs.Faultless
import PathSearch.Proofs.Search.MergeSound

/-! # States that can be reached

From a state at the entry of an image, by whatever a caller does with states and in whatever order,
only sound states are reached. So no state that is ever stepped ends in a fault.
-/

namespace PathSearch

open PathSearch.Expr

namespace State

/-- The states that the operations on states lead to. An operation is refused before it has changed
    anything, so the state it was asked of stays as it is; a step that fails gives the state with the
    step counted. Words and conditions handed over are any that the constructors of expressions give. -/
inductive Reachable : State → Prop where
  | start (image : Program) (uninitialized : Uninitialized) (id : Nat) :
      Reachable (.start image uninitialized id)
  | setIp {s : State} (h : Reachable s) (address : Word) : Reachable (s.setIp address)
  | fork {s : State} (h : Reachable s) (id : Nat) : Reachable (s.fork id)
  | writeRegister {s : State} (h : Reachable s) (r : Register) {v : Expr} (hv : v.WellFormed) :
      Reachable (s.writeRegister r v)
  | writeMemory {s t : State} (h : Reachable s) {address : Word} {v : Expr} (hv : v.WellFormed)
      (written : s.writeMemory address v = .ok t) : Reachable t
  | addConstraint {s t : State} (h : Reachable s) {c : Expr} (hc : c.WellFormed)
      (added : s.addConstraint c = .ok t) : Reachable t
  | recordInput {s : State} (h : Reachable s) (name : String) (value : Expr) :
      Reachable (s.recordInput name value)
  | makeSymbolicRegister {s : State} (h : Reachable s) (r : Register) (name : String) :
      Reachable (s.makeSymbolicRegister r name)
  | makeSymbolicMemory {s : State} (h : Reachable s) (address : Word) (length : Nat) (name : String) :
      Reachable (s.makeSymbolicMemory address length name)
  | addSymbolicStream {s : State} (h : Reachable s) (fd : Nat) (name : String) (length : Nat) :
      Reachable (s.addSymbolicStream fd name length)
  | addConcreteStream {s : State} (h : Reachable s) (fd : Nat) (known : List UInt8) :
      Reachable (s.addConcreteStream fd known)
  | readStream {s t : State} (h : Reachable s) {fd n : Nat} {bytes : List Expr}
      (read : s.readStream fd n = .ok (bytes, t)) : Reachable t
  | summary {s t : State} (h : Reachable s) {hook : String} {summary : Summary}
      (builtIn : ∀ run, summary ≠ .custom run) {n m : Nat} {states : List State}
      (given : (summary.apply hook s).run n = (.ok states, m)) (ht : t ∈ states) : Reachable t
  | step {s : State} (h : Reachable s) {hooks : HookTable} (builtIn : hooks.BuiltIn) (cap : Nat)
      (session : Session) {x : Successor}
      (hx : x ∈ ((Step.step hooks cap s).run session).1.successors) : Reachable x.state
  | merge {states : List State} (each : ∀ s ∈ states, Reachable s) {selector : String} {n n' : Nat}
      {m : State} (merged : (Merge.merge states selector).run n = (.ok m, n')) : Reachable m

variable {s t : State}

theorem Reachable.sound (h : s.Reachable) : s.Sound := by
  induction h with
  | start image uninitialized id => exact .start image uninitialized id
  | setIp _ address ih => exact (ih.setIp address).sound
  | fork _ id ih => exact (ih.fork id).sound
  | writeRegister _ r hv ih => exact (ih.writeRegister r hv).sound
  | writeMemory _ hv written ih => exact (ih.writeMemory hv written).sound
  | addConstraint _ hc added ih => exact (ih.addConstraint hc added).sound
  | recordInput _ name value ih => exact (ih.recordInput name value).sound
  | makeSymbolicRegister _ r name ih => exact (ih.makeSymbolicRegister r name).sound
  | makeSymbolicMemory _ address length name ih => exact (ih.makeSymbolicMemory address length name).sound
  | addSymbolicStream _ fd name length ih => exact (ih.addSymbolicStream fd name length).sound
  | addConcreteStream _ fd known ih => exact (ih.addConcreteStream fd known).sound
  | readStream _ read ih => exact (ih.readStream read).sound
  | summary _ builtIn given ht ih => exact (Summary.descends_apply builtIn ih given _ ht).sound
  | step _ builtIn cap session hx ih =>
      exact (Step.descends_step builtIn.givesDescendants cap ih session _ hx).sound
  | merge _ merged ih => exact Merge.sound_of_merge ih merged

/-- Registers hold words, what was written to memory and what streams have are bytes, constraints are
    bits that are not always true, and no stream is read beyond its end. -/
structure InOrder (s : State) : Prop where
  registers : ∀ r, (s.readRegister r).WellFormed ∧ (s.readRegister r).width = 64
  memory : ∀ (address : Word) (e : Expr), s.memory.written[address]? = some e →
    e.WellFormed ∧ e.width = 8
  streams : ∀ (fd : Nat) (stream : Stream), s.streams[fd]? = some stream →
    (∀ b ∈ stream.bytes, b.WellFormed ∧ b.width = 8) ∧ stream.position ≤ stream.length
  constraints : ∀ c ∈ s.constraints.items, c.WellFormed ∧ c.width = 1 ∧ c ≠ .const 1 1

theorem isTrue_eq_false_iff {c : Expr} (bit : c.width = 1) : c.isTrue = false ↔ c ≠ .const 1 1 := by
  rw [Expr.isTrue, bit, beq_self_eq_true, Bool.true_and, beq_eq_false_iff_ne, not_iff_not]
  constructor
  · intro always
    rw [const?_eq_some always, bit]
  · rintro rfl
    rfl

theorem inOrder_iff_sound : s.InOrder ↔ s.Sound := by
  have byte (e : Expr) : Memory.IsByte e ↔ e.WellFormed ∧ e.width = 8 :=
    ⟨fun h => ⟨h.wellFormed, h.width_eq⟩, fun h => ⟨h.1, h.2⟩⟩
  constructor
  · intro h
    refine ⟨⟨⟨h.registers, Memory.wellFormed_iff.mpr fun a e found => ?_, fun c hc => ?_⟩,
      fun fd stream opened b hb => ?_⟩, fun c hc => ?_⟩
    · exact (byte e).mpr (h.memory a e found)
    · exact ⟨(h.constraints c hc).1, (h.constraints c hc).2.1⟩
    · exact (byte b).mpr ((h.streams fd stream opened).1 b hb)
    · exact (isTrue_eq_false_iff (h.constraints c hc).2.1).mpr (h.constraints c hc).2.2
  · intro h
    refine ⟨h.registers, fun a e found => ?_, fun fd stream opened => ?_, fun c hc => ?_⟩
    · exact (byte e).mp (Memory.wellFormed_iff.mp h.memory a e found)
    · exact ⟨fun b hb => (byte b).mp (h.streams fd stream opened b hb), stream.position_le_length⟩
    · obtain ⟨hc', bit⟩ := h.constraints c hc
      exact ⟨hc', bit, (isTrue_eq_false_iff bit).mp (h.essential c hc)⟩

end State

/-- Every reachable state is in order, and a step of a state that is in order never ends in a fault,
    whatever hooks there are and whatever the solver answers. -/
theorem reachable_inOrder_faultless :
    (∀ s : State, s.Reachable → s.InOrder) ∧
    ∀ s : State, s.InOrder → ∀ (hooks : HookTable) (cap : Nat) (session : Session),
      ∀ x ∈ ((Step.step hooks cap s).run session).1.successors,
        ∀ (t : State) (text : String), x ≠ .errored t (.executionFault text) :=
  ⟨fun _ reachable => State.inOrder_iff_sound.mpr reachable.sound,
    fun _ inOrder hooks cap session x hx t text same =>
      Step.not_faulted_step hooks cap (State.inOrder_iff_sound.mp inOrder) session x hx ⟨t, text, same⟩⟩

/-- After a step, in front of a load at an input. -/
theorem reachable_inOrder_faultless_load :
    let s := Step.inFrontOf [.nop, .load .r1 (.reg .r0) 0 4]
    let t := s.recordStep.setIp 0x1001
    ((Step.step {} 16 s).run { solver := .new .perfect {} }).1.successors = [.active t] ∧ t.InOrder ∧
      ∀ x ∈ ((Step.step {} 16 t).run { solver := .new .perfect {} }).1.successors,
        ∀ u text, x ≠ .errored u (.executionFault text) := by
  have stepped : ((Step.step {} 16 (Step.inFrontOf [.nop, .load .r1 (.reg .r0) 0 4])).run
      { solver := .new .perfect {} }).1.successors =
      [.active ((Step.inFrontOf [.nop, .load .r1 (.reg .r0) 0 4]).recordStep.setIp 0x1001)] := rfl
  have start : (Step.inFrontOf [.nop, .load .r1 (.reg .r0) 0 4]).Reachable :=
    (State.Reachable.start _ _ _).makeSymbolicRegister .r0 "x"
  have unhooked : HookTable.BuiltIn {} := fun address h run found => by simp [HookTable.lookup?] at found
  have given := List.mem_of_mem_head? (congrArg List.head? stepped)
  have reached := start.step unhooked 16 { solver := .new .perfect {} } given
  have inOrder := reachable_inOrder_faultless.1 _ reached
  exact ⟨stepped, inOrder, reachable_inOrder_faultless.2 _ inOrder {} 16 { solver := .new .perfect {} }⟩

end PathSearch
