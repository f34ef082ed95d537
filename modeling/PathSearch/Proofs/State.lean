import PathSearch.Proofs.Concrete
import PathSearch.Proofs.Memory
import PathSearch.State.Basic
import PathSearch.Step

/-! # What a state stands for

Under an assignment a symbolic state is a state of the concrete machine. The operations that a step
uses act on the two in the same way.
-/

namespace PathSearch

open Word PathSearch.Expr

namespace Constraints

/-- Every constraint is a well-formed bit. -/
def WellFormed (cs : Constraints) : Prop := ∀ c ∈ cs.items, c.WellFormed ∧ c.width = 1

/-- Every constraint is 1. -/
def SatisfiedBy (cs : Constraints) (σ : Assignment) : Prop :=
  ∀ c ∈ cs.items, c.evaluate σ.bindings = some 1

theorem satisfiedBy_iff {cs : Constraints} (hcs : cs.WellFormed) (σ : Assignment) :
    cs.SatisfiedBy σ ↔ ∀ c ∈ cs.items, c.value σ = 1 := by
  refine forall₂_congr fun c hc => ?_
  rw [(hcs c hc).1.evaluate_eq, Option.some.injEq]

theorem satisfiedBy_append {cs : Constraints} {c : Expr} (hc : c.WellFormed) (σ : Assignment) :
    (cs.append c).SatisfiedBy σ ↔ cs.SatisfiedBy σ ∧ c.value σ = 1 := by
  simp [SatisfiedBy, append, or_imp, forall_and, hc.evaluate_eq]

/-- A constraint that is accepted holds from then on, beside those before it. -/
theorem push_ok {cs cs' : Constraints} {c : Expr} (hc : c.WellFormed) (h : cs.push c = .ok cs') :
    (cs.WellFormed → cs'.WellFormed) ∧
      ∀ σ, cs'.SatisfiedBy σ ↔ cs.SatisfiedBy σ ∧ c.value σ = 1 := by
  obtain ⟨_, checked, result⟩ := bind_ok h
  have oneBit : c.width = 1 := (expectWidth_ok checked).symm
  cases result
  split
  · rename_i always
    simp only [Expr.isTrue, Bool.and_eq_true, beq_iff_eq] at always
    refine ⟨id, fun σ => ?_⟩
    simp [value_of_const? always.2]
  · refine ⟨fun hcs x hx => ?_, satisfiedBy_append hc⟩
    simp only [append, List.mem_append, List.mem_singleton] at hx
    rcases hx with old | rfl
    · exact hcs x old
    · exact ⟨hc, oneBit⟩

end Constraints

namespace Registers

/-- Every register holds a well-formed word. -/
def WellFormed (rs : Registers) : Prop := ∀ r, (rs.get r).WellFormed ∧ (rs.get r).width = 64

/-- A register holds a value of 64 bits with the same number. -/
theorem widen_denotes {v : Expr} (hv : v.WellFormed) :
    (widen v).WellFormed ∧ (widen v).width = 64 ∧ ∀ σ, (widen v).value σ = v.value σ := by
  have atMost := hv.width_le
  unfold widen
  split
  · rename_i narrow
    obtain ⟨e, built⟩ : ∃ e, mkZext v 64 = .ok e := mkZext_total (by omega) (by omega) (by omega)
    have denotes := mkZext_denotes hv built
    rw [built]
    exact ⟨denotes.wellFormed, denotes.width_eq, fun σ => Option.some.inj (denotes.some_value σ)⟩
  · exact ⟨hv, by omega, fun _ => rfl⟩

theorem index_inj {q r : Register} : q.index = r.index ↔ q = r := by
  constructor
  · cases q <;> cases r <;> decide
  · rintro rfl
    rfl

theorem get_set (rs : Registers) (r q : Register) (v : Expr) :
    (rs.set r v).get q = if q = r then widen v else rs.get q := by
  have at_index (slots : Vector Expr 10) (i : Fin 10) : slots.get i = slots[i.val] := rfl
  simp only [get, set, at_index, Vector.getElem_set]
  by_cases same : q = r
  · simp [same]
  · have differs : ¬ r.index.val = q.index.val := fun h => same (index_inj.mp (Fin.ext h.symm))
    simp [same, differs]

theorem WellFormed.set {rs : Registers} (hr : rs.WellFormed) (r : Register) {v : Expr}
    (hv : v.WellFormed) : (rs.set r v).WellFormed := by
  intro q
  rw [get_set]
  split
  · obtain ⟨wellFormed, width, -⟩ := widen_denotes hv
    exact ⟨wellFormed, width⟩
  · exact hr q

end Registers

namespace State

/-- Registers hold words, memory holds bytes, and constraints are bits. -/
structure WellFormed (s : State) : Prop where
  registers : s.registers.WellFormed
  memory : s.memory.WellFormed
  constraints : s.constraints.WellFormed

/-- The machine that a state is under an assignment. -/
def concrete (σ : Assignment) (s : State) : Machine where
  ip := s.ip
  regs r := (s.readRegister r).value σ
  mem address := ((s.memory.byte address).value σ).toUInt8

/-- The inputs that take the path of the state. -/
def Admits (s : State) (σ : Assignment) : Prop := s.constraints.SatisfiedBy σ

theorem admits_congr {s t : State} (same : s.constraints = t.constraints) (σ : Assignment) :
    s.Admits σ ↔ t.Admits σ := by
  rw [Admits, Admits, same]

variable {σ : Assignment} {s : State}

theorem concrete_setIp (address : Word) : (s.setIp address).concrete σ = (s.concrete σ).goTo address :=
  rfl

theorem concrete_writeRegister (r : Register) {v : Expr} (hv : v.WellFormed) :
    (s.writeRegister r v).concrete σ = (s.concrete σ).setReg r (v.value σ) := by
  have regs : (fun q => ((s.registers.set r v).get q).value σ) =
      fun q => if q = r then v.value σ else (s.registers.get q).value σ := by
    funext q
    rw [Registers.get_set]
    split
    · exact (Registers.widen_denotes hv).2.2 σ
    · rfl
  simp only [concrete, writeRegister, readRegister, Machine.setReg, regs]

theorem word_wellFormed (v : Word) : (Expr.word v).WellFormed := ⟨by omega, by omega, v.toNat_lt⟩

/-- A state at the entry of an image is well-formed. -/
theorem WellFormed.start (image : Program) (uninitialized : Uninitialized) (id : Nat) :
    (State.start image uninitialized id).WellFormed where
  registers r := by
    have zero : (State.start image uninitialized id).registers.get r = Expr.word 0 := by
      cases r <;> rfl
    rw [zero]
    exact ⟨word_wellFormed 0, rfl⟩
  memory := Memory.wellFormed_start image uninitialized
  constraints c hc := by cases hc

theorem WellFormed.operand (hs : s.WellFormed) (o : Operand) :
    (s.operand o).WellFormed ∧ (s.operand o).width = 64 := by
  cases o with
  | reg r => exact hs.registers r
  | imm v => exact ⟨word_wellFormed v, rfl⟩

theorem operand_concrete (o : Operand) : (s.concrete σ).operand o = (s.operand o).value σ := by
  cases o with
  | reg r => rfl
  | imm v => exact (value_const v 64).symm

theorem WellFormed.setIp (hs : s.WellFormed) (address : Word) : (s.setIp address).WellFormed :=
  ⟨hs.registers, hs.memory, hs.constraints⟩

theorem WellFormed.writeRegister (hs : s.WellFormed) (r : Register) {v : Expr} (hv : v.WellFormed) :
    (s.writeRegister r v).WellFormed :=
  ⟨hs.registers.set r hv, hs.memory, hs.constraints⟩

theorem WellFormed.makeSymbolicRegister (hs : s.WellFormed) (r : Register) (name : String) :
    (s.makeSymbolicRegister r name).WellFormed := by
  have input : (Expr.var name 64).WellFormed := ⟨by omega, by omega⟩
  have written := hs.writeRegister r input
  exact ⟨written.registers, written.memory, written.constraints⟩

theorem WellFormed.readMemory (hs : s.WellFormed) {address : Word} {size : Nat} {v : Expr}
    (h : s.readMemory address size = .ok v) : v.WellFormed :=
  (Memory.read_ok hs.memory h).1

theorem load_concrete (hs : s.WellFormed) {address : Word} {size : Nat} {v : Expr}
    (h : s.readMemory address size = .ok v) : (s.concrete σ).load address size = v.value σ := by
  obtain ⟨-, -, number⟩ := Memory.read_ok hs.memory h
  simp only [Machine.load, concrete]
  rw [← number σ, UInt64.ofNat_toNat]

/-- A digit of a number is found in its remainder, if that has enough digits. -/
theorem digit_mod {n k size : Nat} (inside : k < size) :
    n % 256 ^ size / 256 ^ k % 256 = n / 256 ^ k % 256 := by
  have slices : n / 2 ^ 0 % 2 ^ (8 * size) / 2 ^ (8 * k) % 2 ^ 8 = n / 2 ^ (8 * k + 0) % 2 ^ 8 :=
    Word.slice_slice n (by omega)
  simpa [Nat.pow_mul] using slices

theorem writeMemory_ok {t : State} {address : Word} {v : Expr} (h : s.writeMemory address v = .ok t) :
    ∃ m, s.memory.write address v = .ok m ∧ t = { s with memory := m } := by
  obtain ⟨m, written, result⟩ := bind_ok h
  exact ⟨m, written, (Except.ok.inj result).symm⟩

/-- A number of bytes that is written is what the machine stores, if its value is the low part of the
    word. -/
theorem concrete_writeMemory {t : State} {address : Word} {size : Nat} {v : Expr} {w : Word}
    (hv : v.WellFormed) (width : v.width = 8 * size) (low : (v.value σ).toNat = w.toNat % 256 ^ size)
    (h : s.writeMemory address v = .ok t) : t.concrete σ = (s.concrete σ).store address size w := by
  obtain ⟨m, written, rfl⟩ := writeMemory_ok h
  obtain ⟨-, -, others, bytes⟩ := Memory.write_ok hv written
  have count : v.width / 8 = size := by omega
  rw [count] at others bytes
  have mem : (fun b => ((m.byte b).value σ).toUInt8) = ((s.concrete σ).store address size w).mem := by
    funext b
    simp only [Machine.store, concrete]
    split
    · rename_i inside
      apply UInt8.toNat_inj.mp
      rw [UInt64.toNat_toUInt8, (bytes b inside).2 σ, low, digit_mod inside]
      simp
    · rename_i outside
      rw [others b outside]
  exact congrArg (Machine.mk s.ip fun r => (s.readRegister r).value σ) mem

theorem WellFormed.writeMemory {t : State} (hs : s.WellFormed) {address : Word} {v : Expr}
    (hv : v.WellFormed) (h : s.writeMemory address v = .ok t) : t.WellFormed := by
  obtain ⟨m, written, rfl⟩ := writeMemory_ok h
  exact ⟨hs.registers, hs.memory.write hv written, hs.constraints⟩

theorem writeMemory_image {t : State} {address : Word} {v : Expr} (hv : v.WellFormed)
    (h : s.writeMemory address v = .ok t) : t.memory.image = s.memory.image := by
  obtain ⟨m, written, rfl⟩ := writeMemory_ok h
  exact (Memory.write_ok hv written).2.1

end State

end PathSearch
