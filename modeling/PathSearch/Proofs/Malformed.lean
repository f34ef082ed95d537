import PathSearch.Proofs.Codec

/-! # Bytes that are no instruction

Each field is checked as it is read, so that a fault shows as soon as the byte that causes it is
there, and later bytes do not change it. Where the bytes end too early, nothing that was read is
wrong, and some bytes behind it make up an instruction. Both hold of the reader of every field and
pass from the fields to what reads them one after the other.
-/

namespace PathSearch

namespace FieldReader

variable {α β : Type} {input : List UInt8}

theorem run_bind_eq_error {x : FieldReader α} {f : α → FieldReader β} {fault : DecodeFault} :
    (x >>= f).run input = .error fault ↔
      x.run input = .error fault ∨
      ∃ a between, x.run input = .ok (a, between) ∧ (f a).run between = .error fault := by
  rw [StateT.run_bind]
  cases read : x.run input with
  | error found =>
      change Except.error found = Except.error fault ↔ Except.error found = Except.error fault ∨ _
      simp
  | ok first =>
      constructor
      · intro failed
        exact .inr ⟨first.1, first.2, rfl, failed⟩
      · rintro (⟨⟨⟩⟩ | ⟨a, between, ⟨⟩, failed⟩)
        exact failed

theorem run_pure_ne_error {a : α} {fault : DecodeFault} :
    (pure a : FieldReader α).run input ≠ .error fault := nofun

theorem run_throw_eq_error {fault found : DecodeFault} :
    (throw fault : FieldReader α).run input = .error found ↔ fault = found := by
  change Except.error fault = Except.error found ↔ _
  rw [Except.error.injEq]

theorem run_bytes_eq_error {n : Nat} {fault : DecodeFault} :
    (bytes n).run input = .error fault ↔ input.length < n ∧ fault = .truncated := by
  by_cases short : input.length < n
  · simp [StateT.run, bytes, Bytes.split?, short, eq_comm]
  · simp [StateT.run, bytes, Bytes.split?, short]

/-- More bytes leave an answer as it is, and so they do a fault. Bytes that end too early are the
    front of some that are read to their end. -/
structure Orderly (x : FieldReader α) : Prop where
  keeps : ∀ {input rest a}, x.run input = .ok (a, rest) →
    ∀ later, x.run (input ++ later) = .ok (a, rest ++ later)
  faulty : ∀ {input fault}, x.run input = .error fault → fault ≠ .truncated →
    ∀ later, x.run (input ++ later) = .error fault
  completes : ∀ {input}, x.run input = .error .truncated →
    ∃ later a, x.run (input ++ later) = .ok (a, [])
  /-- Where the bytes come from is nothing a reader knows. -/
  placeless : ∀ {input}, x.run input ≠ .error .outsideCode

/-- An orderly reader that some bytes satisfy. -/
structure Readable (x : FieldReader α) : Prop extends Orderly x where
  reads : ∃ input a, x.run input = .ok (a, [])

namespace Orderly

theorem throw {fault : DecodeFault} (whole : fault ≠ .truncated) (placed : fault ≠ .outsideCode) :
    Orderly (throw fault : FieldReader α) where
  keeps read := absurd read run_throw_ne_ok
  faulty failed _ _ := failed
  completes failed := absurd (run_throw_eq_error.mp failed) whole
  placeless failed := placed (run_throw_eq_error.mp failed)

/-- One reader after another. Where bytes are missing for the first, some are needed with which the
    second can go on. -/
theorem bind {x : FieldReader α} {f : α → FieldReader β} (first : Orderly x)
    (next : ∀ a, Orderly (f a))
    (joins : ∀ {input}, x.run input = .error .truncated →
      ∃ later a, x.run (input ++ later) = .ok (a, []) ∧ ∃ back b, (f a).run back = .ok (b, [])) :
    Orderly (x >>= f) where
  keeps read later := by
    obtain ⟨a, between, read, read'⟩ := run_bind_eq_ok.mp read
    exact run_bind_eq_ok.mpr ⟨a, _, first.keeps read later, (next a).keeps read' later⟩
  faulty failed whole later := by
    obtain failed | ⟨a, between, read, failed⟩ := run_bind_eq_error.mp failed
    · exact run_bind_eq_error.mpr (.inl (first.faulty failed whole later))
    · have failed' := (next a).faulty failed whole later
      exact run_bind_eq_error.mpr (.inr ⟨a, _, first.keeps read later, failed'⟩)
  completes failed := by
    obtain failed | ⟨a, between, read, failed⟩ := run_bind_eq_error.mp failed
    · obtain ⟨front, a, read, back, b, read'⟩ := joins failed
      have read := first.keeps read back
      rw [List.append_assoc] at read
      exact ⟨front ++ back, b, run_bind_eq_ok.mpr ⟨a, _, read, read'⟩⟩
    · obtain ⟨later, b, read'⟩ := (next a).completes failed
      exact ⟨later, b, run_bind_eq_ok.mpr ⟨a, _, first.keeps read later, read'⟩⟩
  placeless failed := by
    obtain failed | ⟨a, between, -, failed⟩ := run_bind_eq_error.mp failed
    · exact first.placeless failed
    · exact (next a).placeless failed

end Orderly

namespace Readable

theorem pure (a : α) : Readable (pure a) where
  keeps read later := by
    obtain ⟨rfl, rfl⟩ := run_pure_eq_ok.mp read
    rfl
  faulty failed := absurd failed run_pure_ne_error
  completes failed := absurd failed run_pure_ne_error
  placeless := run_pure_ne_error
  reads := ⟨[], a, rfl⟩

theorem bind {x : FieldReader α} {f : α → FieldReader β} (first : Readable x)
    (next : ∀ a, Readable (f a)) : Readable (x >>= f) where
  toOrderly := by
    apply first.toOrderly.bind (fun a => (next a).toOrderly)
    intro input failed
    obtain ⟨later, a, read⟩ := first.completes failed
    exact ⟨later, a, read, (next a).reads⟩
  reads := by
    obtain ⟨front, a, read⟩ := first.reads
    obtain ⟨back, b, read'⟩ := (next a).reads
    have both : x.run (front ++ back) = .ok (a, back) := first.keeps read back
    exact ⟨front ++ back, b, run_bind_eq_ok.mpr ⟨a, back, both, read'⟩⟩

theorem bytes (n : Nat) : Readable (bytes n) where
  keeps read later := by
    rw [run_bytes_eq_ok] at read ⊢
    obtain ⟨rfl, length⟩ := read
    exact ⟨List.append_assoc _ _ _, length⟩
  faulty failed whole := absurd (run_bytes_eq_error.mp failed).2 whole
  completes {input} failed := by
    have short : input.length < n := (run_bytes_eq_error.mp failed).1
    have length : (input ++ List.replicate (n - input.length) 0).length = n := by
      rw [List.length_append, List.length_replicate]
      omega
    exact ⟨_, _, run_bytes_eq_ok.mpr ⟨(List.append_nil _).symm, length⟩⟩
  placeless failed := by
    cases (run_bytes_eq_error.mp failed).2
  reads := ⟨_, _, run_bytes_eq_ok.mpr ⟨(List.append_nil _).symm, List.length_replicate (a := 0)⟩⟩

theorem byte : Readable byte := (bytes 1).bind fun _ => pure _

theorem word : Readable word := (bytes 8).bind fun _ => pure _

theorem offset : Readable offset := (bytes 4).bind fun _ => pure _

/-- A byte decides how to go on. One byte that is right is enough, as where the byte is missing,
    any can be put there. -/
theorem byte_bind {f : UInt8 → FieldReader β} (next : ∀ b, Orderly (f b)) {b : UInt8}
    (right : Readable (f b)) : Readable (FieldReader.byte >>= f) where
  toOrderly := by
    apply byte.toOrderly.bind next
    intro input failed
    cases input with
    | nil => exact ⟨[b], b, run_byte_eq_ok.mpr rfl, right.reads⟩
    | cons b' rest =>
        have read : FieldReader.byte.run (b' :: rest) = .ok (b', rest) := run_byte_eq_ok.mpr rfl
        cases read.symm.trans failed
  reads := by
    obtain ⟨back, c, read⟩ := right.reads
    exact ⟨b :: back, c, run_bind_eq_ok.mpr ⟨b, back, run_byte_eq_ok.mpr rfl, read⟩⟩

/-- A field of one byte that numbers the values of a type. -/
theorem tabled {ofIndex? : Nat → Option α} {fault : UInt8 → DecodeFault} {a : α}
    (first : ofIndex? 0 = some a) (whole : ∀ b, fault b ≠ .truncated)
    (placed : ∀ b, fault b ≠ .outsideCode) :
    Readable (FieldReader.byte >>= fun b => orFault (ofIndex? b.toNat) (fault b)) := by
  apply byte_bind (b := 0)
  · intro b
    cases ofIndex? b.toNat with
    | some a => exact (pure a).toOrderly
    | none => exact .throw (whole b) (placed b)
  · change Readable (orFault (ofIndex? 0) (fault 0))
    rw [first]
    exact pure a

theorem register : Readable register := tabled (a := .r0) rfl nofun nofun

theorem aluOp : Readable aluOp := tabled (a := .add) rfl nofun nofun

theorem cmpOp : Readable cmpOp := tabled (a := .eq) rfl nofun nofun

theorem size : Readable size := by
  apply byte_bind (b := 1)
  · intro n
    split
    · exact (pure n).toOrderly
    · exact .throw nofun nofun
  · exact pure 1

theorem operand : Readable operand := by
  have reg : Readable (do return Operand.reg (← FieldReader.register)) :=
    register.bind fun _ => pure _
  have imm : Readable (do return Operand.imm (← FieldReader.word)) := word.bind fun _ => pure _
  apply byte_bind (b := 0)
  · intro tag
    split
    · exact reg.toOrderly
    split
    · exact imm.toOrderly
    · exact .throw nofun nofun
  · exact reg

/-- One case for every number of an instruction, with its fields in their order. -/
theorem opcode : Readable opcode := by
  apply byte_bind (b := 0)
  · intro number
    split
    · exact (pure _).toOrderly
    · exact (register.bind fun _ => operand.bind fun _ => pure _).toOrderly
    · exact (aluOp.bind fun _ => register.bind fun _ => register.bind fun _ =>
        operand.bind fun _ => pure _).toOrderly
    · exact (register.bind fun _ => register.bind fun _ => pure _).toOrderly
    · exact (register.bind fun _ => register.bind fun _ => pure _).toOrderly
    · exact (cmpOp.bind fun _ => register.bind fun _ => register.bind fun _ =>
        operand.bind fun _ => pure _).toOrderly
    · exact (size.bind fun _ => register.bind fun _ => operand.bind fun _ =>
        offset.bind fun _ => pure _).toOrderly
    · exact (size.bind fun _ => operand.bind fun _ => operand.bind fun _ =>
        offset.bind fun _ => pure _).toOrderly
    · exact (operand.bind fun _ => pure _).toOrderly
    · exact (cmpOp.bind fun _ => register.bind fun _ => operand.bind fun _ =>
        word.bind fun _ => pure _).toOrderly
    · exact (operand.bind fun _ => pure _).toOrderly
    · exact (pure _).toOrderly
    · exact (pure _).toOrderly
    · exact .throw nofun nofun
  · exact pure _

end Readable

theorem run_opcode_encode {op : Opcode} (sized : op.WellSized) (rest : List UInt8) :
    opcode.run (op.encode ++ rest) = .ok (op, rest) :=
  run_opcode_eq_ok.mpr ⟨sized, rfl⟩

/-- Bytes are missing exactly in the fronts of encodings. -/
theorem run_opcode_eq_truncated_iff : opcode.run input = .error .truncated ↔
    ∃ op : Opcode, op.WellSized ∧ input <+: op.encode ∧ input ≠ op.encode := by
  constructor
  · intro short
    obtain ⟨later, op, read⟩ := Readable.opcode.completes short
    obtain ⟨sized, whole⟩ := run_opcode_eq_ok.mp read
    rw [List.append_nil] at whole
    refine ⟨op, sized, ⟨later, whole⟩, ?_⟩
    rintro rfl
    have read := run_opcode_encode sized []
    rw [List.append_nil, short] at read
    cases read
  · rintro ⟨op, sized, ⟨later, whole⟩, proper⟩
    have encoded : opcode.run (input ++ later) = .ok (op, []) := by
      rw [whole]
      simpa using run_opcode_encode sized []
    cases read : opcode.run input with
    | ok answer =>
        -- what is read already is all that is read with the bytes behind it, so there are none
        obtain ⟨op', rest⟩ := answer
        have same := (Readable.opcode.keeps read later).symm.trans encoded
        simp only [Except.ok.injEq, Prod.mk.injEq, List.append_eq_nil_iff] at same
        obtain ⟨-, -, rfl⟩ := same
        exact absurd (by simpa using whole) proper
    | error fault =>
        by_cases missing : fault = .truncated
        · rw [missing]
        · cases (Readable.opcode.faulty read missing later).symm.trans encoded

end FieldReader

namespace Instruction

open FieldReader

variable {bytes : List UInt8} {address : Word}

theorem decode_eq_error_iff {e : DecodeError} : decode bytes address = .error e ↔
    FieldReader.opcode.run bytes = .error e.fault ∧ e.address = address := by
  unfold decode
  constructor
  · intro failed
    split at failed
    · cases failed
    · rename_i fault read
      cases failed
      exact ⟨read, rfl⟩
  · rintro ⟨read, rfl⟩
    rw [read]

/-- Every error names the address it was asked about. Bytes are truncated exactly if they are the
    front of an instruction and end before it does, and any other fault stands exactly where no
    bytes behind the given ones make an instruction of them. -/
theorem decode_faults (bytes : List UInt8) (address : Word) :
    (decode bytes address = .error ⟨address, .truncated⟩ ↔
      ∃ op : Opcode, op.WellSized ∧ bytes <+: op.encode ∧ bytes ≠ op.encode) ∧
    ∀ e, decode bytes address = .error e →
      e.address = address ∧ e.fault ≠ .outsideCode ∧
      (e.fault ≠ .truncated ↔
        ∀ (later : List UInt8) (place : Word) (i : Instruction),
          decode (bytes ++ later) place ≠ .ok i) := by
  constructor
  · rw [← run_opcode_eq_truncated_iff, decode_eq_error_iff]
    exact and_iff_left rfl
  · intro e failed
    obtain ⟨read, placed⟩ := decode_eq_error_iff.mp failed
    refine ⟨placed, ?_, ?_, ?_⟩
    · intro outside
      rw [outside] at read
      exact Readable.opcode.placeless read
    · intro whole later place i decoded
      have failed' : decode (bytes ++ later) place = .error ⟨place, e.fault⟩ :=
        decode_eq_error_iff.mpr ⟨Readable.opcode.faulty read whole later, rfl⟩
      cases decoded.symm.trans failed'
    · intro never missing
      rw [missing] at read
      obtain ⟨op, sized, ⟨later, whole⟩, -⟩ := run_opcode_eq_truncated_iff.mp read
      apply never later 0 ⟨0, op.encode.length, op⟩
      rw [whole]
      exact decode_eq_ok_iff.mpr ⟨op, sized, List.prefix_rfl, rfl⟩

/-- A jump whose target is cut off, and one whose target has a tag that does not exist. -/
theorem decode_faults_jump :
    decode [0x08, 0x01, 0x00, 0x10] 0x30 = .error ⟨0x30, .truncated⟩ ∧
      ∀ later place i, decode ([0x08, 0x07] ++ later) place ≠ .ok i := by
  constructor
  · have sized : (Opcode.jump (.imm 0x1000)).WellSized := .plain rfl
    exact (decode_faults _ 0x30).1.mpr ⟨.jump (.imm 0x1000), sized, by decide, by decide⟩
  · have failed : decode [0x08, 0x07] 0x30 = .error ⟨0x30, .invalidOperand 7⟩ := rfl
    exact ((decode_faults _ 0x30).2 _ failed).2.2.mp nofun

end Instruction

end PathSearch
