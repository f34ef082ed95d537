import Mathlib.Data.List.Nodup
import PathSearch.Machine.Program
import PathSearch.Proofs.Bytes

/-! # Instructions read back from their bytes

For each field, the reader takes what is written for a value and gives the value, and it takes
nothing else. As an instruction is its number and its fields one after the other, the same holds of
instructions: what decodes is the encoding of an instruction, whatever follows it.
-/

namespace PathSearch

/-- A load or store moves a possible number of bytes. -/
def Opcode.WellSized (op : Opcode) : Prop := ∀ n, op.accessSize? = some n → n ∈ accessSizes

namespace Opcode.WellSized

theorem plain {op : Opcode} (none : op.accessSize? = none) : op.WellSized := by
  intro n access
  rw [none] at access
  cases access

theorem moves {op : Opcode} {n : UInt8} (access : op.accessSize? = some n)
    (possible : n ∈ accessSizes) : op.WellSized := by
  intro m same
  obtain rfl : n = m := Option.some.inj (access.symm.trans same)
  exact possible

end Opcode.WellSized

section Tables

/-- In a table that lists every value once, a value and its place determine each other. -/
theorem getElem?_eq_some_iff_idxOf {α : Type} [DecidableEq α] {table : List α} (once : table.Nodup)
    (every : ∀ a, a ∈ table) {n : Nat} {a : α} : table[n]? = some a ↔ n = table.idxOf a := by
  rw [List.getElem?_eq_some_iff]
  constructor
  · rintro ⟨inside, rfl⟩
    exact (once.idxOf_getElem n inside).symm
  · rintro rfl
    exact ⟨List.idxOf_lt_length_of_mem (every a), List.getElem_idxOf _⟩

theorem Register.ofIndex?_eq_some_iff {n : Nat} {r : Register} :
    Register.ofIndex? n = some r ↔ n = r.index := by
  have place : (r.index : Nat) = Register.all.idxOf r := by cases r <;> rfl
  rw [place]
  exact getElem?_eq_some_iff_idxOf (by decide) (by intro r; cases r <;> decide)

theorem AluOp.ofIndex?_eq_some_iff {n : Nat} {op : AluOp} :
    AluOp.ofIndex? n = some op ↔ n = op.index :=
  getElem?_eq_some_iff_idxOf (by decide) (by intro op; cases op <;> decide)

theorem CmpOp.ofIndex?_eq_some_iff {n : Nat} {op : CmpOp} :
    CmpOp.ofIndex? n = some op ↔ n = op.index :=
  getElem?_eq_some_iff_idxOf (by decide) (by intro op; cases op <;> decide)

theorem Register.index_lt (r : Register) : (r.index : Nat) < 256 := by omega

theorem AluOp.index_lt (op : AluOp) : op.index < 256 := by cases op <;> decide

theorem CmpOp.index_lt (op : CmpOp) : op.index < 256 := by cases op <;> decide

end Tables

namespace FieldReader

variable {α β : Type} {input rest : List UInt8}

theorem run_pure_eq_ok {a b : α} :
    (pure a : FieldReader α).run input = .ok (b, rest) ↔ a = b ∧ input = rest := by
  rw [StateT.run_pure]
  change Except.ok (a, input) = Except.ok (b, rest) ↔ _
  rw [Except.ok.injEq, Prod.mk.injEq]

theorem run_throw_ne_ok {fault : DecodeFault} {a : α} :
    (throw fault : FieldReader α).run input ≠ .ok (a, rest) := nofun

theorem run_bind_eq_ok {x : FieldReader α} {f : α → FieldReader β} {b : β} :
    (x >>= f).run input = .ok (b, rest) ↔
      ∃ a between, x.run input = .ok (a, between) ∧ (f a).run between = .ok (b, rest) := by
  rw [StateT.run_bind]
  cases read : x.run input with
  | error fault =>
      constructor
      · nofun
      · rintro ⟨a, between, ⟨⟩, -⟩
  | ok first =>
      constructor
      · exact fun next => ⟨first.1, first.2, rfl, next⟩
      · rintro ⟨a, between, ⟨⟩, next⟩
        exact next

theorem run_orFault_eq_ok {value : Option α} {fault : DecodeFault} {a : α} :
    (orFault value fault).run input = .ok (a, rest) ↔ value = some a ∧ input = rest := by
  cases value with
  | none => exact ⟨fun given => absurd given run_throw_ne_ok, nofun⟩
  | some b => rw [orFault, run_pure_eq_ok, Option.some.injEq]

theorem run_bytes_eq_ok {n : Nat} {head : List UInt8} :
    (bytes n).run input = .ok (head, rest) ↔ input = head ++ rest ∧ head.length = n := by
  rw [← Bytes.split?_eq_some_iff]
  simp only [StateT.run, bytes]
  split
  · rename_i split
    rw [split, Except.ok.injEq, Option.some.injEq]
  · rename_i short
    rw [short]
    exact ⟨nofun, nofun⟩

/-- A field of a fixed number of bytes. -/
theorem run_fixed_eq_ok {n : Nat} {read : List UInt8 → α} (write : α → List UInt8) {a : α}
    (length : ∀ a, (write a).length = n) (read_write : ∀ a, read (write a) = a)
    (write_read : ∀ head, head.length = n → write (read head) = head) :
    (bytes n >>= fun head => pure (read head)).run input = .ok (a, rest) ↔
      input = write a ++ rest := by
  simp only [run_bind_eq_ok, run_bytes_eq_ok, run_pure_eq_ok]
  constructor
  · rintro ⟨head, _, ⟨rfl, whole⟩, rfl, rfl⟩
    rw [write_read head whole]
  · rintro rfl
    exact ⟨write a, rest, ⟨rfl, length a⟩, read_write a, rfl⟩

theorem run_byte_eq_ok {b : UInt8} : byte.run input = .ok (b, rest) ↔ input = b :: rest := by
  refine run_fixed_eq_ok (fun b => [b]) (fun _ => rfl) (fun b => ?_) fun head one => ?_
  · rw [Bytes.ofLE, Bytes.ofLE, Nat.mul_zero, Nat.add_zero, UInt8.ofNat_toNat]
  · obtain ⟨b, rfl⟩ := List.length_eq_one_iff.mp one
    rw [Bytes.ofLE, Bytes.ofLE, Nat.mul_zero, Nat.add_zero, UInt8.ofNat_toNat]

theorem run_word_eq_ok {w : Word} :
    word.run input = .ok (w, rest) ↔ input = Bytes.toLE 8 w.toNat ++ rest := by
  refine run_fixed_eq_ok (fun w : Word => Bytes.toLE 8 w.toNat) (fun _ => Bytes.length_toLE _ _)
    (fun w => ?_) fun head whole => ?_
  · have fits : w.toNat < 256 ^ 8 := w.toNat_lt
    rw [Bytes.ofLE_toLE, Nat.mod_eq_of_lt fits, UInt64.ofNat_toNat]
  · have small : Bytes.ofLE head < 2 ^ 64 := by
      have bound := Bytes.ofLE_lt head
      rwa [whole] at bound
    rw [UInt64.toNat_ofNat', Nat.mod_eq_of_lt small, ← whole, Bytes.toLE_ofLE]

theorem run_offset_eq_ok {o : Int32} :
    offset.run input = .ok (o, rest) ↔ input = Opcode.encodeOffset o ++ rest := by
  refine run_fixed_eq_ok Opcode.encodeOffset (fun _ => Bytes.IntType.length_encode _ _) (fun o => ?_)
    fun head whole => ?_
  · have fits : Bytes.IntType.i32.Fits o.toInt := Bytes.IntType.fits_i32.mpr ⟨o.le_toInt, o.toInt_lt⟩
    rw [Opcode.encodeOffset, Bytes.IntType.decode_encode fits, Int32.ofInt_toInt]
  · obtain ⟨low, high⟩ := Bytes.IntType.fits_i32.mp (Bytes.IntType.fits_decode whole)
    rw [Opcode.encodeOffset, Int32.toInt_ofInt_of_le low high, Bytes.IntType.encode_decode whole]

/-- A field of one byte that numbers the values of a type. -/
theorem run_tabled_eq_ok {ofIndex? : Nat → Option α} {index : α → Nat} {fault : UInt8 → DecodeFault}
    (numbered : ∀ {n a}, ofIndex? n = some a ↔ n = index a) (small : ∀ a, index a < 256) {a : α} :
    (byte >>= fun b => orFault (ofIndex? b.toNat) (fault b)).run input = .ok (a, rest) ↔
      input = UInt8.ofNat (index a) :: rest := by
  simp only [run_bind_eq_ok, run_byte_eq_ok, run_orFault_eq_ok, numbered]
  constructor
  · rintro ⟨b, _, rfl, number, rfl⟩
    rw [← number, UInt8.ofNat_toNat]
  · rintro rfl
    exact ⟨_, rest, rfl, UInt8.toNat_ofNat_of_lt' (small a), rfl⟩

theorem run_register_eq_ok {r : Register} :
    register.run input = .ok (r, rest) ↔ input = UInt8.ofNat r.index :: rest :=
  run_tabled_eq_ok Register.ofIndex?_eq_some_iff Register.index_lt

theorem run_aluOp_eq_ok {op : AluOp} :
    aluOp.run input = .ok (op, rest) ↔ input = UInt8.ofNat op.index :: rest :=
  run_tabled_eq_ok AluOp.ofIndex?_eq_some_iff AluOp.index_lt

theorem run_cmpOp_eq_ok {op : CmpOp} :
    cmpOp.run input = .ok (op, rest) ↔ input = UInt8.ofNat op.index :: rest :=
  run_tabled_eq_ok CmpOp.ofIndex?_eq_some_iff CmpOp.index_lt

theorem run_operand_eq_ok {o : Operand} :
    operand.run input = .ok (o, rest) ↔ input = o.encode ++ rest := by
  rw [operand, run_bind_eq_ok]
  simp only [run_byte_eq_ok]
  constructor
  · rintro ⟨tag, between, rfl, read⟩
    split at read
    · rename_i zero
      simp only [run_bind_eq_ok, run_register_eq_ok, run_pure_eq_ok] at read
      obtain ⟨r, _, rfl, rfl, rfl⟩ := read
      rw [zero]
      rfl
    split at read
    · rename_i one
      simp only [run_bind_eq_ok, run_word_eq_ok, run_pure_eq_ok] at read
      obtain ⟨w, _, rfl, rfl, rfl⟩ := read
      rw [one]
      rfl
    · exact absurd read run_throw_ne_ok
  · rintro rfl
    cases o with
    | reg r =>
        refine ⟨0, _, rfl, ?_⟩
        simp only [↓reduceIte, run_bind_eq_ok, run_register_eq_ok, run_pure_eq_ok]
        exact ⟨r, rest, rfl, rfl, rfl⟩
    | imm w =>
        refine ⟨1, _, rfl, ?_⟩
        rw [if_neg (by decide), if_pos rfl]
        simp only [run_bind_eq_ok, run_word_eq_ok, run_pure_eq_ok]
        exact ⟨w, rest, rfl, rfl, rfl⟩

theorem run_size_eq_ok {n : UInt8} :
    size.run input = .ok (n, rest) ↔ n ∈ Opcode.accessSizes ∧ input = n :: rest := by
  rw [size, run_bind_eq_ok]
  simp only [run_byte_eq_ok]
  constructor
  · rintro ⟨m, between, rfl, read⟩
    split at read
    · obtain ⟨rfl, rfl⟩ := run_pure_eq_ok.mp read
      exact ⟨‹_›, rfl⟩
    · exact absurd read run_throw_ne_ok
  · rintro ⟨possible, rfl⟩
    refine ⟨n, rest, rfl, ?_⟩
    rw [if_pos possible]
    exact run_pure_eq_ok.mpr ⟨rfl, rfl⟩

/-- What is read as an instruction is the encoding of one that is well sized. -/
theorem run_opcode_eq_ok {op : Opcode} :
    opcode.run input = .ok (op, rest) ↔ op.WellSized ∧ input = op.encode ++ rest := by
  rw [opcode, run_bind_eq_ok]
  simp only [run_byte_eq_ok]
  constructor
  · rintro ⟨number, between, rfl, read⟩
    have numbered : ∀ {n}, number.toNat = n → number = UInt8.ofNat n := by
      rintro _ rfl
      exact UInt8.ofNat_toNat.symm
    -- a case for every number of an instruction, and one for all other bytes
    split at read <;> rename_i is
    case h_14 => exact absurd read run_throw_ne_ok
    all_goals
      rw [numbered is]
      simp only [run_bind_eq_ok, run_pure_eq_ok, run_register_eq_ok, run_operand_eq_ok,
        run_aluOp_eq_ok, run_cmpOp_eq_ok, run_size_eq_ok, run_word_eq_ok, run_offset_eq_ok] at read
    · obtain ⟨rfl, rfl⟩ := read
      exact ⟨.plain rfl, rfl⟩
    · obtain ⟨d, _, rfl, s, _, rfl, rfl, rfl⟩ := read
      exact ⟨.plain rfl, rfl⟩
    · obtain ⟨op, _, rfl, d, _, rfl, l, _, rfl, r, _, rfl, rfl, rfl⟩ := read
      exact ⟨.plain rfl, rfl⟩
    · obtain ⟨d, _, rfl, s, _, rfl, rfl, rfl⟩ := read
      exact ⟨.plain rfl, rfl⟩
    · obtain ⟨d, _, rfl, s, _, rfl, rfl, rfl⟩ := read
      exact ⟨.plain rfl, rfl⟩
    · obtain ⟨c, _, rfl, d, _, rfl, l, _, rfl, r, _, rfl, rfl, rfl⟩ := read
      exact ⟨.plain rfl, rfl⟩
    · obtain ⟨n, _, ⟨possible, rfl⟩, d, _, rfl, b, _, rfl, o, _, rfl, rfl, rfl⟩ := read
      refine ⟨.moves rfl possible, ?_⟩
      simp only [Opcode.encode, List.cons_append, List.append_assoc]
      rfl
    · obtain ⟨n, _, ⟨possible, rfl⟩, s, _, rfl, b, _, rfl, o, _, rfl, rfl, rfl⟩ := read
      refine ⟨.moves rfl possible, ?_⟩
      simp only [Opcode.encode, List.cons_append, List.append_assoc]
      rfl
    · obtain ⟨t, _, rfl, rfl, rfl⟩ := read
      exact ⟨.plain rfl, rfl⟩
    · obtain ⟨c, _, rfl, l, _, rfl, r, _, rfl, t, _, rfl, rfl, rfl⟩ := read
      refine ⟨.plain rfl, ?_⟩
      simp only [Opcode.encode, List.cons_append, List.append_assoc]
      rfl
    · obtain ⟨t, _, rfl, rfl, rfl⟩ := read
      exact ⟨.plain rfl, rfl⟩
    · obtain ⟨rfl, rfl⟩ := read
      exact ⟨.plain rfl, rfl⟩
    · obtain ⟨rfl, rfl⟩ := read
      exact ⟨.plain rfl, rfl⟩
  · rintro ⟨sized, rfl⟩
    cases op
    all_goals
      refine ⟨_, _, rfl, ?_⟩
      simp only [UInt8.reduceToNat, run_bind_eq_ok, run_pure_eq_ok, run_register_eq_ok,
        run_operand_eq_ok, run_aluOp_eq_ok, run_cmpOp_eq_ok, run_size_eq_ok, run_word_eq_ok,
        run_offset_eq_ok, List.append_eq, List.append_assoc]
    case nop | ret | halt => exact ⟨trivial, rfl⟩
    case jump t | call t => exact ⟨t, rest, rfl, rfl, rfl⟩
    case mov d s | not d s | neg d s => exact ⟨d, _, rfl, s, _, rfl, rfl, rfl⟩
    case alu op d l r | set op d l r =>
      exact ⟨op, _, rfl, d, _, rfl, l, _, rfl, r, _, rfl, rfl, rfl⟩
    case load d b o n =>
      exact ⟨n, _, ⟨sized n rfl, rfl⟩, d, _, rfl, b, _, rfl, o, _, rfl, rfl, rfl⟩
    case store s b o n =>
      exact ⟨n, _, ⟨sized n rfl, rfl⟩, s, _, rfl, b, _, rfl, o, _, rfl, rfl, rfl⟩
    case branch c l r t =>
      exact ⟨c, _, rfl, l, _, rfl, r, _, rfl, t, _, rfl, rfl, rfl⟩

end FieldReader

theorem Operand.length_encode_le (o : Operand) : o.encode.length ≤ 9 := by
  cases o with
  | reg r => exact Nat.le_of_ble_eq_true rfl
  | imm v =>
      have word : (Bytes.toLE 8 v.toNat).length = 8 := Bytes.length_toLE _ _
      exact Nat.le_of_eq (congrArg (· + 1) word)

namespace Opcode

theorem length_encode_pos (op : Opcode) : 1 ≤ op.encode.length := by
  cases op <;> exact Nat.le_add_left 1 _

theorem length_encode_le (op : Opcode) : op.encode.length ≤ maxLength := by
  have offset (o : Int32) : (encodeOffset o).length = 4 := Bytes.IntType.length_encode _ _
  have word (v : Word) : (Bytes.toLE 8 v.toNat).length = 8 := Bytes.length_toLE _ _
  cases op
  case mov d o | jump o | call o | alu op d l o | set op d l o | branch op l o t =>
    have := o.length_encode_le
    simp only [encode, List.length_cons, List.length_append, word, maxLength]
    omega
  case load d b o n =>
    have := b.length_encode_le
    simp only [encode, List.length_cons, List.length_append, offset, maxLength]
    omega
  case store s b o n =>
    have := s.length_encode_le
    have := b.length_encode_le
    simp only [encode, List.length_cons, List.length_append, offset, maxLength]
    omega
  case nop | not | neg | ret | halt => exact Nat.le_of_ble_eq_true rfl

end Opcode

namespace Instruction

variable {bytes : List UInt8} {address : Word}

/-- What decodes is the encoding of a well-sized instruction, and every such encoding does. -/
theorem decode_eq_ok_iff {i : Instruction} : decode bytes address = .ok i ↔
    ∃ op : Opcode, op.WellSized ∧ op.encode <+: bytes ∧ i = ⟨address, op.encode.length, op⟩ := by
  unfold decode
  constructor
  · intro decoded
    split at decoded
    · rename_i op rest read
      obtain ⟨sized, rfl⟩ := FieldReader.run_opcode_eq_ok.mp read
      cases decoded
      refine ⟨op, sized, List.prefix_append _ _, ?_⟩
      rw [List.length_append, Nat.add_sub_cancel]
    · cases decoded
  · rintro ⟨op, sized, ⟨rest, rfl⟩, rfl⟩
    rw [FieldReader.run_opcode_eq_ok.mpr ⟨sized, rfl⟩]
    simp only [List.length_append, Nat.add_sub_cancel]

/-- Bytes start with at most one encoding. -/
theorem encode_unique {op other : Opcode} (sized : op.WellSized) (sized' : other.WellSized)
    (starts : op.encode <+: bytes) (starts' : other.encode <+: bytes) : op = other := by
  have decoded : decode bytes 0 = .ok ⟨0, op.encode.length, op⟩ :=
    decode_eq_ok_iff.mpr ⟨op, sized, starts, rfl⟩
  have decoded' : decode bytes 0 = .ok ⟨0, other.encode.length, other⟩ :=
    decode_eq_ok_iff.mpr ⟨other, sized', starts', rfl⟩
  have same := Except.ok.inj (decoded.symm.trans decoded')
  exact congrArg Instruction.opcode same

/-- The decoder accepts the bytes that start with an encoding, and nothing else, and it gives the
    one instruction that they start with. -/
theorem decode_exact (bytes : List UInt8) (address : Word) :
    ((∃ i, decode bytes address = .ok i) ↔ ∃ op : Opcode, op.WellSized ∧ op.encode <+: bytes) ∧
    (∀ op : Opcode, op.WellSized → op.encode <+: bytes →
      decode bytes address = .ok ⟨address, op.encode.length, op⟩ ∧
      ∀ other : Opcode, other.WellSized → other.encode <+: bytes → other = op) ∧
    (∀ i, decode bytes address = .ok i →
      i.opcode.WellSized ∧ i.address = address ∧ i.length = i.opcode.encode.length ∧
      1 ≤ i.length ∧ i.length ≤ Opcode.maxLength ∧ i.opcode.encode = bytes.take i.length) ∧
    ∀ (op : Opcode) (rest : List UInt8), op.WellSized →
      decode (op.encode ++ rest) address = .ok ⟨address, op.encode.length, op⟩ := by
  refine ⟨⟨?_, ?_⟩, fun op sized starts => ⟨?_, ?_⟩, fun i decoded => ?_, fun op rest sized => ?_⟩
  · rintro ⟨i, decoded⟩
    obtain ⟨op, sized, starts, -⟩ := decode_eq_ok_iff.mp decoded
    exact ⟨op, sized, starts⟩
  · rintro ⟨op, sized, starts⟩
    exact ⟨_, decode_eq_ok_iff.mpr ⟨op, sized, starts, rfl⟩⟩
  · exact decode_eq_ok_iff.mpr ⟨op, sized, starts, rfl⟩
  · intro other sized' starts'
    exact encode_unique sized' sized starts' starts
  · obtain ⟨op, sized, starts, rfl⟩ := decode_eq_ok_iff.mp decoded
    exact ⟨sized, rfl, rfl, op.length_encode_pos, op.length_encode_le,
      List.prefix_iff_eq_take.mp starts⟩
  · exact decode_eq_ok_iff.mpr ⟨op, sized, List.prefix_append _ _, rfl⟩

/-- A store with the longest encoding, with a negative displacement and bytes behind it. -/
theorem decode_exact_store :
    let store : Opcode := .store (.imm 0xffffffffffffffff) (.imm 0x8000000000000000) (-8) 4
    store.encode.length = Opcode.maxLength ∧
      decode (store.encode ++ [0xff]) 0x1000 = .ok ⟨0x1000, 24, store⟩ := by
  intro store
  have sized : store.WellSized := .moves rfl (by decide)
  exact ⟨rfl, (decode_exact [] 0x1000).2.2.2 store [0xff] sized⟩

end Instruction

/-- A load or store in an image has one of the access sizes. -/
theorem Program.decode_accessSize {p : Program} {address : Word} {i : Instruction}
    (h : p.decode address = .ok i) {n : UInt8} (access : i.opcode.accessSize? = some n) :
    n ∈ Opcode.accessSizes := by
  unfold decode Instruction.decode at h
  split at h
  · split at h
    · rename_i op rest read
      cases h
      exact (FieldReader.run_opcode_eq_ok.mp read).1 n access
    · cases h
  · cases h

end PathSearch
