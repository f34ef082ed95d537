import PathSearch.Proofs.Access
import PathSearch.Proofs.Expr.Slice
import PathSearch.Proofs.Sound

/-! # Copies of memory

Bytes that are read as one number and written back are the expressions that they were, not others of the
same value. So copying memory through registers, in whatever sizes, never makes expressions grow.
-/

namespace PathSearch.Memory

open PathSearch.Expr

variable {bytes : List Expr} {e : Expr}

theorem sliced_join (sliced : ∀ b ∈ bytes, b.Sliced) (h : join bytes = .ok e) : e.Sliced := by
  fun_induction join bytes generalizing e with
  | case1 => cases h
  | case2 b =>
      cases h
      exact sliced b (.head _)
  | case3 b rest more ih =>
      obtain ⟨here, slicedRest⟩ := List.forall_mem_cons.mp sliced
      obtain ⟨upper, joined, built⟩ := bind_ok h
      exact sliced_hereditary.of_mkConcat (ih slicedRest joined) here built

/-- Each byte of a joined number is the one that it was joined from. -/
theorem mkExtract_join (each : ∀ b ∈ bytes, IsByte b) (sliced : ∀ b ∈ bytes, b.Sliced)
    (h : join bytes = .ok e) {i : Nat} {b : Expr} (found : bytes[i]? = some b) :
    mkExtract (8 * i + 7) (8 * i) e = .ok b := by
  fun_induction join bytes generalizing e i with
  | case1 => cases h
  | case2 first =>
      cases h
      obtain ⟨rfl, rfl⟩ : i = 0 ∧ first = b := by simpa [List.getElem?_singleton] using found
      have isByte := each first (.head _)
      have whole := mkExtract_full isByte.wellFormed
      rwa [isByte.width_eq] at whole
  | case3 first rest more ih =>
      obtain ⟨isByte, eachRest⟩ := List.forall_mem_cons.mp each
      obtain ⟨here, slicedRest⟩ := List.forall_mem_cons.mp sliced
      obtain ⟨upper, joined, built⟩ := bind_ok h
      obtain ⟨hu, width, -⟩ := join_ok eachRest joined
      have slicedUpper := sliced_join slicedRest joined
      have width' := isByte.width_eq
      cases i with
      | zero =>
          cases found
          have whole := mkExtract_full isByte.wellFormed
          rw [width'] at whole
          rw [mkExtract_mkConcat_low hu isByte.wellFormed slicedUpper here built (by omega) (by omega)]
          exact whole
      | succ i =>
          have inside : i < rest.length := by simpa using (List.getElem?_eq_some_iff.mp found).1
          rw [mkExtract_mkConcat_high hu isByte.wellFormed slicedUpper here built (by omega) (by omega)
            (by omega), width']
          exact ih eachRest slicedRest joined found

/-- Splitting undoes joining. -/
theorem split_join (each : ∀ b ∈ bytes, IsByte b) (sliced : ∀ b ∈ bytes, b.Sliced)
    (h : join bytes = .ok e) : split e = .ok bytes := by
  obtain ⟨-, width, -⟩ := join_ok each h
  have part : ∀ i ∈ List.range bytes.length,
      ∃ b, mkExtract (8 * i + 7) (8 * i) e = .ok b ∧ bytes[i]? = some b := by
    intro i hi
    have found := List.getElem?_eq_getElem (List.mem_range.mp hi)
    exact ⟨_, mkExtract_join each sliced h found, found⟩
  obtain ⟨parts, mapped, same⟩ := mapM_total part
  have size : parts.length = bytes.length := by simpa using same.length_eq.symm
  have equal : parts = bytes := by
    refine List.ext_getElem size fun i inside inside' => ?_
    obtain ⟨j, place, found⟩ := left_of_getElem? same (List.getElem?_eq_getElem inside)
    obtain ⟨_, rfl⟩ := List.getElem?_eq_some_iff.mp place
    rw [List.getElem_range, List.getElem?_eq_getElem inside'] at found
    exact (Option.some.inj found).symm
  have count : e.width / 8 = bytes.length := by omega
  rw [split, if_neg (by omega), count, mapped, equal]

theorem built_background (image : Program) (uninitialized : Uninitialized) (address : Word) :
    (background image uninitialized address).Built := by
  have known (b : UInt8) : (Expr.byte b).Built := by
    have fits : Word.truncate 8 b.toUInt64 = b.toUInt64 :=
      Word.truncate_of_lt (by decide) (isByte_byte b).wellFormed.2.2
    refine .build (c := .const b.toUInt64 8) nofun ?_
    change Except.ok (Expr.const (Word.truncate 8 b.toUInt64) 8) = .ok (.const b.toUInt64 8)
    rw [fits]
  unfold background
  split
  · exact known _
  · cases uninitialized with
    | zero => exact known 0
    | symbolic => exact .build (c := .var (uninitializedName address) 8) nofun rfl

/-- A register holds a narrower value with zeros in front. -/
theorem widen_of_mkZext {x wide : Expr} (extended : mkZext x 64 = .ok wide) :
    Registers.widen x = wide := by
  rw [Registers.widen, extended]
  rcases mkZext_cases extended with ⟨same, rfl⟩ | ⟨wider, -⟩
  · exact if_neg (by omega)
  · exact if_pos wider

/-- Bytes put at an address are found there. -/
theorem byte_putAll_add (m : Memory) (address : Word) (room : bytes.length ≤ 2 ^ 64) {i : Nat}
    {b : Expr} (found : bytes[i]? = some b) :
    (m.putAll address bytes).byte (address + UInt64.ofNat i) = b := by
  have inside := (List.getElem?_eq_some_iff.mp found).1
  rw [byte_putAll m address room, toNat_add_sub address (by omega), found]
  rfl

section Built

variable {m : Memory}
  (built : ∀ (address : Word) (e : Expr), m.written[address]? = some e → e.Built ∧ e.width = 8)

include built

theorem built_byte (address : Word) : (m.byte address).Built ∧ (m.byte address).width = 8 := by
  unfold byte
  split
  · rename_i e found
    exact built address e found
  · exact ⟨built_background _ _ _, (isByte_background _ _ _).width_eq⟩

/-- Splitting what was read gives the bytes that it was read from. -/
theorem split_read {address : Word} {n : Nat} (reads : m.read address n = .ok e) :
    split e = .ok (m.bytes address n) := by
  have each : ∀ x ∈ m.bytes address n, x.Built ∧ x.width = 8 := by
    intro x hx
    obtain ⟨i, -, rfl⟩ := List.mem_map.mp hx
    exact built_byte built _
  unfold read at reads
  split at reads
  · cases reads
  · exact split_join (fun x hx => ⟨(each x hx).1.wellFormed, (each x hx).2⟩)
      (fun x hx => (each x hx).1.sliced) reads

end Built

/-- A number of bytes that is loaded into a register and stored from there leaves the bytes that it was
    read from: the same expressions, at the new addresses. -/
theorem copy_keeps_bytes {m : Memory}
    (built : ∀ (address : Word) (e : Expr), m.written[address]? = some e → e.Built ∧ e.width = 8)
    (a b : Word) {n : Nat} (pos : 0 < n) (few : n ≤ 8) :
    ∃ loaded wide stored m', m.read a n = .ok loaded ∧ mkZext loaded 64 = .ok wide ∧
      Registers.widen loaded = wide ∧ mkExtract (8 * n - 1) 0 wide = .ok stored ∧
      m.write b stored = .ok m' ∧
      ∀ i < n, m'.byte (b + UInt64.ofNat i) = m.byte (a + UInt64.ofNat i) := by
  have hm : m.WellFormed := fun address =>
    ⟨(built_byte built address).1.wellFormed, (built_byte built address).2⟩
  obtain ⟨loaded, reads⟩ := read_total hm a pos few
  obtain ⟨hl, width, -⟩ := read_ok hm reads
  obtain ⟨wide, extended⟩ : ∃ wide, mkZext loaded 64 = .ok wide :=
    mkZext_total (by decide) (by omega) (by decide)
  have taken := mkExtract_mkZext hl extended
  rw [width] at taken
  have written : m.write b loaded = .ok (m.putAll b (m.bytes a n)) := by
    rw [write, split_read built reads]
    rfl
  refine ⟨loaded, wide, loaded, _, reads, extended, widen_of_mkZext extended, taken, written,
    fun i hi => byte_putAll_add m b ?_ ?_⟩
  · simp only [bytes, List.length_map, List.length_range]
    omega
  · simp [bytes, hi]

/-- Two slices that a read joins to a variable, and a write takes apart again. -/
theorem copy_keeps_bytes_slices :
    let part (high low : Nat) : Expr := .extract high low (.var "x" 16)
    let m : Memory := ({ image := default } : Memory).putAll 0x10 [part 7 0, part 15 8]
    ∃ loaded wide stored m', m.read 0x10 2 = .ok loaded ∧ mkZext loaded 64 = .ok wide ∧
      mkExtract 15 0 wide = .ok stored ∧ m.write 0x11 stored = .ok m' ∧
      m'.byte 0x11 = part 7 0 ∧ m'.byte 0x12 = part 15 8 := by
  intro part m
  have whole : (Expr.var "x" 16).Built := .build (c := .var "x" 16) nofun rfl
  have slice {high low : Nat} (built : (Construction.extract high low (.var "x" 16)).build =
      .ok (part high low)) : (part high low).Built :=
    .build (c := .extract high low (.var "x" 16)) (fun x hx => List.mem_singleton.mp hx ▸ whole) built
  have first : (part 7 0).Built := slice (by cbv)
  have second : (part 15 8).Built := slice (by cbv)
  have built (address : Word) (e : Expr) (found : m.written[address]? = some e) :
      e.Built ∧ e.width = 8 := by
    simp only [m, putAll, put, Std.TreeMap.getElem?_insert] at found
    split at found
    · cases found
      exact ⟨second, rfl⟩
    split at found
    · cases found
      exact ⟨first, rfl⟩
    · simp at found
  have places : m.byte 0x10 = part 7 0 ∧ m.byte 0x11 = part 15 8 := by
    simp [m, putAll, byte_put]
  obtain ⟨loaded, wide, stored, m', reads, extended, -, taken, written, same⟩ :=
    copy_keeps_bytes built 0x10 0x11 (n := 2) (by decide) (by decide)
  exact ⟨loaded, wide, stored, m', reads, extended, taken, written,
    (same 0 (by decide)).trans places.1, (same 1 (by decide)).trans places.2⟩

end PathSearch.Memory
