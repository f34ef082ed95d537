import PathSearch.Bytes.LittleEndian
import PathSearch.Proofs.Expr.Build
import PathSearch.State.Memory

/-! # Memory is a little-endian byte array

What a byte is after a write, and what number the bytes of a read form, under every assignment.
Addresses wrap, so positions are counted from the address of the access.
-/

namespace PathSearch.Memory

open Word

/-- An expression of one byte. -/
structure IsByte (e : Expr) : Prop where
  wellFormed : e.WellFormed
  width_eq : e.width = 8

/-- Every byte is well-formed. -/
def WellFormed (m : Memory) : Prop := ∀ address, IsByte (m.byte address)

theorem isByte_byte (b : UInt8) : IsByte (.byte b) where
  wellFormed := by
    have small : b.toUInt64.toNat < 2 ^ 8 := by simpa using b.toNat_lt
    exact ⟨by omega, by omega, small⟩
  width_eq := rfl

/-- Memory that nobody wrote is well-formed. -/
theorem wellFormed_start (image : Program) (uninitialized : Uninitialized) :
    WellFormed { image, uninitialized } := by
  intro address
  have unwritten : byte { image, uninitialized } address = background image uninitialized address := by
    simp [byte]
  rw [unwritten]
  unfold background
  split
  · exact isByte_byte _
  · cases uninitialized with
    | zero => exact isByte_byte 0
    | symbolic => exact ⟨⟨by omega, by omega⟩, rfl⟩

theorem byte_put (m : Memory) (address : Word) (value : Expr) (b : Word) :
    (m.put address value).byte b = if address = b then value else m.byte b := by
  simp only [byte, put, Std.TreeMap.getElem?_insert, Std.compare_eq_iff_eq]
  by_cases here : address = b <;> simp [here]

theorem WellFormed.put {m : Memory} (hm : m.WellFormed) (address : Word) {value : Expr}
    (hv : IsByte value) : (m.put address value).WellFormed := by
  intro b
  rw [byte_put]
  split
  · exact hv
  · exact hm b

theorem WellFormed.putAll {m : Memory} (hm : m.WellFormed) (address : Word) {bytes : List Expr}
    (each : ∀ b ∈ bytes, IsByte b) : (m.putAll address bytes).WellFormed := by
  induction bytes generalizing m address with
  | nil => exact hm
  | cons first rest ih =>
      exact ih (hm.put address (each first (by simp))) (address + 1) fun b hb => each b (by simp [hb])

theorem toNat_sub_next {a b : Word} (apart : a ≠ b) : (b - a).toNat = (b - (a + 1)).toNat + 1 := by
  have next : b - (a + 1) = (b - a) - 1 := by grind
  have nonzero : b - a ≠ 0 := by grind
  have pos : (b - a).toNat ≠ 0 := fun h => nonzero (UInt64.toNat_inj.mp h)
  have least : 1 ≤ b - a := by
    rw [UInt64.le_iff_toNat_le]
    exact Nat.pos_of_ne_zero pos
  have one : (1 : Word).toNat = 1 := rfl
  rw [next, UInt64.toNat_sub_of_le _ _ least]
  omega

theorem toNat_add_sub (address : Word) {i : Nat} (inside : i < 2 ^ 64) :
    (address + UInt64.ofNat i - address).toNat = i := by
  have cancel : address + UInt64.ofNat i - address = UInt64.ofNat i := by grind
  rw [cancel, UInt64.toNat_ofNat', Nat.mod_eq_of_lt inside]

/-- The bytes of a list stand at consecutive addresses, and nothing else changes. -/
theorem byte_putAll (m : Memory) (address : Word) {bytes : List Expr} (room : bytes.length ≤ 2 ^ 64)
    (b : Word) :
    (m.putAll address bytes).byte b = (bytes[(b - address).toNat]?).getD (m.byte b) := by
  induction bytes generalizing m address with
  | nil => simp [putAll]
  | cons first rest ih =>
      have room' : rest.length + 1 ≤ 2 ^ 64 := room
      rw [putAll, ih _ _ (by omega), byte_put]
      by_cases here : address = b
      · -- the place behind the last byte of the list is not reached from the next address
        subst here
        have last : (address - (address + 1)).toNat = 2 ^ 64 - 1 := by
          have : address - (address + 1) = 0 - 1 := by grind
          rw [this]
          rfl
        have outside : rest[2 ^ 64 - 1]? = none := List.getElem?_eq_none (by omega)
        rw [last, outside]
        simp
      · have place := toNat_sub_next here
        simp [place, here]

theorem image_putAll (m : Memory) (address : Word) (bytes : List Expr) :
    (m.putAll address bytes).image = m.image := by
  induction bytes generalizing m address with
  | nil => rfl
  | cons first rest ih => exact ih _ _

/-- The parts of a number are its bytes, the least significant first. -/
theorem split_ok {v : Expr} {parts : List Expr} (hv : v.WellFormed) (h : split v = .ok parts) :
    v.width % 8 = 0 ∧ parts.length = v.width / 8 ∧
      ∀ (i : Nat) (part : Expr), parts[i]? = some part → IsByte part ∧
        ∀ σ, (part.value σ).toNat = (v.value σ).toNat / 256 ^ i % 256 := by
  unfold split at h
  split at h
  · cases h
  · rename_i whole
    have each := mapM_ok h
    have size : parts.length = v.width / 8 := by simpa using each.length_eq.symm
    refine ⟨by omega, size, fun i part found => ?_⟩
    obtain ⟨j, place, built⟩ := left_of_getElem? each found
    obtain ⟨inside, rfl⟩ := List.getElem?_eq_some_iff.mp place
    rw [List.getElem_range] at built
    rw [List.length_range] at inside
    have denotes := Expr.mkExtract_denotes hv built
    have eight : 8 * i + 7 - 8 * i + 1 = 8 := by omega
    have base : (2 : Nat) ^ 8 = 256 := rfl
    refine ⟨⟨denotes.wellFormed, denotes.width_eq.trans eight⟩, fun σ => ?_⟩
    have atMost := hv.width_le
    rw [Option.some.inj (denotes.some_value σ), toNat_slice (by omega) (by omega), eight, Nat.pow_mul,
      base]

/-- After a write, the bytes at the address are those of the number, and all others are as before. -/
theorem write_ok {m m' : Memory} {address : Word} {v : Expr} (hv : v.WellFormed)
    (h : m.write address v = .ok m') :
    v.width % 8 = 0 ∧ m'.image = m.image ∧
      (∀ b, ¬ (b - address).toNat < v.width / 8 → m'.byte b = m.byte b) ∧
      ∀ b, (b - address).toNat < v.width / 8 → IsByte (m'.byte b) ∧
        ∀ σ, ((m'.byte b).value σ).toNat = (v.value σ).toNat / 256 ^ (b - address).toNat % 256 := by
  obtain ⟨parts, splits, result⟩ := bind_ok h
  cases result
  obtain ⟨whole, size, bytes⟩ := split_ok hv splits
  have atMost := hv.width_le
  have room : parts.length ≤ 2 ^ 64 := by omega
  refine ⟨whole, image_putAll m address parts, fun b outside => ?_, fun b inside => ?_⟩
  · rw [byte_putAll m address room, List.getElem?_eq_none (by omega)]
    rfl
  · have place : (b - address).toNat < parts.length := by omega
    have found : parts[(b - address).toNat]? = some parts[(b - address).toNat] :=
      List.getElem?_eq_getElem place
    rw [byte_putAll m address room, found]
    exact bytes _ _ found

theorem WellFormed.write {m m' : Memory} (hm : m.WellFormed) {address : Word} {v : Expr}
    (hv : v.WellFormed) (h : m.write address v = .ok m') : m'.WellFormed := by
  obtain ⟨-, -, others, bytes⟩ := write_ok hv h
  intro b
  by_cases inside : (b - address).toNat < v.width / 8
  · exact (bytes b inside).1
  · rw [others b inside]
    exact hm b

/-- Bytes that are joined form their little-endian number. -/
theorem join_ok {bytes : List Expr} {e : Expr} (each : ∀ b ∈ bytes, IsByte b)
    (h : join bytes = .ok e) :
    e.WellFormed ∧ e.width = 8 * bytes.length ∧
      ∀ σ, (e.value σ).toNat = Bytes.ofLE (bytes.map fun b => (b.value σ).toUInt8) := by
  fun_induction join bytes generalizing e with
  | case1 => cases h
  | case2 b =>
      cases h
      obtain ⟨hb, width⟩ := each b (by simp)
      refine ⟨hb, by simp [width], fun σ => ?_⟩
      have small := hb.value_lt σ
      rw [width] at small
      simpa [Bytes.ofLE] using (Nat.mod_eq_of_lt small).symm
  | case3 b rest more ih =>
      obtain ⟨upper, joined, built⟩ := bind_ok h
      obtain ⟨hb, width⟩ := each b (by simp)
      obtain ⟨hu, upperWidth, number⟩ := ih (fun x hx => each x (by simp [hx])) joined
      have denotes := Expr.mkConcat_denotes hu hb built
      refine ⟨denotes.wellFormed, ?_, fun σ => ?_⟩
      · rw [denotes.width_eq, upperWidth, width, List.length_cons]
        omega
      · have atMost := denotes.width_eq ▸ denotes.wellFormed.width_le
        have small := hb.value_lt σ
        rw [width] at small
        rw [Option.some.inj (denotes.some_value σ),
          toNat_shiftLeft_or hu.width_pos atMost (hu.value_lt σ) (hb.value_lt σ), number, width]
        have fits : (b.value σ).toNat % 256 = (b.value σ).toNat := Nat.mod_eq_of_lt small
        simp only [List.map_cons, Bytes.ofLE, UInt64.toNat_toUInt8]
        omega

/-- What a read gives is the little-endian number of the bytes at the address. -/
theorem read_ok {m : Memory} (hm : m.WellFormed) {address : Word} {size : Nat} {e : Expr}
    (h : m.read address size = .ok e) :
    e.WellFormed ∧ e.width = 8 * size ∧
      ∀ σ, (e.value σ).toNat = Bytes.ofLE ((List.range size).map fun i =>
        ((m.byte (address + UInt64.ofNat i)).value σ).toUInt8) := by
  unfold read at h
  split at h
  · cases h
  · have each : ∀ b ∈ m.bytes address size, IsByte b := by
      intro b hb
      obtain ⟨i, -, rfl⟩ := List.mem_map.mp hb
      exact hm _
    obtain ⟨he, width, number⟩ := join_ok each h
    refine ⟨he, by simpa [bytes] using width, fun σ => ?_⟩
    rw [number σ, bytes, List.map_map]
    rfl

end PathSearch.Memory
