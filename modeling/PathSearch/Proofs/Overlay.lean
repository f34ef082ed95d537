import Mathlib.Algebra.BigOperators.Ring.Finset
import PathSearch.Proofs.Access
import PathSearch.Proofs.Sound

/-! # Numbers in memory

Memory stands for an array of numbers below 256, one for each address. A write lays the bytes of a
number over the array, and a read gives the number that the bytes of a range form, whatever was written
there before and in whatever sizes. Ranges go on at zero behind the last address.
-/

namespace PathSearch

/-- An expression has a value under an assignment, and the value is `n`. -/
def Expr.Yields (e : Expr) (σ : Expr.Assignment) (n : Nat) : Prop :=
  (e.evaluate σ.bindings).map (·.toNat) = some n

theorem Expr.WellFormed.yields_iff {e : Expr} (he : e.WellFormed) {σ : Expr.Assignment} {n : Nat} :
    e.Yields σ n ↔ (e.value σ).toNat = n := by
  rw [Yields, he.evaluate_eq, Option.map_some, Option.some.injEq]

namespace Bytes

theorem ofLE_map_range (f : Nat → UInt8) (n : Nat) :
    ofLE ((List.range n).map f) = ∑ i ∈ Finset.range n, (f i).toNat * 2 ^ (8 * i) := by
  induction n generalizing f with
  | zero => rfl
  | succ n ih =>
      have shifted (i : Nat) : (f (i + 1)).toNat * 2 ^ (8 * (i + 1)) =
          256 * ((f (i + 1)).toNat * 2 ^ (8 * i)) := by
        rw [Nat.mul_add, Nat.pow_add, Nat.mul_left_comm 256, Nat.mul_comm 256]
      rw [List.range_succ_eq_map, List.map_cons, List.map_map, ofLE, ih, Finset.sum_range_succ',
        Finset.mul_sum, Nat.add_comm]
      simp [shifted]

/-- The low bytes of a number form it, up to the bits above them. -/
theorem sum_bytes (v n : Nat) :
    ∑ i ∈ Finset.range n, v / 2 ^ (8 * i) % 2 ^ 8 * 2 ^ (8 * i) = v % 2 ^ (8 * n) := by
  induction n with
  | zero => simp [Nat.mod_one]
  | succ n ih =>
      rw [Finset.sum_range_succ, ih, Nat.mul_add, Nat.pow_add, Nat.mod_mul, Nat.mul_comm (2 ^ (8 * n))]

end Bytes

namespace Memory

open PathSearch.Expr

/-- The number that a byte which nobody wrote stands for: that of the image, else zero or that of the
    variable for the address. -/
def initial (image : Program) (uninitialized : Uninitialized) (σ : Assignment) (address : Word) : Nat :=
  match image.byte? address with
  | some b => b.toNat
  | none => match uninitialized with
    | .zero => 0
    | .symbolic => (σ (uninitializedName address)).toNat % 2 ^ 8

/-- The number at an address. -/
def contents (m : Memory) (σ : Assignment) (address : Word) : Nat :=
  match m.written[address]? with
  | some e => (e.value σ).toNat
  | none => initial m.image m.uninitialized σ address

/-- The bytes of a number, laid over an array from an address on. -/
def overlay (address : Word) (size v : Nat) (array : Word → Nat) (b : Word) : Nat :=
  let place := (b - address).toNat
  if place < size then v / 2 ^ (8 * place) % 2 ^ 8 else array b

/-- The number that the bytes of a range form, the least significant first. -/
def number (array : Word → Nat) (address : Word) (size : Nat) : Nat :=
  ∑ i ∈ Finset.range size, array (address + UInt64.ofNat i) * 2 ^ (8 * i)

/-- Bytes are those of an array, and reads give the numbers of its ranges. -/
structure Holds (m : Memory) (array : Assignment → Word → Nat) : Prop where
  byte : ∀ address σ, (m.byte address).Yields σ (array σ address)
  read : ∀ address size, 0 < size → size ≤ 8 → ∃ e, m.read address size = .ok e ∧
    e.width = 8 * size ∧ ∀ σ, e.Yields σ (number (array σ) address size)

variable {m : Memory}

theorem value_background (image : Program) (uninitialized : Uninitialized) (σ : Assignment)
    (address : Word) :
    ((background image uninitialized address).value σ).toNat =
      initial image uninitialized σ address := by
  unfold background initial
  cases image.byte? address with
  | some b => exact congrArg UInt64.toNat (value_const _ 8)
  | none =>
      cases uninitialized with
      | zero => exact congrArg UInt64.toNat (value_const 0 8)
      | symbolic =>
          rw [value_var]
          exact Word.toNat_truncate (by decide) _

theorem value_byte (m : Memory) (σ : Assignment) (address : Word) :
    ((m.byte address).value σ).toNat = m.contents σ address := by
  unfold byte contents
  cases m.written[address]? with
  | some e => rfl
  | none => exact value_background _ _ σ address

/-- A memory holds the numbers that its bytes have. -/
theorem WellFormed.holds (hm : m.WellFormed) {array : Assignment → Word → Nat}
    (each : ∀ address σ, ((m.byte address).value σ).toNat = array σ address) : m.Holds array where
  byte address σ := (hm address).wellFormed.yields_iff.mpr (each address σ)
  read address size pos few := by
    obtain ⟨e, gives⟩ := read_total hm address pos few
    obtain ⟨he, width, value⟩ := read_ok hm gives
    refine ⟨e, gives, width, fun σ => he.yields_iff.mpr ?_⟩
    rw [value, Bytes.ofLE_map_range, number]
    refine Finset.sum_congr rfl fun i _ => ?_
    have small := (hm (address + UInt64.ofNat i)).wellFormed.value_lt σ
    rw [(hm _).width_eq] at small
    rw [UInt64.toNat_toUInt8, Nat.mod_eq_of_lt small, each]

theorem number_overlay (address : Word) {size : Nat} (few : size ≤ 8) (v : Nat) (array : Word → Nat) :
    number (overlay address size v array) address size = v % 2 ^ (8 * size) := by
  rw [number, ← Bytes.sum_bytes]
  refine Finset.sum_congr rfl fun i hi => ?_
  have inside := Finset.mem_range.mp hi
  rw [overlay]
  simp only [toNat_add_sub address (show i < 2 ^ 64 by omega), if_pos inside]

section Write

variable {m' : Memory} {a : Word} {v : Expr} {n : Nat} (hm : m.WellFormed) (hv : v.WellFormed)
  (width : v.width = 8 * n) (written : m.write a v = .ok m')

include hv width written

include hm in
/-- A write lays the bytes of the number over what memory holds. -/
theorem WellFormed.holds_write : m'.Holds fun σ => overlay a n (v.value σ).toNat (m.contents σ) := by
  obtain ⟨-, -, others, bytes⟩ := write_ok hv written
  have size : v.width / 8 = n := by omega
  rw [size] at others bytes
  refine (hm.write hv written).holds fun b σ => ?_
  simp only [overlay]
  split
  · rename_i inside
    rw [(bytes b inside).2, Nat.pow_mul 2 8]
    rfl
  · rename_i outside
    rw [others b outside, value_byte]

/-- Bytes at other addresses stay the expressions that they were. -/
theorem byte_write_of_ne {b : Word} (outside : ∀ i < n, b ≠ a + UInt64.ofNat i) :
    m'.byte b = m.byte b := by
  obtain ⟨-, -, others, -⟩ := write_ok hv written
  refine others b fun inside => outside (b - a).toNat (by omega) ?_
  rw [UInt64.ofNat_toNat]
  grind

include hm in
/-- What was written is read back. -/
theorem WellFormed.read_write :
    ∃ e, m'.read a n = .ok e ∧ ∀ σ : Assignment, e.evaluate σ.bindings = v.evaluate σ.bindings := by
  have few : n ≤ 8 := by have := hv.width_le; omega
  have pos : 0 < n := by have := hv.width_pos; omega
  obtain ⟨e, gives, -, value⟩ := (hm.holds_write hv width written).read a n pos few
  have he := (read_ok (hm.write hv written) gives).1
  refine ⟨e, gives, fun σ => ?_⟩
  have small := hv.value_lt σ
  have same := he.yields_iff.mp (value σ)
  rw [number_overlay a few, Nat.mod_eq_of_lt (width ▸ small)] at same
  rw [he.evaluate_eq, hv.evaluate_eq, UInt64.toNat_inj.mp same]

end Write

/-- Memory is an array of bytes. It holds the written bytes over those of the image, and what remains is
    zero or unknown; writing lays the bytes of the number over that, and leaves all other bytes as they
    stand. So the number is read back, and any other range as the two arrays form it. -/
theorem write_overlays (each : ∀ (address : Word) (e : Expr), m.written[address]? = some e → IsByte e) :
    m.Holds m.contents ∧
      ∀ (a : Word) (v : Expr) (n : Nat), v.WellFormed → v.width = 8 * n →
        ∃ m', m.write a v = .ok m' ∧
          (∀ i < n, ∀ σ, (m'.byte (a + UInt64.ofNat i)).Yields σ
            ((v.value σ).toNat / 2 ^ (8 * i) % 2 ^ 8)) ∧
          (∀ b, (∀ i < n, b ≠ a + UInt64.ofNat i) → m'.byte b = m.byte b) ∧
          m'.Holds (fun σ => overlay a n (v.value σ).toNat (m.contents σ)) ∧
          ∃ e, m'.read a n = .ok e ∧ ∀ σ : Assignment, e.evaluate σ.bindings = v.evaluate σ.bindings := by
  have hm : m.WellFormed := wellFormed_iff.mpr each
  refine ⟨hm.holds fun address σ => value_byte m σ address, fun a v n hv width => ?_⟩
  obtain ⟨m', written⟩ := write_total m a hv (by omega)
  have holds := hm.holds_write hv width written
  refine ⟨m', written, fun i hi σ => ?_, fun b => byte_write_of_ne hv width written, holds,
    hm.read_write hv width written⟩
  have atMost := hv.width_le
  have here := holds.byte (a + UInt64.ofNat i) σ
  simpa only [overlay, toNat_add_sub a (show i < 2 ^ 64 by omega), if_pos hi] using here

/-- Two bytes at the last address and at zero, and a byte behind them that nobody wrote. -/
theorem write_overlays_wrapping :
    let m : Memory := { image := default, uninitialized := .symbolic }
    ∃ m' e, m.write (0 - 1) (.const 0xbeef 16) = .ok m' ∧ m'.read (0 - 1) 3 = .ok e ∧
      e.Yields (fun _ => 7) 0x07beef := by
  intro m
  have nothing (address : Word) (e : Expr) (found : m.written[address]? = some e) : IsByte e := by
    simp [m] at found
  obtain ⟨m', written, -, -, holds, -⟩ :=
    (write_overlays nothing).2 (0 - 1) (.const 0xbeef 16) 2 ⟨by decide, by decide, by decide⟩ rfl
  obtain ⟨e, gives, -, value⟩ := holds.read (0 - 1) 3 (by decide) (by decide)
  refine ⟨m', e, written, gives, ?_⟩
  have unwritten : m.written[(1 : Word)]? = none := by simp [m]
  have behind : m.contents (fun _ => 7) 1 = 7 := by
    rw [contents, unwritten]
    rfl
  have bytes : number (overlay (0 - 1) 2 0xbeef (m.contents fun _ => 7)) (0 - 1) 3 =
      0xef * 2 ^ (8 * 0) + 0xbe * 2 ^ (8 * 1) + 7 * 2 ^ (8 * 2) := by
    rw [number, Finset.sum_range_succ, Finset.sum_range_succ, Finset.sum_range_one, ← behind]
    rfl
  have formed := value fun _ => 7
  rw [value_const] at formed
  exact formed.trans (congrArg some bytes)

end Memory

end PathSearch
