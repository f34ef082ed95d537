import PathSearch.Proofs.Codec
import PathSearch.Proofs.Except

/-! # The regions of an image

Mapping a region keeps the regions apart and in the order of their addresses. So an address lies in
at most one of them, and the search for it finds that one.
-/

namespace PathSearch

namespace Region

theorem contains_iff {r : Region} {address : Word} :
    r.contains address ↔ r.base.toNat ≤ address.toNat ∧ address.toNat < r.limit := by
  simp only [contains, Bool.and_eq_true, decide_eq_true_eq, UInt64.le_iff_toNat_le]

theorem overlaps_iff {r s : Region} :
    r.overlaps s ↔ s.base.toNat < r.limit ∧ r.base.toNat < s.limit := by
  simp only [overlaps, Bool.and_eq_true, decide_eq_true_eq]

/-- The place of an address of the region. -/
theorem offset_eq {r : Region} {address : Word} (inside : r.contains address) :
    (address - r.base).toNat = address.toNat - r.base.toNat := by
  obtain ⟨above, -⟩ := contains_iff.mp inside
  exact UInt64.toNat_sub_of_le _ _ (UInt64.le_iff_toNat_le.mpr above)

/-- The regions with one more, behind those that start before it. -/
def insert (r : Region) (regions : List Region) : List Region :=
  regions.takeWhile (fun s => decide (s.base < r.base)) ++
    r :: regions.dropWhile fun s => decide (s.base < r.base)

theorem mem_insert {r s : Region} {regions : List Region} :
    s ∈ r.insert regions ↔ s = r ∨ s ∈ regions := by
  conv_rhs => rw [← List.takeWhile_append_dropWhile (p := fun s => decide (s.base < r.base))
    (l := regions)]
  simp only [insert, List.mem_append, List.mem_cons]
  exact or_left_comm

theorem insert_of_lt {r s : Region} {regions : List Region} (before : s.base < r.base) :
    r.insert (s :: regions) = s :: r.insert regions := by
  simp only [insert, List.takeWhile_cons, List.dropWhile_cons, before, decide_true, ↓reduceIte,
    List.cons_append]

theorem insert_of_not_lt {r s : Region} {regions : List Region} (behind : ¬ s.base < r.base) :
    r.insert (s :: regions) = r :: s :: regions := by
  simp only [insert, List.takeWhile_cons, List.dropWhile_cons, behind, decide_false,
    Bool.false_eq_true, ↓reduceIte, List.nil_append]

end Region

/-- Regions that are not empty, in the order of their addresses and apart from each other. -/
structure Apart (regions : List Region) : Prop where
  nonempty : ∀ r ∈ regions, 0 < r.bytes.size
  ordered : regions.Pairwise fun r s => r.limit ≤ s.base.toNat

namespace Apart

variable {regions : List Region}

theorem nil : Apart [] := ⟨nofun, .nil⟩

theorem base_lt (apart : Apart regions) {r : Region} (hr : r ∈ regions) : r.base.toNat < r.limit :=
  Nat.lt_add_of_pos_right (apart.nonempty r hr)

theorem tail {r : Region} (apart : Apart (r :: regions)) : Apart regions :=
  ⟨fun s hs => apart.nonempty s (.tail _ hs), apart.ordered.tail⟩

/-- The regions before a new one end where it starts or earlier, the others start behind it. -/
theorem insert (apart : Apart regions) {r : Region} (nonempty : 0 < r.bytes.size)
    (free : ∀ s ∈ regions, ¬ s.overlaps r) : Apart (r.insert regions) := by
  refine ⟨fun s hs => ?_, ?_⟩
  · rcases Region.mem_insert.mp hs with rfl | hs
    · exact nonempty
    · exact apart.nonempty s hs
  have reach : r.base.toNat < r.limit := Nat.lt_add_of_pos_right nonempty
  induction regions with
  | nil => exact List.pairwise_singleton _ _
  | cons s rest ih =>
      have apartFrom := free s (.head _)
      rw [Region.overlaps_iff] at apartFrom
      have reach' := apart.base_lt (.head _)
      obtain ⟨beyond, ordered⟩ := List.pairwise_cons.mp apart.ordered
      by_cases before : s.base < r.base
      · rw [Region.insert_of_lt before]
        rw [UInt64.lt_iff_toNat_lt] at before
        refine .cons (fun t ht => ?_) (ih apart.tail fun t ht => free t (.tail _ ht))
        rcases Region.mem_insert.mp ht with rfl | ht
        · omega
        · exact beyond t ht
      · rw [Region.insert_of_not_lt before]
        rw [UInt64.lt_iff_toNat_lt] at before
        refine .cons (fun t ht => ?_) apart.ordered
        rcases List.mem_cons.mp ht with rfl | ht
        · omega
        · have := beyond t ht
          omega

end Apart

namespace Program

variable {p q : Program}

theorem map_eq_ok_iff {r : Region} : p.map r = .ok q ↔
    0 < r.bytes.size ∧ r.limit < 2 ^ 64 ∧ (∀ s ∈ p.regions, ¬ s.overlaps r) ∧
      { p with regions := r.insert p.regions } = q := by
  unfold map
  split
  · rename_i empty
    rw [Array.isEmpty_iff_size_eq_zero] at empty
    exact ⟨nofun, fun mapped => by omega⟩
  split
  · rename_i wraps
    exact ⟨nofun, fun mapped => by omega⟩
  rename_i nonempty inside
  rw [Array.isEmpty_iff_size_eq_zero] at nonempty
  split
  · rename_i other found
    refine ⟨nofun, fun mapped => ?_⟩
    exact absurd (List.find?_some found) (mapped.2.2.1 other (List.mem_of_find?_eq_some found))
  · rename_i free
    rw [List.find?_eq_none] at free
    rw [Except.ok.injEq]
    exact ⟨fun same => ⟨by omega, by omega, free, same⟩, fun mapped => mapped.2.2.2⟩

theorem apart_map {r : Region} (apart : Apart p.regions) (mapped : p.map r = .ok q) :
    Apart q.regions := by
  obtain ⟨nonempty, -, free, rfl⟩ := map_eq_ok_iff.mp mapped
  exact apart.insert nonempty free

/-- The search finds the region that an address lies in. -/
theorem region?_eq_some_iff (apart : Apart p.regions) {address : Word} {r : Region} :
    p.region? address = some r ↔ r ∈ p.regions ∧ r.contains address := by
  unfold region?
  rw [Option.filter_eq_some_iff]
  refine and_congr_left fun inside => ⟨fun last => ?_, fun hr => ?_⟩
  · exact List.takeWhile_subset _ (List.mem_of_getLast? last)
  obtain ⟨above, below⟩ := Region.contains_iff.mp inside
  obtain ⟨before, behind, split⟩ := List.append_of_mem hr
  have ordered := apart.ordered
  rw [split, List.pairwise_append, List.pairwise_cons] at ordered
  obtain ⟨-, ⟨further, -⟩, earlier⟩ := ordered
  -- regions in front start below the address, and those behind start where this one has ended
  have start (s : Region) (hs : s ∈ before) : decide (s.base ≤ address) = true := by
    have := earlier s hs r (.head _)
    have := apart.base_lt (split ▸ List.mem_append_left _ hs : s ∈ p.regions)
    rw [decide_eq_true_eq, UInt64.le_iff_toNat_le]
    omega
  have stop : behind.takeWhile (fun s => decide (s.base ≤ address)) = [] := by
    cases behind with
    | nil => rfl
    | cons s rest =>
        have := further s (.head _)
        rw [List.takeWhile_cons_of_neg]
        rw [decide_eq_true_eq, UInt64.le_iff_toNat_le]
        omega
  rw [split, List.takeWhile_append_of_pos start, List.takeWhile_cons_of_pos, stop,
    List.getLast?_concat]
  rwa [decide_eq_true_eq, UInt64.le_iff_toNat_le]

theorem byte?_eq (apart : Apart p.regions) {address : Word} {r : Region} (hr : r ∈ p.regions)
    (inside : r.contains address) :
    p.byte? address = r.bytes.toList[address.toNat - r.base.toNat]? := by
  have found := (region?_eq_some_iff apart).mpr ⟨hr, inside⟩
  rw [byte?, found, Option.bind_eq_bind, Option.bind_some, Region.byte?, Region.offset_eq inside,
    Array.getElem?_toList]

theorem decode_eq (apart : Apart p.regions) {address : Word} {r : Region} (hr : r ∈ p.regions)
    (inside : r.contains address) (executable : r.executable = true) :
    p.decode address =
      Instruction.decode (r.bytes.toList.drop (address.toNat - r.base.toNat)) address := by
  have found := (region?_eq_some_iff apart).mpr ⟨hr, inside⟩
  simp only [decode, found, Option.filter_some, executable, ↓reduceIte, Region.bytesFrom,
    Region.offset_eq inside]

end Program

end PathSearch
