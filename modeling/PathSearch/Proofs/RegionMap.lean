import Mathlib.Data.List.Induction
import Mathlib.Data.List.TakeWhile
import Mathlib.Order.CompletePartialOrder
import Mathlib.Order.Interval.Set.Disjoint
import PathSearch.Proofs.Malformed
import PathSearch.Proofs.Program

/-! # The region map

An image is built up region by region. Whatever the order of the requests, a request passes exactly
if its bytes have room, the regions stand in the order of their addresses, and they are the regions
that were asked for. As they are in order, a search that halves the list finds what a search from
the front finds.
-/

namespace PathSearch

section Halving

/-- The first place of an interval where a test fails, by halving the interval. -/
def bisect (test : Nat → Bool) (low high : Nat) : Nat :=
  if low < high then
    let middle := low + (high - low) / 2
    if test middle then bisect test (middle + 1) high else bisect test low middle
  else low
termination_by high - low

/-- The place at which the test turns from true to false stays in the interval. -/
theorem bisect_eq {test : Nat → Bool} {low high turn : Nat} (above : low ≤ turn) (below : turn ≤ high)
    (passes : ∀ i < turn, test i = true) (fails : ∀ i, turn ≤ i → i < high → test i = false) :
    bisect test low high = turn := by
  fun_induction bisect test low high with
  | case1 low high open' middle passed ih =>
      have beyond : middle < turn := by
        by_contra behind
        have failed := fails middle (by omega) (by omega)
        rw [passed] at failed
        cases failed
      exact ih beyond below fails
  | case2 low high open' middle failed ih =>
      have behind : turn ≤ middle := by
        by_contra beyond
        exact failed (passes middle (by omega))
      apply ih above behind
      intro i late early
      exact fails i late (by omega)
  | case3 low high closed => omega

/-- How many regions in front pass a test, found by halving. -/
def partitionPoint (test : Region → Bool) (regions : List Region) : Nat :=
  bisect (fun i => regions[i]?.any test) 0 regions.length

variable {test : Region → Bool} {regions : List Region}

theorem not_of_mem_dropWhile (falls : regions.Pairwise fun r s => test s = true → test r = true)
    {r : Region} (hr : r ∈ regions.dropWhile test) : test r = false := by
  induction regions with
  | nil => cases hr
  | cons s rest ih =>
      obtain ⟨first, falls⟩ := List.pairwise_cons.mp falls
      rw [List.dropWhile_cons] at hr
      split at hr
      · exact ih falls hr
      · rename_i failed
        rw [Bool.not_eq_true] at failed
        cases hr with
        | head => exact failed
        | tail _ hr =>
            by_contra passed
            rw [first r hr (Bool.eq_true_of_not_eq_false passed)] at failed
            cases failed

/-- Where the test, once it has failed, fails for all that follows, halving finds the place that a
    walk from the front finds. -/
theorem partitionPoint_eq (falls : regions.Pairwise fun r s => test s = true → test r = true) :
    partitionPoint test regions = (regions.takeWhile test).length := by
  have split := List.takeWhile_append_dropWhile (p := test) (l := regions)
  apply bisect_eq (Nat.zero_le _) (List.takeWhile_prefix test).length_le
  · intro i early
    have passed := List.mem_takeWhile_imp (List.getElem_mem early)
    rw [← split, List.getElem?_append_left early, List.getElem?_eq_getElem early]
    exact passed
  · intro i late inside
    rw [← split, List.getElem?_append_right late]
    cases there : (regions.dropWhile test)[i - (regions.takeWhile test).length]? with
    | none => rfl
    | some r => exact not_of_mem_dropWhile falls (List.mem_of_getElem? there)

theorem insertIdx_takeWhile (r : Region) :
    regions.insertIdx (regions.takeWhile test).length r =
      regions.takeWhile test ++ r :: regions.dropWhile test := by
  induction regions with
  | nil => rfl
  | cons s rest ih =>
      rw [List.takeWhile_cons, List.dropWhile_cons]
      split
      · rw [List.length_cons, List.insertIdx_succ_cons, ih, List.cons_append]
      · rfl

theorem getLast?_takeWhile :
    (regions.takeWhile test).getLast? =
      match (regions.takeWhile test).length with
      | 0 => none
      | n + 1 => regions[n]? := by
  have split := List.takeWhile_append_dropWhile (p := test) (l := regions)
  rw [List.getLast?_eq_getElem?]
  cases length : (regions.takeWhile test).length with
  | zero => rw [List.eq_nil_of_length_eq_zero length, List.getElem?_nil]
  | succ n =>
      have inside : n < (regions.takeWhile test).length := by omega
      calc (regions.takeWhile test)[n + 1 - 1]?
        _ = (regions.takeWhile test ++ regions.dropWhile test)[n]? :=
            (List.getElem?_append_left inside).symm
        _ = regions[n]? := by rw [split]

end Halving

namespace Region

/-- The addresses that a region covers. -/
def range (r : Region) : Set Nat := Set.Ico r.base.toNat r.limit

theorem mem_range_iff {r : Region} {address : Word} : address.toNat ∈ r.range ↔ r.contains address :=
  contains_iff.symm

theorem disjoint_range_iff {r s : Region} (nonempty : 0 < r.bytes.size)
    (nonempty' : 0 < s.bytes.size) : Disjoint r.range s.range ↔ ¬ r.overlaps s := by
  have reach : r.base.toNat < r.limit := Nat.lt_add_of_pos_right nonempty
  have reach' : s.base.toNat < s.limit := Nat.lt_add_of_pos_right nonempty'
  rw [range, range, Set.Ico_disjoint_Ico, overlaps_iff]
  omega

theorem insert_perm (r : Region) (regions : List Region) :
    (r.insert regions).Perm (r :: regions) := by
  have split := List.takeWhile_append_dropWhile (p := fun s => decide (s.base < r.base))
    (l := regions)
  conv_rhs => rw [← split]
  exact List.perm_middle

end Region

namespace Apart

variable {regions others : List Region}

theorem base_ordered (apart : Apart regions) :
    regions.Pairwise fun r s => r.base.toNat < s.base.toNat := by
  apply apart.ordered.imp_of_mem
  intro r s hr hs before
  exact (apart.base_lt hr).trans_le before

theorem disjoint (apart : Apart regions) : regions.Pairwise fun r s => Disjoint r.range s.range := by
  apply apart.ordered.imp
  intro r s before
  rw [Region.range, Region.range, Set.Ico_disjoint_Ico]
  exact (Nat.min_le_left _ _).trans (before.trans (Nat.le_max_right _ _))

/-- Regions that are apart stand in the one order in which they can. -/
theorem eq_of_perm (apart : Apart regions) (apart' : Apart others) (same : regions.Perm others) :
    regions = others := by
  apply same.eq_of_pairwise _ apart.ordered apart'.ordered
  intro r s hr hs before behind
  have reach := apart.base_lt hr
  have reach' := apart'.base_lt hs
  omega

/-- A bound on the address a region starts at fails for all that follows once it has failed. -/
theorem falls (apart : Apart regions) (below : Word → Bool)
    (downward : ∀ a b : Word, a.toNat < b.toNat → below b = true → below a = true) :
    regions.Pairwise fun r s => below s.base = true → below r.base = true := by
  apply apart.base_ordered.imp
  intro r s before passed
  exact downward r.base s.base before passed

end Apart

namespace Program

variable {p q : Program}

/-- The search for the region that holds an address, as it halves the list. -/
def search? (p : Program) (address : Word) : Option Region :=
  match partitionPoint (fun r => decide (r.base ≤ address)) p.regions with
  | 0 => none
  | n + 1 => p.regions[n]?.filter (·.contains address)

theorem search?_eq (apart : Apart p.regions) (address : Word) :
    p.search? address = p.region? address := by
  have falls := apart.falls (fun base => decide (base ≤ address)) (by
    intro a b before reached
    rw [decide_eq_true_eq, UInt64.le_iff_toNat_le] at *
    omega)
  rw [search?, region?, partitionPoint_eq falls, getLast?_takeWhile]
  cases ((p.regions.takeWhile fun r => decide (r.base ≤ address)).length) <;> rfl

/-- A new region is put at the place that halving finds. -/
theorem map_regions (apart : Apart p.regions) {r : Region} (mapped : p.map r = .ok q) :
    q.regions =
      p.regions.insertIdx (partitionPoint (fun s => decide (s.base < r.base)) p.regions) r := by
  have falls := apart.falls (fun base => decide (base < r.base)) (by
    intro a b before reached
    rw [decide_eq_true_eq, UInt64.lt_iff_toNat_lt] at *
    omega)
  obtain ⟨-, -, -, rfl⟩ := map_eq_ok_iff.mp mapped
  rw [partitionPoint_eq falls, insertIdx_takeWhile]
  rfl

theorem map_perm {rs : List Region} {r : Region} (same : p.regions.Perm rs) (mapped : p.map r = .ok q) :
    q.regions.Perm (rs ++ [r]) := by
  obtain ⟨-, -, -, rfl⟩ := map_eq_ok_iff.mp mapped
  calc r.insert p.regions
    _ |>.Perm (r :: p.regions) := r.insert_perm _
    _ |>.Perm (r :: rs) := same.cons r
    _ |>.Perm (rs ++ [r]) := (List.perm_append_singleton r rs).symm

/-- There is room for bytes at an address. -/
structure Room (p : Program) (base : Word) (bytes : List UInt8) : Prop where
  nonempty : bytes ≠ []
  inside : base.toNat + bytes.length ≤ 2 ^ 64 - 1
  free : ∀ s ∈ p.regions, Disjoint (Set.Ico base.toNat (base.toNat + bytes.length)) s.range

theorem map_isOk_iff (apart : Apart p.regions) (base : Word) (bytes : List UInt8)
    (executable : Bool) :
    (∃ q, p.map ⟨base, bytes.toArray, executable⟩ = .ok q) ↔ p.Room base bytes := by
  simp only [map_eq_ok_iff, exists_and_left, exists_eq', and_true]
  constructor
  · rintro ⟨nonempty, inside, free⟩
    refine ⟨?_, ?_, ?_⟩
    · rintro rfl
      cases nonempty
    · exact Nat.le_pred_of_lt inside
    · intro s hs
      have apart' := (Region.disjoint_range_iff (apart.nonempty s hs) nonempty).mpr (free s hs)
      exact apart'.symm
  · intro room
    have nonempty : 0 < bytes.toArray.size := List.length_pos_iff.mpr room.nonempty
    refine ⟨nonempty, Nat.lt_of_le_pred (by decide) room.inside, ?_⟩
    intro s hs
    exact (Region.disjoint_range_iff (apart.nonempty s hs) nonempty).mp (room.free s hs).symm

/-- The images that requests build, with the regions that were asked for in the order of the
    requests. A request that fails gives no image and leaves the one before it as it is. -/
inductive Built : List Region → Program → Prop
  | new (entry : Word) : Built [] { entry }
  | symbol {rs : List Region} {p : Program} (built : Built rs p) (name : String) (address : Word) :
      Built rs (p.addSymbol name address)
  | code {rs : List Region} {p q : Program} {base : Word} {bytes : List UInt8} (built : Built rs p)
      (mapped : p.withCode base bytes = .ok q) : Built (rs ++ [⟨base, bytes.toArray, true⟩]) q
  | data {rs : List Region} {p q : Program} {base : Word} {bytes : List UInt8} (built : Built rs p)
      (mapped : p.withData base bytes = .ok q) : Built (rs ++ [⟨base, bytes.toArray, false⟩]) q

namespace Built

variable {rs others : List Region}

theorem map (built : Built rs p) {r : Region} (mapped : p.map r = .ok q) : Built (rs ++ [r]) q := by
  obtain ⟨base, ⟨bytes⟩, executable⟩ := r
  cases executable with
  | true => exact .code built mapped
  | false => exact .data built mapped

theorem apart (built : Built rs p) : Apart p.regions := by
  induction built with
  | new => exact .nil
  | symbol _ _ _ ih => exact ih
  | code _ mapped ih => exact apart_map ih mapped
  | data _ mapped ih => exact apart_map ih mapped

/-- The regions of an image are those that were asked for. -/
theorem perm (built : Built rs p) : p.regions.Perm rs := by
  induction built with
  | new => exact .nil
  | symbol _ _ _ ih => exact ih
  | code _ mapped ih => exact map_perm ih mapped
  | data _ mapped ih => exact map_perm ih mapped

theorem limit_lt (built : Built rs p) : ∀ r ∈ rs, r.limit < 2 ^ 64 := by
  have after {rs : List Region} {p q : Program} {r : Region} (ih : ∀ s ∈ rs, s.limit < 2 ^ 64)
      (mapped : p.map r = .ok q) : ∀ s ∈ rs ++ [r], s.limit < 2 ^ 64 := by
    intro s hs
    rcases List.mem_append.mp hs with hs | hs
    · exact ih s hs
    · rw [List.mem_singleton.mp hs]
      exact (map_eq_ok_iff.mp mapped).2.1
  induction built with
  | new => exact nofun
  | symbol _ _ _ ih => exact ih
  | code _ mapped ih => exact after ih mapped
  | data _ mapped ih => exact after ih mapped

/-- Requests pass, one after the other, exactly if each region is possible and no two meet. The order
    of the requests is not in what is asked. -/
theorem exists_iff : (∃ p, Built rs p) ↔
    (∀ r ∈ rs, 0 < r.bytes.size ∧ r.limit < 2 ^ 64) ∧
      rs.Pairwise fun r s => Disjoint r.range s.range := by
  constructor
  · rintro ⟨p, built⟩
    constructor
    · intro r hr
      exact ⟨built.apart.nonempty r (built.perm.mem_iff.mpr hr), built.limit_lt r hr⟩
    · exact (built.perm.pairwise_iff fun apart => apart.symm).mp built.apart.disjoint
  · rintro ⟨possible, disjoint⟩
    induction rs using List.reverseRecOn with
    | nil => exact ⟨_, .new 0⟩
    | append_singleton rs r ih =>
        obtain ⟨disjoint, -, meets⟩ := List.pairwise_append.mp disjoint
        obtain ⟨p, built⟩ := ih (fun s hs => possible s (List.mem_append_left _ hs)) disjoint
        obtain ⟨nonempty, inside⟩ := possible r (List.mem_append_right _ (.head _))
        have free : ∀ s ∈ p.regions, ¬ s.overlaps r := by
          intro s hs
          have apart' := meets s (built.perm.mem_iff.mp hs) r (.head _)
          exact (Region.disjoint_range_iff (built.apart.nonempty s hs) nonempty).mp apart'
        exact ⟨_, built.map (map_eq_ok_iff.mpr ⟨nonempty, inside, free, rfl⟩)⟩

theorem reorder (built : Built rs p) (same : others.Perm rs) :
    (∃ q, Built others q) ∧ ∀ q, Built others q → q.regions = p.regions := by
  constructor
  · obtain ⟨possible, disjoint⟩ := exists_iff.mp ⟨p, built⟩
    rw [exists_iff]
    constructor
    · intro r hr
      exact possible r (same.mem_iff.mp hr)
    · exact (same.pairwise_iff fun apart => apart.symm).mpr disjoint
  · intro q built'
    exact built'.apart.eq_of_perm built.apart (built'.perm.trans (same.trans built.perm.symm))

end Built

theorem region?_eq_none_iff (apart : Apart p.regions) {address : Word} :
    p.region? address = none ↔ ∀ r ∈ p.regions, address.toNat ∉ r.range := by
  simp only [Option.eq_none_iff_forall_ne_some, ne_eq, region?_eq_some_iff apart,
    Region.mem_range_iff, not_and]

theorem byte?_eq_some_iff (apart : Apart p.regions) {address : Word} {b : UInt8} :
    p.byte? address = some b ↔
      ∃ r ∈ p.regions, ∃ i, address.toNat = r.base.toNat + i ∧ r.bytes[i]? = some b := by
  constructor
  · intro read
    obtain ⟨r, found, there⟩ := Option.bind_eq_some_iff.mp read
    obtain ⟨hr, inside⟩ := (region?_eq_some_iff apart).mp found
    obtain ⟨above, -⟩ := Region.contains_iff.mp inside
    refine ⟨r, hr, (address - r.base).toNat, ?_, there⟩
    rw [Region.offset_eq inside]
    omega
  · rintro ⟨r, hr, i, place, there⟩
    obtain ⟨short, -⟩ := Array.getElem?_eq_some_iff.mp there
    have inside : r.contains address := by
      rw [Region.contains_iff, Region.limit]
      omega
    rw [byte?_eq apart hr inside, place, Nat.add_sub_cancel_left, Array.getElem?_toList]
    exact there

theorem isCode_iff (apart : Apart p.regions) {address : Word} : p.isCode address = true ↔
    ∃ r ∈ p.regions, r.executable = true ∧ address.toNat ∈ r.range := by
  rw [isCode, Option.any_eq_true]
  simp only [region?_eq_some_iff apart, Region.mem_range_iff]
  constructor
  · rintro ⟨r, ⟨hr, inside⟩, executable⟩
    exact ⟨r, hr, executable, inside⟩
  · rintro ⟨r, hr, executable, inside⟩
    exact ⟨r, ⟨hr, inside⟩, executable⟩

/-- Whether an address lies in code is the only thing that decides whether decoding says that it
    does not, as the decoder itself knows nothing of regions. -/
theorem decode_eq_outsideCode_iff (apart : Apart p.regions) {address : Word} :
    p.decode address = .error ⟨address, .outsideCode⟩ ↔ p.isCode address = false := by
  constructor
  · intro outside
    by_contra inCode
    rw [Bool.not_eq_false] at inCode
    obtain ⟨r, hr, executable, inside⟩ := (isCode_iff apart).mp inCode
    rw [decode_eq apart hr (Region.mem_range_iff.mp inside) executable] at outside
    exact ((Instruction.decode_faults _ _).2 _ outside).2.1 rfl
  · intro noCode
    rw [isCode] at noCode
    rw [decode]
    cases found : p.region? address with
    | none => rfl
    | some r =>
        rw [found, Option.any_some] at noCode
        simp only [Option.filter_some, noCode, Bool.false_eq_true, ↓reduceIte]

/-- Whatever requests have built an image, it passes the next one exactly if its bytes have room;
    its regions ascend, do not meet, and are those that were asked for, in an order that does not
    depend on that of the requests; and looking up a region, a byte or an instruction finds what was
    mapped at the address. -/
theorem region_map {rs : List Region} {p : Program} (built : Built rs p) :
    (∀ base bytes, ((∃ q, p.withCode base bytes = .ok q) ↔ p.Room base bytes) ∧
      ((∃ q, p.withData base bytes = .ok q) ↔ p.Room base bytes)) ∧
    (p.regions.Pairwise (fun r s => r.base.toNat < s.base.toNat) ∧
      p.regions.Pairwise (fun r s => Disjoint r.range s.range) ∧ p.regions.Perm rs) ∧
    (∀ others : List Region, others.Perm rs →
      (∃ q, Built others q) ∧ ∀ q, Built others q → q.regions = p.regions) ∧
    ∀ address : Word,
      (∀ r, p.region? address = some r ↔ r ∈ p.regions ∧ address.toNat ∈ r.range) ∧
      (p.region? address = none ↔ ∀ r ∈ p.regions, address.toNat ∉ r.range) ∧
      p.search? address = p.region? address ∧
      (∀ b, p.byte? address = some b ↔
        ∃ r ∈ rs, ∃ i, address.toNat = r.base.toNat + i ∧ r.bytes[i]? = some b) ∧
      (p.decode address = .error ⟨address, .outsideCode⟩ ↔ p.isCode address = false) ∧
      (p.isCode address = true ↔ ∃ r ∈ p.regions, r.executable = true ∧ address.toNat ∈ r.range) ∧
      ∀ r ∈ p.regions, r.executable = true → address.toNat ∈ r.range →
        p.decode address =
          Instruction.decode (r.bytes.toList.drop (address.toNat - r.base.toNat)) address := by
  have apart := built.apart
  refine ⟨?_, ⟨apart.base_ordered, apart.disjoint, built.perm⟩, ?_, ?_⟩
  · intro base bytes
    exact ⟨map_isOk_iff apart base bytes true, map_isOk_iff apart base bytes false⟩
  · intro others same
    exact built.reorder same
  intro address
  refine ⟨?_, region?_eq_none_iff apart, search?_eq apart address, ?_,
    decode_eq_outsideCode_iff apart, isCode_iff apart, ?_⟩
  · intro r
    rw [region?_eq_some_iff apart, Region.mem_range_iff]
  · intro b
    simp only [byte?_eq_some_iff apart, built.perm.mem_iff]
  · intro r hr executable inside
    exact decode_eq apart hr (Region.mem_range_iff.mp inside) executable

/-- A byte of data, and code that is mapped right in front of it afterwards. -/
theorem region_map_adjacent : ∃ p, Built [⟨0x1001, #[0x41], false⟩, ⟨0x1000, #[0x0c], true⟩] p ∧
    p.search? 0x1001 = some ⟨0x1001, #[0x41], false⟩ ∧
    p.decode 0x1000 = .ok ⟨0x1000, 1, .halt⟩ ∧
    p.decode 0x1001 = .error ⟨0x1001, .outsideCode⟩ := by
  let data : Region := ⟨0x1001, #[0x41], false⟩
  let code : Region := ⟨0x1000, #[0x0c], true⟩
  have first : Built [data] { entry := 0x1000, regions := [data] } := (Built.new 0x1000).map rfl
  have both : Built [data, code] { entry := 0x1000, regions := [code, data] } := first.map rfl
  obtain ⟨-, -, -, at'⟩ := region_map both
  refine ⟨_, both, ?_, ?_, ?_⟩
  · rw [(at' _).2.2.1]
    exact ((at' _).1 _).mpr ⟨.tail _ (.head _), by decide, by decide⟩
  · rw [(at' _).2.2.2.2.2.2 ⟨0x1000, #[0x0c], true⟩ (.head _) rfl ⟨by decide, by decide⟩]
    rfl
  · exact (at' _).2.2.2.2.1.mpr rfl

end Program

end PathSearch
