import Mathlib.Logic.Function.Basic
import PathSearch.Proofs.Access
import PathSearch.Proofs.Expr.Occurrence
import PathSearch.Search.Merge

/-! # A merged state is each of its parts

Under an assignment the merged state is the state that the selector has the number of, with the same
registers, bytes and constraints. What a part admits, the merged state admits once its number is
selected. Merging never fails but for states that do not fit together.
-/

namespace PathSearch.Merge

open PathSearch.Expr Word

/-- The number that the selector has, out of `count`. -/
def chosen (selector : String) (count : Nat) (σ : Assignment) : Nat :=
  (truncate (selectorWidth count) (σ selector)).toNat

theorem selectorWidth_pos (count : Nat) : 0 < selectorWidth count := by
  unfold selectorWidth
  split <;> omega

theorem le_two_pow_selectorWidth (count : Nat) : count ≤ 2 ^ selectorWidth count := by
  unfold selectorWidth
  split
  · omega
  · have := Nat.lt_log2_self (n := count - 1)
    omega

structure Guards (selector : String) (count : Nat) (gs : List Expr) : Prop where
  length_eq : gs.length = count
  bit : ∀ g ∈ gs, g.IsBit
  value_eq : ∀ (i : Nat) (g : Expr), gs[i]? = some g →
    ∀ σ, g.value σ = 1 ↔ chosen selector count σ = i

section Guards

variable {selector : String} {count : Nat} {gs : List Expr}

theorem toNat_truncate_index {i : Nat} (room : selectorWidth count ≤ 64) (inside : i < count) :
    (truncate (selectorWidth count) (UInt64.ofNat i)).toNat = i := by
  have small : i < 2 ^ selectorWidth count :=
    Nat.lt_of_lt_of_le inside (le_two_pow_selectorWidth count)
  rw [toNat_truncate room, UInt64.toNat_ofNat', mod_two_pow_mod room, Nat.mod_eq_of_lt small]

theorem guards_total (selector : String) {count : Nat} (room : selectorWidth count ≤ 64) :
    ∃ gs, guards selector count = .ok gs ∧ Guards selector count gs := by
  have pos := selectorWidth_pos count
  have checked := checkWidth_total pos room
  have hsel : (Expr.var selector (selectorWidth count)).WellFormed := ⟨pos, room⟩
  have guard : ∀ i ∈ List.range count, ∃ g,
      (mkConst (UInt64.ofNat i) (selectorWidth count) >>=
        (Expr.var selector (selectorWidth count)).equals) = .ok g ∧
      g.IsBit ∧ ∀ σ, g.value σ = 1 ↔ chosen selector count σ = i := by
    intro i hi
    have number := toNat_truncate_index room (List.mem_range.mp hi)
    have hconst : (Expr.const (truncate (selectorWidth count) (UInt64.ofNat i))
        (selectorWidth count)).WellFormed := ⟨pos, room, toNat_truncate_lt room _⟩
    obtain ⟨g, built, bit, value⟩ := equals_bit hsel hconst rfl
    refine ⟨g, ?_, bit, fun σ => ?_⟩
    · simp only [mkConst, checked]
      exact built
    · rw [value, value_var, value_const, ← UInt64.toNat_inj, number, chosen]
  obtain ⟨gs, built, each⟩ := mapM_total guard
  refine ⟨gs, ?_, ?_, fun g hg => ?_, fun i g found => ?_⟩
  · simp only [guards, mkVar, checked]
    exact built
  · rw [← each.length_eq, List.length_range]
  · obtain ⟨i, -, bit, -⟩ := exists_left each hg
    exact bit
  · obtain ⟨j, place, -, value⟩ := left_of_getElem? each found
    obtain ⟨inside, rfl⟩ := List.getElem?_eq_some_iff.mp place
    rwa [List.getElem_range] at value

theorem room_of_guards (built : guards selector count = .ok gs) : selectorWidth count ≤ 64 := by
  obtain ⟨sel, made, -⟩ := bind_ok built
  obtain ⟨_, checked, -⟩ := bind_ok made
  exact (checkWidth_ok checked).2

end Guards

section Select

variable {width : Nat}

/-- One link of the chain: equal values need no choice. -/
theorem link_total {guard v merged : Expr} (bit : guard.IsBit) (hv : v.WellFormed)
    (hm : merged.WellFormed) (same : v.width = merged.width) :
    ∃ e, (if v = merged then pure merged else mkIte guard v merged) = Except.ok e ∧
      e.WellFormed ∧ e.width = v.width ∧
      ∀ σ, e.value σ = if guard.value σ = 1 then v.value σ else merged.value σ := by
  by_cases equal : v = merged
  · subst equal
    exact ⟨v, by simp [pure, Except.pure], hv, rfl, fun σ => by simp⟩
  · rw [if_neg equal]
    exact mkIte_bit bit hv hm same

/-- The value whose guard is the only one that holds. -/
theorem select_total {gvs : List (Expr × Expr)} (nonempty : gvs ≠ [])
    (bit : ∀ p ∈ gvs, p.1.IsBit) (values : ∀ p ∈ gvs, p.2.WellFormed ∧ p.2.width = width) :
    ∃ e, select gvs = .ok e ∧ e.WellFormed ∧ e.width = width ∧
      ∀ (σ : Assignment) (i : Nat) (p : Expr × Expr), gvs[i]? = some p →
        (∀ (j : Nat) (q : Expr × Expr), gvs[j]? = some q → (q.1.value σ = 1 ↔ j = i)) →
        e.value σ = p.2.value σ := by
  induction gvs with
  | nil => exact (nonempty rfl).elim
  | cons first rest ih =>
      obtain ⟨bitFirst, bitRest⟩ := List.forall_mem_cons.mp bit
      obtain ⟨⟨hv, widthV⟩, valuesRest⟩ := List.forall_mem_cons.mp values
      obtain ⟨guard, v⟩ := first
      cases rest with
      | nil =>
          refine ⟨v, rfl, hv, widthV, fun σ i p found _ => ?_⟩
          rw [List.mem_singleton.mp (List.mem_of_getElem? found)]
      | cons second rest =>
          obtain ⟨merged, built, hm, widthM, later⟩ := ih (by simp) bitRest valuesRest
          obtain ⟨e, link, he, widthE, value⟩ := link_total bitFirst hv hm (widthV.trans widthM.symm)
          refine ⟨e, ?_, he, widthE.trans widthV, fun σ i p found only => ?_⟩
          · simp only [select, built]
            exact link
          · rw [value]
            have here : guard.value σ = 1 ↔ 0 = i := only 0 (guard, v) rfl
            cases i with
            | zero =>
                cases found
                rw [if_pos (here.mpr rfl)]
            | succ i =>
                rw [if_neg fun taken => nomatch here.mp taken]
                refine later σ i p found fun j q place => ?_
                rw [only (j + 1) q place, Nat.succ_inj]

end Select

section Conditions

/-- The guard and all constraints hold. -/
theorem conjunction_total {guard : Expr} {cs : List Expr} (bit : guard.IsBit) (bits : ∀ c ∈ cs, c.IsBit) :
    ∃ e, conjunction guard cs = .ok e ∧ e.IsBit ∧
      ∀ σ, e.value σ = 1 ↔ guard.value σ = 1 ∧ ∀ c ∈ cs, c.value σ = 1 := by
  induction cs generalizing guard with
  | nil => exact ⟨guard, rfl, bit, fun σ => by simp⟩
  | cons c rest ih =>
      obtain ⟨bitC, bitRest⟩ := List.forall_mem_cons.mp bits
      obtain ⟨both, joined, bitBoth, value⟩ := land_bit bit bitC
      obtain ⟨e, built, bitE, whole⟩ := ih bitBoth bitRest
      refine ⟨e, ?_, bitE, fun σ => ?_⟩
      · rw [conjunction, List.foldlM_cons, joined]
        exact built
      · rw [whole, value, and_assoc, List.forall_mem_cons]

theorem foldlM_lor_total {c : Expr} {cs : List Expr} (bit : c.IsBit) (bits : ∀ d ∈ cs, d.IsBit) :
    ∃ e, cs.foldlM lor c = .ok e ∧ e.IsBit ∧
      ∀ σ, e.value σ = 1 ↔ c.value σ = 1 ∨ ∃ d ∈ cs, d.value σ = 1 := by
  induction cs generalizing c with
  | nil => exact ⟨c, rfl, bit, fun σ => by simp⟩
  | cons d rest ih =>
      obtain ⟨bitD, bitRest⟩ := List.forall_mem_cons.mp bits
      obtain ⟨either, joined, bitEither, value⟩ := lor_bit bit bitD
      obtain ⟨e, built, bitE, whole⟩ := ih bitEither bitRest
      refine ⟨e, ?_, bitE, fun σ => ?_⟩
      · rw [List.foldlM_cons, joined]
        exact built
      · simp only [whole, value, or_assoc, List.mem_cons, exists_eq_or_imp]

/-- One of the conditions holds. -/
theorem disjunction_total {cs : List Expr} (nonempty : cs ≠ []) (bits : ∀ c ∈ cs, c.IsBit) :
    ∃ e, disjunction cs = .ok (some e) ∧ e.IsBit ∧
      ∀ σ, e.value σ = 1 ↔ ∃ c ∈ cs, c.value σ = 1 := by
  cases cs with
  | nil => exact (nonempty rfl).elim
  | cons c rest =>
      obtain ⟨bitC, bitRest⟩ := List.forall_mem_cons.mp bits
      obtain ⟨e, built, bitE, value⟩ := foldlM_lor_total bitC bitRest
      refine ⟨e, ?_, bitE, fun σ => ?_⟩
      · simp only [disjunction, built]
        rfl
      · simp only [value, List.mem_cons, exists_eq_or_imp]

theorem take_commonLength {as bs : List Expr} {n : Nat} (h : n ≤ Constraints.commonLength as bs) :
    as.take n = bs.take n := by
  induction n generalizing as bs with
  | zero => rfl
  | succ n ih =>
      unfold Constraints.commonLength at h
      split at h
      · rename_i a as b bs
        split at h
        · rename_i same
          have tails : as.take n = bs.take n := ih (by omega)
          rw [same, List.take_succ_cons, List.take_succ_cons, tails]
        · omega
      · omega

/-- The number of constraints at the start that all states have. -/
def sharedLength (first : State) (others : List State) : Nat :=
  (others.map fun s => first.constraints.commonPrefix s.constraints).min?.getD 0

theorem take_sharedLength {first s : State} {others : List State} (hs : s ∈ first :: others) :
    s.constraints.items.take (sharedLength first others) =
      first.constraints.items.take (sharedLength first others) := by
  rcases List.mem_cons.mp hs with rfl | other
  · rfl
  · refine (take_commonLength ?_).symm
    have listed := List.mem_map_of_mem (f := fun s => first.constraints.commonPrefix s.constraints) other
    have least : (others.map fun s => first.constraints.commonPrefix s.constraints).min? =
        some (sharedLength first others) := by
      obtain ⟨n, found⟩ := Option.isSome_iff_exists.mp
        (List.isSome_min?_of_mem listed)
      rw [sharedLength, found, Option.getD_some]
    exact (List.min?_eq_some_iff.mp least).2 _ listed

theorem foldlM_push_total {cs : Constraints} (list : List Expr) (hcs : cs.WellFormed)
    (bits : ∀ c ∈ list, c.IsBit) :
    ∃ all, list.foldlM Constraints.push cs = .ok all ∧ all.WellFormed ∧
      ∀ σ, all.SatisfiedBy σ ↔ cs.SatisfiedBy σ ∧ ∀ c ∈ list, c.value σ = 1 := by
  induction list generalizing cs with
  | nil => exact ⟨cs, rfl, hcs, fun σ => by simp⟩
  | cons c rest ih =>
      obtain ⟨bit, bitsRest⟩ := List.forall_mem_cons.mp bits
      obtain ⟨cs', pushed⟩ := cs.push_total bit
      obtain ⟨kept, satisfied⟩ := Constraints.push_ok bit.1 pushed
      obtain ⟨all, built, hall, whole⟩ := ih (kept hcs) bitsRest
      refine ⟨all, ?_, hall, fun σ => ?_⟩
      · rw [List.foldlM_cons, pushed]
        exact built
      · rw [whole, satisfied, and_assoc, List.forall_mem_cons]

/-- All constraints of a state hold if the shared ones and the others of that state do. -/
theorem admits_iff_parts {first s : State} {others : List State} (hs : s ∈ first :: others)
    (wellFormed : s.constraints.WellFormed) (σ : Assignment) :
    s.Admits σ ↔ (∀ c ∈ first.constraints.items.take (sharedLength first others), c.value σ = 1) ∧
      ∀ c ∈ s.constraints.suffix (sharedLength first others), c.value σ = 1 := by
  rw [State.Admits, Constraints.satisfiedBy_iff wellFormed, Constraints.suffix, ← take_sharedLength hs,
    ← List.forall_mem_append, List.take_append_drop]

/-- One of the sides holds if the constraints that are not shared hold of the chosen state. -/
theorem sides_total {selector : String} {first : State} {others : List State} {gs : List Expr}
    (hg : Guards selector (first :: others).length gs)
    (wellFormed : ∀ s ∈ first :: others, s.constraints.WellFormed) (shared : Nat) :
    ∃ sides, ((first :: others).zip gs).mapM
        (fun p => conjunction p.2 (p.1.constraints.suffix shared)) = .ok sides ∧
      sides ≠ [] ∧ (∀ e ∈ sides, e.IsBit) ∧
      ∀ σ, (∃ e ∈ sides, e.value σ = 1) ↔
        ∃ s, (first :: others)[chosen selector (first :: others).length σ]? = some s ∧
          ∀ c ∈ s.constraints.suffix shared, c.value σ = 1 := by
  have side : ∀ p ∈ (first :: others).zip gs, ∃ e,
      conjunction p.2 (p.1.constraints.suffix shared) = .ok e ∧ e.IsBit ∧
        ∀ σ, e.value σ = 1 ↔ p.2.value σ = 1 ∧ ∀ c ∈ p.1.constraints.suffix shared, c.value σ = 1 := by
    intro p hp
    obtain ⟨hs, hgs⟩ := List.of_mem_zip hp
    exact conjunction_total (hg.bit p.2 hgs) fun c hc => wellFormed p.1 hs c (List.mem_of_mem_drop hc)
  obtain ⟨sides, mapped, each⟩ := mapM_total side
  refine ⟨sides, mapped, ?_, fun e he => ?_, fun σ => ⟨?_, ?_⟩⟩
  · rintro rfl
    have length := each.length_eq
    simp [hg.length_eq] at length
  · obtain ⟨p, -, bit, -⟩ := exists_left each he
    exact bit
  · rintro ⟨e, he, holds⟩
    obtain ⟨⟨s, g⟩, hp, -, value⟩ := exists_left each he
    obtain ⟨selected, rest⟩ := (value σ).mp holds
    obtain ⟨i, place⟩ := List.mem_iff_getElem?.mp hp
    obtain ⟨placeS, placeG⟩ := List.getElem?_zip_eq_some.mp place
    have number : chosen selector _ σ = i := (hg.value_eq i g placeG σ).mp selected
    exact ⟨s, number ▸ placeS, rest⟩
  · rintro ⟨s, placeS, rest⟩
    have inside : chosen selector (first :: others).length σ < gs.length := by
      rw [hg.length_eq]
      exact (List.getElem?_eq_some_iff.mp placeS).1
    have placeG := List.getElem?_eq_getElem inside
    have hp : (s, gs[chosen selector (first :: others).length σ]) ∈ (first :: others).zip gs :=
      List.mem_of_getElem? (List.getElem?_zip_eq_some.mpr ⟨placeS, placeG⟩)
    obtain ⟨e, he, -, value⟩ := exists_right each hp
    exact ⟨e, he, (value σ).mpr ⟨(hg.value_eq _ _ placeG σ).mpr rfl, rest⟩⟩

/-- The constraints of the merged state are those of the chosen one. -/
theorem constraints_total {selector : String} {first : State} {others : List State} {gs : List Expr}
    (hg : Guards selector (first :: others).length gs)
    (wellFormed : ∀ s ∈ first :: others, s.constraints.WellFormed) :
    ∃ cs, constraints first others gs = .ok cs ∧ cs.WellFormed ∧ ∀ σ, cs.SatisfiedBy σ ↔
      ∃ s, (first :: others)[chosen selector (first :: others).length σ]? = some s ∧ s.Admits σ := by
  have empty : Constraints.WellFormed {} := nofun
  obtain ⟨common, listed, hcommon, satisfied⟩ :=
    foldlM_push_total (first.constraints.items.take (sharedLength first others)) empty
      fun c hc => wellFormed first (.head _) c (List.mem_of_mem_take hc)
  obtain ⟨sides, mapped, nonempty, bits, oneSide⟩ :=
    sides_total hg wellFormed (sharedLength first others)
  obtain ⟨d, joined, bitD, disjunction⟩ := disjunction_total nonempty bits
  obtain ⟨cs, pushed⟩ := common.push_total bitD
  obtain ⟨kept, added⟩ := Constraints.push_ok bitD.1 pushed
  refine ⟨cs, ?_, kept hcommon, fun σ => ?_⟩
  · unfold constraints
    exact (ok_bind listed _).trans ((ok_bind mapped _).trans ((ok_bind joined _).trans pushed))
  · rw [added, satisfied, disjunction, oneSide]
    constructor
    · rintro ⟨⟨-, shared⟩, s, place, rest⟩
      have hs := List.mem_of_getElem? place
      exact ⟨s, place, (admits_iff_parts hs (wellFormed s hs) σ).mpr ⟨shared, rest⟩⟩
    · rintro ⟨s, place, admits⟩
      have hs := List.mem_of_getElem? place
      obtain ⟨shared, rest⟩ := (admits_iff_parts hs (wellFormed s hs) σ).mp admits
      exact ⟨⟨nofun, shared⟩, s, place, rest⟩

end Conditions

section Contents

variable {selector : String} {states : List State} {gs : List Expr} {width : Nat}

/-- The value that the chosen state has. -/
theorem select_states (hg : Guards selector states.length gs) (nonempty : states ≠ [])
    {f : State → Expr} (values : ∀ s ∈ states, (f s).WellFormed ∧ (f s).width = width) :
    ∃ e, select (gs.zip (states.map f)) = .ok e ∧ e.WellFormed ∧ e.width = width ∧
      ∀ (σ : Assignment) (s : State), states[chosen selector states.length σ]? = some s →
        e.value σ = (f s).value σ := by
  have zipped : gs.zip (states.map f) ≠ [] := by
    intro none
    have length := congrArg List.length none
    rw [List.length_zip, List.length_map, hg.length_eq, Nat.min_self] at length
    exact nonempty (List.length_eq_zero_iff.mp length)
  have bit : ∀ p ∈ gs.zip (states.map f), p.1.IsBit := fun p hp => hg.bit _ (List.of_mem_zip hp).1
  have value : ∀ p ∈ gs.zip (states.map f), p.2.WellFormed ∧ p.2.width = width := by
    intro p hp
    obtain ⟨s, hs, same⟩ := List.mem_map.mp (List.of_mem_zip hp).2
    exact same ▸ values s hs
  obtain ⟨e, built, he, widthE, picks⟩ := select_total zipped bit value
  refine ⟨e, built, he, widthE, fun σ s place => ?_⟩
  have inside : chosen selector states.length σ < gs.length := by
    rw [hg.length_eq]
    exact (List.getElem?_eq_some_iff.mp place).1
  have mapped : (states.map f)[chosen selector states.length σ]? = some (f s) := by
    rw [List.getElem?_map, place, Option.map_some]
  have here : (gs.zip (states.map f))[chosen selector states.length σ]? =
      some (gs[chosen selector states.length σ], f s) :=
    List.getElem?_zip_eq_some.mpr ⟨List.getElem?_eq_getElem inside, mapped⟩
  refine picks σ _ _ here fun j q found => ?_
  rw [hg.value_eq j q.1 (List.getElem?_zip_eq_some.mp found).1, eq_comm]

theorem foldlM_set_total {P : Register → Expr → Prop} {f : Register → Except Error Expr}
    {list : List Register} (rs : Registers) (each : ∀ r ∈ list, ∃ e, f r = .ok e ∧ P r e) :
    ∃ rs', list.foldlM (fun rs r => do pure (rs.set r (← f r))) rs = .ok rs' ∧
      ∀ r, (r ∈ list → ∃ e, P r e ∧ rs'.get r = Registers.widen e) ∧
        (r ∉ list → rs'.get r = rs.get r) := by
  induction list generalizing rs with
  | nil => exact ⟨rs, rfl, fun r => ⟨nofun, fun _ => rfl⟩⟩
  | cons q rest ih =>
      obtain ⟨here, later⟩ := List.forall_mem_cons.mp each
      obtain ⟨e, built, holds⟩ := here
      obtain ⟨rs', folded, contents⟩ := ih (rs.set q e) later
      refine ⟨rs', ?_, fun r => ⟨fun hr => ?_, fun hr => ?_⟩⟩
      · rw [List.foldlM_cons, built]
        exact folded
      · by_cases again : r ∈ rest
        · exact (contents r).1 again
        · obtain rfl := (List.mem_cons.mp hr).resolve_right again
          refine ⟨e, holds, ?_⟩
          rw [(contents r).2 again, Registers.get_set, if_pos rfl]
      · obtain ⟨other, again⟩ : r ≠ q ∧ r ∉ rest := by simpa using hr
        rw [(contents r).2 again, Registers.get_set, if_neg other]

theorem registers_total (hg : Guards selector states.length gs) (nonempty : states ≠ [])
    (wellFormed : ∀ s ∈ states, s.registers.WellFormed) :
    ∃ rs, registers states gs = .ok rs ∧ rs.WellFormed ∧
      ∀ (σ : Assignment) (s : State), states[chosen selector states.length σ]? = some s →
        ∀ r, (rs.get r).value σ = (s.readRegister r).value σ := by
  obtain ⟨rs, built, contents⟩ := foldlM_set_total {} fun r (_ : r ∈ Register.all) =>
    select_states hg nonempty fun s hs => wellFormed s hs r
  have content (r : Register) := (contents r).1 (by cases r <;> decide)
  refine ⟨rs, built, fun r => ?_, fun σ s place r => ?_⟩
  · obtain ⟨e, ⟨he, -, -⟩, widened⟩ := content r
    obtain ⟨wide, width, -⟩ := Registers.widen_denotes he
    exact widened ▸ ⟨wide, width⟩
  · obtain ⟨e, ⟨he, -, value⟩, widened⟩ := content r
    rw [widened, (Registers.widen_denotes he).2.2]
    exact value σ s place

theorem foldlM_writeByte_total {P : Word → Expr → Prop} {f : Word → Except Error Expr}
    {list : List Word} (m : Memory) (each : ∀ a ∈ list, ∃ e, f a = .ok e ∧ e.width = 8 ∧ P a e) :
    ∃ m', list.foldlM (fun m a => do m.writeByte a (← f a)) m = .ok m' ∧
      ∀ a, (a ∈ list → P a (m'.byte a)) ∧ (a ∉ list → m'.byte a = m.byte a) := by
  induction list generalizing m with
  | nil => exact ⟨m, rfl, fun a => ⟨nofun, fun _ => rfl⟩⟩
  | cons b rest ih =>
      obtain ⟨here, later⟩ := List.forall_mem_cons.mp each
      obtain ⟨e, built, width, holds⟩ := here
      obtain ⟨m', folded, contents⟩ := ih (m.put b e) later
      refine ⟨m', ?_, fun a => ⟨fun ha => ?_, fun ha => ?_⟩⟩
      · have written : m.writeByte b e = .ok (m.put b e) := by
          rw [Memory.writeByte, width, expectWidth_self]
          rfl
        rw [List.foldlM_cons, ok_bind built, written]
        exact folded
      · by_cases again : a ∈ rest
        · exact (contents a).1 again
        · obtain rfl := (List.mem_cons.mp ha).resolve_right again
          rwa [(contents a).2 again, Memory.byte_put, if_pos rfl]
      · obtain ⟨other, again⟩ : a ≠ b ∧ a ∉ rest := by simpa using ha
        rw [(contents a).2 again, Memory.byte_put, if_neg (Ne.symm other)]

theorem mem_foldl_insert {list : List Word} {set : Std.TreeMap Word Unit} {a : Word} :
    a ∈ list.foldl (fun set b => set.insert b ()) set ↔ a ∈ list ∨ a ∈ set := by
  induction list generalizing set with
  | nil => simp
  | cons b rest ih =>
      rw [List.foldl_cons, ih, Std.TreeMap.mem_insert, Std.compare_eq_iff_eq, List.mem_cons]
      grind

theorem mem_writtenAddresses {a : Word} :
    a ∈ writtenAddresses states ↔ ∃ s ∈ states, a ∈ s.memory.written := by
  have fold (set : Std.TreeMap Word Unit) :
      a ∈ states.foldl (fun set s => s.memory.written.foldl (fun set a _ => set.insert a ()) set) set ↔
        (∃ s ∈ states, a ∈ s.memory.written) ∨ a ∈ set := by
    induction states generalizing set with
    | nil => simp
    | cons s rest ih =>
        rw [List.foldl_cons, ih, Std.TreeMap.foldl_eq_foldl_keys, mem_foldl_insert,
          Std.TreeMap.mem_keys]
        simp only [List.mem_cons, exists_eq_or_imp]
        rw [or_left_comm, or_assoc]
  rw [writtenAddresses, Std.TreeMap.mem_keys, fold]
  simp

theorem byte_of_not_mem {m : Memory} {a : Word} (unwritten : a ∉ m.written) :
    m.byte a = Memory.background m.image m.uninitialized a := by
  rw [Memory.byte, Std.TreeMap.getElem?_eq_none unwritten]

/-- Where some state wrote, memory has the byte of the chosen one; elsewhere it is as before. -/
theorem memory_chosen (base : Memory) (hg : Guards selector states.length gs) (nonempty : states ≠ [])
    (wellFormed : ∀ s ∈ states, s.memory.WellFormed) :
    ∃ m, memory base states gs = .ok m ∧ ∀ a,
      (a ∈ writtenAddresses states → Memory.IsByte (m.byte a) ∧
        ∀ (σ : Assignment) (s : State), states[chosen selector states.length σ]? = some s →
          (m.byte a).value σ = (s.memory.byte a).value σ) ∧
      (a ∉ writtenAddresses states → m.byte a = base.byte a) := by
  have chosenByte (a : Word) (_ : a ∈ writtenAddresses states) :
      ∃ e, select (gs.zip (states.map (·.memory.byte a))) = .ok e ∧ e.width = 8 ∧ Memory.IsByte e ∧
        ∀ (σ : Assignment) (s : State), states[chosen selector states.length σ]? = some s →
          e.value σ = (s.memory.byte a).value σ := by
    obtain ⟨e, selected, he, width, value⟩ :=
      select_states hg nonempty fun s hs => ⟨(wellFormed s hs a).wellFormed, (wellFormed s hs a).width_eq⟩
    exact ⟨e, selected, width, Memory.IsByte.mk he width, value⟩
  exact foldlM_writeByte_total base chosenByte

theorem memory_total {base : Memory} (hg : Guards selector states.length gs) (nonempty : states ≠ [])
    (wellFormed : ∀ s ∈ states, s.memory.WellFormed) (hbase : ∃ s ∈ states, s.memory = base) :
    ∃ m, memory base states gs = .ok m ∧ m.WellFormed ∧
      ((∀ s ∈ states, s.memory.image = base.image) →
        (∀ s ∈ states, s.memory.uninitialized = base.uninitialized) →
        ∀ (σ : Assignment) (s : State), states[chosen selector states.length σ]? = some s →
          ∀ a, (m.byte a).value σ = (s.memory.byte a).value σ) := by
  obtain ⟨m, built, contents⟩ := memory_chosen base hg nonempty wellFormed
  refine ⟨m, built, fun a => ?_, fun sameImage samePolicy σ s place a => ?_⟩
  · by_cases written : a ∈ writtenAddresses states
    · exact ((contents a).1 written).1
    · obtain ⟨s, hs, rfl⟩ := hbase
      exact (contents a).2 written ▸ wellFormed s hs a
  · by_cases written : a ∈ writtenAddresses states
    · exact ((contents a).1 written).2 σ s place
    · -- nobody wrote there, so all states have what the image or the policy says
      have hs := List.mem_of_getElem? place
      have unwritten (t : State) (ht : t ∈ states) : a ∉ t.memory.written :=
        fun here => written (mem_writtenAddresses.mpr ⟨t, ht, here⟩)
      obtain ⟨t, ht, rfl⟩ := hbase
      rw [(contents a).2 written, byte_of_not_mem (unwritten t ht), byte_of_not_mem (unwritten s hs),
        sameImage s hs, samePolicy s hs]

end Contents

section Inputs

/-- Taking up inputs keeps every name and adds those that are new. -/
theorem named_foldl_add {list known : List (String × Expr)} {name : String}
    (h : (∃ v, (name, v) ∈ known) ∨ ∃ v, (name, v) ∈ list) :
    ∃ v, (name, v) ∈ list.foldl (fun known (name, value) =>
      if known.any (·.1 == name) then known else known ++ [(name, value)]) known := by
  induction list generalizing known with
  | nil => exact h.resolve_right (by simp)
  | cons p rest ih =>
      obtain ⟨n, w⟩ := p
      rw [List.foldl_cons]
      apply ih
      by_cases present : known.any (·.1 == n) = true
      · simp only [present, if_true]
        rcases h with old | ⟨v, new⟩
        · exact .inl old
        · rcases List.mem_cons.mp new with same | later
          · obtain ⟨⟨n', w'⟩, here, equal⟩ := List.any_eq_true.mp present
            cases same
            cases beq_iff_eq.mp equal
            exact .inl ⟨w', here⟩
          · exact .inr ⟨v, later⟩
      · simp only [if_neg present, List.mem_append, List.mem_singleton]
        rcases h with ⟨v, old⟩ | ⟨v, new⟩
        · exact .inl ⟨v, .inl old⟩
        · rcases List.mem_cons.mp new with same | later
          · exact .inl ⟨v, .inr same⟩
          · exact .inr ⟨v, later⟩

theorem named_inputs {states : List State} {s : State} (hs : s ∈ states) {p : String × Expr}
    (hp : p ∈ s.inputs) : ∃ v, (p.1, v) ∈ inputs states := by
  obtain ⟨name, value⟩ := p
  have fold {others : List State} {known : List (String × Expr)}
      (h : (∃ v, (name, v) ∈ known) ∨ s ∈ others) :
      ∃ v, (name, v) ∈ others.foldl (fun known s => s.inputs.foldl (fun known (name, value) =>
        if known.any (·.1 == name) then known else known ++ [(name, value)]) known) known := by
    induction others generalizing known with
    | nil => exact h.resolve_right (by simp)
    | cons t rest ih =>
        rw [List.foldl_cons]
        apply ih
        rcases h with old | new
        · exact .inl (named_foldl_add (.inl old))
        · rcases List.mem_cons.mp new with rfl | later
          · exact .inl (named_foldl_add (.inr ⟨value, hp⟩))
          · exact .inr later
  cases states with
  | nil => cases hs
  | cons first others =>
      rcases List.mem_cons.mp hs with rfl | other
      · exact fold (.inl ⟨value, hp⟩)
      · exact fold (.inr other)

end Inputs

/-- States that fit together. -/
structure Compatible (first other : State) : Prop where
  ip : other.ip = first.ip
  streams : first.streams.toList = other.streams.toList

theorem checkCompatible_iff {first other : State} :
    checkCompatible first other = .ok () ↔ Compatible first other := by
  unfold checkCompatible
  split
  · rename_i differ
    exact ⟨nofun, fun h => (differ h.ip).elim⟩
  · rename_i sameIp
    split
    · rename_i differ
      exact ⟨nofun, fun h => (differ h.streams).elim⟩
    · rename_i sameStreams
      exact ⟨fun _ => ⟨not_not.mp sameIp, not_not.mp sameStreams⟩, fun _ => rfl⟩

/-- What a merged state is. -/
structure Merged (selector : String) (states : List State) (m : State) : Prop where
  wellFormed : m.WellFormed
  admits : ∀ σ, m.Admits σ ↔
    ∃ s, states[chosen selector states.length σ]? = some s ∧ s.Admits σ
  registers : ∀ (σ : Assignment) (s : State), states[chosen selector states.length σ]? = some s →
    ∀ r, (m.readRegister r).value σ = (s.readRegister r).value σ
  bytes : ∀ (σ : Assignment) (s : State), states[chosen selector states.length σ]? = some s →
    ∀ a, (m.memory.byte a).value σ = (s.memory.byte a).value σ
  ip : ∀ s ∈ states, m.ip = s.ip
  streams : ∀ s ∈ states, m.streams.toList = s.streams.toList
  steps : ∀ s ∈ states, s.steps ≤ m.steps
  steps_mem : ∃ s ∈ states, m.steps = s.steps
  inputs : ∀ s ∈ states, ∀ p ∈ s.inputs, ∃ v, (p.1, v) ∈ m.inputs

/-- The state that is put together from the merged parts. -/
def assembled (first : State) (others : List State) (rs : Registers) (cs : Constraints) (mem : Memory)
    (id : Nat) : State :=
  { first.fork id with
    steps := (first :: others).foldl (fun n s => max n s.steps) 0
    registers := rs
    constraints := cs
    memory := mem
    inputs := inputs (first :: others) }

theorem run_forM_check {first : State} {others : List State}
    (compatible : ∀ s ∈ others, Compatible first s) (n : Nat) :
    (others.forM fun s => merge.liftExcept (checkCompatible first s)).run n = (.ok (), n) := by
  induction others with
  | nil => rfl
  | cons s rest ih =>
      obtain ⟨here, later⟩ := List.forall_mem_cons.mp compatible
      have passed : (merge.liftExcept (checkCompatible first s)).run n = (.ok (), n) :=
        run_lift (checkCompatible_iff.mpr here) n
      exact (run_ok_bind passed _).trans (ih later)

theorem compatible_of_run {first : State} {others : List State} {n n' : Nat}
    (h : (others.forM fun s => merge.liftExcept (checkCompatible first s)).run n = (.ok (), n')) :
    ∀ s ∈ others, Compatible first s := by
  induction others generalizing n with
  | nil => simp
  | cons s rest ih =>
      obtain ⟨⟨⟩, k, here, later⟩ := run_bind_ok h
      exact List.forall_mem_cons.mpr ⟨checkCompatible_iff.mp (run_lift_ok here), ih later⟩

/-- Merging refuses states that do not fit together, and more of them than a selector has numbers. -/
theorem merge_inv {selector : String} {first : State} {others : List State} (several : others ≠ [])
    {n n' : Nat} {m : State} (merged : (merge (first :: others) selector).run n = (.ok m, n')) :
    (∀ s ∈ others, Compatible first s) ∧ selectorWidth (first :: others).length ≤ 64 := by
  obtain ⟨second, others, rfl⟩ := List.exists_cons_of_ne_nil several
  obtain ⟨⟨⟩, k, checked, rest⟩ := run_bind_ok merged
  obtain ⟨gs, k', guarded, -⟩ := run_bind_ok rest
  exact ⟨compatible_of_run checked, room_of_guards (run_lift_ok guarded)⟩

theorem foldl_max_steps (states : List State) (n : Nat) :
    n ≤ states.foldl (fun n s => max n s.steps) n ∧
      (∀ s ∈ states, s.steps ≤ states.foldl (fun n s => max n s.steps) n) ∧
      (states.foldl (fun n s => max n s.steps) n = n ∨
        ∃ s ∈ states, states.foldl (fun n s => max n s.steps) n = s.steps) := by
  induction states generalizing n with
  | nil => simp
  | cons s rest ih =>
      obtain ⟨least, others, origin⟩ := ih (max n s.steps)
      rw [List.foldl_cons]
      refine ⟨by omega, List.forall_mem_cons.mpr ⟨by omega, others⟩, ?_⟩
      rcases origin with same | ⟨t, ht, same⟩
      · rcases Nat.le_total n s.steps with more | less
        · exact .inr ⟨s, .head _, by omega⟩
        · exact .inl (by omega)
      · exact .inr ⟨t, .tail _ ht, same⟩

/-- What merging several states puts together. -/
theorem run_merge {selector : String} {first : State} {others : List State} (several : others ≠ [])
    (compatible : ∀ s ∈ others, Compatible first s) {gs : List Expr} {cs : Constraints} {rs : Registers}
    {mem : Memory} (guarded : guards selector (first :: others).length = .ok gs)
    (conditions : constraints first others gs = .ok cs)
    (chosenRegisters : registers (first :: others) gs = .ok rs)
    (chosenMemory : memory first.memory (first :: others) gs = .ok mem) (n : Nat) :
    (merge (first :: others) selector).run n = (.ok (assembled first others rs cs mem n), n + 1) := by
  obtain ⟨second, others, rfl⟩ := List.exists_cons_of_ne_nil several
  exact (run_ok_bind (run_forM_check compatible n) _).trans <|
    (run_ok_bind (run_lift guarded n) _).trans <|
    (run_ok_bind (run_lift conditions n) _).trans <|
    (run_ok_bind (run_lift chosenRegisters n) _).trans <|
    run_ok_bind (run_lift chosenMemory (n + 1)) _

/-- Whatever comes out of merging several states is put together from parts. -/
theorem merge_parts {selector : String} {first : State} {others : List State} (several : others ≠ [])
    {n n' : Nat} {m : State} (merged : (merge (first :: others) selector).run n = (.ok m, n')) :
    ∃ gs cs rs mem, guards selector (first :: others).length = .ok gs ∧
      constraints first others gs = .ok cs ∧ registers (first :: others) gs = .ok rs ∧
      memory first.memory (first :: others) gs = .ok mem ∧ m = assembled first others rs cs mem n := by
  obtain ⟨compatible, -⟩ := merge_inv several merged
  obtain ⟨second, others, rfl⟩ := List.exists_cons_of_ne_nil several
  obtain ⟨⟨⟩, _, -, rest⟩ := run_bind_ok merged
  obtain ⟨gs, _, guarded, rest⟩ := run_bind_ok rest
  obtain ⟨cs, _, conditions, rest⟩ := run_bind_ok rest
  obtain ⟨rs, _, chosenRegisters, rest⟩ := run_bind_ok rest
  obtain ⟨copy, _, forked, rest⟩ := run_bind_ok rest
  obtain ⟨mem, _, chosenMemory, -⟩ := run_bind_ok rest
  cases forked
  have guarded := run_lift_ok guarded
  have conditions := run_lift_ok conditions
  have chosenRegisters := run_lift_ok chosenRegisters
  have chosenMemory := run_lift_ok chosenMemory
  have result := run_merge several compatible guarded conditions chosenRegisters chosenMemory n
  rw [merged] at result
  cases result
  exact ⟨gs, cs, rs, mem, guarded, conditions, chosenRegisters, chosenMemory, rfl⟩

theorem merge_total {selector : String} {first : State} {others : List State} (several : others ≠ [])
    (room : selectorWidth (first :: others).length ≤ 64)
    (compatible : ∀ s ∈ others, Compatible first s)
    (wellFormed : ∀ s ∈ first :: others, s.WellFormed)
    (sameImage : ∀ s ∈ first :: others, s.memory.image = first.memory.image)
    (samePolicy : ∀ s ∈ first :: others, s.memory.uninitialized = first.memory.uninitialized) (n : Nat) :
    ∃ m, (merge (first :: others) selector).run n = (.ok m, n + 1) ∧
      Merged selector (first :: others) m := by
  obtain ⟨gs, guarded, hg⟩ := guards_total selector room
  obtain ⟨cs, conditions, hcs, satisfied⟩ := constraints_total hg fun s hs => (wellFormed s hs).constraints
  obtain ⟨rs, chosenRegisters, hrs, registerValues⟩ :=
    registers_total hg (by simp) fun s hs => (wellFormed s hs).registers
  obtain ⟨mem, chosenMemory, hmem, byteValues⟩ := memory_total hg (by simp)
    (fun s hs => (wellFormed s hs).memory) ⟨first, .head _, rfl⟩
  refine ⟨assembled first others rs cs mem n,
    run_merge several compatible guarded conditions chosenRegisters chosenMemory n, ?_⟩
  obtain ⟨-, atLeast, origin⟩ := foldl_max_steps (first :: others) 0
  refine ⟨⟨hrs, hmem, hcs⟩, satisfied, registerValues, byteValues sameImage samePolicy, ?_, ?_, atLeast,
    ?_, fun s hs p hp => named_inputs hs hp⟩
  · exact List.forall_mem_cons.mpr ⟨rfl, fun s hs => (compatible s hs).ip.symm⟩
  · exact List.forall_mem_cons.mpr ⟨rfl, fun s hs => (compatible s hs).streams⟩
  · rcases origin with zero | most
    · have none : first.steps = 0 := Nat.le_zero.mp (zero ▸ atLeast first (.head _))
      exact ⟨first, .head _, zero.trans none.symm⟩
    · exact most

/-- Whatever comes out of merging is the merged state. -/
theorem merged_of_run {selector : String} {states : List State} (several : 2 ≤ states.length)
    (wellFormed : ∀ s ∈ states, s.WellFormed)
    (sameImage : ∀ s ∈ states, ∀ t ∈ states, s.memory.image = t.memory.image)
    (samePolicy : ∀ s ∈ states, ∀ t ∈ states, s.memory.uninitialized = t.memory.uninitialized)
    {n n' : Nat} {m : State} (merged : (merge states selector).run n = (.ok m, n')) :
    Merged selector states m ∧ selectorWidth states.length ≤ 64 := by
  cases states with
  | nil => simp at several
  | cons first others =>
      have some : others ≠ [] := by
        rintro rfl
        simp at several
      obtain ⟨compatible, room⟩ := merge_inv some merged
      obtain ⟨m', result, whole⟩ := merge_total some room compatible wellFormed
        (fun s hs => sameImage s hs first (.head _)) (fun s hs => samePolicy s hs first (.head _)) n
      rw [merged] at result
      cases result
      exact ⟨whole, room⟩

/-- What a state does not mention can have any value. -/
theorem admits_update {s : State} (hs : s.constraints.WellFormed) {name : String}
    (unused : ∀ c ∈ s.constraints.items, ¬ c.Mentions name) (σ : Assignment) (v : Word) :
    s.Admits (Function.update σ name v) ↔ s.Admits σ := by
  have same : ∀ c ∈ s.constraints.items, c.value (Function.update σ name v) = c.value σ := by
    intro c hc
    refine value_congr fun other mentioned => Function.update_of_ne ?_ v σ
    rintro rfl
    exact unused c hc mentioned
  rw [State.Admits, State.Admits, Constraints.satisfiedBy_iff hs, Constraints.satisfiedBy_iff hs]
  exact forall₂_congr fun c hc => by rw [same c hc]

/-- Merging is exact: what the merged state admits, the chosen state admits, with the same registers
    and bytes, and what a state admits, the merged state admits once that state is chosen. -/
theorem merge_exact {states : List State} {selector : String} (several : 2 ≤ states.length)
    (wellFormed : ∀ s ∈ states, s.WellFormed)
    (sameImage : ∀ s ∈ states, ∀ t ∈ states, s.memory.image = t.memory.image)
    (samePolicy : ∀ s ∈ states, ∀ t ∈ states, s.memory.uninitialized = t.memory.uninitialized)
    (unused : ∀ s ∈ states, ∀ c ∈ s.constraints.items, ¬ c.Mentions selector) {n n' : Nat} {m : State}
    (merged : (merge states selector).run n = (.ok m, n')) :
    (∀ σ, m.Admits σ → ∃ s, chosen selector states.length σ < states.length ∧
      states[chosen selector states.length σ]? = some s ∧ s.Admits σ ∧
      (∀ r, (m.readRegister r).evaluate σ.bindings = (s.readRegister r).evaluate σ.bindings) ∧
      ∀ a, (m.memory.byte a).evaluate σ.bindings = (s.memory.byte a).evaluate σ.bindings) ∧
    (∀ (i : Nat) (s : State) (σ : Assignment), states[i]? = some s → s.Admits σ →
      m.Admits (Function.update σ selector (UInt64.ofNat i))) ∧
    (∀ s ∈ states, m.ip = s.ip ∧ m.streams.toList = s.streams.toList ∧ s.steps ≤ m.steps ∧
      ∀ p ∈ s.inputs, ∃ v, (p.1, v) ∈ m.inputs) ∧
    ∃ s ∈ states, m.steps = s.steps := by
  obtain ⟨whole, room⟩ := merged_of_run several wellFormed sameImage samePolicy merged
  refine ⟨fun σ admits => ?_, fun i s σ place admits => ?_, fun s hs => ?_, whole.steps_mem⟩
  · obtain ⟨s, place, here⟩ := (whole.admits σ).mp admits
    have hs := wellFormed s (List.mem_of_getElem? place)
    refine ⟨s, (List.getElem?_eq_some_iff.mp place).1, place, here, fun r => ?_, fun a => ?_⟩
    · simp only [State.readRegister, (whole.wellFormed.registers r).1.evaluate_eq,
        (hs.registers r).1.evaluate_eq]
      exact congrArg some (whole.registers σ s place r)
    · rw [(whole.wellFormed.memory a).wellFormed.evaluate_eq, (hs.memory a).wellFormed.evaluate_eq]
      exact congrArg some (whole.bytes σ s place a)
  · have hs := List.mem_of_getElem? place
    have inside := (List.getElem?_eq_some_iff.mp place).1
    have number : chosen selector states.length (Function.update σ selector (UInt64.ofNat i)) = i := by
      rw [chosen, Function.update_self]
      exact toNat_truncate_index room inside
    refine (whole.admits _).mpr ⟨s, number.symm ▸ place, ?_⟩
    exact (admits_update (wellFormed s hs).constraints (unused s hs) σ _).mpr admits
  · exact ⟨whole.ip s hs, whole.streams s hs, whole.steps s hs, whole.inputs s hs⟩

/-- A side of a branch: a condition, and a number in a register. -/
def sideOf (condition : Expr) (number : Word) : State :=
  { (State.start { entry := 0x1000 } .zero 0).writeRegister .r1 (.word number) with
    constraints := ({} : Constraints).append condition }

theorem sideOf_wellFormed {condition : Expr} (bit : condition.IsBit) (number : Word) :
    (sideOf condition number).WellFormed := by
  have start := State.WellFormed.start { entry := 0x1000 } .zero 0
  have written := start.writeRegister .r1 (State.word_wellFormed number)
  refine ⟨written.registers, written.memory, fun c hc => ?_⟩
  exact List.mem_singleton.mp hc ▸ bit

theorem merge_exact_sides :
    let yes := sideOf (.var "flag" 1) 1
    let no := sideOf (.unary .not (.var "flag" 1)) 2
    ∃ m n', (merge [yes, no] "sel").run 5 = (.ok m, n') ∧
      (∀ σ, m.Admits σ → ∃ s, [yes, no][chosen "sel" 2 σ]? = some s ∧
        (m.readRegister .r1).evaluate σ.bindings = (s.readRegister .r1).evaluate σ.bindings) ∧
      m.Admits (Function.update (fun _ => 1) "sel" 0) := by
  intro yes no
  have flag : (Expr.var "flag" 1).IsBit := ⟨⟨by decide, by decide⟩, rfl⟩
  have unset : (Expr.unary .not (.var "flag" 1)).IsBit := ⟨⟨rfl, flag.1⟩, rfl⟩
  have wellFormed : ∀ s ∈ [yes, no], s.WellFormed := by
    simp only [List.forall_mem_cons]
    exact ⟨sideOf_wellFormed flag 1, sideOf_wellFormed unset 2, nofun⟩
  have start : ∀ s ∈ [yes, no], s.memory = (State.start { entry := 0x1000 } .zero 0).memory := by
    simp only [List.forall_mem_cons]
    exact ⟨rfl, rfl, nofun⟩
  have unused : ∀ s ∈ [yes, no], ∀ c ∈ s.constraints.items, ¬ c.Mentions "sel" := by
    simp [yes, no, sideOf, Constraints.append, Mentions, occurrences]
  obtain ⟨m, merged, -⟩ : ∃ m, (merge [yes, no] "sel").run 5 = (.ok m, 6) ∧ Merged "sel" [yes, no] m :=
    merge_total (by simp) (by decide) (fun s hs => List.mem_singleton.mp hs ▸ ⟨rfl, rfl⟩) wellFormed
      (fun s hs => by rw [start s hs]; rfl) (fun s hs => by rw [start s hs]; rfl) 5
  obtain ⟨back, forth, -⟩ := merge_exact (by decide) wellFormed
    (fun s hs t ht => by rw [start s hs, start t ht]) (fun s hs t ht => by rw [start s hs, start t ht])
    unused merged
  refine ⟨m, 6, merged, fun σ admits => ?_, forth 0 yes _ rfl fun c hc => ?_⟩
  · obtain ⟨s, -, place, -, registers, -⟩ := back σ admits
    exact ⟨s, place, registers .r1⟩
  · rw [List.mem_singleton.mp hc, flag.1.evaluate_eq, value_var]
    rfl

end PathSearch.Merge
