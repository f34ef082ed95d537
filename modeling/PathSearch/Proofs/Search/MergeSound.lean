import PathSearch.Proofs.Entails
import PathSearch.Proofs.Search.Merge

/-! # What merging keeps

The registers and bytes of a merged state are chosen among those of its parts, its streams are those
that all parts have, and its constraints are pushed one by one. So sound states give a sound state,
also where they stand over different images. Where the constraints of a merged state hold, those of
one of its parts do, so it entails whatever all of them entail.
-/

namespace PathSearch.Merge

open PathSearch.Expr

variable {selector : String} {states : List State} {n n' : Nat} {m : State}

/-- No constraint of a merged state is always true. -/
theorem essential_constraints {first : State} {others : List State} {gs : List Expr} {cs : Constraints}
    (built : constraints first others gs = .ok cs) : cs.Essential := by
  have empty : Constraints.Essential {} := nofun
  obtain ⟨common, listed, built⟩ := bind_ok built
  obtain ⟨sides, -, built⟩ := bind_ok built
  obtain ⟨d, -, built⟩ := bind_ok built
  have shared : common.Essential := empty.foldlM_push listed
  cases d with
  | none => exact Except.ok.inj built ▸ shared
  | some d => exact shared.push built

/-- Merging several states goes through its parts. -/
theorem merge_assembled {first : State} {others : List State} (several : others ≠ [])
    (wellFormed : ∀ s ∈ first :: others, s.WellFormed)
    (merged : (merge (first :: others) selector).run n = (.ok m, n')) :
    ∃ gs rs cs mem, Guards selector (first :: others).length gs ∧
      constraints first others gs = .ok cs ∧ rs.WellFormed ∧ cs.WellFormed ∧ mem.WellFormed ∧
      m = assembled first others rs cs mem n := by
  obtain ⟨compatible, room⟩ := merge_inv several merged
  obtain ⟨gs, guarded, hg⟩ := guards_total selector room
  obtain ⟨cs, conditions, hcs, -⟩ := constraints_total hg fun s hs => (wellFormed s hs).constraints
  obtain ⟨rs, chosenRegisters, hrs, -⟩ :=
    registers_total hg (by simp) fun s hs => (wellFormed s hs).registers
  obtain ⟨mem, chosenMemory, hmem, -⟩ := memory_total hg (by simp)
    (fun s hs => (wellFormed s hs).memory) ⟨first, .head _, rfl⟩
  have result := run_merge several compatible guarded conditions chosenRegisters chosenMemory n
  rw [merged] at result
  cases result
  exact ⟨gs, rs, cs, mem, hg, conditions, hrs, hcs, hmem, rfl⟩

/-- A single state is not changed by merging, and no states are refused. -/
theorem merge_cases (merged : (merge states selector).run n = (.ok m, n')) :
    states = [m] ∨ ∃ first others, others ≠ [] ∧ states = first :: others := by
  cases states with
  | nil => cases merged
  | cons first others =>
      cases others with
      | nil =>
          cases merged
          exact .inl rfl
      | cons second others => exact .inr ⟨first, second :: others, List.cons_ne_nil _ _, rfl⟩

theorem sound_of_merge (each : ∀ s ∈ states, s.Sound)
    (merged : (merge states selector).run n = (.ok m, n')) : m.Sound := by
  rcases merge_cases merged with rfl | ⟨first, others, several, rfl⟩
  · exact each m (.head _)
  · obtain ⟨gs, rs, cs, mem, -, conditions, hrs, hcs, hmem, rfl⟩ :=
      merge_assembled several (fun s hs => (each s hs).toWellFormed) merged
    exact ⟨⟨⟨hrs, hmem, hcs⟩, (each first (.head _)).streams⟩, essential_constraints conditions⟩

section Parts

variable {b : Bindings}

theorem evaluate_of_conjunction {guard e : Expr} {cs : List Expr} (bit : guard.IsBit)
    (bits : ∀ c ∈ cs, c.IsBit) (built : conjunction guard cs = .ok e) (h : e.evaluate b = some 1) :
    guard.evaluate b = some 1 ∧ ∀ c ∈ cs, c.evaluate b = some 1 := by
  induction cs generalizing guard with
  | nil => exact ⟨Except.ok.inj built ▸ h, List.forall_mem_nil _⟩
  | cons c rest ih =>
      obtain ⟨bitC, bitRest⟩ := List.forall_mem_cons.mp bits
      obtain ⟨both, joined, bitBoth, -⟩ := land_bit bit bitC
      rw [conjunction, List.foldlM_cons, ok_bind joined] at built
      obtain ⟨here, later⟩ := ih bitBoth bitRest built
      obtain ⟨left, right⟩ := evaluate_of_land bit bitC joined here
      exact ⟨left, List.forall_mem_cons.mpr ⟨right, later⟩⟩

theorem evaluate_of_foldlM_lor {c e : Expr} {cs : List Expr} (bit : c.IsBit) (bits : ∀ d ∈ cs, d.IsBit)
    (built : cs.foldlM lor c = .ok e) (h : e.evaluate b = some 1) :
    c.evaluate b = some 1 ∨ ∃ d ∈ cs, d.evaluate b = some 1 := by
  induction cs generalizing c with
  | nil => exact .inl (Except.ok.inj built ▸ h)
  | cons d rest ih =>
      obtain ⟨bitD, bitRest⟩ := List.forall_mem_cons.mp bits
      obtain ⟨either, joined, bitEither, -⟩ := lor_bit bit bitD
      rw [List.foldlM_cons, ok_bind joined] at built
      rcases ih bitEither bitRest built with here | ⟨d', hd, later⟩
      · exact (evaluate_of_lor bit bitD joined here).imp_right fun right => ⟨d, .head _, right⟩
      · exact .inr ⟨d', .tail _ hd, later⟩

theorem evaluate_of_disjunction {e : Expr} {cs : List Expr} (bits : ∀ c ∈ cs, c.IsBit)
    (built : disjunction cs = .ok (some e)) (h : e.evaluate b = some 1) :
    ∃ c ∈ cs, c.evaluate b = some 1 := by
  cases cs with
  | nil => cases built
  | cons c rest =>
      obtain ⟨bitC, bitRest⟩ := List.forall_mem_cons.mp bits
      obtain ⟨_, folded, same⟩ := bind_ok built
      cases same
      rcases evaluate_of_foldlM_lor bitC bitRest folded h with here | ⟨d, hd, later⟩
      · exact ⟨c, .head _, here⟩
      · exact ⟨d, .tail _ hd, later⟩

/-- Where a side holds, so do the constraints of its state that are not shared. -/
theorem suffix_of_side {first : State} {others : List State} {gs sides : List Expr} {shared : Nat}
    (hg : Guards selector (first :: others).length gs)
    (wellFormed : ∀ s ∈ first :: others, s.constraints.WellFormed)
    (mapped : ((first :: others).zip gs).mapM
      (fun p => conjunction p.2 (p.1.constraints.suffix shared)) = .ok sides)
    {e : Expr} (he : e ∈ sides) (h : e.evaluate b = some 1) :
    ∃ s ∈ first :: others, ∀ c ∈ s.constraints.suffix shared, c.evaluate b = some 1 := by
  have side (p : State × Expr) (hp : p ∈ (first :: others).zip gs) : ∃ e,
      conjunction p.2 (p.1.constraints.suffix shared) = .ok e ∧ (e.evaluate b = some 1 →
        ∀ c ∈ p.1.constraints.suffix shared, c.evaluate b = some 1) := by
    obtain ⟨hs, hgs⟩ := List.of_mem_zip hp
    have bits : ∀ c ∈ p.1.constraints.suffix shared, c.IsBit := fun c hc =>
      wellFormed p.1 hs c (List.mem_of_mem_drop hc)
    obtain ⟨e, built, -⟩ := conjunction_total (hg.bit p.2 hgs) bits
    exact ⟨e, built, fun holds => (evaluate_of_conjunction (hg.bit p.2 hgs) bits built holds).2⟩
  obtain ⟨sides', mapped', each⟩ := mapM_total side
  obtain rfl := Except.ok.inj (mapped'.symm.trans mapped)
  obtain ⟨p, hp, rest⟩ := exists_left each he
  exact ⟨p.1, (List.of_mem_zip hp).1, rest h⟩

theorem holds_of_constraints {first : State} {others : List State} {gs : List Expr} {cs : Constraints}
    (hg : Guards selector (first :: others).length gs)
    (wellFormed : ∀ s ∈ first :: others, s.constraints.WellFormed)
    (built : constraints first others gs = .ok cs) (h : cs.Holds b) :
    ∃ s ∈ first :: others, s.constraints.Holds b := by
  obtain ⟨common, listed, built⟩ := bind_ok built
  obtain ⟨sides, mapped, built⟩ := bind_ok built
  obtain ⟨sides', mapped', nonempty, bits, -⟩ :=
    sides_total hg wellFormed (sharedLength first others)
  obtain rfl : sides' = sides := Except.ok.inj (mapped'.symm.trans mapped)
  obtain ⟨d, joined, -⟩ := disjunction_total nonempty bits
  rw [ok_bind joined] at built
  obtain ⟨holds, one⟩ := (Constraints.holds_push built).mp h
  obtain ⟨e, he, here⟩ := evaluate_of_disjunction bits joined one
  obtain ⟨s, hs, rest⟩ := suffix_of_side hg wellFormed mapped he here
  refine ⟨s, hs, fun c hc => ?_⟩
  rw [← List.take_append_drop (sharedLength first others) s.constraints.items, take_sharedLength hs] at hc
  have shared := ((Constraints.holds_foldlM_push listed).mp holds).2
  exact (List.mem_append.mp hc).elim (shared c) (rest c)

/-- Where the constraints of a merged state hold, those of one of its parts do. -/
theorem holds_of_merge (each : ∀ s ∈ states, s.Sound)
    (merged : (merge states selector).run n = (.ok m, n')) (h : m.constraints.Holds b) :
    ∃ s ∈ states, s.constraints.Holds b := by
  rcases merge_cases merged with rfl | ⟨first, others, several, rfl⟩
  · exact ⟨m, .head _, h⟩
  · obtain ⟨gs, rs, cs, mem, hg, conditions, -, -, -, rfl⟩ :=
      merge_assembled several (fun s hs => (each s hs).toWellFormed) merged
    exact holds_of_constraints hg (fun s hs => (each s hs).constraints) conditions h

/-- A merged state entails what all of its parts do. -/
theorem entails_of_merge (each : ∀ s ∈ states, s.Sound)
    (merged : (merge states selector).run n = (.ok m, n')) {g : Expr}
    (entailed : ∀ s ∈ states, s.constraints.Entails g) : m.constraints.Entails g := by
  intro b holds
  obtain ⟨s, hs, part⟩ := holds_of_merge each merged holds
  exact entailed s hs b part

end Parts

end PathSearch.Merge
