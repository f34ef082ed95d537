import PathSearch.Proofs.Names
import PathSearch.Proofs.Search.MergeSound

/-! # Merging brings in its selector only

Every register, byte and constraint of a merged state is put together from those of its parts and
from the conditions on the selector, so no other variable occurs in it. It stands on the ground of
the first part.
-/

namespace PathSearch.Merge

open PathSearch.Expr

variable {names : Set String} {selector : String} {gs : List Expr}

theorem within_guards {count : Nat} (known : selector ∈ names)
    (built : guards selector count = .ok gs) : ∀ g ∈ gs, g.Within names := by
  obtain ⟨sel, made, built⟩ := bind_ok built
  intro g hg
  obtain ⟨i, -, guard⟩ := exists_left (mapM_ok built) hg
  obtain ⟨number, constant, equal⟩ := bind_ok guard
  exact (within_hereditary _).of_mkBinary (within_mkVar known made) (within_mkConst constant) equal

theorem within_select {gvs : List (Expr × Expr)}
    (each : ∀ p ∈ gvs, p.1.Within names ∧ p.2.Within names) {e : Expr} (built : select gvs = .ok e) :
    e.Within names := by
  induction gvs generalizing e with
  | nil => cases built
  | cons first rest ih =>
      obtain ⟨⟨hg, hv⟩, later⟩ := List.forall_mem_cons.mp each
      cases rest with
      | nil => exact Except.ok.inj built ▸ hv
      | cons second rest =>
          obtain ⟨merged, selected, link⟩ := bind_ok built
          have hm := ih later selected
          split at link
          · exact Except.ok.inj link ▸ hm
          · exact (within_hereditary _).of_mkIte hg hv hm link

/-- The selected one of the values that the states have. -/
theorem within_select_states {states : List State} {value : State → Expr}
    (guards : ∀ g ∈ gs, g.Within names) (values : ∀ s ∈ states, (value s).Within names) {e : Expr}
    (built : select (gs.zip (states.map value)) = .ok e) : e.Within names := by
  apply within_select _ built
  intro p hp
  obtain ⟨hg, hv⟩ := List.of_mem_zip hp
  obtain ⟨s, hs, same⟩ := List.mem_map.mp hv
  exact ⟨guards p.1 hg, same ▸ values s hs⟩

theorem within_conjunction {guard e : Expr} {cs : List Expr} (hg : guard.Within names)
    (each : ∀ c ∈ cs, c.Within names) (built : conjunction guard cs = .ok e) : e.Within names :=
  foldlM_ok (fun _ c hc _ before => (within_hereditary names).of_land before (each c hc)) hg built

theorem within_disjunction {cs : List Expr} {e : Expr} (each : ∀ c ∈ cs, c.Within names)
    (built : disjunction cs = .ok (some e)) : e.Within names := by
  cases cs with
  | nil => cases built
  | cons c rest =>
      obtain ⟨here, later⟩ := List.forall_mem_cons.mp each
      obtain ⟨_, joined, same⟩ := bind_ok built
      cases same
      have keeps := within_hereditary names
      exact foldlM_ok (fun _ d hd _ before => keeps.of_lor before (later d hd)) here joined

theorem within_constraints {first : State} {others : List State} {cs : Constraints}
    (guards : ∀ g ∈ gs, g.Within names)
    (each : ∀ s ∈ first :: others, ∀ c ∈ s.constraints.items, c.Within names)
    (built : constraints first others gs = .ok cs) : ∀ c ∈ cs.items, c.Within names := by
  obtain ⟨common, listed, built⟩ := bind_ok built
  obtain ⟨sides, mapped, built⟩ := bind_ok built
  obtain ⟨d, joined, built⟩ := bind_ok built
  have shared : ∀ c ∈ common.items, c.Within names := by
    refine foldlM_ok (P := fun cs : Constraints => ∀ c ∈ cs.items, c.Within names) ?_
      (List.forall_mem_nil _) listed
    intro cs c hc cs' before pushed
    exact Constraints.within_push before (each first (.head _) c (List.mem_of_mem_take hc)) pushed
  cases d with
  | none => exact Except.ok.inj built ▸ shared
  | some d =>
      apply Constraints.within_push shared _ built
      apply within_disjunction _ joined
      intro e he
      obtain ⟨p, hp, side⟩ := exists_left (mapM_ok mapped) he
      obtain ⟨hs, hg⟩ := List.of_mem_zip hp
      apply within_conjunction (guards p.2 hg) _ side
      intro c hc
      exact each p.1 hs c (List.mem_of_mem_drop hc)

theorem within_registers {states : List State} {rs : Registers} (guards : ∀ g ∈ gs, g.Within names)
    (each : ∀ s ∈ states, ∀ r, (s.readRegister r).Within names)
    (built : registers states gs = .ok rs) : ∀ r, (rs.get r).Within names := by
  refine foldlM_ok (P := fun rs : Registers => ∀ r, (rs.get r).Within names) ?_ ?_ built
  · intro rs r _ rs' before chosen q
    obtain ⟨v, selected, result⟩ := bind_ok chosen
    cases result
    rw [Registers.get_set]
    split
    · exact Registers.within_widen (within_select_states guards (fun s hs => each s hs r) selected)
    · exact before q
  · exact Registers.within_empty

theorem within_memory {states : List State} {base m : Memory} (guards : ∀ g ∈ gs, g.Within names)
    (each : ∀ s ∈ states, s.memory.Within names) (hbase : base.Within names)
    (built : memory base states gs = .ok m) :
    m.Within names ∧ m.image = base.image ∧ m.uninitialized = base.uninitialized := by
  refine foldlM_ok (P := fun m : Memory => m.Within names ∧ m.image = base.image ∧
    m.uninitialized = base.uninitialized) ?_ ⟨hbase, rfl, rfl⟩ built
  rintro m a - m' ⟨before, ground⟩ chosen
  obtain ⟨v, selected, stored⟩ := bind_ok chosen
  obtain ⟨_, -, stored⟩ := bind_ok stored
  cases stored
  exact ⟨before.put a (within_select_states guards (fun s hs => each s hs a) selected), ground⟩

theorem mem_foldl_add {list known : List (String × Expr)} {p : String × Expr}
    (hp : p ∈ list.foldl (fun known (name, value) =>
      if known.any (·.1 == name) then known else known ++ [(name, value)]) known) :
    p ∈ known ∨ p ∈ list := by
  induction list generalizing known with
  | nil => exact .inl hp
  | cons q rest ih =>
      obtain ⟨name, value⟩ := q
      rw [List.foldl_cons] at hp
      rcases ih hp with before | later
      · dsimp only at before
        split at before
        · exact .inl before
        · rcases List.mem_append.mp before with known | new
          · exact .inl known
          · exact .inr (List.mem_singleton.mp new ▸ .head _)
      · exact .inr (.tail _ later)

theorem mem_foldl_inputs {states : List State} {known : List (String × Expr)} {p : String × Expr}
    (hp : p ∈ states.foldl (fun known s => s.inputs.foldl (fun known (name, value) =>
      if known.any (·.1 == name) then known else known ++ [(name, value)]) known) known) :
    p ∈ known ∨ ∃ s ∈ states, p ∈ s.inputs := by
  induction states generalizing known with
  | nil => exact .inl hp
  | cons s rest ih =>
      rw [List.foldl_cons] at hp
      rcases ih hp with before | ⟨t, ht, later⟩
      · exact (mem_foldl_add before).imp_right fun new => ⟨s, .head _, new⟩
      · exact .inr ⟨t, .tail _ ht, later⟩

/-- Every input of a merged state is one of a part. -/
theorem mem_inputs {states : List State} {p : String × Expr} (hp : p ∈ inputs states) :
    ∃ s ∈ states, p ∈ s.inputs := by
  cases states with
  | nil => cases hp
  | cons first others =>
      rcases mem_foldl_inputs hp with here | ⟨s, hs, later⟩
      · exact ⟨first, .head _, here⟩
      · exact ⟨s, .tail _ hs, later⟩

/-- A merged state keeps to names that have its selector among them. It stands on the ground of a
    part. -/
theorem within_of_merge {states : List State} {n n' : Nat} {m : State} (known : selector ∈ names)
    (each : ∀ t ∈ states, t.Within names) (merged : (merge states selector).run n = (.ok m, n')) :
    m.Within names ∧ ∃ t ∈ states, t.SharesGround m := by
  rcases merge_cases merged with rfl | ⟨first, others, several, rfl⟩
  · exact ⟨each m (.head _), m, .head _, rfl, rfl⟩
  obtain ⟨gs, cs, rs, mem, guarded, conditions, chosenRegisters, chosenMemory, rfl⟩ :=
    merge_parts several merged
  have guards := within_guards known guarded
  have here := each first (.head _)
  obtain ⟨bytes, image, uninitialized⟩ := within_memory guards (fun t ht => (each t ht).memory)
    here.memory chosenMemory
  refine ⟨?_, first, .head _, image, uninitialized⟩
  constructor
  · exact within_registers guards (fun t ht => (each t ht).registers) chosenRegisters
  · exact bytes
  · exact within_constraints guards (fun t ht => (each t ht).constraints) conditions
  · exact here.streams
  · intro p hp
    obtain ⟨t, ht, input⟩ : ∃ t ∈ first :: others, p ∈ t.inputs := mem_inputs hp
    exact (each t ht).inputs p input

theorem inherits_of_merge {s : State} {states : List State} {n n' : Nat} {m : State}
    (known : selector ∈ names) (each : ∀ t ∈ states, s.Inherits names t)
    (merged : (merge states selector).run n = (.ok m, n')) : s.Inherits names m := by
  obtain ⟨within, t, ht, ground⟩ := within_of_merge known (fun t ht => (each t ht).within) merged
  have below := (each t ht).ground
  exact ⟨⟨ground.image.trans below.image, ground.uninitialized.trans below.uninitialized⟩, within⟩

/-- A merged state has as many steps as any of its parts. -/
theorem steps_le_of_merge {states : List State} {n n' : Nat} {m : State}
    (merged : (merge states selector).run n = (.ok m, n')) : ∀ t ∈ states, t.steps ≤ m.steps := by
  rcases merge_cases merged with rfl | ⟨first, others, several, rfl⟩
  · exact List.forall_mem_singleton.mpr (Nat.le_refl _)
  · obtain ⟨_, _, _, _, -, -, -, -, rfl⟩ := merge_parts several merged
    exact (foldl_max_steps (first :: others) 0).2.1

end PathSearch.Merge
