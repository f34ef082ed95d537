import Std.Data.String.ToNat
import PathSearch.Proofs.Search.MergeNames
import PathSearch.Proofs.Search.Regroup

/-! # Merging the active states loses nothing

The names of selectors are reserved. In a run that is given no reserved name from outside, the only
ones that states have are those of merges that were made, so the next selector is always a new
variable. Merging is exact then: the machines that the states in the queue stand for under some
assignment are those that the states in the new queue stand for, once the new selectors are chosen.
-/

namespace PathSearch

open PathSearch.Expr Session

/-- The state stands for a machine under an assignment: its path is taken, and it is that machine. -/
def State.Represents (s : State) (σ : Assignment) (m : Machine) : Prop :=
  s.Admits σ ∧ s.concrete σ = m

namespace State

variable {names : Set String} {s : State} {σ τ : Assignment} {m : Machine}

/-- What a state stands for depends on the variables that it has. -/
theorem Within.represents_congr (within : s.Within names) (conditions : s.constraints.WellFormed)
    (agree : ∀ name ∈ names, σ name = τ name) : s.Represents σ m ↔ s.Represents τ m := by
  have value {e : Expr} (he : e.Within names) : e.value σ = e.value τ :=
    value_congr fun name mentioned => agree name (he name mentioned)
  have admits : s.Admits σ ↔ s.Admits τ := by
    rw [Admits, Admits, Constraints.satisfiedBy_iff conditions, Constraints.satisfiedBy_iff conditions]
    exact forall₂_congr fun c hc => by rw [value (within.constraints c hc)]
  have same : s.concrete σ = s.concrete τ :=
    Machine.ext rfl (funext fun r => value (within.registers r))
      (funext fun a => congrArg UInt64.toUInt8 (value (within.memory a)))
  rw [Represents, Represents, admits, same]

end State

namespace Merge

variable {selector : String} {states : List State} {m s : State} {σ : Assignment} {c : Machine}

theorem Merged.concrete_eq (whole : Merged selector states m)
    (place : states[chosen selector states.length σ]? = some s) : m.concrete σ = s.concrete σ :=
  Machine.ext (whole.ip s (List.mem_of_getElem? place)) (funext (whole.registers σ s place))
    (funext fun a => congrArg UInt64.toUInt8 (whole.bytes σ s place a))

/-- A merged state stands for what the chosen state stands for. -/
theorem Merged.represents_iff (whole : Merged selector states m) :
    m.Represents σ c ↔
      ∃ s, states[chosen selector states.length σ]? = some s ∧ s.Represents σ c := by
  constructor
  · rintro ⟨admits, rfl⟩
    obtain ⟨s, place, here⟩ := (whole.admits σ).mp admits
    exact ⟨s, place, here, (whole.concrete_eq place).symm⟩
  · rintro ⟨s, place, admits, rfl⟩
    exact ⟨(whole.admits σ).mpr ⟨s, place, admits⟩, whole.concrete_eq place⟩

/-- What a state stands for, a merged state stands for once that state is chosen. -/
theorem Merged.represents_of_mem (whole : Merged selector states m)
    (room : selectorWidth states.length ≤ 64) {names : Set String} (new : selector ∉ names) (hs : s ∈ states)
    (within : s.Within names) (conditions : s.constraints.WellFormed) (here : s.Represents σ c) :
    ∃ v, m.Represents (Function.update σ selector v) c := by
  obtain ⟨i, inside, place⟩ := List.getElem_of_mem hs
  have number : chosen selector states.length (Function.update σ selector (UInt64.ofNat i)) = i := by
    rw [chosen, Function.update_self]
    exact toNat_truncate_index room inside
  have agree (name : String) (known : name ∈ names) :
      σ name = Function.update σ selector (UInt64.ofNat i) name := by
    refine (Function.update_of_ne ?_ _ σ).symm
    rintro rfl
    exact new known
  refine ⟨UInt64.ofNat i, whole.represents_iff.mpr ⟨s, ?_, ?_⟩⟩
  · rw [number]
    exact List.getElem?_eq_some_iff.mpr ⟨inside, place⟩
  · exact (within.represents_congr conditions agree).mp here

end Merge

namespace Explorer

/-- The names that are left to merging. -/
def reserved : Set String := {name | ∃ rest, name = "merge_sel_" ++ rest}

/-- The names that may occur after a number of merges: those that are not reserved, and the selectors
    of these merges. -/
def knownNames (merges : Nat) : Set String :=
  {name | name ∈ reserved → ∃ k < merges, name = selectorName k}

section Names

variable {k n : Nat} {name : String}

theorem selectorName_reserved (k : Nat) : selectorName k ∈ reserved := ⟨toString k, rfl⟩

theorem selectorName_injective : Function.Injective selectorName := by
  intro k n same
  exact Nat.repr_inj.mp ((String.append_right_inj _).mp same)

theorem selectorName_known_iff : selectorName k ∈ knownNames n ↔ k < n := by
  constructor
  · intro known
    obtain ⟨j, below, same⟩ := known (selectorName_reserved k)
    exact selectorName_injective same ▸ below
  · exact fun below _ => ⟨k, below, rfl⟩

theorem knownNames_mono (more : k ≤ n) : knownNames k ⊆ knownNames n := by
  intro name known isReserved
  obtain ⟨j, below, same⟩ := known isReserved
  exact ⟨j, Nat.lt_of_lt_of_le below more, same⟩

theorem known_of_unreserved (unreserved : name ∉ reserved) (n : Nat) : name ∈ knownNames n :=
  fun isReserved => absurd isReserved unreserved

end Names

/-- Two assignments that differ in the selectors of a range only. -/
def DifferIn (first last : Nat) (σ τ : Assignment) : Prop :=
  ∀ name, (∀ k, first ≤ k → k < last → name ≠ selectorName k) → τ name = σ name

theorem DifferIn.refl (first last : Nat) (σ : Assignment) : DifferIn first last σ σ := fun _ _ => rfl

theorem DifferIn.update {first last k : Nat} (from' : first ≤ k) (below : k < last) (σ : Assignment)
    (v : Word) : DifferIn first last σ (Function.update σ (selectorName k) v) :=
  fun _ other => Function.update_of_ne (other k from' below) v σ

/-- Variables that were known before are not among the new selectors. -/
theorem DifferIn.agree {first last : Nat} {σ τ : Assignment} (differ : DifferIn first last σ τ) :
    ∀ name ∈ knownNames first, σ name = τ name := by
  intro name known
  refine (differ name ?_).symm
  rintro k unused - rfl
  exact Nat.not_lt.mpr unused (selectorName_known_iff.mp known)

/-- A state that may be in the queue after a number of merges. -/
structure Settled (origin : State) (merges : Nat) (s : State) : Prop where
  sound : s.Sound
  inherits : origin.Inherits (knownNames merges) s

section Settled

variable {origin s m : State} {first last k : Nat} {group : List State} {σ τ : Assignment}
  {c : Machine}

theorem Settled.mono (h : Settled origin first s) (more : first ≤ last) : Settled origin last s :=
  ⟨h.sound, h.inherits.ground, h.inherits.within.mono (knownNames_mono more)⟩

theorem Settled.new (h : Settled origin first s) (unused : first ≤ k) : ¬ s.Mentions (selectorName k) := by
  intro mentioned
  have known := State.within_iff.mp h.inherits.within _ mentioned
  exact Nat.not_lt.mpr unused (selectorName_known_iff.mp known)

theorem Settled.unreserved (h : Settled origin 0 s) : ∀ name ∈ reserved, ¬ s.Mentions name := by
  intro name isReserved mentioned
  obtain ⟨k, none, -⟩ := State.within_iff.mp h.inherits.within name mentioned isReserved
  exact Nat.not_lt_zero k none

theorem Settled.represents_congr (h : Settled origin first s) (differ : DifferIn first last σ τ) :
    s.Represents σ c ↔ s.Represents τ c :=
  h.inherits.within.represents_congr h.sound.constraints differ.agree

theorem settled_of_mergedInto (each : ∀ s ∈ group, Settled origin first s)
    (merged : MergedInto first last group m) : Settled origin last m := by
  obtain ⟨k, n, n', unused, below, -, merged⟩ := merged
  have later (s : State) (hs : s ∈ group) : Settled origin last s :=
    (each s hs).mono (Nat.le_of_lt (Nat.lt_of_le_of_lt unused below))
  exact ⟨Merge.sound_of_merge (fun s hs => (later s hs).sound) merged,
    Merge.inherits_of_merge (selectorName_known_iff.mpr below) (fun s hs => (later s hs).inherits) merged⟩

/-- A state at the entry has no reserved names, whatever memory is taken to hold. -/
theorem settled_start (image : Program) (uninitialized : Uninitialized) (id merges : Nat) :
    Settled (State.start image uninitialized id) merges (State.start image uninitialized id) := by
  refine ⟨.start image uninitialized id, (State.within_start image id ?_).inherits⟩
  rintro - address
  refine known_of_unreserved ?_ merges
  rintro ⟨rest, same⟩
  -- the third letters differ
  have letter := congrArg (fun name => name.toList[2]?) same
  simp [Memory.uninitializedName] at letter

/-- The state that a group was merged into stands for what its members stand for, under assignments
    that differ in new selectors. -/
theorem represents_of_mergedInto (each : ∀ s ∈ group, Settled origin first s)
    (merged : MergedInto first last group m) :
    (∀ τ, DifferIn first last σ τ → m.Represents τ c → ∃ s ∈ group, s.Represents σ c) ∧
    ∀ s ∈ group, s.Represents σ c → ∃ τ, DifferIn first last σ τ ∧ m.Represents τ c := by
  obtain ⟨k, n, n', unused, below, several, merged⟩ := merged
  have sameImage (s : State) (hs : s ∈ group) (t : State) (ht : t ∈ group) :
      s.memory.image = t.memory.image :=
    (each s hs).inherits.ground.image.trans (each t ht).inherits.ground.image.symm
  have samePolicy (s : State) (hs : s ∈ group) (t : State) (ht : t ∈ group) :
      s.memory.uninitialized = t.memory.uninitialized :=
    (each s hs).inherits.ground.uninitialized.trans (each t ht).inherits.ground.uninitialized.symm
  obtain ⟨whole, room⟩ := Merge.merged_of_run several (fun s hs => (each s hs).sound.toWellFormed)
    sameImage samePolicy merged
  constructor
  · intro τ differ here
    obtain ⟨s, place, chosen⟩ := whole.represents_iff.mp here
    have hs := List.mem_of_getElem? place
    exact ⟨s, hs, ((each s hs).represents_congr differ).mpr chosen⟩
  · intro s hs here
    have new : selectorName k ∉ knownNames first :=
      fun known => Nat.not_lt.mpr unused (selectorName_known_iff.mp known)
    obtain ⟨v, chosen⟩ := whole.represents_of_mem room new hs (each s hs).inherits.within
      (each s hs).sound.constraints here
    exact ⟨_, .update unused below σ v, chosen⟩

end Settled

namespace Regroups

variable {origin : State} {first last : Nat} {groups : List (List State)} {queue : List State}

theorem settled (h : Regroups first groups last queue)
    (each : ∀ group ∈ groups, ∀ s ∈ group, Settled origin first s) :
    ∀ t ∈ queue, Settled origin last t := by
  intro t ht
  obtain ⟨group, hgroup, stays | merged⟩ := h.mem ht
  · exact (each group hgroup t stays).mono h.first_le_last
  · exact settled_of_mergedInto (each group hgroup) merged

/-- Under an assignment, the groups stand for the machines that the new queue stands for under
    assignments that choose the new selectors. -/
theorem represents (h : Regroups first groups last queue)
    (each : ∀ group ∈ groups, ∀ s ∈ group, Settled origin first s) (σ : Assignment) (c : Machine) :
    (∃ s ∈ groups.flatten, s.Represents σ c) ↔
      ∃ τ, DifferIn first last σ τ ∧ ∃ t ∈ queue, t.Represents τ c := by
  constructor
  · rintro ⟨s, hs, here⟩
    obtain ⟨group, hgroup, hs⟩ := List.mem_flatten.mp hs
    rcases h.covers hgroup with stay | ⟨m, hm, merged⟩
    · exact ⟨σ, .refl first last σ, s, stay s hs, here⟩
    · obtain ⟨τ, differ, there⟩ := (represents_of_mergedInto (each group hgroup) merged).2 s hs here
      exact ⟨τ, differ, m, hm, there⟩
  · rintro ⟨τ, differ, t, ht, there⟩
    obtain ⟨group, hgroup, stays | merged⟩ := h.mem ht
    · exact ⟨t, List.mem_flatten_of_mem hgroup stays,
        ((each group hgroup t stays).represents_congr differ).mpr there⟩
    · obtain ⟨s, hs, here⟩ := (represents_of_mergedInto (each group hgroup) merged).1 τ differ there
      exact ⟨s, List.mem_flatten_of_mem hgroup hs, here⟩

end Regroups

/-- A state that stands on the ground of the search. -/
def origin (x : Explorer) : State := State.start x.image x.config.uninitialized 0

/-- A request to a search that brings in no reserved name. A state that is added stands on the ground
    of the search. A request that is refused leaves the search as it is. -/
inductive Handles (x : Explorer) : Explorer → Prop where
  | entryState : Handles x x.entryState.2
  | addState {s : State} {x' : Explorer} (hs : s.Sound) (ground : x.origin.SharesGround s)
      (unreserved : ∀ name ∈ reserved, ¬ s.Mentions name) (added : x.addState s = .ok x') : Handles x x'
  | assertGlobal {c : Expr} {x' : Explorer} (hc : c.WellFormed)
      (unreserved : ∀ name ∈ reserved, ¬ c.Mentions name) (accepted : x.assertGlobal c = .ok x') :
      Handles x x'
  | prune : Handles x x.prune
  | mergeActive : Handles x x.mergeActive.1
  | explore {σ : Type} {find avoid : Predicate} {strategy : Strategy σ} {memory memory' : σ}
      {r : Result} {x' : Explorer} (returns : x.Returns find avoid strategy memory r x' memory') :
      Handles x x'
  | refused : Handles x x

/-- The searches that such requests lead to. -/
inductive Handled (x₀ : Explorer) : Explorer → Prop where
  | start : Handled x₀ x₀
  | next {x x' : Explorer} (before : Handled x₀ x) (handles : x.Handles x') : Handled x₀ x'

/-- In a search the only reserved names are the selectors of the merges that were made. -/
structure Reserves (x : Explorer) : Prop where
  hooks : x.hooks.Spares reserved
  conditions : ∀ c ∈ x.global, c.WellFormed ∧ ∀ name ∈ reserved, ¬ c.Mentions name
  active : ∀ s ∈ x.active, Settled x.origin x.merges s

section Run

variable {x x' y : Explorer} {origin s t : State} {merges : Nat} {c : Expr}

theorem Settled.addConstraint (h : Settled origin merges s) (hc : c.WellFormed)
    (unreserved : ∀ name ∈ reserved, ¬ c.Mentions name) (added : s.addConstraint c = .ok t) :
    Settled origin merges t := by
  have within : c.Within (knownNames merges) := fun name occurs =>
    known_of_unreserved (fun isReserved => unreserved name isReserved occurs) merges
  exact ⟨(h.sound.addConstraint hc added).sound, h.inherits.addConstraint within added⟩

theorem settled_imposeAll {global : List Expr}
    (conditions : ∀ c ∈ global, c.WellFormed ∧ ∀ name ∈ reserved, ¬ c.Mentions name)
    (h : Settled origin merges s) (imposed : imposeAll global s = .ok t) : Settled origin merges t := by
  refine foldlM_ok (P := Settled origin merges) ?_ h imposed
  intro u c hc u' before first
  split at first
  · exact Except.ok.inj first ▸ before
  · exact before.addConstraint (conditions c hc).1 (conditions c hc).2 first

/-- With another queue. -/
theorem Reserves.requeue (h : x.Reserves)
    (frame : y = { x with session := y.session, active := y.active, merges := y.merges })
    (active : ∀ s ∈ y.active, Settled x.origin y.merges s) : y.Reserves := by
  rw [frame]
  exact ⟨h.hooks, h.conditions, active⟩

theorem Reserves.addState (h : x.Reserves) (hs : s.Sound) (ground : x.origin.SharesGround s)
    (unreserved : ∀ name ∈ reserved, ¬ s.Mentions name) (added : x.addState s = .ok x') :
    x'.Reserves := by
  obtain ⟨t, imposed, result⟩ := bind_ok added
  cases result
  have within : s.Within (knownNames x.merges) := State.within_iff.mpr fun name mentioned =>
    known_of_unreserved (fun isReserved => unreserved name isReserved mentioned) x.merges
  have arrives : Settled x.origin x.merges s := ⟨hs, ground, within⟩
  have settled := settled_imposeAll h.conditions arrives imposed
  exact h.requeue rfl (List.forall_mem_append.mpr ⟨h.active, List.forall_mem_singleton.mpr settled⟩)

theorem Reserves.assertGlobal (h : x.Reserves) (hc : c.WellFormed)
    (unreserved : ∀ name ∈ reserved, ¬ c.Mentions name) (accepted : x.assertGlobal c = .ok x') :
    x'.Reserves := by
  obtain ⟨_, -, accepted⟩ := bind_ok accepted
  obtain ⟨active, added, result⟩ := bind_ok accepted
  cases result
  refine ⟨h.hooks, ?_, ?_⟩
  · exact List.forall_mem_append.mpr ⟨h.conditions, List.forall_mem_singleton.mpr ⟨hc, unreserved⟩⟩
  · intro t ht
    obtain ⟨s, hs, pushed⟩ := exists_left (mapM_ok added) ht
    exact (h.active s hs).addConstraint hc unreserved pushed

theorem Reserves.prune (h : x.Reserves) : x.prune.Reserves :=
  h.requeue rfl fun s hs => h.active s (Always.filterM x.active isFeasible x.session s hs)

theorem Reserves.groups (h : x.Reserves) :
    ∀ group ∈ groups x.active, ∀ s ∈ group, Settled x.origin x.merges s :=
  fun _ hgroup s hs => h.active s (mem_of_mem_group hgroup hs)

theorem Reserves.mergeActive (h : x.Reserves) : x.mergeActive.1.Reserves := by
  obtain ⟨regroups, frame⟩ := regroups_mergeActive x
  exact h.requeue frame (regroups.settled h.groups)

theorem Reserves.returns {σ : Type} {find avoid : Predicate} {strategy : Strategy σ}
    {memory memory' : σ} {r : Result} (h : x.Reserves)
    (returns : x.Returns find avoid strategy memory r x' memory') : x'.Reserves := by
  obtain ⟨p, reached, -, left⟩ := returns.reached
  have steps (s : State) (hs : Settled x.origin x.merges s) :
      Always (Step.step x.hooks x.config.addressCap s) fun r =>
        ∀ y ∈ r.successors, Settled x.origin x.merges y.state :=
    (h.hooks.step (fun name unreserved => known_of_unreserved unreserved x.merges) hs.sound hs.inherits
      x.config.addressCap).mono fun r given y hy => ⟨(given y hy).1, (given y hy).2⟩
  have each := forall_states_reached steps h.active reached
  have merges : x'.merges = x.merges := by rw [returns.frame]
  refine h.requeue ?_ ?_
  · rw [merges]
    exact returns.frame
  · rw [merges, left]
    exact fun s hs => each s (Multiset.mem_add.mpr (.inr hs))

theorem Reserves.handles (h : x.Reserves) (handles : x.Handles x') : x'.Reserves := by
  cases handles with
  | entryState => exact h.requeue rfl h.active
  | addState hs ground unreserved added => exact h.addState hs ground unreserved added
  | assertGlobal hc unreserved accepted => exact h.assertGlobal hc unreserved accepted
  | prune => exact h.prune
  | mergeActive => exact h.mergeActive
  | explore returns => exact h.returns returns
  | refused => exact h

theorem Reserves.handled {x₀ : Explorer} (start : x₀.Reserves) (handled : x₀.Handled x) : x.Reserves := by
  induction handled with
  | start => exact start
  | next _ handles ih => exact ih.handles handles

theorem reserves_new {backend : Smt.Backend} {image : Program} {hooks : HookTable} {config : Config}
    (spares : hooks.Spares reserved) (made : Explorer.new backend image hooks config = .ok x) :
    x.Reserves := by
  obtain ⟨_, -, result⟩ := bind_ok made
  cases result
  exact ⟨spares, List.forall_mem_nil _, List.forall_mem_nil _⟩

end Run

/-- Merging the active states, after any requests that bring in no reserved name: the selectors that
    are used occur in no active state; the groups are all states at one address each, in the order of
    their first members, and each comes back merged or as it was; the number that is returned is by
    how much the queue gets shorter; and under every assignment the active states stand for the same
    machines before and after, once the new selectors are chosen. Of hooks that a user wrote it is asked
    that they give sound states on the same ground. -/
theorem mergeActive_exact {backend : Smt.Backend} {image : Program} {hooks : HookTable} {config : Config}
    {x₀ x : Explorer} (spares : hooks.Spares reserved)
    (made : Explorer.new backend image hooks config = .ok x₀) (handled : x₀.Handled x) :
    (∀ k, x.merges ≤ k → ∀ s ∈ x.active, ¬ s.Mentions (selectorName k)) ∧
    Grouping x.active (groups x.active) ∧
    Regroups x.merges (groups x.active) x.mergeActive.1.merges x.mergeActive.1.active ∧
    x.mergeActive.2 + x.mergeActive.1.active.length = x.active.length ∧
    ∀ σ : Assignment, {m | ∃ s ∈ x.active, s.Represents σ m} =
      {m | ∃ τ, DifferIn x.merges x.mergeActive.1.merges σ τ ∧
        ∃ t ∈ x.mergeActive.1.active, t.Represents τ m} := by
  have reserves := (reserves_new spares made).handled handled
  have grouping := (grouped_groups x.active).grouping
  obtain ⟨regroups, -⟩ := regroups_mergeActive x
  refine ⟨fun k unused s hs => (reserves.active s hs).new unused, grouping, regroups,
    mergeActive_balance x, fun σ => Set.ext fun m => ?_⟩
  calc (∃ s ∈ x.active, s.Represents σ m)
    _ ↔ ∃ s ∈ (groups x.active).flatten, s.Represents σ m := by simp only [grouping.perm.mem_iff]
    _ ↔ ∃ τ, DifferIn x.merges x.mergeActive.1.merges σ τ ∧
          ∃ t ∈ x.mergeActive.1.active, t.Represents τ m := regroups.represents reserves.groups σ m

/-- A side of a branch has no reserved name if its condition has none. -/
theorem settled_sideOf {condition : Expr} {number : Word} (hc : condition.WellFormed)
    (unreserved : ∀ name ∈ reserved, ¬ condition.Mentions name)
    (assumed : ((State.start { entry := 0x1000 } .zero 0).writeRegister .r1 (.word number)).addConstraint
      condition = .ok (Merge.sideOf condition number)) :
    Settled (State.start { entry := 0x1000 } .zero 0) 0 (Merge.sideOf condition number) := by
  have fresh := settled_start { entry := 0x1000 } .zero 0 0
  have written := fresh.inherits.writeRegister .r1 (within_word number)
  have sound := (fresh.sound.writeRegister .r1 (State.word_wellFormed number)).sound
  exact Settled.addConstraint ⟨sound, written⟩ hc unreserved assumed

/-- Two states that differ in registers and conditions only can be merged. -/
theorem accepts_of_alike {first second : State} (wellFormed : ∀ s ∈ [first, second], s.WellFormed)
    (ip : second.ip = first.ip) (memory : second.memory = first.memory)
    (streams : second.streams = first.streams) (selector : String) :
    ¬ Merge.Refuses [first, second] selector := by
  intro refuses
  have image : ∀ s ∈ [first, second], s.memory.image = first.memory.image :=
    List.forall_mem_cons.mpr ⟨rfl, List.forall_mem_singleton.mpr (by rw [memory])⟩
  have policy : ∀ s ∈ [first, second], s.memory.uninitialized = first.memory.uninitialized :=
    List.forall_mem_cons.mpr ⟨rfl, List.forall_mem_singleton.mpr (by rw [memory])⟩
  have room : Merge.selectorWidth [first, second].length ≤ 64 := (by decide : Merge.selectorWidth 2 ≤ 64)
  have compatible : ∀ s ∈ [second], Merge.Compatible first s :=
    List.forall_mem_singleton.mpr ⟨ip, by rw [streams]⟩
  obtain ⟨m, accepted, -⟩ : ∃ m, (Merge.merge [first, second] selector).run 0 = (.ok m, 1) ∧
      Merge.Merged selector [first, second] m :=
    Merge.merge_total (List.cons_ne_nil _ _) room compatible wellFormed image policy 0
  obtain ⟨e, n', failed⟩ := refuses 0
  rw [accepted] at failed
  cases failed

/-- Two sides of a branch that stand at one address become one state. -/
theorem mergeActive_exact_sides :
    let yes := Merge.sideOf (.var "flag" 1) 1
    let no := Merge.sideOf (.unary .not (.var "flag" 1)) 2
    ∃ x₀ x₁ x₂ m, Explorer.new .perfect { entry := 0x1000 } {} {} = .ok x₀ ∧
      x₀.addState yes = .ok x₁ ∧ x₁.addState no = .ok x₂ ∧
      x₂.mergeActive.1.active = [m] ∧ x₂.mergeActive.2 = 1 ∧
      ∀ σ c, (yes.Represents σ c ∨ no.Represents σ c) ↔ ∃ τ, DifferIn 0 1 σ τ ∧ m.Represents τ c := by
  intro yes no
  have free : ∀ name ∈ reserved, name ≠ "flag" := by
    rintro name ⟨rest, rfl⟩ same
    have letter := congrArg (fun name => name.toList[0]?) same
    simp at letter
  have hyes : Settled (State.start { entry := 0x1000 } .zero 0) 0 yes :=
    settled_sideOf ⟨by decide, by decide⟩ (by simpa [Mentions, occurrences] using free) rfl
  have hno : Settled (State.start { entry := 0x1000 } .zero 0) 0 no :=
    settled_sideOf ⟨rfl, by decide, by decide⟩ (by simpa [Mentions, occurrences] using free) rfl
  obtain ⟨x₀, x₁, x₂, made, first, second, ground, ground', queue, unmerged⟩ : ∃ x₀ x₁ x₂,
      Explorer.new .perfect { entry := 0x1000 } {} {} = .ok x₀ ∧ x₀.addState yes = .ok x₁ ∧
      x₁.addState no = .ok x₂ ∧ x₀.origin = State.start { entry := 0x1000 } .zero 0 ∧
      x₁.origin = State.start { entry := 0x1000 } .zero 0 ∧ x₂.active = [yes, no] ∧ x₂.merges = 0 :=
    ⟨_, _, _, rfl, rfl, rfl, rfl, rfl, rfl, rfl⟩
  have handled := (Handled.start.next
    (.addState hyes.sound (ground ▸ hyes.inherits.ground) hyes.unreserved first)).next
    (.addState hno.sound (ground' ▸ hno.inherits.ground) hno.unreserved second)
  obtain ⟨-, -, regroups, balance, represented⟩ := mergeActive_exact (.empty _) made handled
  have together : groups x₂.active = [[yes, no]] := by
    rw [queue, groups_cons]
    rfl
  have accepts : ¬ Merge.Refuses [yes, no] (selectorName x₂.merges) :=
    accepts_of_alike (List.forall_mem_cons.mpr
      ⟨hyes.sound.toWellFormed, List.forall_mem_singleton.mpr hno.sound.toWellFormed⟩) rfl rfl rfl _
  rw [together] at regroups
  obtain ⟨m, rest, after, later⟩ := regroups.merged_of_accepts (by simp) accepts
  generalize last : x₂.mergeActive.1.merges = k at later
  cases later
  rw [queue, after] at balance
  refine ⟨x₀, x₁, x₂, m, made, first, second, after, Nat.succ.inj balance, fun σ c => ?_⟩
  have same := Set.ext_iff.mp (represented σ) c
  simpa [queue, after, last, unmerged] using same

end Explorer

end PathSearch
