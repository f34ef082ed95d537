import PathSearch.Proofs.Hook

/-! # Sound states

Whatever is done with a state, its registers hold words, its memory and its streams hold bytes, and its
constraints are bits of which none is always true. The operations on one state keep that, and so do
the built-in summaries; all of them keep the constraints that are there.
-/

namespace PathSearch

open PathSearch.Expr

namespace Memory

theorem isByte_background (image : Program) (uninitialized : Uninitialized) (address : Word) :
    IsByte (background image uninitialized address) := by
  have unwritten : byte { image, uninitialized } address = background image uninitialized address := by
    simp [byte]
  exact unwritten ▸ wellFormed_start image uninitialized address

/-- Only what was written can be no byte. -/
theorem wellFormed_iff {m : Memory} :
    m.WellFormed ↔ ∀ (address : Word) (e : Expr), m.written[address]? = some e → IsByte e := by
  constructor
  · intro hm address e found
    have here := hm address
    rwa [byte, found] at here
  · intro each address
    unfold byte
    split
    · rename_i e found
      exact each address e found
    · exact isByte_background _ _ _

end Memory

namespace Stream

theorem isByte_byteName (name : String) (i : Nat) : Memory.IsByte (.var (byteName name i) 8) :=
  ⟨⟨by omega, by omega⟩, rfl⟩

theorem isByte_symbolic {name : String} {length : Nat} {b : Expr}
    (hb : b ∈ (symbolic name length).bytes) : Memory.IsByte b := by
  obtain ⟨i, -, rfl⟩ := List.mem_map.mp hb
  exact isByte_byteName name i

theorem isByte_concrete {known : List UInt8} {b : Expr} (hb : b ∈ (concrete known).bytes) :
    Memory.IsByte b := by
  obtain ⟨v, -, rfl⟩ := List.mem_map.mp hb
  exact Memory.isByte_byte v

/-- A stream is never read beyond its end. -/
theorem position_le_length (stream : Stream) : stream.position ≤ stream.length := by
  rw [position, length, bytes, List.length_append]
  exact Nat.le_add_right _ _

end Stream

namespace Constraints

variable {cs cs' : Constraints} {c : Expr}

/-- No constraint is always true. -/
def Essential (cs : Constraints) : Prop := ∀ c ∈ cs.items, c.isTrue = false

/-- A constraint that is accepted stands at the end, unless it is always true. -/
theorem push_items (h : cs.push c = .ok cs') :
    c.isTrue = true ∧ cs' = cs ∨ c.isTrue = false ∧ cs'.items = cs.items ++ [c] := by
  obtain ⟨_, -, result⟩ := bind_ok h
  cases result
  split
  · rename_i always
    exact .inl ⟨always, rfl⟩
  · rename_i sometimes
    exact .inr ⟨eq_false_of_ne_true sometimes, rfl⟩

theorem Essential.push (hcs : cs.Essential) (h : cs.push c = .ok cs') : cs'.Essential := by
  rcases push_items h with ⟨-, rfl⟩ | ⟨sometimes, items⟩
  · exact hcs
  · intro d hd
    rw [items] at hd
    rcases List.mem_append.mp hd with old | new
    · exact hcs d old
    · exact List.mem_singleton.mp new ▸ sometimes

theorem Essential.foldlM_push {list : List Expr} (hcs : cs.Essential)
    (h : list.foldlM Constraints.push cs = .ok cs') : cs'.Essential := by
  induction list generalizing cs with
  | nil => exact Except.ok.inj h ▸ hcs
  | cons c rest ih =>
      rw [List.foldlM_cons] at h
      obtain ⟨more, pushed, later⟩ := bind_ok h
      exact ih (hcs.push pushed) later

/-- A sequence asks for all that another one asks for. -/
def Extends (cs ds : Constraints) : Prop := ds.items <+: cs.items

theorem extends_push (h : cs.push c = .ok cs') : cs'.Extends cs := by
  rcases push_items h with ⟨-, rfl⟩ | ⟨-, items⟩
  · exact List.prefix_refl _
  · exact ⟨[c], items.symm⟩

end Constraints

namespace State

/-- A proper state of which no constraint is always true. -/
structure Sound (s : State) : Prop extends s.Proper where
  essential : s.constraints.Essential

/-- A sound state that asks for all that another one asks for. -/
structure Descends (s t : State) : Prop where
  sound : t.Sound
  kept : t.constraints.Extends s.constraints

variable {s t u : State}

theorem Sound.descends (h : s.Sound) : s.Descends s := ⟨h, List.prefix_refl _⟩

theorem Descends.trans (first : s.Descends t) (later : t.Descends u) : s.Descends u :=
  ⟨later.sound, first.kept.trans later.kept⟩

/-- What leaves the constraints alone has to keep registers, memory and streams in order. -/
theorem Sound.descends_of_proper (h : s.Sound) (proper : t.Proper)
    (same : t.constraints = s.constraints) : s.Descends t where
  sound := { proper with essential := same ▸ h.essential }
  kept := same ▸ List.prefix_refl _

theorem Sound.setIp (h : s.Sound) (address : Word) : s.Descends (s.setIp address) :=
  h.descends_of_proper (h.toProper.setIp address) rfl

theorem Sound.recordStep (h : s.Sound) : s.Descends s.recordStep :=
  h.descends_of_proper h.toProper.recordStep rfl

theorem Sound.fork (h : s.Sound) (id : Nat) : s.Descends (s.fork id) :=
  h.descends_of_proper ⟨⟨h.registers, h.memory, h.constraints⟩, h.streams⟩ rfl

theorem Sound.writeRegister (h : s.Sound) (r : Register) {v : Expr} (hv : v.WellFormed) :
    s.Descends (s.writeRegister r v) :=
  h.descends_of_proper (h.toProper.writeRegister r hv) rfl

theorem Sound.recordInput (h : s.Sound) (name : String) (value : Expr) :
    s.Descends (s.recordInput name value) :=
  h.descends_of_proper (h.toProper.recordInput name value) rfl

theorem Sound.writeMemory (h : s.Sound) {address : Word} {v : Expr} (hv : v.WellFormed)
    (written : s.writeMemory address v = .ok t) : s.Descends t := by
  have wellFormed := h.toWellFormed.writeMemory hv written
  obtain ⟨m, -, rfl⟩ := writeMemory_ok written
  exact h.descends_of_proper { wellFormed with streams := h.streams } rfl

/-- With a constraint taken up. -/
theorem Sound.push (h : s.Sound) {c : Expr} (hc : c.WellFormed) {cs : Constraints}
    (pushed : s.constraints.push c = .ok cs) : s.Descends { s with constraints := cs } where
  sound :=
    { registers := h.registers
      memory := h.memory
      constraints := (Constraints.push_ok hc pushed).1 h.constraints
      streams := h.streams
      essential := h.essential.push pushed }
  kept := Constraints.extends_push pushed

theorem Sound.addConstraint (h : s.Sound) {c : Expr} (hc : c.WellFormed)
    (added : s.addConstraint c = .ok t) : s.Descends t := by
  obtain ⟨cs, pushed, result⟩ := bind_ok added
  cases result
  exact h.push hc pushed

theorem Sound.makeSymbolicRegister (h : s.Sound) (r : Register) (name : String) :
    s.Descends (s.makeSymbolicRegister r name) :=
  have input : (Expr.var name 64).WellFormed := ⟨by omega, by omega⟩
  (h.writeRegister r input).trans ((h.writeRegister r input).sound.recordInput name _)

theorem Sound.makeSymbolicMemory (h : s.Sound) (address : Word) (length : Nat) (name : String) :
    s.Descends (s.makeSymbolicMemory address length name) := by
  refine h.descends_of_proper ⟨⟨h.registers, ?_, h.constraints⟩, h.streams⟩ rfl
  refine h.memory.putAll address fun b hb => ?_
  obtain ⟨p, hp, rfl⟩ := List.mem_map.mp hb
  obtain ⟨i, -, rfl⟩ := List.mem_map.mp hp
  exact Stream.isByte_byteName name i

/-- With a stream of bytes opened. -/
theorem Proper.openStream (h : s.Proper) (fd : Nat) {stream : Stream} {inputs : List (String × Expr)}
    (each : ∀ b ∈ stream.bytes, Memory.IsByte b) :
    State.Proper { s with inputs, streams := s.streams.insert fd stream } := by
  refine ⟨⟨h.registers, h.memory, h.constraints⟩, fun fd' stream' opened => ?_⟩
  rw [Std.TreeMap.getElem?_insert] at opened
  split at opened
  · exact Option.some.inj opened ▸ each
  · exact h.streams fd' stream' opened

theorem Sound.addSymbolicStream (h : s.Sound) (fd : Nat) (name : String) (length : Nat) :
    s.Descends (s.addSymbolicStream fd name length) :=
  h.descends_of_proper (h.toProper.openStream fd fun _ => Stream.isByte_symbolic) rfl

theorem Sound.addConcreteStream (h : s.Sound) (fd : Nat) (known : List UInt8) :
    s.Descends (s.addConcreteStream fd known) :=
  h.descends_of_proper (h.toProper.openStream fd fun _ => Stream.isByte_concrete) rfl

theorem constraints_readStream {fd n : Nat} {bytes : List Expr}
    (read : s.readStream fd n = .ok (bytes, t)) : t.constraints = s.constraints := by
  unfold State.readStream at read
  split at read
  · cases read
    rfl
  · cases read

theorem Sound.readStream (h : s.Sound) {fd n : Nat} {bytes : List Expr}
    (read : s.readStream fd n = .ok (bytes, t)) : s.Descends t :=
  h.descends_of_proper (h.toProper.readStream read).2 (constraints_readStream read)

/-- A state at the entry of an image is sound. -/
theorem Sound.start (image : Program) (uninitialized : Uninitialized) (id : Nat) :
    (State.start image uninitialized id).Sound :=
  { WellFormed.start image uninitialized id with
    streams := fun fd stream opened => by simp [State.start] at opened
    essential := fun c hc => by cases hc }

end State

namespace Summary

variable {hook : String} {s t : State} {n m : Nat} {states : List State}

theorem constraints_returnToCaller (returned : returnToCaller s = .ok t) :
    t.constraints = s.constraints := by
  obtain ⟨address, rfl⟩ := returnToCaller_ok returned
  rfl

theorem constraints_copyStream {fd : Nat} (copied : copyStream fd s = .ok t) :
    t.constraints = s.constraints := by
  obtain ⟨buffer, -, copied⟩ := bind_ok copied
  obtain ⟨length, -, copied⟩ := bind_ok copied
  split at copied
  · obtain ⟨⟨bytes, u⟩, taken, returned⟩ := bind_ok copied
    have kept : u.constraints = s.constraints := State.constraints_readStream taken
    exact (constraints_returnToCaller returned).trans kept
  · exact (constraints_returnToCaller copied).trans rfl

theorem constraints_of_return {x : Except Error State}
    (each : ∀ t, x = .ok t → t.constraints = s.constraints)
    (given : (do return [← x] : Fresh (List State)).run n = (.ok states, m)) :
    ∀ t ∈ states, t.constraints = s.constraints := by
  obtain ⟨t, _, returned, same⟩ := run_bind_ok given
  cases same
  exact List.forall_mem_singleton.mpr (each t (run_lift_ok returned))

/-- A built-in summary leaves the constraints alone. -/
theorem constraints_apply {summary : Summary} (builtIn : ∀ run, summary ≠ .custom run)
    (given : (summary.apply hook s).run n = (.ok states, m)) :
    ∀ t ∈ states, t.constraints = s.constraints := by
  cases summary with
  | returnValue v =>
      have each (t : State) (returned : returnToCaller (s.writeRegister .r0 (Expr.word v)) = .ok t) :
          t.constraints = s.constraints := (constraints_returnToCaller returned).trans rfl
      exact constraints_of_return each given
  | returnSymbolic =>
      let u := s.writeRegister .r0 (.var (resultName hook s) 64)
      have each (t : State) (returned : returnToCaller
          (u.recordInput (resultName hook s) (.var (resultName hook s) 64)) = .ok t) :
          t.constraints = s.constraints := (constraints_returnToCaller returned).trans rfl
      exact constraints_of_return each given
  | abort =>
      cases given
      exact List.forall_mem_nil _
  | skip => exact constraints_of_return (fun t => constraints_returnToCaller) given
  | readStream fd => exact constraints_of_return (fun t => constraints_copyStream) given
  | custom run => exact absurd rfl (builtIn run)

/-- A built-in summary keeps states sound. -/
theorem descends_apply {summary : Summary} (builtIn : ∀ run, summary ≠ .custom run) (hs : s.Sound)
    (given : (summary.apply hook s).run n = (.ok states, m)) : ∀ t ∈ states, s.Descends t :=
  have proper := proper_apply (fun run custom => absurd custom (builtIn run)) hs.toProper given
  fun t ht => hs.descends_of_proper (proper t ht) (constraints_apply builtIn given t ht)

/-- From sound states the code gives sound states that ask for no less. -/
def GivesDescendants (run : State → Fresh (List State)) : Prop :=
  ∀ (s : State) (n m : Nat) (states : List State), s.Sound →
    (run s).run n = (.ok states, m) → ∀ t ∈ states, s.Descends t

/-- Code that only adds conditions to copies of the state that arrives. -/
theorem givesDescendants_of_forks {run : State → Fresh (List State)}
    (forks : ∀ (s : State) (n m : Nat) (states : List State), (run s).run n = (.ok states, m) →
      ∀ t ∈ states, ∃ (id : Nat) (added : List Expr), (∀ c ∈ added, c.WellFormed) ∧
        added.foldlM State.addConstraint (s.fork id) = .ok t) : GivesDescendants run := by
  have more {added : List Expr} {s t : State} (wellFormed : ∀ c ∈ added, c.WellFormed) (hs : s.Sound)
      (given : added.foldlM State.addConstraint s = .ok t) : s.Descends t := by
    induction added generalizing s with
    | nil => exact Except.ok.inj given ▸ hs.descends
    | cons c rest ih =>
        obtain ⟨hc, others⟩ := List.forall_mem_cons.mp wellFormed
        rw [List.foldlM_cons] at given
        obtain ⟨u, first, later⟩ := bind_ok given
        have here := hs.addConstraint hc first
        exact here.trans (ih others here.sound later)
  intro s n m states hs ran t ht
  obtain ⟨id, added, wellFormed, given⟩ := forks s n m states ran t ht
  exact (hs.fork id).trans (more wellFormed (hs.fork id).sound given)

end Summary

namespace HookTable

/-- Every summary in the table that a user wrote gives sound states that ask for no less. -/
def GivesDescendants (hooks : HookTable) : Prop :=
  ∀ (address : Word) (h : Hook) (run : State → Fresh (List State)),
    hooks.lookup? address = some h → h.summary = .custom run → Summary.GivesDescendants run

/-- The table holds no summary that a user wrote. -/
def BuiltIn (hooks : HookTable) : Prop :=
  ∀ (address : Word) (h : Hook) (run : State → Fresh (List State)),
    hooks.lookup? address = some h → h.summary ≠ .custom run

variable {hooks : HookTable}

theorem BuiltIn.givesDescendants (builtIn : hooks.BuiltIn) : hooks.GivesDescendants :=
  fun address h run found custom => absurd custom (builtIn address h run found)

theorem GivesDescendants.apply (gives : hooks.GivesDescendants) {address : Word} {h : Hook}
    (found : hooks.lookup? address = some h) {s : State} (hs : s.Sound) {n m : Nat}
    {states : List State} (given : (h.apply s).run n = (.ok states, m)) :
    ∀ t ∈ states, s.Descends t := by
  by_cases written : ∃ run, h.summary = .custom run
  · obtain ⟨run, custom⟩ := written
    rw [Hook.apply, custom] at given
    exact gives address h run found custom s n m states hs given
  · exact Summary.descends_apply (fun run custom => written ⟨run, custom⟩) hs given

end HookTable

end PathSearch
