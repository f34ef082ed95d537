import PathSearch.Hook
import PathSearch.Proofs.State
import PathSearch.Proofs.Stream

/-! # Hooks give proper states

Expressions are only built by the operations that check widths, so whatever code makes a state of
another, registers hold words, memory and streams hold bytes, and constraints are bits. The built-in
summaries keep that; of those written by a user it has to be assumed.
-/

namespace PathSearch

open PathSearch.Expr

/-- A well-formed state whose streams hold bytes. -/
structure State.Proper (s : State) : Prop extends s.WellFormed where
  streams : ∀ (fd : Nat) (stream : Stream), s.streams[fd]? = some stream →
    ∀ b ∈ stream.bytes, Memory.IsByte b

theorem Stream.mem_bytes_of_read {stream : Stream} {n : Nat} {b : Expr}
    (hb : b ∈ (stream.read n).1) : b ∈ stream.bytes :=
  List.mem_append_right _ (List.mem_of_mem_take hb)

namespace State.Proper

variable {s t : State}

theorem setIp (h : s.Proper) (address : Word) : (s.setIp address).Proper :=
  { h.toWellFormed.setIp address with streams := h.streams }

theorem recordStep (h : s.Proper) : s.recordStep.Proper :=
  ⟨⟨h.registers, h.memory, h.constraints⟩, h.streams⟩

theorem writeRegister (h : s.Proper) (r : Register) {v : Expr} (hv : v.WellFormed) :
    (s.writeRegister r v).Proper :=
  { h.toWellFormed.writeRegister r hv with streams := h.streams }

theorem recordInput (h : s.Proper) (name : String) (value : Expr) :
    (s.recordInput name value).Proper :=
  ⟨⟨h.registers, h.memory, h.constraints⟩, h.streams⟩

theorem putAll (h : s.Proper) (address : Word) {bytes : List Expr}
    (each : ∀ b ∈ bytes, Memory.IsByte b) :
    State.Proper { s with memory := s.memory.putAll address bytes } :=
  ⟨⟨h.registers, h.memory.putAll address each, h.constraints⟩, h.streams⟩

/-- What is read from a stream are bytes, and those that are left stay bytes. -/
theorem readStream (h : s.Proper) {fd n : Nat} {bytes : List Expr}
    (read : s.readStream fd n = .ok (bytes, t)) : (∀ b ∈ bytes, Memory.IsByte b) ∧ t.Proper := by
  unfold State.readStream at read
  split at read
  · rename_i stream opened
    cases read
    refine ⟨fun b hb => h.streams fd stream opened b (Stream.mem_bytes_of_read hb), ?_⟩
    refine ⟨⟨h.registers, h.memory, h.constraints⟩, fun fd' stream' opened' b hb => ?_⟩
    rw [Std.TreeMap.getElem?_insert] at opened'
    split at opened'
    · cases opened'
      have kept : b ∈ (stream.read n).2.bytes := hb
      rw [Stream.bytes_read] at kept
      exact h.streams fd stream opened b kept
    · exact h.streams fd' stream' opened' b hb
  · cases read

end State.Proper

namespace Summary

variable {s t : State} {hook : String} {n m : Nat} {states : List State}

theorem returnToCaller_ok (returned : returnToCaller s = .ok t) : ∃ address, t = s.setIp address := by
  obtain ⟨address, -, result⟩ := bind_ok returned
  exact ⟨address, (Except.ok.inj result).symm⟩

theorem proper_returnToCaller (hs : s.Proper) (returned : returnToCaller s = .ok t) : t.Proper := by
  obtain ⟨address, rfl⟩ := returnToCaller_ok returned
  exact hs.setIp address

theorem proper_copyStream {fd : Nat} (hs : s.Proper) (copied : copyStream fd s = .ok t) :
    t.Proper := by
  obtain ⟨buffer, -, copied⟩ := bind_ok copied
  obtain ⟨length, -, copied⟩ := bind_ok copied
  have stored {bytes : List Expr} {u : State} (given : (∀ b ∈ bytes, Memory.IsByte b) ∧ u.Proper)
      (returned : returnToCaller (State.writeRegister
        { u with memory := u.memory.putAll buffer bytes } .r0
        (Expr.word (UInt64.ofNat bytes.length))) = .ok t) : t.Proper :=
    proper_returnToCaller ((given.2.putAll buffer given.1).writeRegister .r0
      (State.word_wellFormed _)) returned
  split at copied
  · obtain ⟨⟨bytes, u⟩, taken, returned⟩ := bind_ok copied
    exact stored (hs.readStream taken) returned
  · exact stored ⟨by simp, hs⟩ copied

/-- From proper states the code gives proper states. -/
def GivesProper (run : State → Fresh (List State)) : Prop :=
  ∀ (s : State) (n m : Nat) (states : List State), s.Proper →
    (run s).run n = (.ok states, m) → ∀ t ∈ states, t.Proper

theorem proper_of_return {x : Except Error State} (each : ∀ t, x = .ok t → t.Proper)
    (given : (do return [← x] : Fresh (List State)).run n = (.ok states, m)) :
    ∀ t ∈ states, t.Proper := by
  obtain ⟨t, _, returned, same⟩ := run_bind_ok given
  cases same
  exact List.forall_mem_singleton.mpr (each t (run_lift_ok returned))

theorem proper_apply {summary : Summary}
    (custom : ∀ run, summary = .custom run → GivesProper run) (hs : s.Proper)
    (given : (summary.apply hook s).run n = (.ok states, m)) : ∀ t ∈ states, t.Proper := by
  cases summary with
  | returnValue v =>
      have written := hs.writeRegister .r0 (State.word_wellFormed v)
      exact proper_of_return (fun t => proper_returnToCaller written) given
  | returnSymbolic =>
      let result : Expr := .var (resultName hook s) 64
      have wellFormed : result.WellFormed := ⟨by omega, by omega⟩
      have written := (hs.writeRegister .r0 wellFormed).recordInput (resultName hook s) result
      exact proper_of_return (fun t => proper_returnToCaller written) given
  | abort =>
      cases given
      simp
  | skip => exact proper_of_return (fun t => proper_returnToCaller hs) given
  | readStream fd => exact proper_of_return (fun t => proper_copyStream hs) given
  | custom run => exact custom run rfl s n m states hs given

end Summary

/-- Every summary in the table that a user wrote gives proper states from proper states. -/
def HookTable.Proper (hooks : HookTable) : Prop :=
  ∀ (address : Word) (h : Hook) (run : State → Fresh (List State)),
    hooks.lookup? address = some h → h.summary = .custom run → Summary.GivesProper run

theorem HookTable.Proper.apply {hooks : HookTable} (proper : hooks.Proper) {address : Word} {h : Hook}
    (found : hooks.lookup? address = some h) {s : State} (hs : s.Proper) {n m : Nat}
    {states : List State} (given : (h.apply s).run n = (.ok states, m)) : ∀ t ∈ states, t.Proper :=
  Summary.proper_apply (fun run => proper address h run found) hs given

end PathSearch
