import PathSearch.Proofs.Copy
import PathSearch.Proofs.Names

/-! # Reads of a stream

A hook that reads takes the next bytes of its stream, as many as are asked for or as there are left. It
puts them at consecutive addresses and leaves all else as it is. So whatever a program does between its
reads, what they deliver one after the other are the bytes of the stream from its start on.
-/

namespace PathSearch

/-- The bytes that the stream on a number still has. Where none is open there are none. -/
def State.unread (s : State) (fd : Nat) : List Expr :=
  match s.streams[fd]? with
  | some stream => stream.bytes.drop stream.position
  | none => []

namespace State

variable {s t : State} {fd : Nat}

theorem unread_some {stream : Stream} (opened : s.streams[fd]? = some stream) :
    s.unread fd = stream.bytes.drop stream.position := by
  rw [unread, opened]

theorem unread_none (closed : s.streams[fd]? = none) : s.unread fd = [] := by
  rw [unread, closed]

theorem unread_congr (same : t.streams[fd]? = s.streams[fd]?) : t.unread fd = s.unread fd := by
  rw [unread, unread, same]

theorem readRegister_writeRegister {r q : Register} (other : q ≠ r) (v : Expr) :
    (s.writeRegister r v).readRegister q = s.readRegister q := by
  rw [readRegister, writeRegister, Registers.get_set, if_neg other, readRegister]

theorem readRegister_word (r : Register) (n : Word) :
    (s.writeRegister r (Expr.word n)).readRegister r = Expr.word n := by
  rw [readRegister, writeRegister, Registers.get_set, if_pos rfl]
  rfl

theorem concreteRegister_writeRegister {r q : Register} (other : q ≠ r) (v : Expr) :
    (s.writeRegister r v).concreteRegister q = s.concreteRegister q := by
  simp only [concreteRegister, readRegister_writeRegister other]

theorem concreteRegister_word {r : Register} {n : Word} (holds : s.readRegister r = Expr.word n) :
    s.concreteRegister r = .ok n := by
  rw [concreteRegister, holds]
  rfl

end State

namespace Summary

/-- A call of a hook that reads: the states before and behind it, and what the registers say. -/
structure Call where
  before : State
  after : State
  /-- The address in `r1`. -/
  buffer : Word
  /-- The number of bytes asked for, in `r2`. -/
  length : Word
  /-- The address in `lr`. -/
  caller : Word

/-- The hook for the stream on `fd` was applied, where the registers hold these numbers. -/
structure Call.Applied (c : Call) (fd : Nat) : Prop where
  buffer : c.before.concreteRegister .r1 = .ok c.buffer
  length : c.before.concreteRegister .r2 = .ok c.length
  caller : c.before.concreteRegister .lr = .ok c.caller
  ran : ∃ hook n m, ((Summary.readStream fd).apply hook c.before).run n = (.ok [c.after], m)

/-- These bytes were put from the start of the buffer on and counted in `r0`, the stream moved behind
    them, and the path goes on at the caller. Nothing else changed. -/
structure Call.Delivers (c : Call) (fd : Nat) (bytes : List Expr) : Prop where
  stored : ∀ i b, bytes[i]? = some b → c.after.memory.byte (c.buffer + UInt64.ofNat i) = b
  elsewhere : ∀ address, (∀ i < bytes.length, address ≠ c.buffer + UInt64.ofNat i) →
    c.after.memory.byte address = c.before.memory.byte address
  ground : c.before.SharesGround c.after
  count : ∃ n : Word, c.after.readRegister .r0 = Expr.word n ∧ n.toNat = bytes.length
  registers : ∀ r, r ≠ .r0 → c.after.readRegister r = c.before.readRegister r
  ip : c.after.ip = c.caller
  contents : c.after.streams[fd]?.map Stream.bytes = c.before.streams[fd]?.map Stream.bytes
  position : c.after.streams[fd]?.map Stream.position =
    c.before.streams[fd]?.map fun stream => stream.position + bytes.length
  streams : ∀ other, other ≠ fd → c.after.streams[other]? = c.before.streams[other]?
  constraints : c.after.constraints = c.before.constraints
  inputs : c.after.inputs = c.before.inputs
  parent : c.after.parent = c.before.parent
  lineage : c.after.lineage = c.before.lineage

/-- The bytes that a program finds in its buffer after a call, as many as `r0` says. -/
def Call.delivered (c : Call) : List Expr :=
  match c.after.concreteRegister .r0 with
  | .ok n => c.after.memory.bytes c.buffer n.toNat
  | .error _ => []

/-- The number of bytes that calls ask for. -/
def requested : List Call → Nat
  | [] => 0
  | c :: calls => c.length.toNat + requested calls

/-- Calls of a hook that reads, one after the other. Between them anything may happen that leaves the
    stream as it is. -/
inductive Reads (fd : Nat) : State → List Call → State → Prop where
  | done (s : State) : Reads fd s [] s
  | other {s t u : State} {calls : List Call} (same : t.streams[fd]? = s.streams[fd]?)
      (later : Reads fd t calls u) : Reads fd s calls u
  | call {c : Call} {calls : List Call} {u : State} (applied : c.Applied fd)
      (later : Reads fd c.after calls u) : Reads fd c.before (c :: calls) u

variable {fd : Nat} {c : Call} {bytes : List Expr}

namespace Call.Delivers

/-- The stream goes on behind what was delivered. -/
theorem unread_after (h : c.Delivers fd bytes) :
    c.after.unread fd = (c.before.unread fd).drop bytes.length := by
  have contents := h.contents
  have position := h.position
  cases opened : c.before.streams[fd]? with
  | none =>
      rw [opened, Option.map_none, Option.map_eq_none_iff] at contents
      rw [State.unread_none contents, State.unread_none opened, List.drop_nil]
  | some stream =>
      rw [opened] at contents position
      obtain ⟨rest, after, same⟩ := Option.map_eq_some_iff.mp contents
      rw [after] at position
      have moved : rest.position = stream.position + bytes.length := Option.some.inj position
      rw [State.unread_some after, State.unread_some opened, same, moved, List.drop_drop]

theorem delivered_eq (h : c.Delivers fd bytes) : c.delivered = bytes := by
  obtain ⟨n, holds, size⟩ := h.count
  have found : c.delivered = c.after.memory.bytes c.buffer bytes.length := by
    simp only [delivered, State.concreteRegister_word holds, size]
  rw [found]
  refine List.ext_getElem (by simp [Memory.bytes]) fun i _ inside => ?_
  simpa [Memory.bytes] using h.stored i _ (List.getElem?_eq_getElem inside)

end Call.Delivers

/-- What a call makes of the state, where the stream gives it these bytes and then is as in `streams`. -/
theorem delivers_putAll {s : State} {buffer length caller : Word} {streams : Std.TreeMap Nat Stream}
    (few : bytes.length ≤ length.toNat)
    (contents : streams[fd]?.map Stream.bytes = s.streams[fd]?.map Stream.bytes)
    (position : streams[fd]?.map Stream.position =
      s.streams[fd]?.map fun stream => stream.position + bytes.length)
    (others : ∀ other, other ≠ fd → streams[other]? = s.streams[other]?) :
    Call.Delivers
      ⟨s, (State.writeRegister { s with memory := s.memory.putAll buffer bytes, streams } .r0
        (Expr.word (UInt64.ofNat bytes.length))).setIp caller, buffer, length, caller⟩ fd bytes := by
  have short : bytes.length < 2 ^ 64 := Nat.lt_of_le_of_lt few length.toNat_lt
  constructor
  case stored =>
    intro i b found
    exact Memory.byte_putAll_add _ _ (Nat.le_of_lt short) found
  case elsewhere =>
    intro address apart
    refine (Memory.byte_putAll _ _ (Nat.le_of_lt short) _).trans ?_
    have outside : bytes[(address - buffer).toNat]? = none := by
      refine List.getElem?_eq_none ?_
      by_contra inside
      refine apart _ (Nat.lt_of_not_le inside) ?_
      rw [UInt64.ofNat_toNat]
      grind
    rw [outside]
    rfl
  case ground =>
    exact ⟨Memory.image_putAll _ _ _, Memory.uninitialized_putAll _ _ _⟩
  case count =>
    refine ⟨UInt64.ofNat bytes.length, State.readRegister_word _ _, ?_⟩
    rw [UInt64.toNat_ofNat', Nat.mod_eq_of_lt short]
  case registers =>
    intro r other
    exact State.readRegister_writeRegister other _
  case contents => exact contents
  case position => exact position
  case streams => exact others
  all_goals rfl

/-- With known registers the hook does not fail, and it delivers the next bytes of the stream. -/
theorem copyStream_delivers {s : State} {buffer length caller : Word}
    (hbuffer : s.concreteRegister .r1 = .ok buffer) (hlength : s.concreteRegister .r2 = .ok length)
    (hcaller : s.concreteRegister .lr = .ok caller) :
    ∃ t, copyStream fd s = .ok t ∧
      Call.Delivers ⟨s, t, buffer, length, caller⟩ fd ((s.unread fd).take length.toNat) := by
  have few : ((s.unread fd).take length.toNat).length ≤ length.toNat := List.length_take_le _ _
  have returns (memory : Memory) (streams : Std.TreeMap Nat Stream) (v : Expr) :
      returnToCaller (State.writeRegister { s with memory, streams } .r0 v) =
        .ok ((State.writeRegister { s with memory, streams } .r0 v).setIp caller) := by
    have known : (State.writeRegister { s with memory, streams } .r0 v).concreteRegister .lr =
        .ok caller := (State.concreteRegister_writeRegister (by decide) v).trans hcaller
    rw [returnToCaller, ok_bind known]
    rfl
  rw [copyStream, ok_bind hbuffer, ok_bind hlength]
  cases opened : s.streams[fd]? with
  | none =>
      rw [State.unread_none opened, List.take_nil] at few ⊢
      exact ⟨_, returns _ _ _, delivers_putAll few rfl rfl fun _ _ => rfl⟩
  | some stream =>
      have taken : s.readStream fd length.toNat = .ok ((s.unread fd).take length.toNat,
          { s with streams := s.streams.insert fd (stream.read length.toNat).2 }) := by
        rw [State.unread_some opened, ← Stream.left_eq_drop, State.readStream, opened]
        rfl
      simp only [taken]
      refine ⟨_, returns _ _ _, delivers_putAll few ?_ ?_ ?_⟩
      · rw [Std.TreeMap.getElem?_insert_self, opened, Option.map_some, Stream.bytes_read]
        rfl
      · rw [Std.TreeMap.getElem?_insert_self, opened, Option.map_some, Stream.position_read,
          State.unread_some opened, ← Stream.left_eq_drop]
        rfl
      · intro other apart
        rw [Std.TreeMap.getElem?_insert]
        simp [apart.symm]

/-- What a call delivers are the next bytes of the stream. -/
theorem Call.Applied.delivers (h : c.Applied fd) :
    c.Delivers fd ((c.before.unread fd).take c.length.toNat) := by
  obtain ⟨t, copied, delivers⟩ := copyStream_delivers h.buffer h.length h.caller
  obtain ⟨hook, n, m, ran⟩ := h.ran
  obtain ⟨u, k, given, same⟩ := run_bind_ok ran
  have result : copyStream fd c.before = .ok u := run_lift_ok given
  cases same
  obtain rfl := Except.ok.inj (copied.symm.trans result)
  exact delivers

/-- A call takes the bytes that it asks for from the front. -/
theorem Call.Applied.unread_after (h : c.Applied fd) :
    c.after.unread fd = (c.before.unread fd).drop c.length.toNat := by
  rw [h.delivers.unread_after, List.length_take]
  rcases Nat.le_total c.length.toNat (c.before.unread fd).length with enough | short
  · rw [Nat.min_eq_left enough]
  · rw [Nat.min_eq_right short, List.drop_length, List.drop_of_length_le short]

namespace Reads

variable {s t : State} {calls : List Call}

/-- Of calls one after the other, each delivers what those before it left. -/
theorem delivers (h : Reads fd s calls t) {earlier later : List Call}
    (split : calls = earlier ++ c :: later) :
    c.Delivers fd (((s.unread fd).drop (requested earlier)).take c.length.toNat) := by
  induction h generalizing earlier with
  | done s => simp at split
  | other same _ ih =>
      rw [← State.unread_congr same]
      exact ih split
  | call applied _ ih =>
      cases earlier with
      | nil =>
          obtain ⟨rfl, -⟩ := List.cons.inj split
          exact applied.delivers
      | cons first earlier =>
          obtain ⟨rfl, rest⟩ := List.cons.inj split
          have here := ih rest
          rw [applied.unread_after, List.drop_drop] at here
          exact here

theorem delivered_eq (h : Reads fd s calls t) :
    calls.flatMap Call.delivered = (s.unread fd).take (requested calls) := by
  induction h with
  | done s => rfl
  | other same _ ih => rw [ih, State.unread_congr same]
  | call applied _ ih =>
      rw [List.flatMap_cons, applied.delivers.delivered_eq, ih, applied.unread_after]
      exact List.take_add.symm

end Reads

/-- With known registers a call gives one state. From the opening of a stream on each call delivers the
    next of its bytes, so that all calls deliver its bytes up to the number asked for. Where no stream
    is open they deliver none. Reads of a stream are those of an index in words that moves by a sum with a
    largest value. -/
theorem readStream_exact (fd : Nat) :
    (∀ (hook : String) (s : State) (n : Nat) (buffer length caller : Word),
      s.concreteRegister .r1 = .ok buffer → s.concreteRegister .r2 = .ok length →
      s.concreteRegister .lr = .ok caller →
      ∃ t, ((Summary.readStream fd).apply hook s).run n = (.ok [t], n)) ∧
    (∀ (s t : State) (calls : List Call), Reads fd s calls t →
      (∀ stream, s.streams[fd]? = some stream → stream.position = 0 →
        (∀ earlier c later, calls = earlier ++ c :: later →
          c.Delivers fd ((stream.bytes.drop (requested earlier)).take c.length.toNat)) ∧
        calls.flatMap Call.delivered = stream.bytes.take (min (requested calls) stream.length)) ∧
      (s.streams[fd]? = none → ∀ c ∈ calls, c.Delivers fd [] ∧ c.delivered = [])) ∧
    ∀ (stream : Stream) (lengths : List Word), stream.length < 2 ^ 64 →
      ∃ last, (Stream.Indexed.ofStream stream).readAll lengths =
          some ((stream.readAll (lengths.map (·.toNat))).1, last) ∧
        last.Shows (stream.readAll (lengths.map (·.toNat))).2 := by
  refine ⟨?_, ?_, fun stream lengths room => (Stream.Indexed.shows_ofStream room).readAll room lengths⟩
  · intro hook s n buffer length caller hbuffer hlength hcaller
    obtain ⟨t, copied, -⟩ := copyStream_delivers hbuffer hlength hcaller
    refine ⟨t, ?_⟩
    rw [apply, copied]
    rfl
  intro s t calls reads
  constructor
  · intro stream opened fresh
    have whole : s.unread fd = stream.bytes := by
      rw [State.unread_some opened, fresh, List.drop_zero]
    constructor
    · intro earlier c later split
      rw [← whole]
      exact reads.delivers split
    · rw [reads.delivered_eq, whole, Stream.length, List.take_eq_take_min]
  · intro closed c hc
    obtain ⟨earlier, later, split⟩ := List.append_of_mem hc
    have none := reads.delivers split
    rw [State.unread_none closed, List.drop_nil, List.take_nil] at none
    exact ⟨none, none.delivered_eq⟩

/-- A state with three bytes to read, and a buffer that goes on at zero behind the last address. -/
def reader : State :=
  let s := (State.start { entry := 0x1000 } .zero 0).addConcreteStream 0 [0x41, 0x42, 0x43]
  let s := (s.writeRegister .r1 (Expr.word 0xffffffffffffffff)).writeRegister .r2 (Expr.word 2)
  s.writeRegister .lr (Expr.word 0x2000)

/-- The call with which a state reads. -/
def callIn (fd : Nat) (s : State) (length : Word) : Call where
  before := s
  after := ((copyStream fd s).toOption).getD s
  buffer := 0xffffffffffffffff
  length
  caller := 0x2000

theorem readStream_exact_wrapping :
    let first := callIn 0 reader 2
    let second := callIn 0 (first.after.writeRegister .r2 (Expr.word 10)) 10
    let closed := callIn 1 reader 2
    (∃ t, ((Summary.readStream 0).apply "read" reader).run 0 = (.ok [t], 0)) ∧
      Reads 0 reader [first, second] second.after ∧ Reads 1 reader [closed] closed.after ∧
      second.Delivers 0 [Expr.byte 0x43] ∧
      [first, second].flatMap Call.delivered = [Expr.byte 0x41, Expr.byte 0x42, Expr.byte 0x43] ∧
      closed.delivered = [] := by
  intro first second closed
  have first_applied : first.Applied 0 := ⟨rfl, rfl, rfl, "read", 0, 0, rfl⟩
  have second_applied : second.Applied 0 := ⟨rfl, rfl, rfl, "read", 0, 0, rfl⟩
  have closed_applied : closed.Applied 1 := ⟨rfl, rfl, rfl, "read", 0, 0, rfl⟩
  have between : second.before.streams[0]? = first.after.streams[0]? := rfl
  have reads : Reads 0 reader [first, second] second.after :=
    .call first_applied (.other between (.call second_applied (.done _)))
  have reads_closed : Reads 1 reader [closed] closed.after := .call closed_applied (.done _)
  obtain ⟨each, all⟩ := ((readStream_exact 0).2.1 _ _ _ reads).1 _ rfl rfl
  have none := ((readStream_exact 1).2.1 _ _ _ reads_closed).2 rfl closed (.head _)
  have gives := (readStream_exact 0).1 "read" reader 0 _ _ _ rfl rfl rfl
  exact ⟨gives, reads, reads_closed, each [first] second [] rfl, all, none.2⟩

end Summary

end PathSearch
