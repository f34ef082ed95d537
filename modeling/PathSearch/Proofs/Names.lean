import PathSearch.Proofs.Expr.Names
import PathSearch.Proofs.Faultless

/-! # Steps bring in no variables

Instructions compute with what a state has, so no variable occurs in a successor that did not occur
before, and what lies below the memory stays. Of the built-in summaries only the one that returns a
new variable adds a name. Nothing of this depends on what the solver answers.
-/

namespace PathSearch

open PathSearch.Expr

variable {names : Set String}

namespace Memory

variable {m m' : Memory} {address : Word} {v e : Expr}

/-- Only variables with these names occur in bytes. -/
def Within (names : Set String) (m : Memory) : Prop := ∀ address, (m.byte address).Within names

theorem Within.put (hm : m.Within names) (address : Word) (hv : v.Within names) :
    (m.put address v).Within names := by
  intro b
  rw [byte_put]
  split
  · exact hv
  · exact hm b

theorem Within.putAll (hm : m.Within names) (address : Word) {bytes : List Expr}
    (each : ∀ b ∈ bytes, b.Within names) : (m.putAll address bytes).Within names := by
  induction bytes generalizing m address with
  | nil => exact hm
  | cons first rest ih =>
      obtain ⟨here, later⟩ := List.forall_mem_cons.mp each
      exact ih (hm.put address here) (address + 1) later

/-- Under what was written there are no variables but those of bytes that nobody wrote. -/
theorem within_background {uninitialized : Uninitialized} (image : Program)
    (known : uninitialized = .symbolic → ∀ address, uninitializedName address ∈ names) :
    Within names { image, uninitialized } := by
  intro address
  have unwritten : byte { image, uninitialized } address = background image uninitialized address := by
    simp [byte]
  rw [unwritten]
  unfold background
  split
  · exact within_byte _
  · split
    · exact within_byte _
    · exact within_var.mpr (known rfl address)

theorem uninitialized_putAll (m : Memory) (address : Word) (bytes : List Expr) :
    (m.putAll address bytes).uninitialized = m.uninitialized := by
  induction bytes generalizing m address with
  | nil => rfl
  | cons first rest ih => exact ih _ _

theorem within_join {bytes : List Expr} (each : ∀ b ∈ bytes, b.Within names)
    (joined : join bytes = .ok e) : e.Within names := by
  induction bytes generalizing e with
  | nil => cases joined
  | cons first rest ih =>
      obtain ⟨here, later⟩ := List.forall_mem_cons.mp each
      cases rest with
      | nil => exact Except.ok.inj joined ▸ here
      | cons second rest =>
          obtain ⟨high, below, joined⟩ := bind_ok joined
          exact (within_hereditary _).of_mkConcat (ih later below) here joined

theorem Within.read (hm : m.Within names) {size : Nat} (given : m.read address size = .ok e) :
    e.Within names := by
  unfold Memory.read at given
  split at given
  · cases given
  · apply within_join _ given
    intro b hb
    obtain ⟨i, -, rfl⟩ := List.mem_map.mp hb
    exact hm _

theorem within_split (hv : v.Within names) {parts : List Expr} (cut : split v = .ok parts) :
    ∀ b ∈ parts, b.Within names := by
  unfold split at cut
  split at cut
  · cases cut
  · intro b hb
    obtain ⟨i, -, built⟩ := exists_left (mapM_ok cut) hb
    exact (within_hereditary _).of_mkExtract hv built

end Memory

namespace Registers

theorem within_widen {v : Expr} (hv : v.Within names) : (widen v).Within names := by
  unfold widen
  split
  · cases built : mkZext v 64 with
    | error => exact hv
    | ok e => exact (within_hereditary _).of_mkZext hv built
  · exact hv

theorem within_empty (r : Register) : (({} : Registers).get r).Within names := by
  have zero : ({} : Registers).get r = Expr.word 0 := by cases r <;> rfl
  rw [zero]
  exact within_word 0

end Registers

namespace Constraints

theorem within_push {cs cs' : Constraints} {c : Expr} (hcs : ∀ d ∈ cs.items, d.Within names)
    (hc : c.Within names) (pushed : cs.push c = .ok cs') : ∀ d ∈ cs'.items, d.Within names := by
  rcases push_items pushed with ⟨-, rfl⟩ | ⟨-, items⟩
  · exact hcs
  · rw [items]
    exact List.forall_mem_append.mpr ⟨hcs, List.forall_mem_singleton.mpr hc⟩

end Constraints

namespace State

/-- A variable occurs in a state: in a register or a byte, in a constraint, in a stream or in a
    recorded input. -/
inductive Mentions (s : State) (name : String) : Prop where
  | register {r : Register} (occurs : (s.readRegister r).Mentions name)
  | byte {address : Word} (occurs : (s.memory.byte address).Mentions name)
  | constraint {c : Expr} (hc : c ∈ s.constraints.items) (occurs : c.Mentions name)
  | stream {fd : Nat} {stream : Stream} (opened : s.streams[fd]? = some stream) {b : Expr}
      (hb : b ∈ stream.bytes) (occurs : b.Mentions name)
  | input {p : String × Expr} (hp : p ∈ s.inputs) (occurs : p.2.Mentions name)

/-- Only variables with these names occur in a state. -/
structure Within (names : Set String) (s : State) : Prop where
  registers : ∀ r, (s.readRegister r).Within names
  memory : s.memory.Within names
  constraints : ∀ c ∈ s.constraints.items, c.Within names
  streams : ∀ (fd : Nat) (stream : Stream), s.streams[fd]? = some stream →
    ∀ b ∈ stream.bytes, b.Within names
  inputs : ∀ p ∈ s.inputs, p.2.Within names

theorem within_iff {s : State} : s.Within names ↔ ∀ name, s.Mentions name → name ∈ names := by
  constructor
  · intro h name mentioned
    cases mentioned with
    | register occurs => exact h.registers _ name occurs
    | byte occurs => exact h.memory _ name occurs
    | constraint hc occurs => exact h.constraints _ hc name occurs
    | stream opened hb occurs => exact h.streams _ _ opened _ hb name occurs
    | input hp occurs => exact h.inputs _ hp name occurs
  · intro h
    constructor
    · exact fun r name occurs => h name (.register occurs)
    · exact fun a name occurs => h name (.byte occurs)
    · exact fun c hc name occurs => h name (.constraint hc occurs)
    · exact fun fd stream opened b hb name occurs => h name (.stream opened hb occurs)
    · exact fun p hp name occurs => h name (.input hp occurs)

/-- Two states have the same memory below what was written. -/
structure SharesGround (s t : State) : Prop where
  image : t.memory.image = s.memory.image
  uninitialized : t.memory.uninitialized = s.memory.uninitialized

/-- A state that stands on the same ground as another one, and in which only variables with these
    names occur. -/
structure Inherits (names : Set String) (s t : State) : Prop where
  ground : s.SharesGround t
  within : t.Within names

variable {s t u : State}

theorem Within.mono {more : Set String} (h : s.Within names) (larger : names ⊆ more) :
    s.Within more := by
  rw [within_iff] at h ⊢
  intro name mentioned
  exact larger (h name mentioned)

theorem Within.inherits (h : s.Within names) : s.Inherits names s := ⟨⟨rfl, rfl⟩, h⟩

theorem within_start {uninitialized : Uninitialized} (image : Program) (id : Nat)
    (known : uninitialized = .symbolic → ∀ address, Memory.uninitializedName address ∈ names) :
    (State.start image uninitialized id).Within names where
  registers := Registers.within_empty
  memory := Memory.within_background image known
  constraints := List.forall_mem_nil _
  streams fd stream opened := by simp [State.start] at opened
  inputs := List.forall_mem_nil _

namespace Inherits

/-- What does not touch the parts in which variables occur. -/
theorem of_same_parts (h : s.Inherits names t) (registers : u.registers = t.registers)
    (memory : u.memory = t.memory) (constraints : u.constraints = t.constraints)
    (streams : u.streams = t.streams) (inputs : u.inputs = t.inputs) : s.Inherits names u where
  ground := ⟨memory ▸ h.ground.image, memory ▸ h.ground.uninitialized⟩
  within :=
    { registers := by
        intro r
        rw [readRegister, registers]
        exact h.within.registers r
      memory := memory ▸ h.within.memory
      constraints := constraints ▸ h.within.constraints
      streams := streams ▸ h.within.streams
      inputs := inputs ▸ h.within.inputs }

theorem setIp (h : s.Inherits names t) (address : Word) : s.Inherits names (t.setIp address) :=
  h.of_same_parts rfl rfl rfl rfl rfl

theorem recordStep (h : s.Inherits names t) : s.Inherits names t.recordStep :=
  h.of_same_parts rfl rfl rfl rfl rfl

theorem fork (h : s.Inherits names t) (id : Nat) : s.Inherits names (t.fork id) :=
  h.of_same_parts rfl rfl rfl rfl rfl

theorem writeRegister (h : s.Inherits names t) (r : Register) {v : Expr} (hv : v.Within names) :
    s.Inherits names (t.writeRegister r v) where
  ground := ⟨h.ground.image, h.ground.uninitialized⟩
  within :=
    { registers := by
        intro q
        rw [readRegister, State.writeRegister, Registers.get_set]
        split
        · exact Registers.within_widen hv
        · exact h.within.registers q
      memory := h.within.memory
      constraints := h.within.constraints
      streams := h.within.streams
      inputs := h.within.inputs }

theorem recordInput (h : s.Inherits names t) (name : String) {v : Expr} (hv : v.Within names) :
    s.Inherits names (t.recordInput name v) where
  ground := ⟨h.ground.image, h.ground.uninitialized⟩
  within :=
    { registers := h.within.registers
      memory := h.within.memory
      constraints := h.within.constraints
      streams := h.within.streams
      inputs := List.forall_mem_append.mpr
        ⟨h.within.inputs, List.forall_mem_singleton.mpr hv⟩ }

theorem putAll (h : s.Inherits names t) (address : Word) {bytes : List Expr}
    (each : ∀ b ∈ bytes, b.Within names) :
    s.Inherits names { t with memory := t.memory.putAll address bytes } where
  ground :=
    ⟨(Memory.image_putAll _ _ _).trans h.ground.image,
      (Memory.uninitialized_putAll _ _ _).trans h.ground.uninitialized⟩
  within :=
    { registers := h.within.registers
      memory := h.within.memory.putAll address each
      constraints := h.within.constraints
      streams := h.within.streams
      inputs := h.within.inputs }

theorem writeMemory (h : s.Inherits names t) {address : Word} {v : Expr} (hv : v.Within names)
    (written : t.writeMemory address v = .ok u) : s.Inherits names u := by
  obtain ⟨m, stored, result⟩ := bind_ok written
  obtain ⟨parts, cut, stored⟩ := bind_ok stored
  cases result
  cases stored
  exact h.putAll address (Memory.within_split hv cut)

theorem addConstraint (h : s.Inherits names t) {c : Expr} (hc : c.Within names)
    (added : t.addConstraint c = .ok u) : s.Inherits names u := by
  obtain ⟨cs, pushed, result⟩ := bind_ok added
  cases result
  have conditions : ∀ d ∈ cs.items, d.Within names :=
    Constraints.within_push h.within.constraints hc pushed
  exact ⟨⟨h.ground.image, h.ground.uninitialized⟩,
    ⟨h.within.registers, h.within.memory, conditions, h.within.streams, h.within.inputs⟩⟩

/-- What is read from a stream is in it, and stays in it. -/
theorem readStream (h : s.Inherits names t) {fd n : Nat} {bytes : List Expr}
    (read : t.readStream fd n = .ok (bytes, u)) :
    (∀ b ∈ bytes, b.Within names) ∧ s.Inherits names u := by
  unfold State.readStream at read
  split at read
  · rename_i stream opened
    cases read
    have known := h.within.streams fd stream opened
    constructor
    · intro b hb
      exact known b (Stream.mem_bytes_of_read hb)
    · refine ⟨⟨h.ground.image, h.ground.uninitialized⟩, ?_⟩
      refine ⟨h.within.registers, h.within.memory, h.within.constraints, ?_, h.within.inputs⟩
      intro fd' stream' opened'
      rw [Std.TreeMap.getElem?_insert] at opened'
      split at opened'
      · cases opened'
        intro b hb
        have kept : b ∈ (stream.read n).2.bytes := hb
        rw [Stream.bytes_read] at kept
        exact known b kept
      · exact h.within.streams fd' stream' opened'
  · cases read

theorem operand (h : s.Inherits names t) (o : Operand) : (t.operand o).Within names := by
  cases o with
  | reg r => exact h.within.registers r
  | imm v => exact within_word v

end Inherits

end State

namespace Attempt

open Session

variable {α β : Type}

/-- Whatever the session, what the work gives has the property, where it gives anything. -/
def Grants (x : Attempt α) (post : α → Prop) : Prop :=
  Always x.run fun result => ∀ a, result = .ok a → post a

namespace Grants

variable {x : Attempt α} {post : α → Prop}

theorem pure {a : α} (h : post a) : Grants (pure a) post :=
  Always.pure fun _ same => Except.ok.inj same ▸ h

theorem throw (reason : Reason) : Grants (throw reason) post := Always.pure nofun

theorem bind {f : α → Attempt β} {post' : β → Prop} (first : Grants x post)
    (next : ∀ a, post a → Grants (f a) post') : Grants (x >>= f) post' := by
  unfold Grants
  rw [ExceptT.run_bind]
  refine Always.bind first ?_
  intro result given
  cases result with
  | ok a => exact next a (given a rfl)
  | error reason => exact Always.pure nofun

/-- Nothing need be known about the first part. -/
theorem after {f : α → Attempt β} {post' : β → Prop} (next : ∀ a, Grants (f a) post') :
    Grants (x >>= f) post' := by
  have first : Grants x fun _ => True := fun _ _ _ => trivial
  exact first.bind fun a _ => next a

theorem lift {x : StateM Session α} (h : Always x post) : Grants (liftM x) post :=
  Always.bind h fun _ given => Always.pure fun _ same => Except.ok.inj same ▸ given

theorem orFault {result : Except Error α} (given : ∀ a, result = .ok a → post a) :
    Grants (Session.orFault result) post := by
  cases result with
  | ok a => exact pure (given a rfl)
  | error e => exact throw _

theorem mapM {list : List α} {f : α → Attempt β} {post : β → Prop}
    (each : ∀ a ∈ list, Grants (f a) post) : Grants (list.mapM f) fun bs => ∀ b ∈ bs, post b := by
  induction list with
  | nil =>
      rw [List.mapM_nil]
      exact pure (List.forall_mem_nil _)
  | cons a rest ih =>
      obtain ⟨here, later⟩ := List.forall_mem_cons.mp each
      rw [List.mapM_cons]
      refine bind here ?_
      intro b head
      refine bind (ih later) ?_
      intro bs tail
      exact pure (List.forall_mem_cons.mpr ⟨head, tail⟩)

/-- A copy with some identity. -/
theorem forkFresh (s : State) :
    Grants (liftM (fresh s.forkFresh)) fun result => ∃ id, result = .ok (s.fork id) :=
  lift fun _ => ⟨_, rfl⟩

end Grants

end Attempt

open Attempt Session

namespace State

variable {s t : State} {address v : Expr} {cap : Nat}

theorem inherits_pin (h : s.Inherits names t) (hv : v.Within names) (value : Word) :
    Grants (t.pin v value) (s.Inherits names) := by
  refine Grants.bind (.forkFresh t) ?_
  rintro result ⟨id, rfl⟩
  refine Grants.bind (.orFault fun _ same => Except.ok.inj same) ?_
  rintro _ rfl
  refine Grants.orFault ?_
  intro u assumed
  obtain ⟨c, constant, assumed⟩ := bind_ok assumed
  obtain ⟨d, equal, added⟩ := bind_ok assumed
  have condition := (within_hereditary names).of_mkBinary hv (within_mkConst constant) equal
  exact (h.fork id).addConstraint condition added

theorem inherits_resolveAddress (h : s.Inherits names t) (ha : address.Within names) (cap : Nat) :
    Grants (t.resolveAddress address cap) fun candidates => ∀ p ∈ candidates, s.Inherits names p.1 := by
  unfold resolveAddress
  split
  · exact .pure (List.forall_mem_singleton.mpr h)
  · refine Grants.bind (.lift fun _ => trivial) fun answer (_ : True) => ?_
    cases answer with
    | error e =>
        simp only
        split
        · exact .throw _
        · exact .pure (List.forall_mem_nil _)
    | ok values =>
        simp only
        split
        · exact .throw _
        · refine Grants.mapM ?_
          intro value _
          refine Grants.bind (inherits_pin h ha value) ?_
          intro u pinned
          exact .pure pinned

theorem inherits_readResolved (h : s.Inherits names t) (ha : address.Within names) (size cap : Nat) :
    Grants (t.readResolved address size cap) fun loaded =>
      ∀ q ∈ loaded, s.Inherits names q.1 ∧ q.2.Within names := by
  refine Grants.bind (inherits_resolveAddress h ha cap) ?_
  intro candidates resolved
  refine Grants.mapM ?_
  intro p hp
  refine Grants.bind (.orFault fun e read => (resolved p hp).within.memory.read read) ?_
  intro e he
  exact .pure ⟨resolved p hp, he⟩

theorem inherits_writeResolved (h : s.Inherits names t) (ha : address.Within names)
    (hv : v.Within names) (cap : Nat) :
    Grants (t.writeResolved address v cap) fun stored => ∀ u ∈ stored, s.Inherits names u := by
  refine Grants.bind (inherits_resolveAddress h ha cap) ?_
  intro candidates resolved
  refine Grants.mapM ?_
  intro p hp
  refine Grants.orFault ?_
  intro u written
  exact (resolved p hp).writeMemory hv written

end State

namespace Step

variable {s t : State} {cap : Nat}

theorem inherits_ofStates {states : List State} (each : ∀ t ∈ states, s.Inherits names t) :
    ∀ x ∈ (StepResult.ofStates states).successors, s.Inherits names x.state := by
  intro x hx
  obtain ⟨t, ht, rfl⟩ := List.mem_map.mp hx
  exact each t ht

theorem inherits_single {x : Successor} (h : s.Inherits names x.state) :
    ∀ y ∈ (StepResult.single x).successors, s.Inherits names y.state :=
  List.forall_mem_singleton.mpr h

theorem inherits_transfer (h : s.Inherits names t) {target : Expr} (ht : target.Within names) :
    Grants (transfer t target cap) fun r => ∀ x ∈ r.successors, s.Inherits names x.state := by
  unfold transfer
  split
  · exact .pure (inherits_single (h.setIp _))
  · refine Grants.bind (State.inherits_resolveAddress h ht cap) ?_
    intro candidates resolved
    refine Grants.pure ?_
    refine inherits_ofStates ?_
    intro u hu
    obtain ⟨p, hp, rfl⟩ := List.mem_map.mp hu
    exact (resolved p hp).setIp _

theorem inherits_side (h : s.Inherits names t) {assumption : Expr} (ha : assumption.Within names)
    (target : Word) :
    Grants (side t assumption target) fun r => ∀ x ∈ r.successors, s.Inherits names x.state := by
  refine Grants.bind (.forkFresh t) ?_
  rintro result ⟨id, rfl⟩
  refine Grants.bind (.orFault fun _ same => Except.ok.inj same) ?_
  rintro _ rfl
  refine Grants.bind (.orFault fun u added => (h.fork id).addConstraint ha added) ?_
  intro u assumed
  refine Grants.lift ?_
  refine (always_ifFeasible _).mono ?_
  intro r each x hx
  rw [(each x hx).1]
  exact assumed.setIp target

theorem inherits_branch (h : s.Inherits names t) {condition : Expr} (hc : condition.Within names)
    (taken next : Word) :
    Grants (branch t condition taken next) fun r =>
      ∀ x ∈ r.successors, s.Inherits names x.state := by
  unfold branch
  split
  · exact .pure (inherits_single (h.setIp _))
  · refine Grants.bind (.orFault fun negated built => (within_hereditary _).of_lnot hc built) ?_
    intro negated hn
    refine Grants.bind (inherits_side h hc taken) ?_
    intro yes taking
    refine Grants.bind (inherits_side h hn next) ?_
    intro no passing
    exact .pure (List.forall_mem_append.mpr ⟨taking, passing⟩)

theorem inherits_assign (h : s.Inherits names t) (dst : Register) {value : Except Error Expr}
    (hv : ∀ e, value = .ok e → e.Within names) (next : Word) :
    Grants (assign t dst value next) fun r => ∀ x ∈ r.successors, s.Inherits names x.state := by
  refine Grants.bind (.orFault hv) ?_
  intro e he
  exact .pure (inherits_single ((h.writeRegister dst he).setIp next))

theorem within_effectiveAddress (h : s.Inherits names t) {base : Operand} {offset : Int32} :
    ∀ e, t.effectiveAddress base offset = .ok e → e.Within names := by
  intro e built
  exact (within_hereditary _).of_mkBinary (h.operand base) (within_word _) built

theorem inherits_execute (h : s.Inherits names t) (i : Instruction) (cap : Nat) :
    Grants (execute t i cap) fun r => ∀ x ∈ r.successors, s.Inherits names x.state := by
  have keeps := within_hereditary names
  cases opcode : i.opcode with
  | nop =>
      simp only [execute, opcode]
      exact .pure (inherits_single (h.setIp _))
  | mov dst src =>
      simp only [execute, opcode]
      exact inherits_assign h dst (fun e same => Except.ok.inj same ▸ h.operand src) _
  | alu op dst lhs rhs =>
      simp only [execute, opcode]
      exact inherits_assign h dst (fun e => keeps.of_mkBinary (h.within.registers lhs) (h.operand rhs)) _
  | not dst src | neg dst src =>
      simp only [execute, opcode]
      exact inherits_assign h dst (fun e => keeps.of_mkUnary (h.within.registers src)) _
  | set cond dst lhs rhs =>
      simp only [execute, opcode]
      exact inherits_assign h dst (fun e => keeps.of_mkBinary (h.within.registers lhs) (h.operand rhs)) _
  | load dst base offset size =>
      simp only [execute, opcode]
      refine Grants.bind (.orFault (within_effectiveAddress h)) ?_
      intro address ha
      refine Grants.bind (State.inherits_readResolved h ha _ cap) ?_
      intro loaded each
      refine Grants.pure ?_
      refine inherits_ofStates ?_
      intro u hu
      obtain ⟨q, hq, rfl⟩ := List.mem_map.mp hu
      obtain ⟨inherits, hv⟩ := each q hq
      exact (inherits.writeRegister dst hv).setIp _
  | store src base offset size =>
      simp only [execute, opcode]
      refine Grants.bind (.orFault (within_effectiveAddress h)) ?_
      intro address ha
      have low : ∀ e, (if size < 8 then mkExtract (size.toNat * 8 - 1) 0 (t.operand src)
          else .ok (t.operand src)) = .ok e → e.Within names := by
        intro e cut
        split at cut
        · exact keeps.of_mkExtract (h.operand src) cut
        · exact Except.ok.inj cut ▸ h.operand src
      refine Grants.bind (.orFault low) ?_
      intro v hv
      refine Grants.bind (State.inherits_writeResolved h ha hv cap) ?_
      intro stored each
      refine Grants.pure ?_
      refine inherits_ofStates ?_
      intro u hu
      obtain ⟨w, hw, rfl⟩ := List.mem_map.mp hu
      exact (each w hw).setIp _
  | jump target =>
      simp only [execute, opcode]
      exact inherits_transfer h (h.operand target)
  | branch cond lhs rhs target =>
      simp only [execute, opcode]
      have compared (e : Expr) : mkBinary cond.toOp (t.readRegister lhs) (t.operand rhs) = .ok e →
          e.Within names := keeps.of_mkBinary (h.within.registers lhs) (h.operand rhs)
      refine Grants.bind (.orFault compared) ?_
      intro condition hc
      exact inherits_branch h hc _ _
  | call target =>
      simp only [execute, opcode]
      exact inherits_transfer (h.writeRegister .lr (within_word _)) (h.operand target)
  | ret =>
      simp only [execute, opcode]
      exact inherits_transfer h (h.within.registers .lr)
  | halt =>
      simp only [execute, opcode]
      exact .pure (inherits_single h)

/-- Where no hook stands, a step brings in no variables, and neither does it where it fails. -/
theorem inherits_step_unhooked {hooks : HookTable} (free : hooks.lookup? t.ip = none)
    (h : s.Inherits names t) (cap : Nat) :
    Always (step hooks cap t) fun r => ∀ x ∈ r.successors, s.Inherits names x.state := by
  cases decoded : t.memory.image.decode t.ip with
  | error e =>
      rw [step_undecoded free decoded]
      exact .after fun _ => .pure (inherits_single h.recordStep)
  | ok i =>
      rw [step_decoded free decoded]
      refine Always.after ?_
      intro _
      refine Always.bind (inherits_execute h.recordStep i cap) ?_
      intro result given
      cases result with
      | ok r =>
          simp only [pure_bind]
          exact .after fun _ => .pure (given r rfl)
      | error reason =>
          simp only [pure_bind]
          exact .after fun _ => .pure (inherits_single h.recordStep)

end Step

namespace Summary

variable {s t u : State} {hook : String} {n m : Nat} {states : List State}

theorem inherits_returnToCaller (h : s.Inherits names t) (returned : returnToCaller t = .ok u) :
    s.Inherits names u := by
  obtain ⟨address, rfl⟩ := returnToCaller_ok returned
  exact h.setIp address

theorem inherits_copyStream {fd : Nat} (h : s.Inherits names t) (copied : copyStream fd t = .ok u) :
    s.Inherits names u := by
  obtain ⟨buffer, -, copied⟩ := bind_ok copied
  obtain ⟨length, -, copied⟩ := bind_ok copied
  have stored {bytes : List Expr} {w : State} (each : ∀ b ∈ bytes, b.Within names)
      (hw : s.Inherits names w) (returned : returnToCaller (State.writeRegister
        { w with memory := w.memory.putAll buffer bytes } .r0
        (Expr.word (UInt64.ofNat bytes.length))) = .ok u) : s.Inherits names u :=
    inherits_returnToCaller ((hw.putAll buffer each).writeRegister .r0 (within_word _)) returned
  split at copied
  · obtain ⟨⟨bytes, w⟩, taken, returned⟩ := bind_ok copied
    obtain ⟨each, hw⟩ := h.readStream taken
    exact stored each hw returned
  · exact stored (List.forall_mem_nil _) h copied

theorem inherits_of_return {x : Except Error State} (each : ∀ t, x = .ok t → s.Inherits names t)
    (given : (do return [← x] : Fresh (List State)).run n = (.ok states, m)) :
    ∀ t ∈ states, s.Inherits names t := by
  obtain ⟨t, _, returned, same⟩ := run_bind_ok given
  cases same
  exact List.forall_mem_singleton.mpr (each t (run_lift_ok returned))

/-- A built-in summary brings in no variable but the one that it returns. -/
theorem inherits_apply {summary : Summary} (builtIn : ∀ run, summary ≠ .custom run)
    (result : summary = .returnSymbolic → resultName hook t ∈ names) (h : s.Inherits names t)
    (given : (summary.apply hook t).run n = (.ok states, m)) :
    ∀ u ∈ states, s.Inherits names u := by
  cases summary with
  | returnValue v =>
      have written := h.writeRegister .r0 (within_word v)
      exact inherits_of_return (fun u => inherits_returnToCaller written) given
  | returnSymbolic =>
      have known : (Expr.var (resultName hook t) 64).Within names := within_var.mpr (result rfl)
      have written := (h.writeRegister .r0 known).recordInput (resultName hook t) known
      exact inherits_of_return (fun u => inherits_returnToCaller written) given
  | abort =>
      cases given
      exact List.forall_mem_nil _
  | skip => exact inherits_of_return (fun u => inherits_returnToCaller h) given
  | readStream fd => exact inherits_of_return (fun u => inherits_copyStream h) given
  | custom run => exact absurd rfl (builtIn run)

/-- From sound states the code gives sound states on the same ground, and it brings in no variable
    with a reserved name. -/
def Spares (reserved : Set String) (run : State → Fresh (List State)) : Prop :=
  ∀ (s : State) (n m : Nat) (states : List State), s.Sound →
    (run s).run n = (.ok states, m) → ∀ t ∈ states, t.Sound ∧ s.SharesGround t ∧
      ∀ name ∈ reserved, t.Mentions name → s.Mentions name

end Summary

/-- No hook in the table brings in a variable with a reserved name. Those that a user wrote give sound
    states on the same ground. -/
structure HookTable.Spares (reserved : Set String) (hooks : HookTable) : Prop where
  result : ∀ (address : Word) (h : Hook), hooks.lookup? address = some h →
    h.summary = .returnSymbolic → ∀ s, Summary.resultName h.name s ∉ reserved
  custom : ∀ (address : Word) (h : Hook) (run : State → Fresh (List State)),
    hooks.lookup? address = some h → h.summary = .custom run → Summary.Spares reserved run

namespace HookTable.Spares

variable {reserved : Set String} {hooks : HookTable} {s t : State}

theorem empty (reserved : Set String) : HookTable.Spares reserved {} := by
  have none (address : Word) (h : Hook) : ({} : HookTable).lookup? address ≠ some h := by
    simp [lookup?]
  exact ⟨fun address h found => absurd found (none address h),
    fun address h _ found => absurd found (none address h)⟩

/-- A hook keeps to names that leave out reserved ones only. -/
theorem apply (spares : hooks.Spares reserved) (unreserved : ∀ name ∉ reserved, name ∈ names) {address : Word}
    {h : Hook} (found : hooks.lookup? address = some h) (ht : t.Sound)
    (inherits : s.Inherits names t) {n m : Nat} {states : List State}
    (given : (h.apply t).run n = (.ok states, m)) :
    ∀ u ∈ states, u.Sound ∧ s.Inherits names u := by
  intro u hu
  by_cases written : ∃ run, h.summary = .custom run
  · obtain ⟨run, custom⟩ := written
    rw [Hook.apply, custom] at given
    obtain ⟨sound, ground, old⟩ := spares.custom address h run found custom t n m states ht given u hu
    refine ⟨sound, ⟨ground.image.trans inherits.ground.image,
      ground.uninitialized.trans inherits.ground.uninitialized⟩, State.within_iff.mpr ?_⟩
    intro name mentioned
    by_cases free : name ∈ reserved
    · exact State.within_iff.mp inherits.within name (old name free mentioned)
    · exact unreserved name free
  · have builtIn : ∀ run, h.summary ≠ .custom run := fun run custom => written ⟨run, custom⟩
    have result (symbolic : h.summary = .returnSymbolic) : Summary.resultName h.name t ∈ names :=
      unreserved _ (spares.result address h found symbolic t)
    exact ⟨(Summary.descends_apply builtIn ht given u hu).sound,
      Summary.inherits_apply builtIn result inherits given u hu⟩

/-- A step keeps to names that leave out reserved ones only. -/
theorem step (spares : hooks.Spares reserved) (unreserved : ∀ name ∉ reserved, name ∈ names) (ht : t.Sound)
    (inherits : s.Inherits names t) (cap : Nat) :
    Always (Step.step hooks cap t) fun r =>
      ∀ x ∈ r.successors, x.state.Sound ∧ s.Inherits names x.state := by
  cases here : hooks.lookup? t.ip with
  | none =>
      intro u x hx
      exact ⟨(Step.follows_step_unhooked here ht cap u x hx).descends.sound,
        Step.inherits_step_unhooked here inherits cap u x hx⟩
  | some h =>
      have arrived := ht.recordStep.sound
      have given (n m : Nat) (states : List State)
          (ran : (h.apply t.recordStep).run n = (.ok states, m)) :
          ∀ u ∈ states, u.Sound ∧ s.Inherits names u :=
        spares.apply unreserved here arrived inherits.recordStep ran
      exact Step.always_step_hooked here ⟨arrived, inherits.recordStep⟩ given cap

end HookTable.Spares

end PathSearch
