import PathSearch.Proofs.Alike
import PathSearch.Proofs.Lineage
import PathSearch.Proofs.Sound
import PathSearch.Proofs.Step

/-! # No step faults

Every width that an instruction relies on is warranted by the soundness of the state and by what
decoding accepts. So whatever the solver answers, no operation of a step is refused, and a step of a
sound state never ends in a fault. Its successors are sound and ask for no less than the state did.
-/

namespace PathSearch

open PathSearch.Expr

namespace Session

variable {α β : Type}

/-- Whatever the session, the work gives a result with the property. -/
def Always (x : StateM Session α) (post : α → Prop) : Prop := ∀ u : Session, post (x.run u).1

namespace Always

variable {x : StateM Session α} {post : α → Prop}

theorem pure {a : α} (h : post a) : Always (pure a) post := fun _ => h

theorem bind {f : α → StateM Session β} {post' : β → Prop} (first : Always x post)
    (next : ∀ a, post a → Always (f a) post') : Always (x >>= f) post' :=
  fun u => next _ (first u) _

theorem mono {post' : α → Prop} (h : Always x post) (weaker : ∀ a, post a → post' a) :
    Always x post' := fun u => weaker _ (h u)

/-- Nothing need be known about the first part. -/
theorem after {f : α → StateM Session β} {post' : β → Prop} (next : ∀ a, Always (f a) post') :
    Always (x >>= f) post' := fun _ => next _ _

theorem foldlM {list : List α} {f : β → α → StateM Session β} {post : β → Prop} {b : β}
    (start : post b) (each : ∀ a ∈ list, ∀ b, post b → Always (f b a) post) :
    Always (list.foldlM f b) post := by
  induction list generalizing b with
  | nil => exact pure start
  | cons a rest ih =>
      rw [List.foldlM_cons]
      refine bind (each a (.head _) b start) fun c given => ?_
      exact ih given fun a ha => each a (.tail _ ha)

theorem mapM {list : List α} {f : α → StateM Session β} {post : β → Prop}
    (each : ∀ a ∈ list, Always (f a) post) : Always (list.mapM f) fun bs => ∀ b ∈ bs, post b := by
  induction list with
  | nil =>
      rw [List.mapM_nil]
      exact pure (List.forall_mem_nil _)
  | cons a rest ih =>
      rw [List.mapM_cons]
      refine bind (each a (.head _)) fun b head => ?_
      refine bind (ih fun a ha => each a (.tail _ ha)) fun bs tail => ?_
      exact pure (List.forall_mem_cons.mpr ⟨head, tail⟩)

/-- What is kept of a list was in it. -/
theorem filterM (list : List α) (f : α → StateM Session Bool) :
    Always (list.filterM f) fun kept => ∀ a ∈ kept, a ∈ list := by
  have from_either (list known : List α) :
      Always (list.filterAuxM f known) fun kept => ∀ a ∈ kept, a ∈ known ∨ a ∈ list := by
    induction list generalizing known with
    | nil => exact pure fun a ha => .inl ha
    | cons b rest ih =>
        refine after fun keep => (ih _).mono fun kept each a ha => ?_
        rcases each a ha with before | later
        · cases keep with
          | false => exact .inl before
          | true =>
              rcases List.mem_cons.mp before with rfl | known
              · exact .inr (.head _)
              · exact .inl known
        · exact .inr (.tail _ later)
  refine bind (from_either list []) fun kept each => pure fun a ha => ?_
  exact (each a (List.mem_reverse.mp ha)).resolve_left (List.not_mem_nil)

end Always

end Session

namespace Attempt

open Session

variable {α β : Type}

/-- Whatever the session, the work gives a result with the property or fails for another reason than a
    fault. -/
def Faultless (x : Attempt α) (post : α → Prop) : Prop :=
  Always x.run fun result =>
    (∀ a, result = .ok a → post a) ∧ ∀ text, result ≠ .error (.executionFault text)

namespace Faultless

variable {x : Attempt α} {post : α → Prop}

theorem pure {a : α} (h : post a) : Faultless (pure a) post :=
  Always.pure ⟨fun _ same => Except.ok.inj same ▸ h, nofun⟩

theorem throw {reason : Reason} (other : ∀ text, reason ≠ .executionFault text) :
    Faultless (throw reason) post :=
  Always.pure ⟨nofun, fun text same => other text (Except.error.inj same)⟩

theorem bind {f : α → Attempt β} {post' : β → Prop} (first : Faultless x post)
    (next : ∀ a, post a → Faultless (f a) post') : Faultless (x >>= f) post' := by
  unfold Faultless
  rw [ExceptT.run_bind]
  refine Always.bind first fun result given => ?_
  cases result with
  | ok a => exact next a (given.1 a rfl)
  | error reason => exact Always.pure ⟨nofun, fun text same => given.2 text (Except.error.inj same ▸ rfl)⟩

theorem mono {post' : α → Prop} (h : Faultless x post) (weaker : ∀ a, post a → post' a) :
    Faultless x post' :=
  Always.mono h fun _ given => ⟨fun a same => weaker a (given.1 a same), given.2⟩

theorem lift {x : StateM Session α} (h : Always x post) : Faultless (liftM x) post :=
  Always.bind h fun _ given => Always.pure ⟨fun _ same => Except.ok.inj same ▸ given, nofun⟩

theorem orFault {result : Except Error α} (passes : ∃ a, result = .ok a ∧ post a) :
    Faultless (Session.orFault result) post := by
  obtain ⟨a, rfl, given⟩ := passes
  exact pure given

theorem of_settles (h : Settles x post) : Faultless x post := by
  intro u
  obtain ⟨a, v, ran, -, given⟩ := h u
  change StateT.run x.run u = _ at ran
  rw [ran]
  exact ⟨fun _ same => Except.ok.inj same ▸ given, nofun⟩

theorem mapM {list : List α} {f : α → Attempt β} {post : β → Prop}
    (each : ∀ a ∈ list, Faultless (f a) post) : Faultless (list.mapM f) fun bs => ∀ b ∈ bs, post b := by
  induction list with
  | nil =>
      rw [List.mapM_nil]
      exact pure (List.forall_mem_nil _)
  | cons a rest ih =>
      rw [List.mapM_cons]
      refine bind (each a (.head _)) fun b head => ?_
      refine bind (ih fun a ha => each a (.tail _ ha)) fun bs tail => ?_
      exact pure (List.forall_mem_cons.mpr ⟨head, tail⟩)

end Faultless

end Attempt

theorem Reason.ofSolver?_ne_fault {e : SolverError} {reason : Reason}
    (h : Reason.ofSolver? e = some reason) (text : String) : reason ≠ .executionFault text := by
  rintro rfl
  cases e <;> simp [ofSolver?] at h

namespace State

open Attempt Session

variable {s t : State}

/-- A state that is pinned is sound. -/
theorem PinnedBy.descends {e c : Expr} {v : Word} (h : s.PinnedBy e v c t) (hs : s.Sound) :
    s.Descends t := by
  rw [h.same]
  have pushed := hs.push h.bit.1 h.pushed
  exact pushed.trans (pushed.sound.descends_of_proper
    ⟨⟨pushed.sound.registers, pushed.sound.memory, pushed.sound.constraints⟩, pushed.sound.streams⟩ rfl)

theorem faultless_resolveAddress (hs : s.Sound) {address : Expr} (ha : address.WellFormed) (cap : Nat) :
    Faultless (s.resolveAddress address cap) fun candidates => ∀ p ∈ candidates, s.Descends p.1 := by
  unfold resolveAddress
  split
  · exact .pure (List.forall_mem_singleton.mpr hs.descends)
  · refine .bind (.lift (fun _ => trivial)) fun answer (_ : True) => ?_
    cases answer with
    | error e =>
        simp only
        split
        · rename_i reason given
          exact .throw (Reason.ofSolver?_ne_fault given)
        · exact .pure (List.forall_mem_nil _)
    | ok values =>
        simp only
        split
        · exact .throw nofun
        · refine .mapM fun v _ => .bind (.of_settles (s.settles_pinnedBy ha v)) fun t pinned => ?_
          obtain ⟨c, pinned⟩ := pinned
          exact .pure (pinned.descends hs)

/-- Up to eight bytes can be read at an address that has several values. -/
theorem faultless_readResolved (hs : s.Sound) {address : Expr} (ha : address.WellFormed) {size : Nat}
    (pos : 0 < size) (few : size ≤ 8) (cap : Nat) :
    Faultless (s.readResolved address size cap) fun loaded =>
      ∀ q ∈ loaded, s.Descends q.1 ∧ q.2.WellFormed := by
  refine .bind (faultless_resolveAddress hs ha cap) fun candidates resolved => ?_
  refine .mapM fun p hp => ?_
  obtain ⟨v, read⟩ := Memory.read_total (resolved p hp).sound.memory p.2 pos few
  refine .bind (.orFault ⟨v, read, (resolved p hp).sound.toWellFormed.readMemory read⟩) fun v hv => ?_
  exact .pure ⟨resolved p hp, hv⟩

/-- Whole bytes can be written at an address that has several values. -/
theorem faultless_writeResolved (hs : s.Sound) {address value : Expr} (ha : address.WellFormed)
    (hv : value.WellFormed) (whole : value.width % 8 = 0) (cap : Nat) :
    Faultless (s.writeResolved address value cap) fun stored => ∀ t ∈ stored, s.Descends t := by
  refine .bind (faultless_resolveAddress hs ha cap) fun candidates resolved => ?_
  refine .mapM fun p hp => ?_
  obtain ⟨m, written⟩ := Memory.write_total p.1.memory p.2 hv whole
  have stored : p.1.writeMemory p.2 value = .ok { p.1 with memory := m } := ok_bind written _
  exact .orFault ⟨_, stored, (resolved p hp).trans ((resolved p hp).sound.writeMemory hv stored)⟩

end State

/-- An instruction was refused. -/
def Successor.Faulted (x : Successor) : Prop := ∃ t text, x = .errored t (.executionFault text)

namespace Step

open Attempt Session

variable {s : State} {cap : Nat}

/-- A successor that did not fault and descends from a state. -/
structure Follows (s : State) (x : Successor) : Prop where
  descends : s.Descends x.state
  faultless : ¬ x.Faulted

theorem Follows.active {t : State} (h : s.Descends t) : Follows s (.active t) :=
  ⟨h, by simp [Successor.Faulted]⟩

theorem follows_ofStates {states : List State} (each : ∀ t ∈ states, s.Descends t) :
    ∀ x ∈ (StepResult.ofStates states).successors, Follows s x := by
  intro x hx
  obtain ⟨t, ht, rfl⟩ := List.mem_map.mp hx
  exact .active (each t ht)

theorem follows_single {x : Successor} (h : Follows s x) :
    ∀ y ∈ (StepResult.single x).successors, Follows s y := List.forall_mem_singleton.mpr h

theorem always_ifFeasible (t : State) :
    Always (ifFeasible t) fun r => ∀ x ∈ r.successors, x.state = t ∧ ¬ x.Faulted := by
  refine .after fun answer => ?_
  cases answer with
  | ok b =>
      cases b with
      | true => exact .pure (List.forall_mem_singleton.mpr ⟨rfl, by simp [Successor.Faulted]⟩)
      | false => exact .pure (List.forall_mem_nil _)
  | error e =>
      simp only
      split
      · rename_i reason given
        refine .pure (List.forall_mem_singleton.mpr ⟨rfl, ?_⟩)
        rintro ⟨_, text, same⟩
        cases same
        exact Reason.ofSolver?_ne_fault given text rfl
      · exact .pure (List.forall_mem_nil _)

theorem faultless_transfer {u : State} (hu : s.Descends u) {target : Expr} (ht : target.WellFormed)
    (cap : Nat) : Faultless (transfer u target cap) fun r => ∀ x ∈ r.successors, Follows s x := by
  unfold transfer
  split
  · exact .pure (follows_single (.active (hu.trans (hu.sound.setIp _))))
  · refine .bind (State.faultless_resolveAddress hu.sound ht cap) fun candidates resolved => .pure ?_
    refine follows_ofStates fun t ht => ?_
    obtain ⟨p, hp, rfl⟩ := List.mem_map.mp ht
    exact hu.trans ((resolved p hp).trans ((resolved p hp).sound.setIp _))

theorem faultless_side (hs : s.Sound) {assumption : Expr} (bit : assumption.IsBit) (target : Word) :
    Faultless (side s assumption target) fun r => ∀ x ∈ r.successors, Follows s x := by
  refine .bind (.of_settles s.settles_fork) fun result forked => ?_
  obtain ⟨id, rfl⟩ := forked
  refine .bind (.orFault ⟨_, rfl, rfl⟩) fun fork same => ?_
  subst same
  obtain ⟨cs, pushed⟩ := s.constraints.push_total bit
  have added : (s.fork id).addConstraint assumption = .ok { s.fork id with constraints := cs } :=
    ok_bind pushed _
  have forked := (hs.fork id).trans ((hs.fork id).sound.addConstraint bit.1 added)
  refine .bind (.orFault ⟨_, added, forked⟩) fun t descends => ?_
  refine .lift ((always_ifFeasible _).mono fun r each x hx => ?_)
  obtain ⟨same, fine⟩ := each x hx
  exact ⟨same ▸ descends.trans (descends.sound.setIp target), fine⟩

theorem faultless_branch (hs : s.Sound) {condition : Expr} (bit : condition.IsBit)
    (taken next : Word) :
    Faultless (branch s condition taken next) fun r => ∀ x ∈ r.successors, Follows s x := by
  unfold branch
  split
  · exact .pure (follows_single (.active (hs.setIp _)))
  · obtain ⟨negated, built, opposite, -⟩ := lnot_bit bit
    refine .bind (.orFault ⟨negated, built, opposite⟩) fun negated opposite => ?_
    refine .bind (faultless_side hs bit taken) fun yes taking => ?_
    refine .bind (faultless_side hs opposite next) fun no passing => .pure ?_
    exact List.forall_mem_append.mpr ⟨taking, passing⟩

theorem faultless_assign (hs : s.Sound) (dst : Register) {value : Except Error Expr}
    (passes : ∃ e, value = .ok e ∧ e.WellFormed) (next : Word) :
    Faultless (assign s dst value next) fun r => ∀ x ∈ r.successors, Follows s x := by
  refine .bind (.orFault passes) fun e he => .pure (follows_single (.active ?_))
  exact (hs.writeRegister dst he).trans ((hs.writeRegister dst he).sound.setIp next)

/-- Binary operators take words. -/
theorem mkBinary_word {op : Op} (binary : op.isUnary = false) {l r : Expr}
    (hl : l.WellFormed ∧ l.width = 64) (hr : r.WellFormed ∧ r.width = 64) :
    ∃ e, mkBinary op l r = .ok e ∧ e.WellFormed := by
  have built := mkBinary_total binary (hl.2.trans hr.2.symm)
  exact ⟨_, built, (mkBinary_denotes hl.1 hr.1 built).wellFormed⟩

/-- Comparisons of words give bits. -/
theorem mkBinary_cmp_bit (op : CmpOp) {l r : Expr} (hl : l.WellFormed ∧ l.width = 64)
    (hr : r.WellFormed ∧ r.width = 64) : ∃ e, mkBinary op.toOp l r = .ok e ∧ e.IsBit := by
  have binary : op.toOp.isUnary = false := by cases op <;> rfl
  have built := mkBinary_total binary (hl.2.trans hr.2.symm)
  obtain ⟨he, width, -⟩ := mkBinary_cmp hl hr op built
  exact ⟨_, built, he, width⟩

theorem mkUnary_word {op : Op} (unary : op.isUnary = true) {x : Expr} (hx : x.WellFormed) :
    ∃ e, mkUnary op x = .ok e ∧ e.WellFormed :=
  have built := mkUnary_total unary x
  ⟨_, built, (mkUnary_denotes hx built).wellFormed⟩

theorem effectiveAddress_total (hs : s.WellFormed) (base : Operand) (offset : Int32) :
    ∃ e, s.effectiveAddress base offset = .ok e ∧ e.WellFormed :=
  mkBinary_word rfl (hs.operand base) ⟨State.word_wellFormed _, rfl⟩

/-- The low bytes of a word can be taken, and are whole bytes. -/
theorem stored_total (hs : s.WellFormed) (src : Operand) {size : UInt8}
    (valid : size ∈ Opcode.accessSizes) :
    ∃ v, (if size < 8 then mkExtract (size.toNat * 8 - 1) 0 (s.operand src)
      else .ok (s.operand src)) = .ok v ∧ v.WellFormed ∧ v.width % 8 = 0 := by
  obtain ⟨hx, width⟩ := hs.operand src
  obtain ⟨pos, few⟩ := Opcode.accessSize_bounds valid
  obtain ⟨v, built⟩ : ∃ v, (if size < 8 then mkExtract (size.toNat * 8 - 1) 0 (s.operand src)
      else .ok (s.operand src)) = .ok v := by
    split
    · exact mkExtract_total hx (Nat.zero_le _) (by omega)
    · exact ⟨_, rfl⟩
  obtain ⟨hv, widthV, -⟩ := stored_low hs valid built
  exact ⟨v, built, hv, by omega⟩

theorem faultless_load (hs : s.Sound) {i : Instruction} {dst : Register} {base : Operand}
    {offset : Int32} {size : UInt8} (opcode : i.opcode = .load dst base offset size)
    (valid : size ∈ Opcode.accessSizes) :
    Faultless (execute s i cap) fun r => ∀ x ∈ r.successors, Follows s x := by
  simp only [execute, opcode]
  obtain ⟨pos, few⟩ := Opcode.accessSize_bounds valid
  refine .bind (.orFault (effectiveAddress_total hs.toWellFormed base offset)) fun address ha => ?_
  refine .bind (State.faultless_readResolved hs ha pos few cap) fun loaded each => .pure ?_
  refine follows_ofStates fun t ht => ?_
  obtain ⟨q, hq, rfl⟩ := List.mem_map.mp ht
  obtain ⟨descends, hv⟩ := each q hq
  have written := descends.trans (descends.sound.writeRegister dst hv)
  exact written.trans (written.sound.setIp _)

theorem faultless_store (hs : s.Sound) {i : Instruction} {src base : Operand} {offset : Int32}
    {size : UInt8} (opcode : i.opcode = .store src base offset size)
    (valid : size ∈ Opcode.accessSizes) :
    Faultless (execute s i cap) fun r => ∀ x ∈ r.successors, Follows s x := by
  simp only [execute, opcode]
  refine .bind (.orFault (effectiveAddress_total hs.toWellFormed base offset)) fun address ha => ?_
  refine .bind (.orFault (stored_total hs.toWellFormed src valid)) fun v low => ?_
  obtain ⟨hv, whole⟩ := low
  refine .bind (State.faultless_writeResolved hs ha hv whole cap) fun stored each => .pure ?_
  refine follows_ofStates fun t ht => ?_
  obtain ⟨u, hu, rfl⟩ := List.mem_map.mp ht
  exact (each u hu).trans ((each u hu).sound.setIp _)

/-- No instruction is refused. -/
theorem faultless_execute (hs : s.Sound) {i : Instruction}
    (sizes : ∀ n, i.opcode.accessSize? = some n → n ∈ Opcode.accessSizes) (cap : Nat) :
    Faultless (execute s i cap) fun r => ∀ x ∈ r.successors, Follows s x := by
  cases opcode : i.opcode with
  | nop =>
      simp only [execute, opcode]
      exact .pure (follows_single (.active (hs.setIp _)))
  | mov dst src =>
      simp only [execute, opcode]
      exact faultless_assign hs dst ⟨_, rfl, (hs.operand src).1⟩ _
  | alu op dst lhs rhs =>
      simp only [execute, opcode]
      have binary : op.toOp.isUnary = false := by cases op <;> rfl
      exact faultless_assign hs dst (mkBinary_word binary (hs.registers lhs) (hs.operand rhs)) _
  | not dst src | neg dst src =>
      simp only [execute, opcode]
      exact faultless_assign hs dst (mkUnary_word rfl (hs.registers src).1) _
  | set cond dst lhs rhs =>
      simp only [execute, opcode]
      obtain ⟨e, built, he, -⟩ := mkBinary_cmp_bit cond (hs.registers lhs) (hs.operand rhs)
      exact faultless_assign hs dst ⟨e, built, he⟩ _
  | load dst base offset size =>
      exact faultless_load hs opcode (sizes size (by rw [opcode]; rfl))
  | store src base offset size =>
      exact faultless_store hs opcode (sizes size (by rw [opcode]; rfl))
  | jump target =>
      simp only [execute, opcode]
      exact faultless_transfer hs.descends (hs.operand target).1 cap
  | branch cond lhs rhs target =>
      simp only [execute, opcode]
      have compared := mkBinary_cmp_bit cond (hs.registers lhs) (hs.operand rhs)
      exact .bind (.orFault compared) fun condition bit => faultless_branch hs bit _ _
  | call target =>
      simp only [execute, opcode]
      exact faultless_transfer (hs.writeRegister .lr (State.word_wellFormed _)) (hs.operand target).1 cap
  | ret =>
      simp only [execute, opcode]
      exact faultless_transfer hs.descends (hs.registers .lr).1 cap
  | halt =>
      simp only [execute, opcode]
      exact .pure (follows_single ⟨hs.descends, by simp [Successor.Faulted]⟩)

/-- What is kept when a step fails. -/
theorem follows_errored (hs : s.Sound) {reason : Reason}
    (other : ∀ text, reason ≠ .executionFault text) : Follows s (.errored s.recordStep reason) where
  descends := hs.recordStep
  faultless := by
    rintro ⟨t, text, same⟩
    cases same
    exact other text rfl

theorem ofDecode_ne_fault (e : DecodeError) (text : String) :
    Reason.ofDecode e ≠ .executionFault text := by
  unfold Reason.ofDecode
  split <;> exact nofun

theorem Follows.of_recordStep {x : Successor} (hs : s.Sound) (h : Follows s.recordStep x) :
    Follows s x := ⟨hs.recordStep.trans h.descends, h.faultless⟩

/-- Where no hook stands, a step gives states that follow. -/
theorem follows_step_unhooked {hooks : HookTable} (free : hooks.lookup? s.ip = none) (hs : s.Sound)
    (cap : Nat) : Always (step hooks cap s) fun r => ∀ x ∈ r.successors, Follows s x := by
  cases decoded : s.memory.image.decode s.ip with
  | error e =>
      rw [step_undecoded free decoded]
      exact .after fun _ => .pure (follows_single (follows_errored hs (ofDecode_ne_fault e)))
  | ok i =>
      have sizes : ∀ n, i.opcode.accessSize? = some n → n ∈ Opcode.accessSizes := fun n access =>
        Program.decode_accessSize decoded access
      rw [step_decoded free decoded]
      refine .after fun _ => .bind (faultless_execute hs.recordStep.sound sizes cap) fun result given => ?_
      cases result with
      | ok r =>
          simp only [pure_bind]
          exact .after fun _ => .pure fun x hx => (given.1 r rfl x hx).of_recordStep hs
      | error reason =>
          have other (text : String) : reason ≠ .executionFault text := fun same => given.2 text (same ▸ rfl)
          simp only [pure_bind]
          exact .after fun _ => .pure (follows_single (follows_errored hs other))

/-- A hook may fail, which is no fault of an instruction. -/
theorem not_faulted_applyHook (h : Hook) (s : State) :
    Always (applyHook h s) fun r => ∀ x ∈ r.successors, ¬ x.Faulted := by
  refine .after fun _ => .after fun result => ?_
  cases result with
  | error e =>
      simp only [pure_bind]
      refine .after fun _ => .pure (List.forall_mem_singleton.mpr ?_)
      simp [Successor.Faulted]
  | ok states =>
      refine .bind (.foldlM (List.forall_mem_nil _) fun t _ r before => ?_) fun r each =>
        .after fun _ => .pure each
      split
      · refine .pure (List.forall_mem_append.mpr ⟨before, List.forall_mem_singleton.mpr ?_⟩)
        simp [Successor.Faulted]
      · refine .bind (always_ifFeasible t) fun more each => .pure ?_
        exact List.forall_mem_append.mpr ⟨before, fun x hx => (each x hx).2⟩

/-- A step of a sound state never faults, whatever hooks there are. -/
theorem not_faulted_step (hooks : HookTable) (cap : Nat) (hs : s.Sound) :
    Always (step hooks cap s) fun r => ∀ x ∈ r.successors, ¬ x.Faulted := by
  cases found : hooks.lookup? s.ip with
  | some h =>
      rw [step_hooked found]
      exact not_faulted_applyHook h s.recordStep
  | none => exact (follows_step_unhooked found hs cap).mono fun r each x hx => (each x hx).faultless

/-- Where a hook stands, a step gives states of the hook, or the state that arrived. -/
theorem always_step_hooked {hooks : HookTable} {h : Hook} (found : hooks.lookup? s.ip = some h)
    {P : State → Prop} (arrived : P s.recordStep)
    (given : ∀ (n m : Nat) (states : List State), (h.apply s.recordStep).run n = (.ok states, m) →
      ∀ t ∈ states, P t) (cap : Nat) :
    Always (step hooks cap s) fun r => ∀ x ∈ r.successors, P x.state := by
  intro u x hx
  have effect := effect_step hooks cap s u
  generalize ((step hooks cap s).run u).1 = r at effect hx
  generalize ((step hooks cap s).run u).2 = v at effect
  cases effect with
  | undecoded free | executed free => cases found.symm.trans free
  | refused _ _ kept =>
      rw [kept] at hx
      exact List.mem_singleton.mp hx ▸ arrived
  | hooked here ran kept =>
      obtain rfl := Option.some.inj (here.symm.trans found)
      exact given _ _ _ ran _ (kept.subset (List.mem_map_of_mem hx))

/-- Where hooks give states that descend from the one that arrives, so does a step. -/
theorem descends_step {hooks : HookTable} (gives : hooks.GivesDescendants) (cap : Nat) (hs : s.Sound) :
    Always (step hooks cap s) fun r => ∀ x ∈ r.successors, s.Descends x.state := by
  cases here : hooks.lookup? s.ip with
  | none => exact (follows_step_unhooked here hs cap).mono fun r each x hx => (each x hx).descends
  | some h =>
      have arrived := hs.recordStep
      exact always_step_hooked here arrived
        (fun n m states ran t ht => arrived.trans (gives.apply here arrived.sound ran t ht)) cap

end Step

end PathSearch
