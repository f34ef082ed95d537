import Mathlib.Data.Multiset.MapFold
import PathSearch.Proofs.Alike
import PathSearch.Proofs.Lineage
import PathSearch.Proofs.Search.Feasible

/-! # Steps do not see identities

Where hooks do not look at identities, twins step alike, whatever has happened before in their
sessions: a step gives the same successors, up to identities and order. So what follows a state is
settled by the state alone.
-/

namespace PathSearch

open PathSearch.Expr

namespace State

variable {s t : State}

theorem Twin.cases (h : s.Twin t) : ∃ id parent, t = { s with id, parent } := ⟨_, _, h.eq⟩

theorem Twin.recordStep (h : s.Twin t) : s.recordStep.Twin t.recordStep :=
  congrArg State.recordStep h

theorem Twin.setIp (h : s.Twin t) (address : Word) : (s.setIp address).Twin (t.setIp address) :=
  congrArg (State.setIp · address) h

theorem Twin.writeRegister (h : s.Twin t) (r : Register) (v : Expr) :
    (s.writeRegister r v).Twin (t.writeRegister r v) :=
  congrArg (State.writeRegister · r v) h

theorem Twin.fork (h : s.Twin t) (i j : Nat) : (s.fork i).Twin (t.fork j) := h

theorem Twin.ip (h : s.Twin t) : t.ip = s.ip := (congrArg State.ip h).symm

theorem Twin.memory (h : s.Twin t) : t.memory = s.memory := (congrArg State.memory h).symm

theorem Twin.readRegister (h : s.Twin t) (r : Register) : t.readRegister r = s.readRegister r :=
  (congrArg (State.readRegister · r) h).symm

theorem Twin.operand (h : s.Twin t) (o : Operand) : t.operand o = s.operand o := by
  cases o with
  | reg r => exact h.readRegister r
  | imm v => rfl

theorem Twin.effectiveAddress (h : s.Twin t) (base : Operand) (offset : Int32) :
    t.effectiveAddress base offset = s.effectiveAddress base offset := by
  unfold State.effectiveAddress
  rw [h.operand]

theorem Twin.concreteRegister (h : s.Twin t) (r : Register) :
    t.concreteRegister r = s.concreteRegister r := by
  unfold State.concreteRegister
  rw [h.readRegister]

theorem Twin.proper (h : s.Twin t) (hs : s.Proper) : t.Proper := by
  obtain ⟨id, parent, rfl⟩ := h.cases
  exact ⟨⟨hs.registers, hs.memory, hs.constraints⟩, hs.streams⟩

/-- Where identities do not matter to what is made of lists, it stays the same up to order. -/
theorem perm_map_anonymous {α : Type} {key : α → α} {f : α → State}
    (commutes : ∀ a, (f a).anonymous = f (key a)) {xs ys : List α}
    (shuffled : (xs.map key).Perm (ys.map key)) :
    ((xs.map f).map anonymous).Perm ((ys.map f).map anonymous) := by
  have through : ∀ list : List α, (list.map f).map anonymous = (list.map key).map f := by
    intro list
    rw [List.map_map, List.map_map]
    exact List.map_congr_left fun a _ => commutes a
  rw [through, through]
  exact shuffled.map f

end State

def Successor.anonymous : Successor → Successor
  | .active s => .active s.anonymous
  | .exited s => .exited s.anonymous
  | .errored s reason => .errored s.anonymous reason

namespace StepResult

/-- The successors without their identities, in no order. -/
def shape (r : StepResult) : Multiset Successor :=
  (r.successors.map Successor.anonymous : List Successor)

/-- Results with the same successors, up to identities and order. -/
def SameShape (r r' : StepResult) : Prop := r.shape = r'.shape

theorem SameShape.single {x y : Successor} (same : x.anonymous = y.anonymous) :
    SameShape (.single x) (.single y) := by
  unfold SameShape shape StepResult.single
  rw [List.map_singleton, List.map_singleton, same]

theorem SameShape.active {s t : State} (twin : s.Twin t) :
    SameShape (.single (.active s)) (.single (.active t)) := .single (congrArg Successor.active twin)

theorem SameShape.errored {s t : State} (twin : s.Twin t) (reason : Reason) :
    SameShape (.single (.errored s reason)) (.single (.errored t reason)) :=
  .single (congrArg (Successor.errored · reason) twin)

theorem SameShape.append {a b a' b' : StepResult} (first : SameShape a a') (second : SameShape b b') :
    SameShape (a.append b) (a'.append b') := by
  unfold SameShape shape StepResult.append at *
  rw [List.map_append, List.map_append, ← Multiset.coe_add, ← Multiset.coe_add, first, second]

theorem SameShape.ofStates {ts us : List State}
    (shuffled : (ts.map State.anonymous).Perm (us.map State.anonymous)) :
    SameShape (.ofStates ts) (.ofStates us) := by
  have through : ∀ list : List State, (list.map Successor.active).map Successor.anonymous =
      (list.map State.anonymous).map Successor.active := by
    intro list
    rw [List.map_map, List.map_map]
    exact List.map_congr_left fun t _ => rfl
  unfold SameShape shape StepResult.ofStates
  rw [through, through]
  exact Multiset.coe_eq_coe.mpr (shuffled.map _)

end StepResult

namespace Step

open Attempt Session State StepResult

variable {s t : State} {K : Constraints → Prop} {cap : Nat}

theorem alike_fork (s t : State) :
    Session.Alike K (fresh s.forkFresh) (fresh t.forkFresh) fun result result' =>
      ∃ i j, result = .ok (s.fork i) ∧ result' = .ok (t.fork j) :=
  .fresh fun n m => ⟨n, m, rfl, rfl⟩

theorem alike_ifFeasible (twin : s.Twin t) (about : K s.constraints)
    (hcs : s.constraints.WellFormed) : Session.Alike K (ifFeasible s) (ifFeasible t) SameShape := by
  unfold ifFeasible
  rw [twin.constraints]
  refine .bind (.isSatisfiable about hcs) fun answer answer' same => ?_
  subst same
  cases answer with
  | ok b =>
      cases b with
      | true => exact .pure (.active twin)
      | false => exact .pure rfl
  | error e =>
      simp only
      split
      · exact .pure (.errored twin _)
      · exact .pure rfl

theorem alike_side (twin : s.Twin t) (hs : s.WellFormed) {assumption : Expr}
    (ha : assumption.WellFormed) (about : ∀ cs, s.constraints.push assumption = .ok cs → K cs)
    (target : Word) :
    Attempt.Alike K (side s assumption target) (side t assumption target) SameShape := by
  refine .bind (.lift (alike_fork s t)) fun result result' forked => ?_
  obtain ⟨i, j, rfl, rfl⟩ := forked
  have forks : Matches (fun u v => u = s.fork i ∧ v = t.fork j)
      (.ok (s.fork i) : Except Error State) (.ok (t.fork j)) := .ok ⟨rfl, rfl⟩
  refine .bind (.orFault forks) fun u v same => ?_
  obtain ⟨rfl, rfl⟩ := same
  refine .bind (.orFault ((twin.fork i j).addConstraint assumption)) fun u v added => ?_
  obtain ⟨added, twins⟩ := added
  have narrows := narrows_addConstraint hs ha added
  have asked : K u.constraints := by
    obtain ⟨cs, pushed, result⟩ := bind_ok added
    cases result
    exact about cs pushed
  exact .lift (alike_ifFeasible (twins.setIp target) asked narrows.constraints)

theorem alike_branch (twin : s.Twin t) (hs : s.WellFormed) {condition : Expr}
    (hc : condition.WellFormed)
    (about : ∀ c cs, c = condition ∨ condition.lnot = .ok c → s.constraints.push c = .ok cs → K cs)
    (taken next : Word) :
    Attempt.Alike K (branch s condition taken next) (branch t condition taken next) SameShape := by
  unfold branch
  split
  · exact .pure (.active (twin.setIp _))
  · refine .bind (.orFault (.refl _)) fun negated _ built => ?_
    obtain ⟨built, rfl⟩ := built
    have hn := (lnot_denotes hc built).wellFormed
    refine .bind (alike_side twin hs hc (fun cs => about _ cs (.inl rfl)) taken) fun _ _ yes => ?_
    refine .bind (alike_side twin hs hn (fun cs => about _ cs (.inr built)) next) fun _ _ no => ?_
    exact .pure (yes.append no)

theorem alike_transfer (twin : s.Twin t) (about : K s.constraints) (hcs : s.constraints.WellFormed)
    {target : Expr} (ht : target.WellFormed) (below : Countable cap) :
    Attempt.Alike K (transfer s target cap) (transfer t target cap) SameShape := by
  unfold transfer
  split
  · exact .pure (.active (twin.setIp _))
  · refine .bind (alike_resolveAddress twin about hcs ht below) fun ps qs resolved => ?_
    refine .pure (.ofStates (perm_map_anonymous ?_ resolved.1))
    exact fun _ => rfl

theorem alike_assign (twin : s.Twin t) (dst : Register) (value : Except Error Expr) (next : Word) :
    Attempt.Alike K (assign s dst value next) (assign t dst value next) SameShape := by
  refine .bind (.orFault (.refl value)) fun v _ built => ?_
  obtain ⟨-, rfl⟩ := built
  exact .pure (.active ((twin.writeRegister dst v).setIp next))

theorem alike_execute (twin : s.Twin t) (hs : s.WellFormed) {i : Instruction}
    (about : ∀ cs, Asks s i cs → K cs)
    (sizes : ∀ n, i.opcode.accessSize? = some n → n ∈ Opcode.accessSizes) (below : Countable cap) :
    Attempt.Alike K (execute s i cap) (execute t i cap) SameShape := by
  have own := about _ .own
  cases opcode : i.opcode with
  | nop =>
      simp only [execute, opcode]
      exact .pure (.active (twin.setIp _))
  | mov | alu | not | neg | set =>
      simp only [execute, opcode, twin.operand, twin.readRegister]
      exact alike_assign twin _ _ _
  | load dst base offset size =>
      simp only [execute, opcode, twin.effectiveAddress]
      refine .bind (.orFault (.refl _)) fun address _ built => ?_
      obtain ⟨built, rfl⟩ := built
      obtain ⟨pos, few⟩ := Opcode.accessSize_bounds (sizes size (by rw [opcode]; rfl))
      have ha := (effectiveAddress_ok hs built).1
      refine .bind (alike_readResolved twin own hs ha pos few below) fun ps qs loaded => ?_
      refine .pure (.ofStates (perm_map_anonymous ?_ loaded))
      exact fun _ => rfl
  | store src base offset size =>
      simp only [execute, opcode, twin.effectiveAddress, twin.operand]
      refine .bind (.orFault (.refl _)) fun address _ built => ?_
      obtain ⟨built, rfl⟩ := built
      have ha := (effectiveAddress_ok hs built).1
      refine .bind (.orFault (.refl _)) fun v _ low => ?_
      obtain ⟨low, rfl⟩ := low
      obtain ⟨hv, width, -⟩ := stored_low hs (sizes size (by rw [opcode]; rfl)) low
      have whole : v.width % 8 = 0 := by omega
      refine .bind (alike_writeResolved twin own hs.constraints ha hv whole below) fun ts us stored => ?_
      refine .pure (.ofStates (perm_map_anonymous ?_ stored))
      exact fun _ => rfl
  | jump target =>
      simp only [execute, opcode, twin.operand]
      exact alike_transfer twin own hs.constraints (hs.operand target).1 below
  | branch cond lhs rhs target =>
      simp only [execute, opcode, twin.operand, twin.readRegister]
      refine .bind (.orFault (.refl _)) fun condition _ built => ?_
      obtain ⟨built, rfl⟩ := built
      have hc := (mkBinary_cmp (hs.registers lhs) (hs.operand rhs) cond built).1
      exact alike_branch twin hs hc (fun c cs sides pushed => about cs (.side opcode built sides pushed))
        target _
  | call target =>
      simp only [execute, opcode, twin.operand]
      exact alike_transfer (twin.writeRegister .lr _) own hs.constraints (hs.operand target).1 below
  | ret =>
      simp only [execute, opcode, twin.readRegister]
      exact alike_transfer twin own hs.constraints (hs.registers .lr).1 below
  | halt =>
      simp only [execute, opcode]
      exact .pure (.single (congrArg Successor.exited twin))

end Step

namespace Summary

open State

variable {s t : State} {n m : Nat}

/-- Hooks give twins for twins, or fail for one reason. -/
abbrev GivesTwins (result result' : Except Error (List State)) : Prop :=
  Matches (List.Forall₂ Twin) result result'

/-- The code does not look at identities. -/
def IgnoresIds (run : State → Fresh (List State)) : Prop :=
  ∀ (s t : State) (n m : Nat), s.Twin t → GivesTwins ((run s).run n).1 ((run t).run m).1

theorem twins_returnToCaller (twin : s.Twin t) :
    Matches Twin (returnToCaller s) (returnToCaller t) := by
  unfold returnToCaller
  rw [twin.concreteRegister]
  refine (Matches.refl _).bind fun address _ same => ?_
  obtain ⟨-, rfl⟩ := same
  exact .ok (twin.setIp address)

theorem twins_readStream (twin : s.Twin t) (fd length : Nat) :
    Matches (fun p q => p.1 = q.1 ∧ p.2.Twin q.2) (s.readStream fd length)
      (t.readStream fd length) := by
  obtain ⟨id, parent, rfl⟩ := twin.cases
  unfold State.readStream
  simp only
  split
  · exact .ok ⟨rfl, rfl⟩
  · exact .error _

theorem twins_copyStream (twin : s.Twin t) (fd : Nat) :
    Matches Twin (copyStream fd s) (copyStream fd t) := by
  have streams : t.streams = s.streams := (congrArg State.streams twin).symm
  unfold copyStream
  rw [twin.concreteRegister, twin.concreteRegister, streams]
  refine (Matches.refl _).bind fun buffer _ same => ?_
  obtain ⟨-, rfl⟩ := same
  refine (Matches.refl _).bind fun length _ same => ?_
  obtain ⟨-, rfl⟩ := same
  have stored {bytes : List Expr} {u v : State} (twins : u.Twin v) :
      State.Twin { u with memory := u.memory.putAll buffer bytes }
        { v with memory := v.memory.putAll buffer bytes } := by
    obtain ⟨id, parent, rfl⟩ := twins.cases
    rfl
  split
  · refine (twins_readStream twin fd _).bind fun p q read => ?_
    obtain ⟨bytes, u⟩ := p
    obtain ⟨_, v⟩ := q
    obtain ⟨rfl, twins⟩ := read
    exact twins_returnToCaller ((stored twins).writeRegister .r0 _)
  · exact twins_returnToCaller ((stored twin).writeRegister .r0 _)

theorem twins_return {x y : Except Error State} (h : Matches Twin x y) :
    GivesTwins ((do return [← x] : Fresh (List State)).run n).1
      ((do return [← y] : Fresh (List State)).run m).1 := by
  cases h with
  | ok twin => exact .ok (.cons twin .nil)
  | error e => exact .error e

theorem twins_apply {hook : String} {summary : Summary} (twin : s.Twin t)
    (custom : ∀ run, summary = .custom run → IgnoresIds run) :
    GivesTwins ((summary.apply hook s).run n).1 ((summary.apply hook t).run m).1 := by
  cases summary with
  | returnValue v => exact twins_return (twins_returnToCaller (twin.writeRegister .r0 _))
  | returnSymbolic =>
      obtain ⟨id, parent, rfl⟩ := twin.cases
      exact twins_return (twins_returnToCaller rfl)
  | abort => exact .ok .nil
  | skip => exact twins_return (twins_returnToCaller twin)
  | readStream fd => exact twins_return (twins_copyStream twin fd)
  | custom run => exact custom run rfl s t n m twin

end Summary

/-- No summary in the table that a user wrote looks at identities. -/
def HookTable.IgnoresIds (hooks : HookTable) : Prop :=
  ∀ (address : Word) (h : Hook) (run : State → Fresh (List State)),
    hooks.lookup? address = some h → h.summary = .custom run → Summary.IgnoresIds run

namespace Step

open Attempt Session State StepResult

variable {s t : State} {K : Constraints → Prop} {cap : Nat} {hooks : HookTable}

theorem alike_count (f g : StepStats → StepStats) :
    Session.Alike K (count f) (count g) fun _ _ => True :=
  fun _ _ hu hv => ⟨trivial, hu, hv⟩

theorem alike_feasibleOf (arrived : Digest) {states states' : List State}
    (twins : List.Forall₂ Twin states states') (proper : ∀ u ∈ states, u.Proper)
    (about : ∀ u ∈ states, K u.constraints) :
    Session.Alike K (feasibleOf arrived states) (feasibleOf arrived states') SameShape := by
  have each : ∀ u ∈ states, u.Proper ∧ K u.constraints := fun u hu => ⟨proper u hu, about u hu⟩
  have pairs := (List.forall₂_and_left states states').mpr ⟨each, twins⟩
  refine .foldlM pairs (fun u v given r r' before => ?_) rfl
  obtain ⟨⟨hu, asked⟩, twin⟩ := given
  rw [twin.constraints]
  split
  · exact .pure (before.append (.active twin))
  · exact .bind (alike_ifFeasible twin asked hu.constraints) fun _ _ more => .pure (before.append more)

theorem alike_applyHook {h : Hook} (twin : s.Twin t)
    (given : ∀ n m, Summary.GivesTwins ((h.apply s).run n).1 ((h.apply t).run m).1)
    (proper : ∀ {n m : Nat} {states : List State}, (h.apply s).run n = (.ok states, m) →
      ∀ u ∈ states, u.Proper)
    (about : ∀ {n m : Nat} {states : List State}, (h.apply s).run n = (.ok states, m) →
      ∀ u ∈ states, K u.constraints) :
    Session.Alike K (applyHook h s) (applyHook h t) SameShape := by
  have applied : Session.Alike K (fresh (h.apply s)) (fresh (h.apply t)) fun result result' =>
      Summary.GivesTwins result result' ∧ ∃ n, ((h.apply s).run n).1 = result :=
    .fresh fun n m => ⟨given n m, n, rfl⟩
  unfold applyHook
  rw [twin.constraints]
  refine .bind (alike_count _ _) fun _ _ _ => .bind applied fun result result' both => ?_
  obtain ⟨twins, n, ran⟩ := both
  cases twins with
  | ok twins =>
      have ran : (h.apply s).run n = (.ok _, ((h.apply s).run n).2) := Prod.ext ran rfl
      refine .bind (alike_feasibleOf _ twins (proper ran) (about ran)) fun r r' same => ?_
      exact .bind (alike_count _ _) fun _ _ _ => .pure same
  | error e =>
      simp only [pure_bind]
      exact .bind (alike_count _ _) fun _ _ _ => .pure (.errored twin _)

theorem alike_step (twin : s.Twin t) (hs : s.Proper) (proper : hooks.Proper)
    (ignores : hooks.IgnoresIds) (below : Countable cap) (about : ∀ cs, Weighs hooks s cs → K cs) :
    Session.Alike K (step hooks cap s) (step hooks cap t) SameShape := by
  have place : t.ip = s.ip := twin.ip
  have image : t.memory.image = s.memory.image := congrArg Memory.image twin.memory
  cases here : hooks.lookup? s.ip with
  | some h =>
      rw [step_hooked here, step_hooked (place ▸ here)]
      refine alike_applyHook twin.recordStep (fun n m => ?_) (proper.apply here hs.recordStep)
        fun ran u hu => about _ (.given here ran hu)
      exact Summary.twins_apply twin.recordStep fun run custom => ignores s.ip h run here custom
  | none => cases decoded : s.memory.image.decode s.ip with
    | error e =>
        rw [step_undecoded here decoded, step_undecoded (place ▸ here) (place ▸ image ▸ decoded)]
        exact .bind (alike_count _ _) fun _ _ _ => .pure (.errored twin.recordStep _)
    | ok i =>
        rw [step_decoded here decoded, step_decoded (place ▸ here) (place ▸ image ▸ decoded)]
        have asked (cs : Constraints) (asks : Asks s.recordStep i cs) : K cs :=
          about cs (.asked here ⟨i, decoded, asks.of_recordStep⟩)
        have executed := alike_execute twin.recordStep hs.recordStep.toWellFormed asked
          (fun n access => Program.decode_accessSize decoded access) below
        refine .bind (alike_count _ _) fun _ _ _ => .bind executed fun result result' given => ?_
        cases given with
        | ok same =>
            simp only [pure_bind]
            exact .bind (alike_count _ _) fun _ _ _ => .pure same
        | error reason =>
            simp only [pure_bind]
            exact .bind (alike_count _ _) fun _ _ _ => .pure (.errored twin.recordStep reason)

/-- A session in which nothing has happened. -/
noncomputable def reference : Session := { solver := Solver.new .perfect { cacheResults := false } }

/-- What follows a state, without identities. -/
noncomputable def follow (hooks : HookTable) (cap : Nat) (s : State) : Multiset Successor :=
  ((step hooks cap s).run reference).1.shape

/-- Whatever has happened in a session, a step gives what follows the state. -/
theorem shape_step (hs : s.Proper) (proper : hooks.Proper) (ignores : hooks.IgnoresIds)
    (below : Countable cap) (about : ∀ cs, Weighs hooks s cs → K cs) {u : Session}
    (decisive : u.solver.Decisive K) :
    ((step hooks cap s).run u).1.shape = follow hooks cap s.anonymous ∧
      ((step hooks cap s).run u).2.solver.Decisive K := by
  obtain ⟨same, kept, -⟩ := alike_step s.twin_anonymous hs proper ignores below about u reference
    decisive (Solver.decisive_new _)
  exact ⟨same, kept⟩

/-- What goes on after a step of a proper state is proper. -/
theorem proper_step (cap : Nat) (hs : s.Proper) (proper : hooks.Proper)
    (about : ∀ cs, Weighs hooks s cs → K cs) {u : Session} (exact : u.solver.ExactOn K) :
    ∀ x ∈ ((step hooks cap s).run u).1.successors, x.isErrored = false → x.state.Proper := by
  intro x hx fine
  cases here : hooks.lookup? s.ip with
  | some h =>
      have effect := effect_step hooks cap s u
      generalize ((step hooks cap s).run u).1 = r at effect hx
      generalize ((step hooks cap s).run u).2 = v at effect
      cases effect with
      | undecoded free | executed free => cases here.symm.trans free
      | refused _ _ kept =>
          rw [kept] at hx
          cases List.mem_singleton.mp hx
          cases fine
      | hooked found ran kept =>
          exact proper.apply found hs.recordStep ran _ (kept.subset (List.mem_map_of_mem hx))
  | none =>
      obtain ⟨outcome, -⟩ := ensures_unhooked here hs.toWellFormed
        (fun cs asks => about cs (.asked here asks)) u exact
      rcases outcome with ⟨reason, failed⟩ | ⟨i, -, executed⟩
      · rw [failed] at hx
        cases List.mem_singleton.mp hx
        cases fine
      · have executes := executed.executes x hx fine
        exact ⟨executes.wellFormed, executes.streams ▸ hs.streams⟩

end Step

end PathSearch
