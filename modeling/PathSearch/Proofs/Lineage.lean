import PathSearch.Proofs.Hook
import PathSearch.Step

/-! # Where the states after a step come from

A step leaves the path behind a state alone: its length and its history are those of the state, with
the step itself taken up. An instruction gives its successors the identity of the state or identities
of their own; what a hook gives is up to its summary.
-/

namespace PathSearch

/-- Pieces of work one after another, each from where the one before has stopped. -/
inductive Chain {α β τ : Type} (R : α → τ → β → τ → Prop) : List α → τ → List β → τ → Prop where
  | nil {t : τ} : Chain R [] t [] t
  | cons {a : α} {b : β} {as : List α} {bs : List β} {t u v : τ} (first : R a t b u)
      (rest : Chain R as u bs v) : Chain R (a :: as) t (b :: bs) v

namespace Chain

variable {α β τ : Type} {R R' : α → τ → β → τ → Prop} {as : List α} {bs : List β} {t u : τ}

theorem mono (h : Chain R as t bs u) (weaker : ∀ a t b u, R a t b u → R' a t b u) :
    Chain R' as t bs u := by
  induction h with
  | nil => exact .nil
  | cons first _ ih => exact .cons (weaker _ _ _ _ first) ih

theorem exists_left (h : Chain R as t bs u) {b : β} (hb : b ∈ bs) : ∃ a ∈ as, ∃ t u, R a t b u := by
  induction h with
  | nil => cases hb
  | cons first _ ih =>
      rcases List.mem_cons.mp hb with rfl | later
      · exact ⟨_, List.mem_cons_self, _, _, first⟩
      · obtain ⟨a, ha, related⟩ := ih later
        exact ⟨a, List.mem_cons_of_mem _ ha, related⟩

theorem length_eq (h : Chain R as t bs u) : as.length = bs.length := by
  induction h with
  | nil => rfl
  | cons _ _ ih => exact congrArg (· + 1) ih

end Chain

theorem Chain.mapM {α β τ : Type} (f : α → StateM τ β) (list : List α) (t : τ) :
    Chain (fun a t b u => (f a).run t = (b, u)) list t ((list.mapM f).run t).1
      ((list.mapM f).run t).2 := by
  induction list generalizing t with
  | nil => exact .nil
  | cons a as ih =>
      rw [List.mapM_cons]
      exact .cons rfl (ih _)

theorem bind_run {α β τ : Type} {x : StateM τ α} {t u : τ} {a : α} (h : x.run t = (a, u))
    (f : α → StateM τ β) : (x >>= f).run t = (f a).run u := by
  rw [StateT.run_bind, h]
  rfl

/-- Work that stands still and keeps something of what it works on. -/
theorem Chain.still {α β γ τ : Type} {f : α → γ} {g : β → γ} {as : List α} {bs : List β} {t u : τ}
    (h : Chain (fun a t b u => f a = g b ∧ u = t) as t bs u) : as.map f = bs.map g ∧ u = t := by
  induction h with
  | nil => exact ⟨rfl, rfl⟩
  | cons first _ ih =>
      obtain ⟨same, rfl⟩ := first
      obtain ⟨others, rfl⟩ := ih
      exact ⟨by rw [List.map_cons, List.map_cons, same, others], rfl⟩

/-- Whose a state is, and the path behind it. -/
structure Lineage where
  id : Nat
  steps : Nat
  history : History

def State.lineage (s : State) : Lineage := ⟨s.id, s.steps, s.history⟩

@[simp]
theorem State.lineage_setIp (s : State) (address : Word) : (s.setIp address).lineage = s.lineage := rfl

theorem State.lineage_writeMemory {s t : State} {address : Word} {v : Expr}
    (written : s.writeMemory address v = .ok t) : t.lineage = s.lineage := by
  obtain ⟨m, -, result⟩ := bind_ok written
  cases result
  rfl

theorem State.lineage_addConstraint {s t : State} {c : Expr} (added : s.addConstraint c = .ok t) :
    t.lineage = s.lineage := by
  obtain ⟨cs, -, result⟩ := bind_ok added
  cases result
  rfl

namespace Lineage

/-- The path behind a state is that of another. -/
def SamePath (a b : Lineage) : Prop := b.steps = a.steps ∧ b.history = a.history

/-- Copies of a state, made while the next identity went from `n` to `m`. -/
structure Forks (a : Lineage) (n m : Nat) (bs : List Lineage) : Prop where
  forward : n ≤ m
  path : ∀ b ∈ bs, a.SamePath b
  new : ∀ b ∈ bs, n ≤ b.id ∧ b.id < m
  distinct : (bs.map (·.id)).Nodup

namespace Forks

variable {a : Lineage} {n m k : Nat} {bs cs : List Lineage}

theorem nil (forward : n ≤ m) : Forks a n m [] := ⟨forward, by simp, by simp, by simp⟩

theorem single (n : Nat) : Forks a n (n + 1) [{ a with id := n }] := by
  constructor <;> simp [SamePath]

theorem sublist (h : Forks a n m bs) (part : cs.Sublist bs) : Forks a n m cs where
  forward := h.forward
  path b hb := h.path b (part.subset hb)
  new b hb := h.new b (part.subset hb)
  distinct := h.distinct.sublist (part.map _)

theorem append (first : Forks a n k bs) (later : Forks a k m cs) : Forks a n m (bs ++ cs) where
  forward := Nat.le_trans first.forward later.forward
  path b hb := (List.mem_append.mp hb).elim (first.path b) (later.path b)
  new b hb := by
    have early := first.forward
    have late := later.forward
    rcases List.mem_append.mp hb with here | there
    · have := first.new b here
      omega
    · have := later.new b there
      omega
  distinct := by
    rw [List.map_append, List.nodup_append]
    refine ⟨first.distinct, later.distinct, fun i here j there => ?_⟩
    obtain ⟨b, hb, rfl⟩ := List.mem_map.mp here
    obtain ⟨c, hc, rfl⟩ := List.mem_map.mp there
    have := first.new b hb
    have := later.new c hc
    omega

theorem of_chain {α β : Type} {R : α → Nat → β → Nat → Prop} {lineage : β → Lineage}
    (each : ∀ x n b m, R x n b m → Forks a n m [lineage b]) {xs : List α} {results : List β}
    (h : Chain R xs n results m) : Forks a n m (results.map lineage) := by
  induction h with
  | nil => exact nil (Nat.le_refl _)
  | cons first _ ih => exact (each _ _ _ _ first).append ih

end Forks

/-- The state itself, or copies of it, while the next identity went from `n` to `m`. -/
inductive Offspring (a : Lineage) (n m : Nat) : List Lineage → Prop where
  | own (forward : n ≤ m) : Offspring a n m [a]
  | forks {bs : List Lineage} (forks : Forks a n m bs) : Offspring a n m bs

namespace Offspring

variable {a : Lineage} {n m : Nat} {bs : List Lineage}

theorem forward (h : Offspring a n m bs) : n ≤ m := by
  cases h with
  | own forward => exact forward
  | forks forks => exact forks.forward

theorem path (h : Offspring a n m bs) : ∀ b ∈ bs, a.SamePath b := by
  cases h with
  | own => exact List.forall_mem_singleton.mpr ⟨rfl, rfl⟩
  | forks forks => exact forks.path

theorem own_or_new (h : Offspring a n m bs) : ∀ b ∈ bs, b.id = a.id ∨ n ≤ b.id ∧ b.id < m := by
  cases h with
  | own => exact List.forall_mem_singleton.mpr (.inl rfl)
  | forks forks => exact fun b hb => .inr (forks.new b hb)

theorem distinct (h : Offspring a n m bs) : (bs.map (·.id)).Nodup := by
  cases h with
  | own => simp
  | forks forks => exact forks.distinct

end Offspring

end Lineage

namespace Session

variable {α β : Type}

/-- From a session in which `n` is the next identity the work leaves the counts of steps alone, and
    what it gives and the next identity after it have the property. -/
def From (n : Nat) (x : StateM Session α) (post : α → Nat → Prop) : Prop :=
  ∀ u : Session, u.nextId = n →
    (x.run u).2.stats = u.stats ∧ post (x.run u).1 (x.run u).2.nextId

namespace From

variable {n : Nat}

theorem pure {post : α → Nat → Prop} {a : α} (h : post a n) : From n (pure a) post := by
  rintro u rfl
  exact ⟨rfl, h⟩

theorem bind {x : StateM Session α} {f : α → StateM Session β} {mid : α → Nat → Prop}
    {post : β → Nat → Prop} (first : From n x mid)
    (next : ∀ a k, mid a k → From k (f a) post) : From n (x >>= f) post := by
  intro u start
  obtain ⟨kept, given⟩ := first u start
  obtain ⟨kept', given'⟩ := next _ _ given _ rfl
  exact ⟨kept'.trans kept, given'⟩

theorem mono {x : StateM Session α} {post post' : α → Nat → Prop} (h : From n x post)
    (weaker : ∀ a m, post a m → post' a m) : From n x post' :=
  fun u start => ⟨(h u start).1, weaker _ _ (h u start).2⟩

theorem ask (question : Ask α) : From n (ask question) fun _ m => m = n := by
  rintro u rfl
  exact ⟨rfl, rfl⟩

theorem forkFresh (s : State) :
    From n (fresh s.forkFresh) fun result m => result = .ok (s.fork n) ∧ m = n + 1 := by
  rintro u rfl
  exact ⟨rfl, rfl, rfl⟩

end From

end Session

namespace Attempt

open Session

variable {α β : Type}

/-- From a session in which `n` is the next identity the work leaves the counts of steps alone and
    gives no identity back, and what it gives, where it does not fail, and the next identity after it
    have the property. -/
def From (n : Nat) (x : Attempt α) (post : α → Nat → Prop) : Prop :=
  Session.From n x.run fun result m => n ≤ m ∧ ∀ a, result = .ok a → post a m

namespace From

variable {n : Nat}

theorem pure {post : α → Nat → Prop} {a : α} (h : post a n) : From n (pure a) post :=
  Session.From.pure ⟨Nat.le_refl n, fun _ same => Except.ok.inj same ▸ h⟩

theorem throw {post : α → Nat → Prop} (reason : Reason) : From n (throw reason) post :=
  Session.From.pure ⟨Nat.le_refl n, fun _ same => by cases same⟩

theorem bind {x : Attempt α} {f : α → Attempt β} {mid : α → Nat → Prop} {post : β → Nat → Prop}
    (first : From n x mid) (next : ∀ a k, mid a k → From k (f a) post) : From n (x >>= f) post := by
  unfold From
  rw [ExceptT.run_bind]
  refine Session.From.bind first fun result k given => ?_
  obtain ⟨forward, given⟩ := given
  cases result with
  | ok a => exact (next a k (given a rfl)).mono fun _ m later => ⟨Nat.le_trans forward later.1, later.2⟩
  | error reason => exact Session.From.pure ⟨forward, fun _ same => by cases same⟩

theorem mono {x : Attempt α} {post post' : α → Nat → Prop} (h : From n x post)
    (weaker : ∀ a m, n ≤ m → post a m → post' a m) : From n x post' :=
  Session.From.mono h fun _ m given => ⟨given.1, fun a same => weaker a m given.1 (given.2 a same)⟩

theorem lift {x : StateM Session α} {post : α → Nat → Prop}
    (h : Session.From n x fun a m => n ≤ m ∧ post a m) : From n (liftM x) post :=
  Session.From.bind h fun _ _ given =>
    Session.From.pure ⟨given.1, fun _ same => Except.ok.inj same ▸ given.2⟩

theorem ask (question : Ask α) : From n (liftM (ask question)) fun _ m => m = n :=
  lift ((Session.From.ask question).mono fun _ _ same => ⟨Nat.le_of_eq same.symm, same⟩)

theorem forkFresh (s : State) :
    From n (liftM (fresh s.forkFresh)) fun result m => result = .ok (s.fork n) ∧ m = n + 1 :=
  lift ((Session.From.forkFresh s).mono fun _ _ forked => ⟨by omega, forked⟩)

theorem orFault (result : Except Error α) :
    From n (orFault result) fun a m => result = .ok a ∧ m = n := by
  cases result with
  | ok a => exact pure ⟨rfl, rfl⟩
  | error e => exact throw _

theorem mapM {list : List α} {f : α → Attempt β} {R : α → Nat → β → Nat → Prop}
    (each : ∀ a ∈ list, ∀ k, From k (f a) (R a k)) :
    From n (list.mapM f) fun bs m => Chain R list n bs m := by
  induction list generalizing n with
  | nil =>
      rw [List.mapM_nil]
      exact pure .nil
  | cons a rest ih =>
      rw [List.mapM_cons]
      refine bind (each a (by simp) n) fun b k head => ?_
      refine bind (ih fun a ha => each a (by simp [ha])) fun bs m tail => ?_
      exact pure (.cons head tail)

end From

end Attempt

namespace State

open Attempt Lineage

variable {s : State} {n : Nat}

theorem from_pin (s : State) (e : Expr) (v : Word) (n : Nat) :
    From n (s.pin e v) fun t m => Forks s.lineage n m [t.lineage] := by
  refine .bind (.forkFresh s) fun result m forked => ?_
  obtain ⟨rfl, rfl⟩ := forked
  refine .bind (.orFault _) fun fork k same => ?_
  obtain ⟨same, rfl⟩ := same
  cases same
  refine (From.orFault _).mono fun t m _ built => ?_
  obtain ⟨built, rfl⟩ := built
  obtain ⟨c, -, built⟩ := bind_ok built
  obtain ⟨d, -, built⟩ := bind_ok built
  rw [lineage_addConstraint built]
  exact .single n

theorem from_resolveAddress (s : State) (address : Expr) (cap n : Nat) :
    From n (s.resolveAddress address cap) fun candidates m =>
      Offspring s.lineage n m (candidates.map (·.1.lineage)) := by
  unfold resolveAddress
  split
  · exact .pure (.own (Nat.le_refl n))
  · refine .bind (.ask _) fun answer m same => ?_
    subst same
    cases answer with
    | error e =>
        simp only
        split
        · exact .throw _
        · exact .pure (.forks (.nil (Nat.le_refl _)))
    | ok values =>
        simp only
        split
        · exact .throw _
        · have each (v : Word) (_ : v ∈ values) (k : Nat) :
              From k (do Pure.pure (← s.pin address v, v)) fun p m =>
                Forks s.lineage k m [p.1.lineage] :=
            .bind (s.from_pin address v k) fun t m forked => .pure forked
          refine (From.mapM each).mono fun candidates m _ chain => ?_
          exact .forks (.of_chain (fun _ _ _ _ forked => forked) chain)

theorem from_readResolved (s : State) (address : Expr) (size cap n : Nat) :
    From n (s.readResolved address size cap) fun loaded m =>
      Offspring s.lineage n m (loaded.map (·.1.lineage)) := by
  refine .bind (s.from_resolveAddress address cap n) fun candidates k resolved => ?_
  have each (p : State × Word) (_ : p ∈ candidates) (k : Nat) :
      From k (do Pure.pure (p.1, ← Session.orFault (p.1.readMemory p.2 size))) fun q m =>
        p.1.lineage = q.1.lineage ∧ m = k :=
    .bind (.orFault _) fun v m read => .pure ⟨rfl, read.2⟩
  refine (From.mapM each).mono fun loaded m _ chain => ?_
  obtain ⟨same, rfl⟩ := chain.still
  exact same ▸ resolved

theorem from_writeResolved (s : State) (address value : Expr) (cap n : Nat) :
    From n (s.writeResolved address value cap) fun stored m =>
      Offspring s.lineage n m (stored.map (·.lineage)) := by
  refine .bind (s.from_resolveAddress address cap n) fun candidates k resolved => ?_
  have each (p : State × Word) (_ : p ∈ candidates) (k : Nat) :
      From k (Session.orFault (p.1.writeMemory p.2 value)) fun t m =>
        p.1.lineage = t.lineage ∧ m = k :=
    (From.orFault _).mono fun t m _ written => ⟨(lineage_writeMemory written.1).symm, written.2⟩
  refine (From.mapM each).mono fun stored m _ chain => ?_
  obtain ⟨same, rfl⟩ := chain.still
  exact same ▸ resolved

end State

namespace Step

open Attempt Lineage

/-- The successors of a result are a state, or copies of it. -/
def Begets (a : Lineage) (n m : Nat) (r : StepResult) : Prop :=
  Offspring a n m (r.successors.map (·.state.lineage))

variable {s : State} {n : Nat}

theorem begets_single {a : Lineage} (x : Successor) (same : x.state.lineage = a) :
    Begets a n n (.single x) := by
  subst same
  exact .own (Nat.le_refl n)

theorem begets_ofStates {a : Lineage} {m : Nat} {ts : List State}
    (h : Offspring a n m (ts.map (·.lineage))) : Begets a n m (.ofStates ts) := by
  unfold Begets StepResult.ofStates
  rw [List.map_map]
  exact h

theorem from_ifFeasible (t : State) (n : Nat) :
    Session.From n (ifFeasible t) fun r m =>
      m = n ∧ (r.successors.map (·.state)).Sublist [t] := by
  refine .bind (.ask _) fun answer m same => ?_
  subst same
  cases answer with
  | ok b =>
      cases b with
      | true => exact .pure ⟨rfl, .refl _⟩
      | false => exact .pure ⟨rfl, List.nil_sublist _⟩
  | error e =>
      simp only
      split
      · exact .pure ⟨rfl, .refl _⟩
      · exact .pure ⟨rfl, List.nil_sublist _⟩

theorem from_transfer (s : State) (target : Expr) (cap n : Nat) :
    From n (transfer s target cap) fun r m => Begets s.lineage n m r := by
  unfold transfer
  split
  · exact .pure (begets_single _ rfl)
  · refine .bind (s.from_resolveAddress target cap n) fun candidates m resolved => .pure ?_
    refine begets_ofStates ?_
    rw [List.map_map]
    exact resolved

theorem from_side (s : State) (assumption : Expr) (target : Word) (n : Nat) :
    From n (side s assumption target) fun r m =>
      Forks s.lineage n m (r.successors.map (·.state.lineage)) := by
  refine .bind (.forkFresh s) fun result m forked => ?_
  obtain ⟨rfl, rfl⟩ := forked
  refine .bind (.orFault _) fun fork k same => ?_
  obtain ⟨same, rfl⟩ := same
  cases same
  refine .bind (.orFault _) fun t k added => ?_
  obtain ⟨added, rfl⟩ := added
  refine .lift ((from_ifFeasible _ _).mono fun r m kept => ?_)
  obtain ⟨rfl, part⟩ := kept
  have copies := part.map State.lineage
  rw [List.map_map, List.map_singleton, State.lineage_setIp, State.lineage_addConstraint added] at copies
  exact ⟨Nat.le_refl _, (Forks.single n).sublist copies⟩

theorem from_branch (s : State) (condition : Expr) (taken next : Word) (n : Nat) :
    From n (branch s condition taken next) fun r m => Begets s.lineage n m r := by
  unfold branch
  split
  · exact .pure (begets_single _ rfl)
  · refine .bind (.orFault _) fun negated k same => ?_
    obtain ⟨-, rfl⟩ := same
    refine .bind (from_side s condition taken k) fun yes m taking => ?_
    refine .bind (from_side s negated next m) fun no last passing => .pure ?_
    refine .forks ?_
    rw [StepResult.append, List.map_append]
    exact taking.append passing

theorem from_assign (s : State) (dst : Register) (value : Except Error Expr) (next : Word) (n : Nat) :
    From n (assign s dst value next) fun r m => Begets s.lineage n m r := by
  refine .bind (.orFault _) fun e k same => .pure ?_
  obtain ⟨-, rfl⟩ := same
  exact begets_single _ rfl

theorem from_execute (s : State) (i : Instruction) (cap n : Nat) :
    From n (execute s i cap) fun r m => Begets s.lineage n m r := by
  cases opcode : i.opcode with
  | nop =>
      simp only [execute, opcode]
      exact .pure (begets_single _ rfl)
  | mov | alu | not | neg | set =>
      simp only [execute, opcode]
      exact from_assign _ _ _ _ _
  | load dst base offset size =>
      simp only [execute, opcode]
      refine .bind (.orFault _) fun address k same => ?_
      obtain ⟨-, rfl⟩ := same
      refine .bind (s.from_readResolved address _ cap k) fun loaded m resolved => .pure ?_
      refine begets_ofStates ?_
      rw [List.map_map]
      exact resolved
  | store src base offset size =>
      simp only [execute, opcode]
      refine .bind (.orFault _) fun address k same => ?_
      obtain ⟨-, rfl⟩ := same
      refine .bind (.orFault _) fun value k same => ?_
      obtain ⟨-, rfl⟩ := same
      refine .bind (s.from_writeResolved address value cap k) fun stored m resolved => .pure ?_
      refine begets_ofStates ?_
      rw [List.map_map]
      exact resolved
  | jump | ret =>
      simp only [execute, opcode]
      exact from_transfer _ _ _ _
  | call target =>
      simp only [execute, opcode]
      exact from_transfer (s.writeRegister .lr _) _ _ _
  | branch cond lhs rhs target =>
      simp only [execute, opcode]
      refine .bind (.orFault _) fun condition k same => ?_
      obtain ⟨-, rfl⟩ := same
      exact from_branch _ _ _ _ _
  | halt =>
      simp only [execute, opcode]
      exact .pure (begets_single _ rfl)

/-- Of the states that a hook gave those are admitted that no answer of the solver drops. -/
theorem from_feasibleOf (arrived : Digest) (states : List State) (n : Nat) :
    Session.From n (feasibleOf arrived states) fun r m =>
      m = n ∧ (r.successors.map (·.state)).Sublist states := by
  have each (states : List State) (r : StepResult) :
      Session.From n (states.foldlM (fun r s => do
        if s.constraints.digest = arrived then pure (r.append (.single (.active s)))
        else return r.append (← ifFeasible s)) r) fun r' m =>
      m = n ∧ ∃ kept, r'.successors = r.successors ++ kept ∧
        (kept.map (·.state)).Sublist states := by
    induction states generalizing r with
    | nil => exact .pure ⟨rfl, [], by simp, .slnil⟩
    | cons s rest ih =>
        rw [List.foldlM_cons]
        refine .bind (?_ : Session.From n _ fun r' m => m = n ∧ ∃ kept,
          r'.successors = r.successors ++ kept ∧ (kept.map (·.state)).Sublist [s]) fun r' m given => ?_
        · split
          · exact .pure ⟨rfl, [.active s], rfl, .refl _⟩
          · refine .bind (from_ifFeasible s n) fun r' m given => .pure ?_
            obtain ⟨rfl, part⟩ := given
            exact ⟨rfl, r'.successors, rfl, part⟩
        · obtain ⟨rfl, kept, same, part⟩ := given
          refine (ih r').mono fun r'' m given => ?_
          obtain ⟨rfl, more, same', part'⟩ := given
          refine ⟨rfl, kept ++ more, by rw [same', same, List.append_assoc], ?_⟩
          rw [List.map_append]
          exact part.append part'
  refine (each states {}).mono fun r m given => ?_
  obtain ⟨rfl, kept, same, part⟩ := given
  rw [same]
  exact ⟨rfl, part⟩

/-- What a step gives, and what the session is after it. -/
inductive Effect (hooks : HookTable) (s : State) (u : Session) : StepResult → Session → Prop where
  | undecoded {e : DecodeError} (free : hooks.lookup? s.ip = none)
      (fails : s.memory.image.decode s.ip = .error e) :
      Effect hooks s u (.single (.errored s.recordStep (.ofDecode e)))
        { u with stats := { u.stats with errors := u.stats.errors + 1 } }
  | executed {i : Instruction} {r : StepResult} {v : Session} (free : hooks.lookup? s.ip = none)
      (decoded : s.memory.image.decode s.ip = .ok i)
      (begets : Begets s.recordStep.lineage u.nextId v.nextId r)
      (counted : v.stats = account r { u.stats with instructions := u.stats.instructions + 1 }) :
      Effect hooks s u r v
  | refused {h : Hook} {e : Error} {r : StepResult} {v : Session}
      (found : hooks.lookup? s.ip = some h)
      (ran : (h.apply s.recordStep).run u.nextId = (.error e, v.nextId))
      (kept : r.successors = [.errored s.recordStep (.hookFailure h.name e.message)])
      (counted : v.stats = account r { u.stats with hooks := u.stats.hooks + 1 }) :
      Effect hooks s u r v
  | hooked {h : Hook} {states : List State} {r : StepResult} {v : Session}
      (found : hooks.lookup? s.ip = some h)
      (ran : (h.apply s.recordStep).run u.nextId = (.ok states, v.nextId))
      (kept : (r.successors.map (·.state)).Sublist states)
      (counted : v.stats = account r { u.stats with hooks := u.stats.hooks + 1 }) :
      Effect hooks s u r v

theorem count_run (f : StepStats → StepStats) (u : Session) :
    (count f).run u = ((), { u with stats := f u.stats }) := rfl

theorem run_fresh {α : Type} {work : Fresh α} {u : Session} {result : Except Error α} {m : Nat}
    (ran : work.run u.nextId = (result, m)) :
    (Session.fresh work).run u = (result, { u with nextId := m }) := by
  change ((work.run u.nextId).1, ({ u with nextId := (work.run u.nextId).2 } : Session)) = _
  rw [ran]

theorem effect_applyHook {hooks : HookTable} {h : Hook} {s : State} {u v : Session} {r : StepResult}
    (found : hooks.lookup? s.ip = some h) (ran : (applyHook h s.recordStep).run u = (r, v)) :
    Effect hooks s u r v := by
  let counted : Session := { u with stats := { u.stats with hooks := u.stats.hooks + 1 } }
  cases applied : (h.apply s.recordStep).run u.nextId with
  | mk result m =>
      have fetched : (Session.fresh (h.apply s.recordStep)).run counted = _ := run_fresh applied
      rw [applyHook, bind_run (count_run _ u), bind_run fetched] at ran
      cases result with
      | error e =>
          cases ran
          exact .refused found applied rfl rfl
      | ok states =>
          obtain ⟨kept, same, part⟩ :=
            from_feasibleOf s.recordStep.constraints.digest states m { counted with nextId := m } rfl
          cases ran
          refine .hooked found (applied.trans ?_) part (congrArg (account _) kept)
          exact congrArg (Prod.mk _) same.symm

theorem step_hooked {hooks : HookTable} {cap : Nat} {s : State} {h : Hook}
    (found : hooks.lookup? s.ip = some h) : step hooks cap s = applyHook h s.recordStep := by
  have here : hooks.lookup? s.recordStep.ip = some h := found
  unfold step
  simp only [here]

theorem step_undecoded {hooks : HookTable} {cap : Nat} {s : State} {e : DecodeError}
    (free : hooks.lookup? s.ip = none) (fails : s.memory.image.decode s.ip = .error e) :
    step hooks cap s = (do
      count fun c => { c with errors := c.errors + 1 }
      pure (.single (.errored s.recordStep (.ofDecode e)))) := by
  have here : hooks.lookup? s.recordStep.ip = none := free
  have refuses : s.recordStep.memory.image.decode s.recordStep.ip = .error e := fails
  unfold step
  simp only [here, refuses]

theorem step_decoded {hooks : HookTable} {cap : Nat} {s : State} {i : Instruction}
    (free : hooks.lookup? s.ip = none) (decoded : s.memory.image.decode s.ip = .ok i) :
    step hooks cap s = (do
      count fun c => { c with instructions := c.instructions + 1 }
      let r ← match ← (execute s.recordStep i cap).run with
        | .ok r => pure r
        | .error reason => pure (.single (.errored s.recordStep reason))
      count (account r)
      pure r) := by
  have here : hooks.lookup? s.recordStep.ip = none := free
  have decodes : s.recordStep.memory.image.decode s.recordStep.ip = .ok i := decoded
  unfold step
  dsimp only
  split
  · rename_i found
    cases here.symm.trans found
  · split
    · rename_i fails
      cases decodes.symm.trans fails
    · rename_i found
      cases decodes.symm.trans found
      rfl

theorem effect_executed {hooks : HookTable} {cap : Nat} {s : State} {u v : Session} {i : Instruction}
    {r : StepResult} (free : hooks.lookup? s.ip = none)
    (decoded : s.memory.image.decode s.ip = .ok i) (ran : (step hooks cap s).run u = (r, v)) :
    Effect hooks s u r v := by
  let counted : Session := { u with stats := { u.stats with instructions := u.stats.instructions + 1 } }
  obtain ⟨kept, forward, begets⟩ := from_execute s.recordStep i cap u.nextId counted rfl
  cases executed : (execute s.recordStep i cap).run.run counted with
  | mk result mid =>
      rw [executed] at kept forward begets
      rw [step_decoded free decoded, bind_run (count_run _ u), bind_run executed] at ran
      cases result with
      | ok given =>
          cases ran
          exact .executed free decoded (begets _ rfl) (congrArg (account _) kept)
      | error reason =>
          cases ran
          exact .executed free decoded (.own forward) (congrArg (account _) kept)

theorem effect_step (hooks : HookTable) (cap : Nat) (s : State) (u : Session) :
    Effect hooks s u ((step hooks cap s).run u).1 ((step hooks cap s).run u).2 := by
  cases found : hooks.lookup? s.ip with
  | some h =>
      rw [step_hooked found]
      exact effect_applyHook found rfl
  | none => cases decoded : s.memory.image.decode s.ip with
    | error e =>
        rw [step_undecoded found decoded]
        exact .undecoded found decoded
    | ok i => exact effect_executed found decoded rfl

/-- Nothing is executed at the address of the state: no hook stands there and nothing decodes. -/
def isUndecoded (hooks : HookTable) (s : State) : Bool :=
  (hooks.lookup? s.ip).isNone && (s.memory.image.decode s.ip).toOption.isNone

namespace Effect

variable {hooks : HookTable} {s : State} {u v : Session} {r : StepResult}

theorem errors (h : Effect hooks s u r v) :
    v.stats.errors = u.stats.errors + r.successors.countP (·.isErrored) := by
  cases h with
  | undecoded => rfl
  | executed _ _ _ counted => rw [counted]; rfl
  | refused _ _ _ counted => rw [counted]; rfl
  | hooked _ _ _ counted => rw [counted]; rfl

theorem forks (h : Effect hooks s u r v) :
    v.stats.forks = u.stats.forks + (r.successors.length - 1) := by
  cases h with
  | undecoded => rfl
  | executed _ _ _ counted => rw [counted]; rfl
  | refused _ _ _ counted => rw [counted]; rfl
  | hooked _ _ _ counted => rw [counted]; rfl

/-- Each step is an instruction, a hook or neither. -/
theorem executed_or_hooked (h : Effect hooks s u r v) :
    v.stats.instructions + v.stats.hooks + (if isUndecoded hooks s then 1 else 0) =
      u.stats.instructions + u.stats.hooks + 1 := by
  cases h with
  | undecoded free fails => simp [isUndecoded, free, fails, Except.toOption]
  | executed free decoded _ counted =>
      rw [counted]
      simp [isUndecoded, decoded, Except.toOption, account]
      omega
  | refused found _ _ counted =>
      rw [counted]
      simp [isUndecoded, found, account]
      omega
  | hooked found _ _ counted =>
      rw [counted]
      simp [isUndecoded, found, account]
      omega

end Effect

end Step

theorem State.lineage_readStream {s t : State} {fd n : Nat} {bytes : List Expr}
    (read : s.readStream fd n = .ok (bytes, t)) : t.lineage = s.lineage := by
  unfold State.readStream at read
  split at read
  · cases read
    rfl
  · cases read

/-- Identities of states made from one with the identity `id` while the next identity went from `n`
    to `m`. -/
structure Issued (id n m : Nat) (ids : List Nat) : Prop where
  forward : n ≤ m
  own_or_new : ∀ i ∈ ids, i = id ∨ n ≤ i ∧ i < m
  distinct : ids.Nodup

namespace Summary

variable {hook : String} {s : State} {n m : Nat} {result : Except Error (List State)}

/-- The code gives states with the path of the state that arrives. -/
def KeepsPath (run : State → Fresh (List State)) : Prop :=
  ∀ (s : State) (n m : Nat) (states : List State), (run s).run n = (.ok states, m) →
    ∀ t ∈ states, s.lineage.SamePath t.lineage

/-- The code never gives identities back, and the states that it gives have identities of their own,
    each a new one or that of the state that arrives. -/
def FreshIds (run : State → Fresh (List State)) : Prop :=
  ∀ (s : State) (n m : Nat) (result : Except Error (List State)), (run s).run n = (result, m) →
    n ≤ m ∧ ∀ states, result = .ok states → s.id < n → Issued s.id n m (states.map (·.id))

theorem lineage_returnToCaller {t : State} (returned : returnToCaller s = .ok t) :
    t.lineage = s.lineage := by
  obtain ⟨address, rfl⟩ := returnToCaller_ok returned
  rfl

theorem lineage_copyStream {fd : Nat} {t : State} (copied : copyStream fd s = .ok t) :
    t.lineage = s.lineage := by
  obtain ⟨buffer, -, copied⟩ := bind_ok copied
  obtain ⟨length, -, copied⟩ := bind_ok copied
  split at copied
  · obtain ⟨⟨bytes, u⟩, taken, returned⟩ := bind_ok copied
    have kept : u.lineage = s.lineage := State.lineage_readStream taken
    exact (lineage_returnToCaller returned).trans kept
  · exact (lineage_returnToCaller copied).trans rfl

theorem lineage_of_return {x : Except Error State} (each : ∀ t, x = .ok t → t.lineage = s.lineage)
    (ran : (do return [← x] : Fresh (List State)).run n = (result, m)) :
    m = n ∧ ∀ states, result = .ok states → states.map (·.lineage) = [s.lineage] := by
  cases x with
  | error e =>
      cases ran
      exact ⟨rfl, fun _ same => by cases same⟩
  | ok t =>
      cases ran
      refine ⟨rfl, fun _ same => ?_⟩
      cases same
      exact congrArg (fun a => [a]) (each t rfl)

/-- A built-in summary gives the state that arrives, or none, and takes no identity. -/
theorem lineage_apply {summary : Summary} (builtIn : ∀ run, summary ≠ .custom run)
    (ran : (summary.apply hook s).run n = (result, m)) :
    m = n ∧ ∀ states, result = .ok states → (states.map (·.lineage)).Sublist [s.lineage] := by
  have one (given : m = n ∧ ∀ states, result = .ok states → states.map (·.lineage) = [s.lineage]) :
      m = n ∧ ∀ states, result = .ok states → (states.map (·.lineage)).Sublist [s.lineage] :=
    ⟨given.1, fun states same => (given.2 states same).symm ▸ .refl _⟩
  cases summary with
  | returnValue v =>
      have each (t : State) (returned : returnToCaller (s.writeRegister .r0 (Expr.word v)) = .ok t) :
          t.lineage = s.lineage := (lineage_returnToCaller returned).trans rfl
      exact one (lineage_of_return each ran)
  | returnSymbolic =>
      let u := s.writeRegister .r0 (.var (resultName hook s) 64)
      have each (t : State) (returned : returnToCaller
          (u.recordInput (resultName hook s) (.var (resultName hook s) 64)) = .ok t) :
          t.lineage = s.lineage := (lineage_returnToCaller returned).trans rfl
      exact one (lineage_of_return each ran)
  | abort =>
      cases ran
      refine ⟨rfl, fun _ same => ?_⟩
      cases same
      exact List.nil_sublist _
  | skip => exact one (lineage_of_return (fun t => lineage_returnToCaller) ran)
  | readStream fd => exact one (lineage_of_return (fun t => lineage_copyStream) ran)
  | custom run => exact absurd rfl (builtIn run)

end Summary

namespace HookTable

/-- Every summary in the table that a user wrote keeps the path of the state that arrives. -/
def KeepsPath (hooks : HookTable) : Prop :=
  ∀ (address : Word) (h : Hook) (run : State → Fresh (List State)),
    hooks.lookup? address = some h → h.summary = .custom run → Summary.KeepsPath run

/-- Every summary in the table that a user wrote gives states with identities of their own. -/
def FreshIds (hooks : HookTable) : Prop :=
  ∀ (address : Word) (h : Hook) (run : State → Fresh (List State)),
    hooks.lookup? address = some h → h.summary = .custom run → Summary.FreshIds run

variable {hooks : HookTable} {address : Word} {h : Hook} {s : State} {n m : Nat}

theorem KeepsPath.apply (keeps : hooks.KeepsPath) (found : hooks.lookup? address = some h)
    {states : List State} (ran : (h.apply s).run n = (.ok states, m)) :
    ∀ t ∈ states, s.lineage.SamePath t.lineage := by
  by_cases written : ∃ run, h.summary = .custom run
  · obtain ⟨run, custom⟩ := written
    rw [Hook.apply, custom] at ran
    exact keeps address h run found custom s n m states ran
  · obtain ⟨-, part⟩ := Summary.lineage_apply (fun run custom => written ⟨run, custom⟩) ran
    intro t ht
    have same := (part states rfl).subset (List.mem_map_of_mem ht)
    rw [List.mem_singleton.mp same]
    exact ⟨rfl, rfl⟩

theorem FreshIds.apply (fresh : hooks.FreshIds) (found : hooks.lookup? address = some h)
    {result : Except Error (List State)} (ran : (h.apply s).run n = (result, m)) :
    n ≤ m ∧ ∀ states, result = .ok states → s.id < n → Issued s.id n m (states.map (·.id)) := by
  by_cases written : ∃ run, h.summary = .custom run
  · obtain ⟨run, custom⟩ := written
    rw [Hook.apply, custom] at ran
    exact fresh address h run found custom s n m result ran
  · obtain ⟨rfl, part⟩ := Summary.lineage_apply (fun run custom => written ⟨run, custom⟩) ran
    refine ⟨Nat.le_refl _, fun states same _ => ?_⟩
    have ids := (part states same).map (·.id)
    rw [List.map_map] at ids
    refine ⟨Nat.le_refl _, fun i hi => ?_, (List.pairwise_singleton _ s.id).sublist ids⟩
    exact .inl (List.mem_singleton.mp (ids.subset hi))

end HookTable

namespace Step.Effect

variable {hooks : HookTable} {s : State} {u v : Session} {r : StepResult}

/-- Where hooks keep the path behind a state, its successors are one step further on it. -/
theorem path (h : Effect hooks s u r v) (keeps : hooks.KeepsPath) :
    ∀ x ∈ r.successors, s.recordStep.lineage.SamePath x.state.lineage := by
  intro x hx
  cases h with
  | undecoded =>
      rw [List.mem_singleton.mp hx]
      exact ⟨rfl, rfl⟩
  | executed _ _ begets => exact begets.path _ (List.mem_map_of_mem hx)
  | refused _ _ kept =>
      rw [kept] at hx
      rw [List.mem_singleton.mp hx]
      exact ⟨rfl, rfl⟩
  | hooked found ran kept =>
      exact keeps.apply found ran _ (kept.subset (List.mem_map_of_mem hx))

/-- Where hooks give states of their own, so does a step. -/
theorem issued (h : Effect hooks s u r v) (fresh : hooks.FreshIds) (old : s.id < u.nextId) :
    Issued s.id u.nextId v.nextId (r.successors.map (·.state.id)) := by
  cases h with
  | undecoded =>
      exact ⟨Nat.le_refl _, List.forall_mem_singleton.mpr (.inl rfl), List.pairwise_singleton _ _⟩
  | executed _ _ begets =>
      have distinct := begets.distinct
      rw [List.map_map] at distinct
      refine ⟨begets.forward, fun i hi => ?_, distinct⟩
      obtain ⟨x, hx, rfl⟩ := List.mem_map.mp hi
      exact begets.own_or_new _ (List.mem_map_of_mem hx)
  | refused found ran kept =>
      rw [kept]
      exact ⟨(fresh.apply found ran).1, List.forall_mem_singleton.mpr (.inl rfl),
        List.pairwise_singleton _ _⟩
  | hooked found ran kept =>
      have given := (fresh.apply found ran).2 _ rfl old
      have ids := kept.map (·.id)
      rw [List.map_map] at ids
      exact ⟨given.forward, fun i hi => given.own_or_new i (ids.subset hi), given.distinct.sublist ids⟩

end Step.Effect

end PathSearch
