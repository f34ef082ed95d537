import PathSearch.Proofs.Solver.Exact
import PathSearch.State.Session

/-! # Work within a session

Work in a session whose solver is exact leaves it exact, and what it gives has the properties that
the exact answers warrant. The rules follow the way in which such work is put together. With them:
the states in which an address is resolved divide the inputs of a state by the value of the address.
-/

namespace PathSearch

open PathSearch.Expr

namespace Session

variable {α β : Type}

/-- In a session whose solver is exact about certain constraints the work gives a result with the
    property and keeps the solver exact. -/
def Ensures (K : Constraints → Prop) (x : StateM Session α) (post : α → Prop) : Prop :=
  ∀ session : Session, session.solver.ExactOn K →
    post (x.run session).1 ∧ (x.run session).2.solver.ExactOn K

namespace Ensures

variable {K : Constraints → Prop}

theorem pure {post : α → Prop} {a : α} (h : post a) : Ensures K (pure a) post :=
  fun _ exact => ⟨h, exact⟩

theorem bind {x : StateM Session α} {f : α → StateM Session β} {mid : α → Prop} {post : β → Prop}
    (first : Ensures K x mid) (next : ∀ a, mid a → Ensures K (f a) post) :
    Ensures K (x >>= f) post := by
  intro session exact
  obtain ⟨given, kept⟩ := first session exact
  exact next _ given _ kept

theorem mono {x : StateM Session α} {post post' : α → Prop} (h : Ensures K x post)
    (weaker : ∀ a, post a → post' a) : Ensures K x post' :=
  fun session exact => ⟨weaker _ (h session exact).1, (h session exact).2⟩

theorem mapM {list : List α} {f : α → StateM Session β} {post : α → β → Prop}
    (each : ∀ a ∈ list, Ensures K (f a) (post a)) :
    Ensures K (list.mapM f) (List.Forall₂ post list) := by
  induction list with
  | nil =>
      rw [List.mapM_nil]
      exact pure .nil
  | cons first rest ih =>
      rw [List.mapM_cons]
      refine bind (each first (by simp)) fun b head => ?_
      refine bind (ih fun a ha => each a (by simp [ha])) fun bs tail => ?_
      exact pure (.cons head tail)

theorem foldlM {list : List α} {f : β → α → StateM Session β} {post : β → Prop} {b : β}
    (start : post b) (each : ∀ a ∈ list, ∀ b, post b → Ensures K (f b a) post) :
    Ensures K (list.foldlM f b) post := by
  induction list generalizing b with
  | nil => exact pure start
  | cons first rest ih =>
      rw [List.foldlM_cons]
      refine bind (each first (by simp) b start) fun c given => ?_
      exact ih given fun a ha => each a (by simp [ha])

/-- Identities have nothing to do with the solver. -/
theorem fresh {work : Fresh α} {post : Except Error α → Prop} (h : ∀ n, post (work.run n).1) :
    Ensures K (Session.fresh work) post :=
  fun session exact => ⟨h session.nextId, exact⟩

theorem isSatisfiable {cs : Constraints} (about : K cs) (wellFormed : cs.WellFormed) :
    Ensures K (ask (Solver.isSatisfiable cs)) fun answer =>
      (∀ b, answer = .ok b → (b = true ↔ ∃ σ, cs.SatisfiedBy σ)) ∧
        (answer = .error .unsatisfiable → cs.Unsatisfiable) := by
  intro session exact
  refine ⟨⟨fun b answered => ?_, fun refused => ?_⟩, exact.isSatisfiable about wellFormed⟩
  · exact exact.correct.satisfiable about wellFormed answered
  · exact exact.correct.refused about wellFormed refused

theorem evaluateMany {e : Expr} {cs : Constraints} (he : e.WellFormed) (about : K cs)
    (wellFormed : cs.WellFormed) (n : Nat) :
    Ensures K (ask (Solver.evaluateMany e cs n)) fun answer =>
      (∀ values, answer = .ok values → Solver.Lists cs e n values) ∧
      (answer = .error .unsatisfiable → cs.Unsatisfiable) := by
  intro session exact
  refine ⟨⟨fun values answered => ?_, fun refused => ?_⟩, exact.evaluateMany he about wellFormed n⟩
  · exact exact.correct.lists he about wellFormed answered
  · exact exact.correct.unsatisfiable he about wellFormed refused

end Ensures

end Session

namespace Attempt

open Session

variable {α β : Type}

/-- What the work gives has the property, where it does not fail. -/
def Gives (K : Constraints → Prop) (x : Attempt α) (post : α → Prop) : Prop :=
  Ensures K x.run fun result => ∀ a, result = .ok a → post a

namespace Gives

variable {K : Constraints → Prop}

theorem pure {post : α → Prop} {a : α} (h : post a) : Gives K (pure a) post :=
  Ensures.pure fun _ same => Except.ok.inj same ▸ h

theorem throw {post : α → Prop} (reason : Reason) : Gives K (throw reason) post :=
  Ensures.pure fun _ same => by cases same

theorem bind {x : Attempt α} {f : α → Attempt β} {mid : α → Prop} {post : β → Prop}
    (first : Gives K x mid) (next : ∀ a, mid a → Gives K (f a) post) : Gives K (x >>= f) post := by
  unfold Gives
  rw [ExceptT.run_bind]
  refine Ensures.bind first fun result given => ?_
  cases result with
  | ok a => exact next a (given a rfl)
  | error reason => exact Ensures.pure fun _ same => by cases same

theorem mono {x : Attempt α} {post post' : α → Prop} (h : Gives K x post)
    (weaker : ∀ a, post a → post' a) : Gives K x post' :=
  Ensures.mono h fun _ given a same => weaker a (given a same)

theorem lift {x : StateM Session α} {post : α → Prop} (h : Ensures K x post) :
    Gives K (liftM x) post :=
  Ensures.bind h fun _ given => Ensures.pure fun _ same => Except.ok.inj same ▸ given

theorem orFault (result : Except Error α) : Gives K (orFault result) fun a => result = .ok a := by
  cases result with
  | ok a => exact pure rfl
  | error e => exact throw _

theorem mapM {list : List α} {f : α → Attempt β} {post : α → β → Prop}
    (each : ∀ a ∈ list, Gives K (f a) (post a)) :
    Gives K (list.mapM f) (List.Forall₂ post list) := by
  induction list with
  | nil =>
      rw [List.mapM_nil]
      exact pure .nil
  | cons first rest ih =>
      rw [List.mapM_cons]
      refine bind (each first (by simp)) fun b head => ?_
      refine bind (ih fun a ha => each a (by simp [ha])) fun bs tail => ?_
      exact pure (.cons head tail)

end Gives

end Attempt

namespace Constraints

/-- Sequences that divide among them the inputs of a sequence. -/
structure Partition (cs : Constraints) (parts : List Constraints) : Prop where
  within : ∀ p ∈ parts, ∀ σ, p.SatisfiedBy σ → cs.SatisfiedBy σ
  covers : ∀ σ, cs.SatisfiedBy σ → ∃ p ∈ parts, p.SatisfiedBy σ
  disjoint : parts.Pairwise fun p q => ∀ σ, p.SatisfiedBy σ → ¬ q.SatisfiedBy σ

namespace Partition

theorem whole (cs : Constraints) : Partition cs [cs] where
  within p hp σ sat := List.mem_singleton.mp hp ▸ sat
  covers σ sat := ⟨cs, by simp, sat⟩
  disjoint := List.pairwise_singleton _ _

theorem empty {cs : Constraints} (none : cs.Unsatisfiable) : Partition cs [] where
  within _ hp := by cases hp
  covers σ sat := absurd sat (none σ)
  disjoint := .nil

/-- The values that something has divide the inputs. -/
theorem ofValues {cs : Constraints} {key : Assignment → Word} {values : List Word}
    {parts : List Constraints} (distinct : values.Nodup)
    (complete : ∀ σ, cs.SatisfiedBy σ → key σ ∈ values)
    (each : List.Forall₂ (fun v p => ∀ σ, p.SatisfiedBy σ ↔ cs.SatisfiedBy σ ∧ key σ = v) values
      parts) :
    Partition cs parts where
  within p hp σ sat := by
    obtain ⟨v, -, same⟩ := exists_left each hp
    exact ((same σ).mp sat).1
  covers σ sat := by
    obtain ⟨p, hp, same⟩ := exists_right each (complete σ sat)
    exact ⟨p, hp, (same σ).mpr ⟨sat, rfl⟩⟩
  disjoint := by
    clear complete
    induction each with
    | nil => exact .nil
    | cons head tail ih =>
        obtain ⟨others, rest⟩ := List.nodup_cons.mp distinct
        refine .cons (fun q hq σ here there => ?_) (ih rest)
        obtain ⟨w, hw, same⟩ := exists_left tail hq
        -- an input of both parts gives the key two values
        have first := ((head σ).mp here).2
        have second := ((same σ).mp there).2
        exact others (first ▸ second ▸ hw)

/-- An input of the whole is an input of exactly one of the parts. -/
theorem unique {α : Type} {cs : Constraints} {list : List α} {part : α → Constraints}
    (h : Partition cs (list.map part)) {σ : Assignment} (sat : cs.SatisfiedBy σ) :
    ∃ k : Fin list.length, (part (list.get k)).SatisfiedBy σ ∧
      ∀ j, (part (list.get j)).SatisfiedBy σ → j = k := by
  obtain ⟨p, hp, here⟩ := h.covers σ sat
  obtain ⟨a, ha, rfl⟩ := List.mem_map.mp hp
  obtain ⟨k, rfl⟩ := List.mem_iff_get.mp ha
  have apart := List.pairwise_iff_getElem.mp (List.pairwise_map.mp h.disjoint)
  refine ⟨k, here, fun j there => ?_⟩
  rcases Nat.lt_trichotomy j k with before | same | after
  · exact absurd here (apart j k j.isLt k.isLt before σ there)
  · exact Fin.ext same
  · exact absurd there (apart k j k.isLt j.isLt after σ here)

end Partition

end Constraints

namespace State

/-- A state that differs from another in its identity only, and in that it asks for more of the
    inputs. -/
structure Narrows (s t : State) (holds : Assignment → Prop) : Prop where
  ip : t.ip = s.ip
  steps : t.steps = s.steps
  registers : t.registers = s.registers
  memory : t.memory = s.memory
  history : t.history = s.history
  streams : t.streams = s.streams
  constraints : t.constraints.WellFormed
  admits : ∀ σ, t.Admits σ ↔ s.Admits σ ∧ holds σ

variable {s t : State} {holds : Assignment → Prop}

theorem Narrows.wellFormed (h : s.Narrows t holds) (hs : s.WellFormed) : t.WellFormed :=
  ⟨h.registers ▸ hs.registers, h.memory ▸ hs.memory, h.constraints⟩

theorem Narrows.concrete_eq (h : s.Narrows t holds) (σ : Assignment) : t.concrete σ = s.concrete σ := by
  simp only [concrete, readRegister, h.ip, h.registers, h.memory]

theorem Narrows.refl (hs : s.WellFormed) : s.Narrows s fun _ => True :=
  ⟨rfl, rfl, rfl, rfl, rfl, rfl, hs.constraints, fun _ => (and_iff_left trivial).symm⟩

theorem narrows_addConstraint (hs : s.WellFormed) {c : Expr} (hc : c.WellFormed) {id : Nat}
    (h : (s.fork id).addConstraint c = .ok t) : s.Narrows t fun σ => c.value σ = 1 := by
  obtain ⟨cs, pushed, result⟩ := bind_ok h
  cases result
  obtain ⟨wellFormed, satisfied⟩ := Constraints.push_ok hc pushed
  exact ⟨rfl, rfl, rfl, rfl, rfl, rfl, wellFormed hs.constraints, satisfied⟩

open Attempt Session

variable {K : Constraints → Prop}

theorem gives_fork (s : State) :
    Ensures K (fresh s.forkFresh) fun result => ∃ id, result = .ok (s.fork id) :=
  Ensures.fresh fun n => ⟨n, rfl⟩

/-- Where an expression is pinned to a value that fits it, it has that value. -/
theorem gives_pin (hs : s.WellFormed) {e : Expr} (he : e.WellFormed) {v : Word}
    (fits : v.toNat < 2 ^ e.width) :
    Gives K (s.pin e v) fun t => s.Narrows t fun σ => e.value σ = v := by
  refine .bind (.lift s.gives_fork) fun result forked => ?_
  obtain ⟨id, rfl⟩ := forked
  refine .bind (.orFault _) fun fork same => ?_
  cases same
  refine (Gives.orFault _).mono fun t built => ?_
  obtain ⟨c, hc, built⟩ := bind_ok built
  obtain ⟨d, hd, built⟩ := bind_ok built
  have constant := mkConst_denotes hc
  have equal := equals_denotes he constant.wellFormed hd
  have narrows := narrows_addConstraint hs equal.wellFormed built
  refine { narrows with admits := fun σ => (narrows.admits σ).trans (and_congr_right fun _ => ?_) }
  have constantValue : c.value σ = v := by
    have := Option.some.inj (constant.some_value σ)
    rwa [Word.truncate_of_lt he.width_le fits] at this
  have flag := equal.some_value σ
  rw [constantValue, Op.foldBinary_eq_ofBool he.width_pos he.width_le (he.value_lt σ) fits] at flag
  rw [Option.some.inj flag]
  by_cases same : e.value σ = v <;> simp [Word.ofBool, same]

/-- One more than the cap can be asked for. -/
def Countable (cap : Nat) : Prop := cap < 0xffffffffffffffff

/-- States in which an address has each of its values, with those values. -/
structure Resolved (s : State) (address : Expr) (cap : Nat) (candidates : List (State × Word)) :
    Prop where
  narrows : ∀ p ∈ candidates, s.Narrows p.1 fun σ => address.value σ = p.2
  feasible : s.constraints.Satisfiable → ∀ p ∈ candidates, p.1.constraints.Satisfiable
  partition : Countable cap → s.constraints.Partition (candidates.map (·.1.constraints))

/-- An address that has certain values, and no others if they could all be asked for, is resolved by
    pinning it to each of them. -/
theorem gives_pinEach (hs : s.WellFormed) {address : Expr} (ha : address.WellFormed) {cap : Nat}
    {values : List Word} (distinct : values.Nodup)
    (taken : ∀ v ∈ values, ∃ σ, s.Admits σ ∧ address.value σ = v)
    (complete : Countable cap → ∀ σ, s.Admits σ → address.value σ ∈ values) :
    Gives K (values.mapM fun v => do pure (← s.pin address v, v)) (s.Resolved address cap) := by
  have fits : ∀ v ∈ values, v.toNat < 2 ^ address.width := by
    intro v hv
    obtain ⟨σ, -, rfl⟩ := taken v hv
    exact ha.value_lt σ
  have each : ∀ v ∈ values, Gives K (do pure (← s.pin address v, v)) fun p =>
      p.2 = v ∧ s.Narrows p.1 fun σ => address.value σ = v := fun v hv =>
    .bind (gives_pin hs ha (fits v hv)) fun t narrows => .pure ⟨rfl, narrows⟩
  refine (Gives.mapM each).mono fun candidates related =>
    ⟨fun p hp => ?_, fun _ p hp => ?_, fun below => ?_⟩
  · obtain ⟨v, -, rfl, narrows⟩ := exists_left related hp
    exact narrows
  · obtain ⟨v, hv, rfl, narrows⟩ := exists_left related hp
    obtain ⟨σ, met⟩ := taken _ hv
    exact ⟨σ, (narrows.admits σ).mpr met⟩
  · refine .ofValues distinct (complete below) ?_
    rw [List.forall₂_map_right_iff]
    exact related.imp fun v p given => given.2.admits

theorem gives_resolveAddress (hs : s.WellFormed) (about : K s.constraints) {address : Expr}
    (ha : address.WellFormed) (cap : Nat) :
    Gives K (s.resolveAddress address cap) (s.Resolved address cap) := by
  unfold resolveAddress
  split
  · rename_i v known
    have pinned : ∀ σ, address.value σ = v := value_of_const? known
    refine .pure ⟨fun p hp => ?_, fun feasible p hp => ?_, fun _ => .whole _⟩
    · obtain rfl := List.mem_singleton.mp hp
      refine { Narrows.refl hs with admits := fun σ => ?_ }
      exact (and_iff_left (pinned σ)).symm
    · obtain rfl := List.mem_singleton.mp hp
      exact feasible
  · refine .bind (.lift (.evaluateMany ha about hs.constraints _)) fun answer given => ?_
    obtain ⟨listed, refused⟩ := given
    cases answer with
    | error e =>
        cases e with
        | unsatisfiable =>
            refine .pure ⟨fun p hp => ?_, fun _ p hp => ?_, fun _ => .empty (refused rfl)⟩
            · cases hp
            · cases hp
        | timeout ms => exact .throw _
        | unknown reason => exact .throw _
    | ok values =>
        have lists := listed values rfl
        simp only
        split
        · exact .throw _
        · rename_i few
          refine gives_pinEach hs ha lists.distinct lists.sound fun below => lists.complete ?_
          unfold Countable at below
          omega

/-- Reading goes on in the states in which the address is resolved. -/
theorem gives_readResolved (hs : s.WellFormed) (about : K s.constraints) {address : Expr}
    (ha : address.WellFormed) (size cap : Nat) :
    Gives K (s.readResolved address size cap) fun loaded =>
      (∀ q ∈ loaded, ∃ a, s.Narrows q.1 (fun σ => address.value σ = a) ∧
        (s.constraints.Satisfiable → q.1.constraints.Satisfiable) ∧
        q.1.readMemory a size = .ok q.2) ∧
      (Countable cap → s.constraints.Partition (loaded.map (·.1.constraints))) := by
  refine .bind (gives_resolveAddress hs about ha cap) fun candidates resolved => ?_
  have each : ∀ p ∈ candidates, Gives K (do pure (p.1, ← orFault (p.1.readMemory p.2 size))) fun q =>
      p.1 = q.1 ∧ p.1.readMemory p.2 size = .ok q.2 := fun p _ =>
    .bind (.orFault _) fun v read => .pure ⟨rfl, read⟩
  refine (Gives.mapM each).mono fun loaded related => ⟨fun q hq => ?_, ?_⟩
  · obtain ⟨p, hp, same, read⟩ := exists_left related hq
    exact ⟨p.2, same ▸ resolved.narrows p hp, fun feasible => same ▸ resolved.feasible feasible p hp,
      same ▸ read⟩
  · rw [← map_eq_map related fun p q given => congrArg State.constraints given.1]
    exact resolved.partition

/-- Writing goes on in the states in which the address is resolved. -/
theorem gives_writeResolved (hs : s.WellFormed) (about : K s.constraints) {address : Expr}
    (ha : address.WellFormed) (value : Expr) (cap : Nat) :
    Gives K (s.writeResolved address value cap) fun stored =>
      (∀ t ∈ stored, ∃ u a, s.Narrows u (fun σ => address.value σ = a) ∧
        (s.constraints.Satisfiable → u.constraints.Satisfiable) ∧ u.writeMemory a value = .ok t) ∧
      (Countable cap → s.constraints.Partition (stored.map (·.constraints))) := by
  refine .bind (gives_resolveAddress hs about ha cap) fun candidates resolved => ?_
  have each : ∀ p ∈ candidates, Gives K (orFault (p.1.writeMemory p.2 value)) fun t =>
      p.1.writeMemory p.2 value = .ok t := fun p _ => .orFault _
  refine (Gives.mapM each).mono fun stored related => ⟨fun t ht => ?_, ?_⟩
  · obtain ⟨p, hp, written⟩ := exists_left related ht
    exact ⟨p.1, p.2, resolved.narrows p hp, fun feasible => resolved.feasible feasible p hp, written⟩
  · have kept : ∀ (p : State × Word) (t : State), p.1.writeMemory p.2 value = .ok t →
        p.1.constraints = t.constraints := by
      intro p t written
      obtain ⟨m, -, result⟩ := bind_ok written
      cases result
      rfl
    rw [← map_eq_map related kept]
    exact resolved.partition

end State

end PathSearch
