import PathSearch.Proofs.Alike
import PathSearch.Proofs.Solver.Enumeration
import PathSearch.Proofs.Sound

/-! # Resolving an address divides the inputs

An address that has few enough values is resolved into one fork for each of them. The inputs of the
state are divided among the forks by the value that the address has, so none is lost and none is taken
twice.
-/

namespace PathSearch.State

open PathSearch.Expr Attempt Session Smt

/-- A copy of a state, but for its identity and at most one more constraint. -/
structure CopiedTo (s t : State) : Prop where
  same : t = { s with id := t.id, parent := t.parent, constraints := t.constraints }
  constraints : t.constraints = s.constraints ∨
    ∃ c, t.constraints.items = s.constraints.items ++ [c]

/-- Copies of a state with different values of an address. Every input of the state is an input of
    exactly one of them, the one with the value that the address has. -/
structure Divides (s : State) (address : Expr) (candidates : List (State × Word)) : Prop where
  distinct : (candidates.map (·.2)).Nodup
  copies : ∀ p ∈ candidates, s.CopiedTo p.1
  unique : ∀ σ, s.Admits σ → ∃ p ∈ candidates, p.1.Admits σ ∧
    address.evaluate σ.bindings = some p.2 ∧ ∀ q ∈ candidates, q.1.Admits σ → q = p

variable {s t : State} {address : Expr} {cap : Nat} {session : Session}

theorem CopiedTo.refl (s : State) : s.CopiedTo s := ⟨rfl, .inl rfl⟩

theorem PinnedBy.copiedTo {v : Word} {c : Expr} (h : s.PinnedBy address v c t) : s.CopiedTo t where
  same := h.same
  constraints := by
    rcases Constraints.push_items h.pushed with ⟨-, unchanged⟩ | ⟨-, items⟩
    · exact .inl unchanged
    · exact .inr ⟨c, items⟩

theorem PinnedBy.admits {v : Word} {c : Expr} (h : s.PinnedBy address v c t) (σ : Assignment) :
    t.Admits σ ↔ s.Admits σ ∧ address.value σ = Word.truncate address.width v := by
  rw [← h.holds]
  exact (Constraints.push_ok h.bit.1 h.pushed).2 σ

/-- What the solver answers is all that resolving an address depends on. -/
theorem run_resolveAddress (s : State) (session : Session) (unknown : address.const? = none)
    (below : cap < 0xffffffffffffffff) :
    ∃ later : Session, (s.resolveAddress address cap).run session =
      (match ((Solver.evaluateMany address s.constraints (cap + 1)).run session.solver).1 with
        | .error e => match Reason.ofSolver? e with
          | some reason => throw reason
          | none => pure []
        | .ok values =>
            if cap < values.length then throw (.unconstrainedMemoryAccess address.text cap)
            else values.mapM fun value => do pure (← s.pin address value, value) :
        Attempt (List (State × Word))).run later := by
  have wanted : min (cap + 1) 0xffffffffffffffff = cap + 1 := by omega
  unfold resolveAddress
  simp only [unknown, wanted]
  exact ⟨_, run_ok_bind rfl _⟩

theorem settles_pinEach (s : State) (ha : address.WellFormed) (values : List Word) :
    Settles (values.mapM fun v => do pure (← s.pin address v, v))
      (List.Forall₂ (fun v p => p.2 = v ∧ ∃ c, s.PinnedBy address v c p.1) values) :=
  .mapM fun v _ => .bind (s.settles_pinnedBy ha v) fun _ pinned => .pure ⟨rfl, pinned⟩

/-- Pinning an address to each of its values divides the inputs of a state. -/
theorem divides_of_pinned (ha : address.WellFormed) {values : List Word} {candidates : List (State × Word)}
    (distinct : values.Nodup) (taken : ∀ v ∈ values, ∃ σ, s.Admits σ ∧ address.value σ = v)
    (complete : ∀ σ, s.Admits σ → address.value σ ∈ values)
    (each : List.Forall₂ (fun v p => p.2 = v ∧ ∃ c, s.PinnedBy address v c p.1) values candidates) :
    s.Divides address candidates ∧ candidates.map (·.2) = values ∧
      ∀ p ∈ candidates, p.1.constraints.Satisfiable := by
  have listed : candidates.map (·.2) = values := by
    rw [← map_eq_map each (f := fun v => v) fun v p given => given.1.symm, List.map_id']
  have admits {p : State × Word} (hp : p ∈ candidates) (σ : Assignment) :
      p.1.Admits σ ↔ s.Admits σ ∧ address.value σ = p.2 := by
    obtain ⟨v, hv, rfl, c, pinned⟩ := exists_left each hp
    obtain ⟨τ, -, value⟩ := taken p.2 hv
    have fits : p.2.toNat < 2 ^ address.width := value ▸ ha.value_lt τ
    rw [pinned.admits, Word.truncate_of_lt ha.width_le fits]
  have nodup : (candidates.map (·.2)).Nodup := listed ▸ distinct
  refine ⟨⟨nodup, fun p hp => ?_, fun σ admitted => ?_⟩, listed, fun p hp => ?_⟩
  · obtain ⟨v, -, -, c, pinned⟩ := exists_left each hp
    exact pinned.copiedTo
  · obtain ⟨p, hp, value, -⟩ := exists_right each (complete σ admitted)
    refine ⟨p, hp, (admits hp σ).mpr ⟨admitted, value.symm⟩, value ▸ ha.evaluate_eq σ, ?_⟩
    intro q hq here
    exact List.inj_on_of_nodup_map nodup hq hp (((admits hq σ).mp here).2.symm.trans value.symm)
  · obtain ⟨τ, admitted, value⟩ := taken p.2 (listed ▸ List.mem_map_of_mem hp)
    exact ⟨τ, (admits hp τ).mpr ⟨admitted, value⟩⟩

section Symbolic

variable {K : Constraints → Prop} (decisive : session.solver.Decisive K) (about : K s.constraints)
  (hcs : s.constraints.WellFormed) (ha : address.WellFormed)
  (oneWidth : Lowering.Consistent ((s.constraints.items ++ [address]).flatMap occurrences))
  (below : cap < 0xffffffffffffffff)

include decisive about hcs ha oneWidth below

/-- An address that is no constant has too many values, or is resolved to all of them. -/
theorem resolveAddress_cases (unknown : address.const? = none) :
    cap < (s.constraints.feasibleValues address).ncard ∧
        ((s.resolveAddress address cap).run session).1 =
          .error (.unconstrainedMemoryAccess address.text cap) ∨
      (s.constraints.feasibleValues address).ncard ≤ cap ∧
        ∃ candidates, ((s.resolveAddress address cap).run session).1 = .ok candidates ∧
          s.Divides address candidates ∧
          (∀ v, v ∈ candidates.map (·.2) ↔ v ∈ s.constraints.feasibleValues address) ∧
          ∀ p ∈ candidates, p.1.constraints.Satisfiable := by
  obtain ⟨later, ran⟩ := run_resolveAddress s session unknown below
  rw [ran]
  rcases decisive.evaluateMany_cases about hcs ha oneWidth (Nat.succ_ne_zero cap) with
    ⟨unsatisfiable, refused⟩ | ⟨satisfiable, values, answered, lists, length⟩
  · have none : s.constraints.feasibleValues address = ∅ :=
      Set.eq_empty_of_forall_notMem fun v ⟨σ, satisfied, _⟩ => unsatisfiable σ satisfied
    rw [refused, none]
    refine .inr ⟨by simp, [], rfl, ⟨.nil, nofun, fun σ admitted => ?_⟩, by simp, nofun⟩
    exact (unsatisfiable σ admitted).elim
  · rw [answered]
    by_cases many : cap < values.length
    · simp only [if_pos many]
      exact .inl ⟨by omega, rfl⟩
    · simp only [if_neg many]
      obtain ⟨candidates, last, pinned, -, each⟩ := settles_pinEach s ha values later
      have complete := lists.complete (by omega)
      obtain ⟨divides, listed, feasible⟩ :=
        divides_of_pinned ha lists.distinct lists.sound complete each
      refine .inr ⟨by omega, candidates, congrArg Prod.fst pinned, divides, fun v => ?_, feasible⟩
      rw [listed, Solver.mem_feasibleValues ha]
      refine ⟨lists.sound v, ?_⟩
      rintro ⟨σ, satisfied, rfl⟩
      exact complete σ satisfied

end Symbolic

/-- A constant is its own value, in the state itself. -/
theorem divides_const {v : Word} (known : address.const? = some v) : s.Divides address [(s, v)] where
  distinct := List.nodup_singleton v
  copies _ hp := List.mem_singleton.mp hp ▸ .refl s
  unique _ admitted := ⟨(s, v), .head _, admitted, evaluate_of_const? known,
    fun _ hq _ => List.mem_singleton.mp hq⟩

/-- Resolving an address with a solver that always decides is an exact partition. An address that is no
    constant and has more values than the cap is refused. Otherwise there is one copy of the state for
    each value, each with at most one more constraint, and every input of the state is an input of
    exactly one of them, of that with the value that the address has. There is none at all only for an
    address that is no constant, on a path that no input takes. -/
theorem resolveAddress_partition {s : State} {session : Session} {K : Constraints → Prop}
    (decisive : session.solver.Decisive K) (about : K s.constraints) (hcs : s.constraints.WellFormed)
    {address : Expr} (ha : address.WellFormed)
    (oneWidth : Lowering.Consistent ((s.constraints.items ++ [address]).flatMap occurrences)) {cap : Nat}
    (below : cap < 0xffffffffffffffff) :
    let feasible := s.constraints.feasibleValues address
    let answer := ((s.resolveAddress address cap).run session).1
    (address.isConst = false → cap < feasible.ncard →
      answer = .error (.unconstrainedMemoryAccess address.text cap)) ∧
    (address.isConst = true ∨ feasible.ncard ≤ cap →
      ∃ candidates, answer = .ok candidates ∧ s.Divides address candidates ∧
        (address.isConst = false ∨ s.constraints.Satisfiable →
          ∀ v, v ∈ candidates.map (·.2) ↔ v ∈ feasible) ∧
        (candidates = [] ↔ address.isConst = false ∧ s.constraints.Unsatisfiable) ∧
        (address.isConst = false → ∀ p ∈ candidates, p.1.constraints.Satisfiable)) := by
  intro feasible answer
  cases known : address.const? with
  | some v =>
      have const : address.isConst = true := Option.isSome_iff_exists.mpr ⟨v, known⟩
      have alone : answer = .ok [(s, v)] := by
        simp only [answer, resolveAddress, known]
        rfl
      have notSymbolic : ¬ address.isConst = false := by rw [const]; decide
      refine ⟨fun symbolic => absurd symbolic notSymbolic, fun _ => ?_⟩
      refine ⟨[(s, v)], alone, divides_const known, fun possible w => ?_, ?_, fun symbolic => ?_⟩
      · have satisfiable := possible.resolve_left notSymbolic
        rw [show feasible = {v} from Solver.feasibleValues_const ha known satisfiable]
        simp
      · exact iff_of_false (List.cons_ne_nil _ _) fun none => notSymbolic none.1
      · exact absurd symbolic notSymbolic
  | none =>
      have symbolic : address.isConst = false := by rw [isConst, known, Option.isSome_none]
      rcases resolveAddress_cases decisive about hcs ha oneWidth below known with
        ⟨many, refused⟩ | ⟨few, candidates, resolved, divides, values, satisfiable⟩
      · refine ⟨fun _ _ => refused, fun possible => ?_⟩
        rcases possible with const | few
        · cases const.symm.trans symbolic
        · exact absurd many (Nat.not_lt.mpr few)
      · refine ⟨fun _ many => absurd many (Nat.not_lt.mpr few), fun _ => ?_⟩
        refine ⟨candidates, resolved, divides, fun _ => values, ?_, fun _ => satisfiable⟩
        constructor
        · rintro rfl
          refine ⟨symbolic, fun σ admitted => ?_⟩
          obtain ⟨p, impossible, -⟩ := divides.unique σ admitted
          cases impossible
        · rintro ⟨-, unsatisfiable⟩
          refine List.eq_nil_iff_forall_not_mem.mpr fun p hp => ?_
          obtain ⟨σ, satisfied, -⟩ := (values p.2).mp (List.mem_map_of_mem hp)
          exact unsatisfiable σ satisfied

/-- A bit as an address has too many values for a cap of 1, and divides the inputs in two for a cap
    of 2. -/
theorem resolveAddress_partition_bit :
    let s := State.start { entry := 0x1000 } .zero 0
    let session : Session := { solver := .new .perfect { cacheResults := false } }
    ((s.resolveAddress (.var "bit" 1) 1).run session).1 =
        .error (.unconstrainedMemoryAccess (Expr.var "bit" 1).text 1) ∧
      ∃ candidates, ((s.resolveAddress (.var "bit" 1) 2).run session).1 = .ok candidates ∧
        (∀ v, v ∈ candidates.map (·.2) ↔ v = 0 ∨ v = 1) ∧ s.Divides (.var "bit" 1) candidates := by
  intro s session
  have decisive : session.solver.Decisive fun _ => True := Solver.decisive_new _
  have hcs : s.constraints.WellFormed := nofun
  have he : (Expr.var "bit" 1).WellFormed := ⟨by decide, by decide⟩
  have both : s.constraints.feasibleValues (.var "bit" 1) = {0, 1} := Solver.feasibleValues_bit "bit"
  have size : (s.constraints.feasibleValues (.var "bit" 1)).ncard = 2 := by
    rw [both, Set.ncard_pair (by decide)]
  have resolve (cap : Nat) (below : cap < 0xffffffffffffffff) :=
    resolveAddress_partition decisive trivial hcs he (Solver.consistent_var "bit" 1) below
  obtain ⟨refused, -⟩ := resolve 1 (by decide)
  obtain ⟨-, resolved⟩ := resolve 2 (by decide)
  obtain ⟨candidates, answer, divides, values, -⟩ := resolved (.inr (by rw [size]))
  refine ⟨refused rfl (by rw [size]; decide), candidates, answer, fun v => ?_, divides⟩
  rw [values (.inl rfl), both, Set.mem_insert_iff, Set.mem_singleton_iff]

end PathSearch.State
