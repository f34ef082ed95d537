import PathSearch.Proofs.Solver.Enumeration
import PathSearch.Search.Explorer

/-! # Found states that tell nothing new

A found state is dropped when its constraints leave the observed expression one value, and an earlier
found state was left the same one. Which states are left one value is a matter of the constraints alone,
for a solver that always decides, so the same states are kept whatever it was asked before, and nothing
is left to drop afterwards.
-/

namespace PathSearch

open PathSearch.Expr Solver

/-- Of two values that were asked for one is listed where there is no other. -/
theorem Solver.Lists.eq_singleton_iff {cs : Constraints} {e : Expr} {values : List Word}
    (h : Lists cs e 2 values) (he : e.WellFormed) (atMost : values.length ≤ 2) (v : Word) :
    values = [v] ↔ cs.feasibleValues e = {v} := by
  have length := h.length_eq he atMost
  constructor
  · rintro rfl
    have one : (cs.feasibleValues e).ncard = 1 := by
      rw [List.length_singleton] at length
      omega
    obtain ⟨w, single⟩ := Set.ncard_eq_one.mp one
    have listed : v ∈ cs.feasibleValues e := (mem_feasibleValues he).mpr (h.sound v (.head _))
    rw [single] at listed ⊢
    rw [Set.mem_singleton_iff.mp listed]
  · intro single
    rw [single, Set.ncard_singleton] at length
    obtain ⟨w, rfl⟩ := List.length_eq_one_iff.mp length
    have listed : w ∈ cs.feasibleValues e := (mem_feasibleValues he).mpr (h.sound w (.head _))
    rw [single] at listed
    rw [Set.mem_singleton_iff.mp listed]

/-- What is demanded to be true has one value. -/
theorem Solver.feasibleValues_demanded {cs : Constraints} {e : Expr} (he : e.WellFormed)
    (satisfiable : (cs.append e).Satisfiable) : (cs.append e).feasibleValues e = {1} := by
  obtain ⟨σ, satisfied⟩ := satisfiable
  ext v
  rw [mem_feasibleValues he, Set.mem_singleton_iff]
  constructor
  · rintro ⟨τ, holds, rfl⟩
    exact ((Constraints.satisfiedBy_append he τ).mp holds).2
  · rintro rfl
    exact ⟨σ, satisfied, ((Constraints.satisfiedBy_append he σ).mp satisfied).2⟩

namespace Result

section Lists

variable {α : Type} (pinned : α → Word → Prop)

/-- An element, given with its place in a list, is pinned to a value to which one in front of it is
    pinned. -/
def Repeats (list : List α) (p : α × Nat) : Prop :=
  ∃ v, pinned p.1 v ∧ ∃ a ∈ list.take p.2, pinned a v

open Classical in
/-- The elements of a list that do not repeat an earlier one, in their order. -/
noncomputable def firsts (list : List α) : List α :=
  (list.zipIdx.filter fun p => ¬ Repeats pinned list p).map (·.1)

/-- No two elements of a list are pinned to one value. -/
def Apart (list : List α) : Prop := list.Pairwise fun a b => ∀ v, pinned a v → ¬ pinned b v

variable {pinned} {list : List α}

theorem mem_of_mem_firsts {a : α} (ha : a ∈ firsts pinned list) : a ∈ list := by
  obtain ⟨p, hp, rfl⟩ := List.mem_map.mp ha
  exact List.mem_of_getElem? (List.mem_zipIdx_iff_getElem?.mp (List.mem_of_mem_filter hp))

theorem length_firsts_le : (firsts pinned list).length ≤ list.length := by
  rw [firsts, List.length_map]
  exact (List.length_filter_le _ _).trans_eq List.length_zipIdx

theorem apart_firsts (pinned : α → Word → Prop) (list : List α) : Apart pinned (firsts pinned list) := by
  have ascending : list.zipIdx.Pairwise fun p q => p.2 < q.2 := by
    rw [← List.pairwise_map (l := list.zipIdx), List.zipIdx_map_snd]
    exact List.pairwise_lt_range'
  refine List.pairwise_map.mpr ((ascending.filter _).imp_of_mem ?_)
  intro p q hp hq before v here there
  have place := List.mem_zipIdx_iff_getElem?.mp (List.mem_of_mem_filter hp)
  have inFront : p.1 ∈ list.take q.2 :=
    List.mem_of_getElem? ((List.getElem?_take_of_lt before).trans place)
  have new : ¬ Repeats pinned list q := by simpa using (List.mem_filter.mp hq).2
  exact new ⟨v, there, p.1, inFront, here⟩

theorem firsts_of_apart (apart : Apart pinned list) : firsts pinned list = list := by
  rw [firsts, List.filter_eq_self.mpr, List.zipIdx_map_fst]
  intro p hp
  obtain ⟨inside, place⟩ := List.getElem?_eq_some_iff.mp (List.mem_zipIdx_iff_getElem?.mp hp)
  have new : ¬ Repeats pinned list p := by
    rintro ⟨v, here, a, inFront, there⟩
    obtain ⟨i, below, rfl⟩ := List.mem_take_iff_getElem.mp inFront
    have before : i < p.2 := Nat.lt_of_lt_of_le below (Nat.min_le_left _ _)
    rw [← place] at here
    exact List.pairwise_iff_getElem.mp apart i p.2 _ inside before v there here
  simpa using new

end Lists

/-- The flags of states, where the answers about states are known. -/
def flagsOf (answers : State → Except Error (List Word)) : List State → (seen : List Word) →
    Except Error (List Bool)
  | [], _ => .ok []
  | s :: rest, seen => do
      let values ← answers s
      let flags ← flagsOf answers rest (keepDistinct values seen).2
      pure ((keepDistinct values seen).1 :: flags)

section Flags

variable {answers : State → Except Error (List Word)} {pinned : State → Word → Prop}
  {values seen : List Word} {states before : List State} {flags : List Bool}

/-- A state is kept unless it is pinned to a value that was seen, and then that value is seen. -/
theorem keepDistinct_spec {here : Word → Prop} (pins : ∀ v, values = [v] ↔ here v) (seen : List Word) :
    ((keepDistinct values seen).1 = true ↔ ¬ ∃ v, here v ∧ v ∈ seen) ∧
      ∀ v, v ∈ (keepDistinct values seen).2 ↔ v ∈ seen ∨ here v := by
  simp only [← pins]
  unfold keepDistinct
  split
  · rename_i v
    by_cases known : v ∈ seen
    · simp [known]
    · simp [known, or_comm, eq_comm]
  · rename_i other
    have several (v : Word) : values ≠ [v] := other v
    simp [several]

open Classical in
/-- With the values that are seen to which the states in front are pinned, what is kept are the states
    that repeat none in front of them. -/
theorem retain_flagsOf
    (pins : ∀ s ∈ states, ∀ values, answers s = .ok values → ∀ v, values = [v] ↔ pinned s v)
    (known : ∀ v, v ∈ seen ↔ ∃ s ∈ before, pinned s v) (h : flagsOf answers states seen = .ok flags) :
    retain states flags = ((states.zipIdx before.length).filter fun p =>
      ¬ Repeats pinned (before ++ states) p).map (·.1) := by
  induction states generalizing before seen flags with
  | nil =>
      cases h
      rfl
  | cons s rest ih =>
      obtain ⟨values, answered, h⟩ := bind_ok h
      obtain ⟨others, later, result⟩ := bind_ok h
      cases result
      obtain ⟨keep, grows⟩ := keepDistinct_spec (pins s (.head _) values answered) seen
      have known' (v : Word) : v ∈ (keepDistinct values seen).2 ↔ ∃ t ∈ before ++ [s], pinned t v := by
        simp [grows, known, or_and_right, exists_or]
      have tail := ih (fun t ht => pins t (.tail _ ht)) known' later
      rw [List.append_assoc, List.singleton_append, List.length_append, List.length_singleton] at tail
      have repeats : Repeats pinned (before ++ s :: rest) (s, before.length) ↔
          ∃ v, pinned s v ∧ v ∈ seen := by
        simp only [Repeats, List.take_left, known]
      rw [retain, List.zipIdx_cons, List.filter_cons, tail]
      by_cases kept : (keepDistinct values seen).1 = true
      · simp [kept, repeats.not.mpr (keep.mp kept)]
      · simp [kept, repeats.mpr (not_not.mp (keep.not.mp kept))]

/-- What is kept are the first states for each value. -/
theorem retain_eq_firsts
    (pins : ∀ s ∈ states, ∀ values, answers s = .ok values → ∀ v, values = [v] ↔ pinned s v)
    (h : flagsOf answers states [] = .ok flags) : retain states flags = firsts pinned states :=
  retain_flagsOf pins (by simp : ∀ v, v ∈ [] ↔ ∃ s ∈ [], pinned s v) h

theorem answered_of_flagsOf (h : flagsOf answers states seen = .ok flags) :
    ∀ s ∈ states, ∃ values, answers s = .ok values := by
  induction states generalizing seen flags with
  | nil => exact List.forall_mem_nil _
  | cons s rest ih =>
      obtain ⟨values, answered, h⟩ := bind_ok h
      obtain ⟨others, later, -⟩ := bind_ok h
      exact List.forall_mem_cons.mpr ⟨⟨values, answered⟩, ih later⟩

theorem flagsOf_total (each : ∀ s ∈ states, ∃ values, answers s = .ok values) (seen : List Word) :
    ∃ flags, flagsOf answers states seen = .ok flags := by
  induction states generalizing seen with
  | nil => exact ⟨[], rfl⟩
  | cons s rest ih =>
      obtain ⟨⟨values, answered⟩, later⟩ := List.forall_mem_cons.mp each
      obtain ⟨others, listed⟩ := ih later (keepDistinct values seen).2
      rw [flagsOf, ok_bind answered, ok_bind listed]
      exact ⟨_, rfl⟩

end Flags

/-- The constraints of a state leave the observed expression one value. -/
def Pinned (observe : State → Except Error Expr) (s : State) (v : Word) : Prop :=
  ∃ e, observe s = .ok e ∧ s.constraints.feasibleValues e = {v}

/-- What a solver answers about a state: up to two values of the observed expression. -/
def answer (observe : State → Except Error Expr) (solver : Solver) (s : State) :
    Except Error (List Word) := do
  let e ← observe s
  ((twoValues e s.constraints).run solver).1

/-- A state that can be asked about: its expressions are well-formed, and its constraints are among
    those that the memory of the solver tells apart. -/
structure Observable (K : Constraints → Prop) (observe : State → Except Error Expr) (s : State) :
    Prop where
  about : K s.constraints
  conditions : s.constraints.WellFormed
  expression : ∀ e, observe s = .ok e → e.WellFormed

section Run

variable {observe : State → Except Error Expr} {t : Solver} {s : State} {e : Expr}

theorem twoValues_ok_iff {cs : Constraints} {values : List Word} :
    ((twoValues e cs).run t).1 = .ok values ↔ ((evaluateMany e cs 2).run t).1 = .ok values := by
  change ((evaluateMany e cs 2).run t).1.mapError Error.solver = .ok values ↔ _
  cases ((evaluateMany e cs 2).run t).1 <;> simp [Except.mapError]

/-- A state is asked about, then the states behind it. -/
theorem run_distinctFlags_cons (rest : List State) (seen : List Word) (observed : observe s = .ok e) :
    (distinctFlags observe (s :: rest) seen).run t =
      match (twoValues e s.constraints).run t with
      | (.ok values, u) =>
          let later := (distinctFlags observe rest (keepDistinct values seen).2).run u
          (later.1.map ((keepDistinct values seen).1 :: ·), later.2)
      | (.error failure, u) => (.error failure, u) := by
  rw [distinctFlags, run_ok_bind (run_lift observed t), run_bind]
  rcases (twoValues e s.constraints).run t with ⟨_ | values, u⟩
  · rfl
  · dsimp only
    rw [run_bind]
    rcases (distinctFlags observe rest (keepDistinct values seen).2).run u with ⟨_ | _, _⟩ <;> rfl

end Run

section Ask

variable {K : Constraints → Prop} {observe : State → Except Error Expr} {solver t u : Solver} {s : State}
  {e : Expr} {states : List State} {values : List Word}

/-- The answer about a state that the solver gives tells the one value to which it is pinned. -/
theorem answer_pins (decisive : solver.Decisive K) (observable : Observable K observe s)
    (answered : answer observe solver s = .ok values) (v : Word) :
    values = [v] ↔ Pinned observe s v := by
  obtain ⟨e, observed, given⟩ := bind_ok answered
  have he := observable.expression e observed
  have listed := twoValues_ok_iff.mp given
  have lists : Lists s.constraints e 2 values := (evaluateMany_ensures decisive.exact
    decisive.distinct observable.about observable.conditions he 2 solver decisive.faithful).2.1 _ listed
  have atMost : values.length ≤ 2 :=
    (evaluateMany_atMost e s.constraints 2 solver rfl).2.1 values listed
  rw [lists.eq_singleton_iff he atMost]
  constructor
  · exact fun single => ⟨e, observed, single⟩
  · rintro ⟨e', observed', single⟩
    obtain rfl := Except.ok.inj (observed.symm.trans observed')
    exact single

/-- The solver answers about a state whose constraints can be satisfied. -/
theorem answered_of_satisfiable (decisive : solver.Decisive K) (observable : Observable K observe s)
    (observed : observe s = .ok e)
    (oneWidth : Smt.Lowering.Consistent ((s.constraints.items ++ [e]).flatMap occurrences))
    (satisfiable : s.constraints.Satisfiable) : ∃ values, answer observe solver s = .ok values := by
  obtain ⟨σ, satisfied⟩ := satisfiable
  rcases decisive.evaluateMany_cases observable.about observable.conditions
    (observable.expression e observed) oneWidth two_ne_zero with
    ⟨unsatisfiable, -⟩ | ⟨-, values, given, -⟩
  · exact (unsatisfiable σ satisfied).elim
  · exact ⟨values, (ok_bind observed _).trans (twoValues_ok_iff.mpr given)⟩

/-- The flags come to what follows from the answers that the solver gives at first. -/
theorem distinctFlags_run (decisive : solver.Decisive K)
    (each : ∀ s ∈ states, Observable K observe s) (seen : List Word)
    (ht : t.Faithful solver.backend solver.config K) :
    ((distinctFlags observe states seen).run t).1 = flagsOf (answer observe solver) states seen ∧
      ((distinctFlags observe states seen).run t).2.Faithful solver.backend solver.config K := by
  induction states generalizing seen t with
  | nil => exact ⟨rfl, ht⟩
  | cons s rest ih =>
      obtain ⟨here, later⟩ := List.forall_mem_cons.mp each
      cases observed : observe s with
      | error failure =>
          have refused : answer observe solver s = .error failure := by
            rw [answer, observed]
            rfl
          rw [flagsOf, refused, distinctFlags, run_bind, observed]
          exact ⟨rfl, ht⟩
      | ok e =>
          have same : ((twoValues e s.constraints).run t).1 = ((twoValues e s.constraints).run solver).1 :=
            congrArg (Except.mapError Error.solver) (evaluateMany_agree decisive.exact decisive.decides
              decisive.distinct decisive.distinct here.about here.conditions rfl e 2 t solver ht
              decisive.faithful)
          have kept : ((twoValues e s.constraints).run t).2.Faithful solver.backend solver.config K :=
            (evaluateMany_ensures decisive.exact decisive.distinct here.about here.conditions
              (here.expression e observed) 2 t ht).1
          have asked : answer observe solver s = ((twoValues e s.constraints).run t).1 :=
            (ok_bind observed _).trans same.symm
          rw [run_distinctFlags_cons rest seen observed, flagsOf, asked]
          generalize (twoValues e s.constraints).run t = outcome at kept
          rcases outcome with ⟨_ | values, u⟩
          · exact ⟨rfl, kept⟩
          · obtain ⟨result, faithful⟩ := ih later (keepDistinct values seen).2 kept
            refine ⟨?_, faithful⟩
            rw [ok_bind rfl, ← result]
            dsimp only
            cases ((distinctFlags observe rest (keepDistinct values seen).2).run u).1 <;> rfl

end Ask

section Dedup

variable {K : Constraints → Prop} {observe : State → Except Error Expr} {solver solver' t : Solver}
  {r q : Result} {removed : Except Error Nat}

theorem run_dedup (r : Result) (observe : State → Except Error Expr) (t : Solver) :
    (dedup observe).run (r, t) = match (distinctFlags observe r.sorted.found []).run t with
      | (.ok flags, u) =>
          (.ok (r.sorted.found.length - (retain r.sorted.found flags).length),
            r.withFound (retain r.sorted.found flags), u)
      | (.error failure, u) => (.error failure, r, u) := by
  have asked : (foundFlags observe).run (r, t) =
      (((distinctFlags observe r.sorted.found []).run t).1, r,
        ((distinctFlags observe r.sorted.found []).run t).2) := rfl
  rw [dedup, run_bind, asked]
  rcases (distinctFlags observe r.sorted.found []).run t with ⟨_ | _, _⟩ <;> rfl

/-- Where the solver answers about every found state, the first ones for each value are kept. -/
theorem run_dedup_of_answered (decisive : solver.Decisive K)
    (observable : ∀ s ∈ r.sorted.found, Observable K observe s)
    (answered : ∀ s ∈ r.sorted.found, ∃ values, answer observe solver s = .ok values)
    (ht : t.Faithful solver.backend solver.config K) :
    ∃ u, u.Faithful solver.backend solver.config K ∧ (dedup observe).run (r, t) =
      (.ok (r.sorted.found.length - (firsts (Pinned observe) r.sorted.found).length),
        r.withFound (firsts (Pinned observe) r.sorted.found), u) := by
  obtain ⟨flags, listed⟩ := flagsOf_total answered []
  obtain ⟨result, faithful⟩ := distinctFlags_run decisive observable [] ht
  rw [run_dedup, ← retain_eq_firsts
    (fun s hs _ given v => answer_pins decisive (observable s hs) given v) listed]
  rw [listed] at result
  generalize (distinctFlags observe r.sorted.found []).run t = outcome at result faithful
  obtain ⟨_, u⟩ := outcome
  cases result
  exact ⟨u, faithful, rfl⟩

/-- Where every found state can be observed and its constraints can be satisfied, it does not fail. -/
theorem dedup_total (decisive : solver.Decisive K)
    (observable : ∀ s ∈ r.sorted.found, Observable K observe s)
    (possible : ∀ s ∈ r.sorted.found, ∃ e, observe s = .ok e ∧
      Smt.Lowering.Consistent ((s.constraints.items ++ [e]).flatMap occurrences) ∧
      s.constraints.Satisfiable) :
    ∃ k q u, (dedup observe).run (r, solver) = (.ok k, q, u) := by
  obtain ⟨u, -, ran⟩ := run_dedup_of_answered decisive observable (fun s hs =>
    let ⟨_, observed, oneWidth, satisfiable⟩ := possible s hs
    answered_of_satisfiable decisive (observable s hs) observed oneWidth satisfiable) decisive.faithful
  exact ⟨_, _, u, ran⟩

/-- With a solver that always decides, what is kept of the found states are those that are not pinned
    to a value to which an earlier one is pinned, in their order, and it is counted how many are not
    kept. Asked again, it drops none. Where it fails, all found states stay. -/
theorem dedup_exact (decisive : solver.Decisive K)
    (observable : ∀ s ∈ r.sorted.found, Observable K observe s)
    (ran : (dedup observe).run (r, solver) = (removed, q, solver')) :
    (∀ k, removed = .ok k →
      q = r.withFound (firsts (Pinned observe) r.sorted.found) ∧
      k + q.sorted.found.length = r.sorted.found.length ∧
      ∃ solver'', (dedup observe).run (q, solver') = (.ok 0, q, solver'')) ∧
    ∀ failure, removed = .error failure → q = r := by
  have result := (distinctFlags_run decisive observable [] decisive.faithful).1
  rcases outcome : (distinctFlags observe r.sorted.found []).run solver with ⟨failure | flags, _⟩
  · rw [run_dedup, outcome] at ran
    cases ran
    exact ⟨nofun, fun _ _ => rfl⟩
  · rw [outcome] at result
    have answered := answered_of_flagsOf result.symm
    obtain ⟨u, faithful, first⟩ := run_dedup_of_answered decisive observable answered decisive.faithful
    cases first.symm.trans ran
    refine ⟨fun k counted => ?_, nofun⟩
    obtain rfl := Except.ok.inj counted
    refine ⟨rfl, Nat.sub_add_cancel length_firsts_le, ?_⟩
    -- no two of those that were kept are pinned to one value
    let kept := r.withFound (firsts (Pinned observe) r.sorted.found)
    obtain ⟨u', -, again⟩ := run_dedup_of_answered (r := kept) decisive
      (fun s hs => observable s (mem_of_mem_firsts hs))
      (fun s hs => answered s (mem_of_mem_firsts hs)) faithful
    refine ⟨u', again.trans ?_⟩
    dsimp only [kept, withFound]
    rw [firsts_of_apart (apart_firsts _ _), Nat.sub_self]

/-- Of two states that demand a bit and one that leaves it open, a state that demands it is dropped. -/
theorem dedup_exact_flag :
    let flag := Expr.var "flag" 1
    let free := State.start { entry := 0x1000 } .zero 0
    let set : State := { free with constraints := ({} : Constraints).append flag }
    let r := (default : Result).withFound [set, free, set]
    ∃ u u', (dedup fun _ => .ok flag).run (r, Solver.new .perfect { cacheResults := false }) =
        (.ok 1, r.withFound [set, free], u) ∧
      (dedup fun _ => .ok flag).run (r.withFound [set, free], u) =
        (.ok 0, r.withFound [set, free], u') := by
  intro flag free set r
  have decisive := decisive_new fun _ => True
  have he : flag.WellFormed := ⟨by decide, by decide⟩
  have hset : set.constraints.WellFormed := List.forall_mem_singleton.mpr ⟨he, rfl⟩
  have satisfied : set.constraints.SatisfiedBy fun _ => 1 :=
    (Constraints.satisfiedBy_append he _).mpr ⟨nofun, by simp [flag]; decide⟩
  have able {s : State} (hs : s.constraints.WellFormed) :
      Observable (fun _ => True) (fun _ => .ok flag) s :=
    ⟨trivial, hs, fun _ observed => Except.ok.inj observed ▸ he⟩
  have observable : ∀ s ∈ r.sorted.found, Observable (fun _ => True) (fun _ => .ok flag) s := by
    simp only [r, withFound, List.forall_mem_cons]
    exact ⟨able hset, able nofun, able hset, nofun⟩
  have possible : ∀ s ∈ r.sorted.found, ∃ e, (.ok flag : Except Error Expr) = .ok e ∧
      Smt.Lowering.Consistent ((s.constraints.items ++ [e]).flatMap occurrences) ∧
      s.constraints.Satisfiable := by
    have twice : Smt.Lowering.Consistent ((set.constraints.items ++ [flag]).flatMap occurrences) := by
      intro name w w' hw hw'
      simp [set, flag, Constraints.append, occurrences] at hw hw'
      rw [hw.2, hw'.2]
    have here := And.intro twice (Exists.intro _ satisfied)
    simp only [r, withFound, List.forall_mem_cons]
    exact ⟨⟨_, rfl, here⟩, ⟨_, rfl, consistent_var "flag" 1, fun _ => 0, nofun⟩, ⟨_, rfl, here⟩, nofun⟩
  have pinnedSet (v : Word) : Pinned (fun _ => .ok flag) set v ↔ v = 1 := by
    have one : set.constraints.feasibleValues flag = {1} := feasibleValues_demanded he ⟨_, satisfied⟩
    constructor
    · rintro ⟨_, ⟨⟩, single⟩
      exact (Set.singleton_injective (one.symm.trans single)).symm
    · rintro rfl
      exact ⟨flag, rfl, one⟩
  have pinnedFree (v : Word) : ¬ Pinned (fun _ => .ok flag) free v := by
    rintro ⟨_, ⟨⟩, single⟩
    have two := Set.ncard_pair (by decide : (0 : Word) ≠ 1)
    rw [← feasibleValues_bit "flag"] at two
    exact absurd ((congrArg Set.ncard single).symm.trans two) (by simp)
  have firsts : firsts (Pinned fun _ => .ok flag) [set, free, set] = [set, free] := by
    simp [firsts, Repeats, pinnedSet, pinnedFree]
  obtain ⟨k, q, u, ran⟩ := dedup_total decisive observable possible
  obtain ⟨rfl, counted, u', again⟩ := (dedup_exact decisive observable ran).1 k rfl
  have kept : r.withFound (Result.firsts (Pinned fun _ => .ok flag) r.sorted.found) =
      r.withFound [set, free] := congrArg r.withFound firsts
  rw [kept] at ran counted again
  obtain rfl : k = 1 := Nat.succ.inj (Nat.succ.inj counted)
  exact ⟨u, u', ran, again⟩

end Dedup

end Result

end PathSearch
