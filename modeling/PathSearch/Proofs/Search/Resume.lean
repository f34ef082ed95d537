import Mathlib.Algebra.GroupWithZero.Nat
import PathSearch.Proofs.Search.Soundness

/-! # A search can be interrupted and taken up again

A limit on the number of all steps says when a search stops, but no round looks at it, nor at what
the search has put aside so far. So a search that the limit stops again and again, and that is taken
up each time with the queue, the session and the memory of the strategy that it left, goes through
the rounds of a search without the limit.
-/

namespace PathSearch

/-- The settings with another limit on the number of all steps. -/
def Config.withTotalSteps (c : Config) (n : Nat) : Config :=
  { c with limits := { c.limits with maxTotalSteps := n } }

/-- The explorer with another limit on the number of all steps. -/
def Explorer.withTotalSteps (x : Explorer) (n : Nat) : Explorer :=
  { x with config := x.config.withTotalSteps n }

/-- Searches, and as long as a limit stopped the last search, searches again from where it stopped.
    Gives the results in order, and what the last search leaves; `none` if one search takes more than
    `fuel` rounds, or all take more than `calls` searches. -/
def Explorer.exploreOn {σ : Type} (fuel : Nat) (find avoid : Predicate) (strategy : Strategy σ) :
    (calls : Nat) → Explorer → σ → Except Error (Option (List Result × Explorer × σ))
  | 0, _, _ => .ok none
  | calls + 1, x, memory => do
      match ← x.explore fuel find avoid strategy memory with
      | none => pure none
      | some (r, x, memory) =>
          if r.outcome.isInconclusive then
            return (← exploreOn fuel find avoid strategy calls x memory).map
              fun (rs, x, memory) => (r :: rs, x, memory)
          else pure (some ([r], x, memory))

/-- What one search put aside, and then what another did. -/
def Sorted.append (a b : Sorted) : Sorted where
  found := a.found ++ b.found
  avoided := a.avoided ++ b.avoided
  errored := a.errored ++ b.errored
  deadended := a.deadended ++ b.deadended

namespace Progress

variable {σ : Type} {pick : List State → σ → Option Nat × σ} {l : Limits} {hooks : HookTable}
  {c : Config} {strategy : Strategy σ} {find avoid : Predicate}

/-- A search from where this one stands, with nothing put aside yet. -/
def restart (p : Progress σ) : Progress σ :=
  { session := p.session, active := p.active, memory := p.memory }

/-- The search, with what an earlier one has put aside and counted. -/
def following (b p : Progress σ) : Progress σ :=
  { p with
    sorted := b.sorted.append p.sorted
    steps := b.steps + p.steps
    iterations := b.iterations + p.iterations }

theorem following_restart (p : Progress σ) : p.following p.restart = p := by
  simp [following, restart, Sorted.append]

theorem take_following (b p : Progress σ) :
    (b.following p).take pick = ((p.take pick).1, b.following (p.take pick).2) := by
  simp only [take, following]
  split <;> rfl

theorem selectBatch_following (b p : Progress σ) (n : Nat) :
    selectBatch pick n (b.following p) =
      ((selectBatch pick n p).1, b.following (selectBatch pick n p).2) := by
  induction n generalizing p with
  | zero => rfl
  | succ n ih =>
      simp only [selectBatch, take_following]
      cases taken : p.take pick with
      | mk chosen q =>
          cases chosen with
          | none => rfl
          | some s => simp only [ih]

theorem classify_following (b p : Progress σ) (x : Successor) :
    classify l find avoid (b.following p) x = b.following (classify l find avoid p x) := by
  cases x with
  | errored s reason => simp [classify, following, Sorted.append]
  | active s | exited s =>
      simp only [classify]
      repeat' split
      all_goals simp [following, Sorted.append]

theorem foldl_classify_following (b p : Progress σ) (list : List Successor) :
    list.foldl (classify l find avoid) (b.following p) =
      b.following (list.foldl (classify l find avoid) p) := by
  induction list generalizing p with
  | nil => rfl
  | cons x rest ih => rw [List.foldl_cons, classify_following, ih, List.foldl_cons]

theorem evictFor_following (b p : Progress σ) (cap n : Nat) :
    evictFor pick cap n (b.following p) = b.following (evictFor pick cap n p) := by
  induction n generalizing p with
  | zero => rfl
  | succ n ih =>
      simp only [evictFor, take_following]
      change (if p.active.length ≤ cap then _ else _) = _
      split
      · rfl
      · cases taken : p.take pick with
        | mk chosen q =>
            cases chosen with
            | none => rfl
            | some s =>
                rw [← ih]
                simp [following, Sorted.append]

theorem enforceCap_following (b p : Progress σ) :
    enforceCap l pick (b.following p) = b.following (enforceCap l pick p) := by
  unfold enforceCap
  split
  · exact evictFor_following b p _ _
  · rfl

/-- A round does not depend on what was put aside and counted before it. -/
theorem round_following (b p : Progress σ) :
    round hooks c strategy find avoid (b.following p) =
      b.following (round hooks c strategy find avoid p) := by
  obtain ⟨batch, selected, results, session, picked, ran, whole⟩ :=
    round_spec hooks c strategy find avoid p
  have ranSame : (stepAll hooks c.addressCap batch).run (b.following selected).session =
      (results, session) := ran
  rw [whole, ← enforceCap_following, ← foldl_classify_following]
  simp only [round, selectBatch_following, picked, ranSame]
  simp only [following, Nat.add_assoc]

/-- A search without a limit on the number of all steps ends with enough found or with nothing left,
    as it does under any limit. -/
theorem ended_of_unlimited {p : Progress σ} {o : Outcome}
    (ended : outcome? (c.withTotalSteps 0).limits p = some o) (n : Nat) :
    outcome? (c.withTotalSteps n).limits p = some o := by
  cases o with
  | found =>
      have many := outcome?_found_iff.mp ended
      exact outcome?_found_iff.mpr many
  | exhausted =>
      have empty := outcome?_exhausted_iff.mp ended
      exact outcome?_exhausted_iff.mpr empty
  | budgetExceeded limit =>
      obtain ⟨-, -, impossible⟩ := outcome?_budgetExceeded_iff.mp ended
      cases impossible

/-- Without a limit on the number of all steps a search that has not found enough ends with an empty
    queue. -/
theorem exhausted_of_unlimited {p : Progress σ} {o : Outcome}
    (ended : outcome? (c.withTotalSteps 0).limits p = some o) (notFound : o ≠ .found) :
    o = .exhausted := by
  cases o with
  | found => exact absurd rfl notFound
  | exhausted => rfl
  | budgetExceeded limit =>
      obtain ⟨-, -, impossible⟩ := outcome?_budgetExceeded_iff.mp ended
      cases impossible

/-- A search that goes on without a limit on the number of all steps is stopped by nothing else. -/
theorem stopped_of_unlimited {p : Progress σ} {n : Nat} {o : Outcome}
    (goesOn : outcome? (c.withTotalSteps 0).limits p = none)
    (ended : outcome? (c.withTotalSteps n).limits p = some o) : ∃ limit, o = .budgetExceeded limit := by
  obtain ⟨few, some, -⟩ := outcome?_none_iff.mp goesOn
  cases o with
  | found =>
      have many := outcome?_found_iff.mp ended
      exact absurd many (Nat.not_le.mpr few)
  | exhausted => exact absurd (outcome?_exhausted_iff.mp ended).2 some
  | budgetExceeded limit => exact ⟨limit, rfl⟩

section Following

variable {b p : Progress σ}

theorem length_found_following : p.sorted.found.length ≤ (b.following p).sorted.found.length := by
  simp [following, Sorted.append]

theorem goesOn_of_following (goesOn : outcome? l (b.following p) = none)
    (unlimited : l.maxTotalSteps = 0) : outcome? l p = none := by
  obtain ⟨few, some, -⟩ := outcome?_none_iff.mp goesOn
  refine outcome?_none_iff.mpr ⟨Nat.lt_of_le_of_lt length_found_following few, some, ?_⟩
  simp [Limits.stepsExceeded, unlimited]

theorem exhausted_of_following (ended : outcome? l (b.following p) = some .exhausted) :
    outcome? l p = some .exhausted := by
  obtain ⟨few, empty⟩ := outcome?_exhausted_iff.mp ended
  exact outcome?_exhausted_iff.mpr ⟨Nat.lt_of_le_of_lt length_found_following few, empty⟩

end Following

/-- A run of so many rounds, without a limit on the number of all steps, until nothing is left. -/
inductive Exhausts (hooks : HookTable) (c : Config) (strategy : Strategy σ) (find avoid : Predicate) :
    (rounds : Nat) → (p z : Progress σ) → Prop where
  | finished {p : Progress σ} (ended : outcome? (c.withTotalSteps 0).limits p = some .exhausted) :
      Exhausts hooks c strategy find avoid 0 p p
  | round {n : Nat} {p z : Progress σ} (goesOn : outcome? (c.withTotalSteps 0).limits p = none)
      (later : Exhausts hooks c strategy find avoid n (round hooks c strategy find avoid p) z) :
      Exhausts hooks c strategy find avoid (n + 1) p z

namespace Exhausts

variable {n fuel budget : Nat} {p q z b : Progress σ} {o : Outcome}

/-- A run without a limit on the number of all steps that does not find enough leaves nothing. -/
theorem of_runFor
    (ran : runFor hooks (c.withTotalSteps 0) strategy find avoid fuel p = some (o, z))
    (notFound : o ≠ .found) : ∃ n ≤ fuel, Exhausts hooks c strategy find avoid n p z := by
  induction fuel generalizing p with
  | zero =>
      rcases runFor_cases ran with ⟨stops, rfl⟩ | ⟨-, _, impossible, -⟩
      · exact ⟨0, Nat.le_refl _, .finished (exhausted_of_unlimited stops notFound ▸ stops)⟩
      · cases impossible
  | succ fuel ih =>
      rcases runFor_cases ran with ⟨stops, rfl⟩ | ⟨goesOn, k, same, later⟩
      · exact ⟨0, Nat.zero_le _, .finished (exhausted_of_unlimited stops notFound ▸ stops)⟩
      · cases same
        obtain ⟨n, room, rest⟩ := ih later
        exact ⟨n + 1, Nat.succ_le_succ room, .round goesOn rest⟩

/-- What was put aside before a run stays in front of what the run puts aside. -/
theorem of_following (h : Exhausts hooks c strategy find avoid n (b.following p) z) :
    ∃ y, Exhausts hooks c strategy find avoid n p y ∧ z = b.following y := by
  generalize joined : b.following p = start at h
  induction h generalizing p with
  | finished ended =>
      subst joined
      exact ⟨p, .finished (exhausted_of_following ended), rfl⟩
  | round goesOn _ ih =>
      subst joined
      obtain ⟨y, later, same⟩ := ih (round_following b p).symm
      exact ⟨y, .round (goesOn_of_following goesOn rfl) later, same⟩

/-- A run under a limit on the number of all steps ends where the run without it does, or it is
    stopped by the limit and the run without it goes on from there. -/
theorem split (whole : Exhausts hooks c strategy find avoid n p z)
    (part : runFor hooks (c.withTotalSteps budget) strategy find avoid fuel p = some (o, q)) :
    (o = .exhausted ∧ q = z) ∨ ∃ limit m, o = .budgetExceeded limit ∧
      Exhausts hooks c strategy find avoid m q z ∧ m ≤ n ∧ (m = n → q = p) := by
  induction whole generalizing fuel with
  | finished ended =>
      rw [runFor_ended (ended_of_unlimited ended budget)] at part
      cases part
      exact .inl ⟨rfl, rfl⟩
  | @round n p z goesOn later ih =>
      rcases runFor_cases part with ⟨stops, rfl⟩ | ⟨-, k, rfl, rest⟩
      · obtain ⟨limit, rfl⟩ := stopped_of_unlimited goesOn stops
        exact .inr ⟨limit, n + 1, rfl, .round goesOn later, Nat.le_refl _, fun _ => rfl⟩
      · rcases ih rest with final | ⟨limit, m, stopped, left, fewer, -⟩
        · exact .inl final
        · exact .inr ⟨limit, m, stopped, left, by omega, by omega⟩

/-- A run under a limit on the number of all steps takes no more rounds than the run without it. -/
theorem runs (budget : Nat) (whole : Exhausts hooks c strategy find avoid n p z) (room : n ≤ fuel) :
    ∃ o q, runFor hooks (c.withTotalSteps budget) strategy find avoid fuel p = some (o, q) := by
  induction whole generalizing fuel with
  | finished ended => exact ⟨_, _, runFor_ended (ended_of_unlimited ended budget) fuel⟩
  | @round n p z goesOn later ih =>
      cases outcome : outcome? (c.withTotalSteps budget).limits p with
      | some e => exact ⟨_, _, runFor_ended outcome fuel⟩
      | none =>
          obtain ⟨fuel, rfl⟩ : ∃ k, fuel = k + 1 := ⟨fuel - 1, by omega⟩
          obtain ⟨o, q, ran⟩ := ih (Nat.le_of_succ_le_succ room)
          exact ⟨o, q, (runFor_succ outcome fuel).trans ran⟩

end Exhausts

/-- Results of searches one after another that add up to one search. -/
structure AddUp (rs : List Result) (z : Progress σ) : Prop where
  found : rs.flatMap (·.sorted.found) = z.sorted.found
  avoided : rs.flatMap (·.sorted.avoided) = z.sorted.avoided
  errored : rs.flatMap (·.sorted.errored) = z.sorted.errored
  deadended : rs.flatMap (·.sorted.deadended) = z.sorted.deadended
  steps : (rs.map (·.steps)).sum = z.steps

theorem AddUp.single {r : Result} {z : Progress σ} (sorted : r.sorted = z.sorted)
    (steps : r.steps = z.steps) : AddUp [r] z := by
  constructor <;> simp [sorted, steps]

theorem AddUp.cons {r : Result} {rs : List Result} {q z : Progress σ} (h : AddUp rs z)
    (sorted : r.sorted = q.sorted) (steps : r.steps = q.steps) :
    AddUp (r :: rs) (q.following z) := by
  constructor <;>
    simp [following, Sorted.append, sorted, steps, h.found, h.avoided, h.errored, h.deadended, h.steps]

end Progress

namespace Explorer

open Progress

variable {σ : Type} {find avoid : Predicate} {strategy : Strategy σ}

/-- One search of several: it is the last one, or the limit stops it and the others follow. -/
theorem exploreOn_cases {fuel calls : Nat} {x y : Explorer} {memory final : σ} {rs : List Result}
    (parts : x.exploreOn fuel find avoid strategy calls memory = .ok (some (rs, y, final))) :
    ∃ r x' memory', x.explore fuel find avoid strategy memory = .ok (some (r, x', memory')) ∧
      ((r.outcome.isInconclusive = false ∧ rs = [r] ∧ y = x' ∧ final = memory') ∨
        r.outcome.isInconclusive = true ∧ ∃ later rest, calls = later + 1 ∧ rs = r :: rest ∧
          x'.exploreOn fuel find avoid strategy later memory' = .ok (some (rest, y, final))) := by
  cases calls with
  | zero => cases parts
  | succ later =>
      obtain ⟨result, searched, parts⟩ := bind_ok parts
      cases result with
      | none => cases parts
      | some outcome =>
          obtain ⟨r, x', memory'⟩ := outcome
          refine ⟨r, x', memory', searched, ?_⟩
          cases stopped : r.outcome.isInconclusive with
          | false =>
              simp only [stopped] at parts
              cases parts
              exact .inl ⟨rfl, rfl, rfl, rfl⟩
          | true =>
              simp only [stopped] at parts
              obtain ⟨others, followed, same⟩ := bind_ok parts
              obtain ⟨⟨rest, x'', m⟩, given, last⟩ := Option.map_eq_some_iff.mp (Except.ok.inj same)
              cases last
              exact .inr ⟨rfl, later, rest, rfl, rfl, given ▸ followed⟩

theorem exploreOn_over {fuel : Nat} (calls : Nat) {x x' : Explorer} {memory memory' : σ} {r : Result}
    (searched : x.explore fuel find avoid strategy memory = .ok (some (r, x', memory')))
    (stops : r.outcome.isInconclusive = false) :
    x.exploreOn fuel find avoid strategy (calls + 1) memory = .ok (some ([r], x', memory')) := by
  rw [exploreOn, searched]
  simp only [bind, Except.bind, stops]
  rfl

theorem exploreOn_again {fuel calls : Nat} {x x' y : Explorer} {memory memory' final : σ} {r : Result}
    {rest : List Result}
    (searched : x.explore fuel find avoid strategy memory = .ok (some (r, x', memory')))
    (stopped : r.outcome.isInconclusive = true)
    (followed : x'.exploreOn fuel find avoid strategy calls memory' = .ok (some (rest, y, final))) :
    x.exploreOn fuel find avoid strategy (calls + 1) memory = .ok (some (r :: rest, y, final)) := by
  rw [exploreOn, searched]
  simp only [bind, Except.bind, stopped, followed]
  rfl

/-- Searches that are taken up again add up to one search without the limit. -/
theorem exploreOn_addUp {fuel calls budget n : Nat} {x y : Explorer} {memory final : σ}
    {rs : List Result} {z : Progress σ}
    (whole : Exhausts x.hooks x.config strategy find avoid n
      { session := x.session, active := x.active, memory } z)
    (parts : (x.withTotalSteps budget).exploreOn fuel find avoid strategy calls memory =
      .ok (some (rs, y, final))) :
    AddUp rs z ∧ y.active = z.active ∧ y.session = z.session ∧ final = z.memory ∧
      ∀ r ∈ rs, r.outcome ≠ .found := by
  induction calls generalizing x memory rs n z with
  | zero => cases parts
  | succ calls ih =>
      obtain ⟨r, x', memory', searched, continued⟩ := exploreOn_cases parts
      obtain ⟨-, p, ran, result, rfl, rfl⟩ := explore_ran searched
      have sorted : r.sorted = p.sorted := by rw [result]
      have steps : r.steps = p.steps := by rw [result]
      rcases whole.split ran with ⟨ended, rfl⟩ | ⟨limit, m, stopped, rest, -⟩
      · rcases continued with ⟨-, rfl, rfl, rfl⟩ | ⟨again, -⟩
        · refine ⟨.single sorted steps, rfl, rfl, rfl, List.forall_mem_singleton.mpr ?_⟩
          rw [ended]
          nofun
        · rw [ended] at again
          cases again
      · rcases continued with ⟨stops, -⟩ | ⟨-, later, others, same, rfl, followed⟩
        · rw [stopped] at stops
          cases stops
        · cases same
          -- the next search starts with nothing put aside, so the rest of the run is cut off from
          -- what this search has put aside before the induction takes it on
          have joined : Exhausts x.hooks x.config strategy find avoid m (p.following p.restart) z :=
            (following_restart p).symm ▸ rest
          obtain ⟨z', onward, rfl⟩ := joined.of_following
          obtain ⟨addUp, active, session, memory, none⟩ :=
            ih (x := { x with session := p.session, active := p.active }) onward followed
          refine ⟨addUp.cons sorted steps, active, session, memory, List.forall_mem_cons.mpr ⟨?_, none⟩⟩
          rw [stopped]
          nofun

/-- A search that is over without the limit is over after some searches with it. -/
theorem exploreOn_ends {fuel budget n : Nat} (positive : 1 ≤ budget) {x : Explorer} {memory : σ}
    {z : Progress σ} (disjoint : Predicate.checkDisjoint find avoid = .ok ()) (room : n ≤ fuel)
    (whole : Exhausts x.hooks x.config strategy find avoid n
      { session := x.session, active := x.active, memory } z) :
    ∃ calls out, (x.withTotalSteps budget).exploreOn fuel find avoid strategy calls memory =
      .ok (some out) := by
  induction n using Nat.strongRecOn generalizing x memory z with
  | ind n ih =>
      obtain ⟨o, q, ran⟩ := whole.runs budget room
      have searched := explore_of_runFor (x := x.withTotalSteps budget) disjoint ran
      rcases whole.split ran with ⟨rfl, rfl⟩ | ⟨limit, m, rfl, rest, fewer, fresh⟩
      · exact ⟨1, _, exploreOn_over 0 searched rfl⟩
      · have progressed : m ≠ n := by
          -- otherwise the limit has stopped a search that has not stepped anything yet
          intro same
          cases fresh same
          obtain ⟨-, stopped⟩ := runFor_induction (motive := fun _ => True) trivial
            (fun _ _ _ => trivial) ran
          obtain ⟨-, -, exceeded⟩ := outcome?_budgetExceeded_iff.mp stopped
          simp [Limits.exceeded?, Limits.stepsExceeded, Config.withTotalSteps] at exceeded
          omega
        have joined : Exhausts x.hooks x.config strategy find avoid m (q.following q.restart) z :=
          (following_restart q).symm ▸ rest
        obtain ⟨z', onward, -⟩ := joined.of_following
        obtain ⟨calls, out, followed⟩ :=
          ih m (by omega) (x := { x with session := q.session, active := q.active })
            (by omega) onward
        exact ⟨calls + 1, _, exploreOn_again searched rfl followed⟩

end Explorer

open Explorer Progress in
/-- A search that a positive limit on the number of all steps stops again and again, and that is
    taken up each time, is over at some time, and all its searches add up to the one search without
    the limit, as long as that one does not end with enough found. -/
theorem explore_resumed {σ : Type} {fuel budget : Nat} {x whole : Explorer} {find avoid : Predicate}
    {strategy : Strategy σ} {memory final : σ} {r : Result} (positive : 1 ≤ budget)
    (ran : (x.withTotalSteps 0).explore fuel find avoid strategy memory =
      .ok (some (r, whole, final))) (notFound : r.outcome ≠ .found) :
    (∃ calls parts,
      (x.withTotalSteps budget).exploreOn fuel find avoid strategy calls memory = .ok (some parts)) ∧
    ∀ fuel calls rs y last,
      (x.withTotalSteps budget).exploreOn fuel find avoid strategy calls memory =
        .ok (some (rs, y, last)) →
      rs.flatMap (·.sorted.found) = r.sorted.found ∧
      rs.flatMap (·.sorted.avoided) = r.sorted.avoided ∧
      rs.flatMap (·.sorted.errored) = r.sorted.errored ∧
      rs.flatMap (·.sorted.deadended) = r.sorted.deadended ∧
      (rs.map (·.steps)).sum = r.steps ∧
      y.active = r.active ∧ y.session = whole.session ∧ last = final ∧
      ∀ part ∈ rs, part.outcome ≠ .found := by
  obtain ⟨disjoint, p, rounds, result, rfl, rfl⟩ := explore_ran ran
  obtain ⟨n, room, exhausts⟩ := Exhausts.of_runFor rounds notFound
  refine ⟨exploreOn_ends positive disjoint room exhausts, fun fuel calls rs y last parts => ?_⟩
  obtain ⟨sum, active, session, memory, none⟩ := exploreOn_addUp exhausts parts
  rw [result]
  exact ⟨sum.found, sum.avoided, sum.errored, sum.deadended, sum.steps, active, session, memory, none⟩

theorem explore_resumed_halting :
    let x := Explorer.inFrontOf [.nop, .nop, .halt]
    ∃ r whole, (x.withTotalSteps 0).explore 4 (.ofAddresses [0]) .never
        (.breadthFirst : Strategy Unit) () = .ok (some (r, whole, ())) ∧
      r.steps = 3 ∧ r.sorted.deadended.length = 1 ∧
      ∃ rs y, rs.length = 3 ∧ (x.withTotalSteps 1).exploreOn 4 (.ofAddresses [0]) .never
          (.breadthFirst : Strategy Unit) 4 () = .ok (some (rs, y, ())) ∧
        rs.flatMap (·.sorted.deadended) = r.sorted.deadended ∧ (rs.map (·.steps)).sum = r.steps := by
  intro x
  obtain ⟨r, whole, ran, exhausted, steps, ended⟩ : ∃ r whole,
      (x.withTotalSteps 0).explore 4 (.ofAddresses [0]) .never (.breadthFirst : Strategy Unit) () =
        .ok (some (r, whole, ())) ∧ r.outcome = .exhausted ∧ r.steps = 3 ∧
      r.sorted.deadended.length = 1 := ⟨_, _, rfl, rfl, rfl, rfl⟩
  obtain ⟨rs, y, parts, four⟩ : ∃ rs y, (x.withTotalSteps 1).exploreOn 4 (.ofAddresses [0]) .never
      (.breadthFirst : Strategy Unit) 4 () = .ok (some (rs, y, ())) ∧ rs.length = 3 :=
    ⟨_, _, rfl, rfl⟩
  obtain ⟨-, sum⟩ := explore_resumed (Nat.le_refl 1) ran (by rw [exhausted]; nofun)
  obtain ⟨-, -, -, deadended, steps', -⟩ := sum _ _ _ _ _ parts
  exact ⟨r, whole, ran, steps, ended, rs, y, four, parts, deadended, steps'⟩

end PathSearch
