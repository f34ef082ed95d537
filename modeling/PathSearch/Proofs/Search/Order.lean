import Mathlib.Algebra.BigOperators.Group.Multiset.Basic
import PathSearch.Proofs.Anonymous
import PathSearch.Proofs.Search.Conservation

/-! # The order of a search does not matter

What a search does with a state is settled by the state. So a search that runs until no state is left
works off a list of items in which every item has its result and is replaced by further items, and
there the order does not matter: whichever item is taken first, the results are the same in the end.
-/

namespace PathSearch

/-- Items are worked off, one after another in any order, until none is left. An item gives a result,
    which is added to those of the others, and more items. -/
inductive Drains {α τ : Type} [Add τ] [Zero τ] (visit : α → τ × Multiset α) : Multiset α → τ → Prop where
  | done : Drains visit 0 0
  | visit (a : α) {rest : Multiset α} {t : τ} (later : Drains visit (rest + (visit a).2) t) :
      Drains visit (a ::ₘ rest) ((visit a).1 + t)

namespace Drains

variable {α τ : Type} [AddCommMonoid τ] {visit : α → τ × Multiset α} {items rest : Multiset α} {t t' : τ}

/-- Any item could have been taken first. -/
theorem first (h : Drains visit items t) {a : α} (split : items = a ::ₘ rest) :
    ∃ later, Drains visit (rest + (visit a).2) later ∧ t = (visit a).1 + later := by
  induction h generalizing rest with
  | done => cases Multiset.zero_ne_cons split
  | @visit b others t later ih =>
      rcases Multiset.cons_eq_cons.mp split with ⟨rfl, rfl⟩ | ⟨-, both, rfl, rfl⟩
      · exact ⟨t, later, rfl⟩
      · -- `a` was waiting beside `b`, so it can be taken before `b` as well
        have waiting : a ::ₘ both + (visit b).2 = a ::ₘ (both + (visit b).2) := Multiset.cons_add _ _ _
        obtain ⟨last, drained, rfl⟩ := ih waiting
        refine ⟨(visit b).1 + last, ?_, add_left_comm _ _ _⟩
        rw [Multiset.cons_add]
        refine .visit b ?_
        rwa [add_right_comm]

/-- However items are worked off, the results are the same. -/
theorem unique (h : Drains visit items t) (h' : Drains visit items t') : t = t' := by
  induction h generalizing t' with
  | done =>
      generalize none : (0 : Multiset α) = items at h'
      cases h' with
      | done => rfl
      | visit a => cases Multiset.zero_ne_cons none
  | visit a later ih =>
      obtain ⟨last, drained, rfl⟩ := h'.first rfl
      rw [ih drained]

/-- Several items may be taken at once. -/
theorem batch {list : List α} (h : Drains visit (rest + (list.map visit).sum.2) t) :
    Drains visit (list + rest) ((list.map visit).sum.1 + t) := by
  induction list generalizing rest t with
  | nil => simpa using h
  | cons a list ih =>
      rw [List.map_cons, List.sum_cons] at h ⊢
      rw [Prod.fst_add, add_assoc, ← Multiset.cons_coe, Multiset.cons_add]
      refine .visit a ?_
      rw [add_assoc]
      refine ih ?_
      rwa [add_assoc]

end Drains

/-- Pieces of work keep a property of what they work in, and what they give has another. -/
theorem Chain.forall₂ {α β τ : Type} {R : α → τ → β → τ → Prop} {I : τ → Prop} {P : α → β → Prop}
    {as : List α} {bs : List β} {t u : τ} (h : Chain R as t bs u)
    (each : ∀ a ∈ as, ∀ t b u, R a t b u → I t → P a b ∧ I u) (start : I t) :
    List.Forall₂ P as bs ∧ I u := by
  induction h with
  | nil => exact ⟨.nil, start⟩
  | cons first _ ih =>
      obtain ⟨here, next⟩ := each _ (.head _) _ _ _ first start
      obtain ⟨later, last⟩ := ih (fun a ha => each a (.tail _ ha)) next
      exact ⟨.cons here later, last⟩

/-- The predicate does not look at identities. -/
def Predicate.IgnoresIds (p : Predicate) : Prop :=
  ∀ s t : State, s.Twin t → p.accepts s = p.accepts t

theorem Predicate.addresses_ignoresIds (set : Std.TreeSet Word) : (addresses set).IgnoresIds :=
  fun _ _ twin => congrArg set.contains twin.ip.symm

/-- The states that were found, avoided, ended and failed, the last with the reasons, without their
    identities and in no order, and the number of steps. -/
abbrev Tally := Multiset State × Multiset State × Multiset State × Multiset (State × Reason) × Nat

def Sorted.tally (q : Sorted) (steps : Nat) : Tally :=
  (q.found.map State.anonymous, q.avoided.map State.anonymous, q.deadended.map State.anonymous,
    q.errored.map State.nameless, steps)

@[simp]
theorem State.anonymous_anonymous (s : State) : s.anonymous.anonymous = s.anonymous := rfl

@[simp]
theorem coe_concat {α : Type} (list : List α) (a : α) :
    ((list ++ [a] : List α) : Multiset α) = list + {a} := (Multiset.coe_add list [a]).symm

namespace Progress

variable {σ : Type}

/-- What a search has come to. -/
def tally (p : Progress σ) : Tally := p.sorted.tally p.steps

/-- What a search has come to and what it still has to do. -/
def ledger (p : Progress σ) : Tally × Multiset State := (p.tally, p.active.map State.anonymous)

/-- Steps that came to nothing. -/
def ticks (n : Nat) : Tally × Multiset State := ((0, 0, 0, 0, n), 0)

/-- Where one successor is sorted. -/
noncomputable def settle (l : Limits) (find avoid : Predicate) (x : Successor) :
    Tally × Multiset State :=
  (classify l find avoid { session := Step.reference, active := [], memory := () } x).ledger

/-- What comes of one state: a step, and where the successors are sorted. -/
noncomputable def visit (hooks : HookTable) (c : Config) (find avoid : Predicate) (s : State) :
    Tally × Multiset State :=
  ticks 1 + ((Step.follow hooks c.addressCap s).map (settle c.limits find avoid)).sum

section Ledger

variable {l : Limits} {find avoid : Predicate} (finds : find.IgnoresIds) (avoids : avoid.IgnoresIds)

include finds avoids

/-- Sorting a successor adds where it goes, whatever was sorted before. -/
theorem ledger_classify (p : Progress σ) (x : Successor) :
    (classify l find avoid p x).ledger = p.ledger + settle l find avoid x.anonymous := by
  have found (s : State) : find.accepts s.anonymous = find.accepts s :=
    (finds s _ s.twin_anonymous).symm
  have avoided (s : State) : avoid.accepts s.anonymous = avoid.accepts s :=
    (avoids s _ s.twin_anonymous).symm
  have spent (s : State) : isSpent l s.anonymous = isSpent l s := rfl
  cases x with
  | errored s reason =>
      simp [settle, classify, ledger, tally, Sorted.tally, Successor.anonymous, State.nameless]
  | active s | exited s =>
      simp only [settle, classify, Successor.anonymous, Successor.isActive, found, avoided, spent]
      cases avoid.accepts s <;> cases find.accepts s <;> cases isSpent l s <;>
        simp [ledger, tally, Sorted.tally]

theorem ledger_foldl (list : List Successor) (p : Progress σ) :
    (list.foldl (classify l find avoid) p).ledger =
      p.ledger + (list.map fun x => settle l find avoid x.anonymous).sum := by
  induction list generalizing p with
  | nil => simp
  | cons x rest ih =>
      rw [List.foldl_cons, ih, ledger_classify finds avoids, List.map_cons, List.sum_cons, add_assoc]

end Ledger

theorem ledger_ticks (p : Progress σ) (n : Nat) :
    { p with steps := p.steps + n }.ledger = p.ledger + ticks n := by
  simp [ledger, tally, Sorted.tally, ticks]

theorem ticks_add (n m : Nat) : ticks (n + m) = ticks n + ticks m := by simp [ticks]

/-- Steps that give what follows their states come to what comes of the states. -/
theorem sum_visit {hooks : HookTable} {c : Config} {find avoid : Predicate} {batch : List State}
    {results : List StepResult}
    (pairs : List.Forall₂ (fun s r => r.shape = Step.follow hooks c.addressCap s.anonymous) batch
      results) :
    ticks batch.length +
        ((results.flatMap (·.successors)).map fun x => settle c.limits find avoid x.anonymous).sum =
      ((batch.map State.anonymous).map (visit hooks c find avoid)).sum := by
  induction pairs with
  | nil => rfl
  | @cons s r batch results shape _ ih =>
      have here : ((Step.follow hooks c.addressCap s.anonymous).map (settle c.limits find avoid)).sum =
          (r.successors.map fun x => settle c.limits find avoid x.anonymous).sum := by
        rw [← shape, StepResult.shape, Multiset.map_coe, Multiset.sum_coe, List.map_map]
        rfl
      rw [List.map_cons, List.map_cons, List.sum_cons, ← ih, visit, here, List.flatMap_cons,
        List.map_append, List.sum_append, List.length_cons, ticks_add]
      abel

section Run

variable {hooks : HookTable} {c : Config} {strategy : Strategy σ} {find avoid : Predicate}
  {K : Constraints → Prop} (proper : hooks.Proper) (ignores : hooks.IgnoresIds)
  (finds : find.IgnoresIds) (avoids : avoid.IgnoresIds) (below : State.Countable c.addressCap)
  (uncapped : c.limits.maxActive = none)

/-- The solver decides, and the queue holds proper states. -/
structure Ready (K : Constraints → Prop) (p : Progress σ) : Prop where
  decisive : p.session.solver.Decisive K
  proper : ∀ s ∈ p.active, s.Proper

include proper ignores below

theorem stepAll_follows {batch : List State} (each : ∀ s ∈ batch, s.Proper)
    (about : ∀ s ∈ batch, ∀ cs, Step.Weighs hooks s cs → K cs) {u v : Session}
    (decisive : u.solver.Decisive K) {results : List StepResult}
    (ran : (stepAll hooks c.addressCap batch).run u = (results, v)) :
    List.Forall₂ (fun s r => r.shape = Step.follow hooks c.addressCap s.anonymous ∧
        ∀ x ∈ r.successors, x.isErrored = false → x.state.Proper) batch results ∧
      v.solver.Decisive K := by
  have chain := Chain.mapM (Step.step hooks c.addressCap) batch u
  change Chain _ batch u ((stepAll hooks c.addressCap batch).run u).1
    ((stepAll hooks c.addressCap batch).run u).2 at chain
  rw [ran] at chain
  refine chain.forall₂ (I := fun u => u.solver.Decisive K) (fun s hs u r v ran decisive => ?_) decisive
  have given := Step.shape_step (each s hs) proper ignores below (about s hs) decisive
  have kept := Step.proper_step c.addressCap (each s hs) proper (about s hs) decisive.exactOn
  rw [ran] at given kept
  exact ⟨⟨given.1, kept⟩, given.2⟩

include finds avoids uncapped

/-- A round takes its batch off the queue and puts there, and everywhere else, what comes of it. -/
theorem round_visits {p : Progress σ} (ready : p.Ready K)
    (about : ∀ s ∈ (selectBatch strategy.select c.batchSize p).1, ∀ cs, Step.Weighs hooks s cs → K cs) :
    (round hooks c strategy find avoid p).Ready K ∧ ∃ batch left : List State,
      p.active.Perm (batch ++ left) ∧
      (round hooks c strategy find avoid p).ledger =
        (p.tally, ((left.map State.anonymous : List State) : Multiset State)) +
        ((batch.map State.anonymous).map (visit hooks c find avoid)).sum := by
  obtain ⟨batch, selected, results, session, picked, ran, whole⟩ :=
    round_spec hooks c strategy find avoid p
  obtain ⟨queue, frame⟩ := selectBatch_spec picked
  rw [picked] at about
  have members : ∀ s ∈ batch ++ selected.active, s.Proper := fun s hs =>
    ready.proper s (queue.mem_iff.mpr hs)
  obtain ⟨each, waiting⟩ := List.forall_mem_append.mp members
  have start : selected.session = p.session := by rw [frame]
  obtain ⟨pairs, decisive⟩ :=
    stepAll_follows proper ignores below each about (start ▸ ready.decisive) ran
  -- eviction looks at the strategy, so this is where the queue must not be limited
  have unlimited (q : Progress σ) : enforceCap c.limits strategy.evict q = q := by
    simp only [enforceCap, uncapped]
  rw [whole, unlimited]
  have sorts := sorts_foldl c.limits find avoid
    (results.flatMap (·.successors)) { selected with
      session
      steps := selected.steps + batch.length
      iterations := selected.iterations + 1 }
  refine ⟨⟨sorts.session ▸ decisive, fun s hs => ?_⟩, batch, selected.active, queue, ?_⟩
  · rcases Multiset.mem_add.mp (Multiset.mem_of_le sorts.active hs) with old | new
    · exact waiting s old
    · obtain ⟨r, hr, hx⟩ := List.mem_flatMap.mp (active_of_mem_fit new)
      obtain ⟨_, -, -, kept⟩ := exists_left pairs hr
      exact kept _ hx rfl
  · have tally : selected.tally = p.tally := by rw [frame]; rfl
    rw [ledger_foldl finds avoids, ← sum_visit (pairs.imp fun _ _ => And.left), ← add_assoc, ← tally]
    exact congrArg (· + _) (ledger_ticks { selected with session, iterations := selected.iterations + 1 }
      batch.length)

/-- A search that runs until no state is left works its queue off. -/
theorem drains_of_exhausted {fuel : Nat} {p q : Progress σ} (ready : p.Ready K)
    (about : ∀ s, p.Steps hooks c strategy find avoid s → ∀ cs, Step.Weighs hooks s cs → K cs)
    (ran : runFor hooks c strategy find avoid fuel p = some (.exhausted, q)) :
    ∃ t, Drains (visit hooks c find avoid) (p.active.map State.anonymous) t ∧
      q.tally = p.tally + t := by
  have ended {p : Progress σ} (stops : outcome? c.limits p = some .exhausted) :
      ∃ t, Drains (visit hooks c find avoid) (p.active.map State.anonymous) t ∧
        p.tally = p.tally + t := by
    obtain ⟨-, empty⟩ := outcome?_exhausted_iff.mp stops
    rw [empty]
    exact ⟨0, .done, (add_zero _).symm⟩
  induction fuel generalizing p with
  | zero =>
      rcases runFor_cases ran with ⟨stops, rfl⟩ | ⟨-, _, impossible, -⟩
      · exact ended stops
      · cases impossible
  | succ fuel ih =>
      rcases runFor_cases ran with ⟨stops, rfl⟩ | ⟨goesOn, k, same, later⟩
      · exact ended stops
      · cases same
        obtain ⟨next, batch, left, queue, ledger⟩ := round_visits proper ignores finds avoids below
          uncapped ready fun s hs => about s (.now goesOn hs)
        obtain ⟨t, drains, last⟩ := ih next (fun s steps => about s (.later goesOn steps)) later
        have tally : (round hooks c strategy find avoid p).tally = p.tally + _ :=
          congrArg Prod.fst ledger
        have active : ((round hooks c strategy find avoid p).active.map State.anonymous :
            Multiset State) = left.map State.anonymous + _ := congrArg Prod.snd ledger
        have waiting : (p.active.map State.anonymous : Multiset State) =
            batch.map State.anonymous + left.map State.anonymous := by
          rw [Multiset.coe_add, ← List.map_append]
          exact Multiset.coe_eq_coe.mpr (queue.map _)
        rw [active] at drains
        rw [waiting]
        exact ⟨_, drains.batch, by rw [last, tally, add_assoc]⟩

end Run

end Progress

theorem Explorer.drains_of_exhausted {σ : Type} {fuel : Nat} {x x' : Explorer}
    {find avoid : Predicate} {strategy : Strategy σ} {memory memory' : σ} {r : Result}
    (decisive : x.session.solver.Decisive (x.Weighs find avoid strategy memory))
    (start : ∀ s ∈ x.active, s.Proper) (proper : x.hooks.Proper) (ignores : x.hooks.IgnoresIds)
    (finds : find.IgnoresIds) (avoids : avoid.IgnoresIds)
    (below : x.config.addressCap < 0xffffffffffffffff) (uncapped : x.config.limits.maxActive = none)
    (ran : x.explore fuel find avoid strategy memory = .ok (some (r, x', memory')))
    (exhausted : r.outcome = .exhausted) :
    Drains (Progress.visit x.hooks x.config find avoid) (x.active.map State.anonymous)
      (r.sorted.tally r.steps) := by
  obtain ⟨-, p, rounds, result, -⟩ := explore_ran ran
  rw [exhausted] at rounds
  obtain ⟨t, drains, last⟩ := Progress.drains_of_exhausted proper ignores finds avoids below uncapped
    ⟨decisive, start⟩ (fun s steps cs weighs => ⟨s, steps, weighs⟩) rounds
  have same : r.sorted.tally r.steps = t := by
    rw [result]
    exact last.trans (zero_add t)
  rwa [same]

/-- Two searches with the same start, hooks, targets and limits that both run until no state is left
    sort the same states the same way, in as many steps, whatever their strategies, the sizes of their
    batches and their solvers. -/
theorem explore_order_independent {σ τ : Type} {fuel fuel' : Nat} {x x' y y' : Explorer}
    {find avoid : Predicate} {strategy : Strategy σ} {strategy' : Strategy τ} {m m' : σ} {n n' : τ}
    {r r' : Result} (hooks : y.hooks = x.hooks) (limits : y.config.limits = x.config.limits)
    (cap : y.config.addressCap = x.config.addressCap)
    (queue : (x.active.map State.anonymous).Perm (y.active.map State.anonymous))
    (decisive : x.session.solver.Decisive (x.Weighs find avoid strategy m))
    (decisive' : y.session.solver.Decisive (y.Weighs find avoid strategy' n))
    (start : ∀ s ∈ x.active, s.Proper) (proper : x.hooks.Proper) (ignores : x.hooks.IgnoresIds)
    (finds : find.IgnoresIds) (avoids : avoid.IgnoresIds)
    (below : x.config.addressCap < 0xffffffffffffffff) (uncapped : x.config.limits.maxActive = none)
    (ran : x.explore fuel find avoid strategy m = .ok (some (r, x', m')))
    (ran' : y.explore fuel' find avoid strategy' n = .ok (some (r', y', n')))
    (exhausted : r.outcome = .exhausted) (exhausted' : r'.outcome = .exhausted) :
    (r.sorted.found.map State.anonymous).Perm (r'.sorted.found.map State.anonymous) ∧
    (r.sorted.avoided.map State.anonymous).Perm (r'.sorted.avoided.map State.anonymous) ∧
    (r.sorted.deadended.map State.anonymous).Perm (r'.sorted.deadended.map State.anonymous) ∧
    (r.sorted.errored.map State.nameless).Perm (r'.sorted.errored.map State.nameless) ∧
    r.steps = r'.steps := by
  have start' : ∀ t ∈ y.active, t.Proper := by
    intro t ht
    obtain ⟨s, hs, twin⟩ := List.mem_map.mp (queue.mem_iff.mpr (List.mem_map_of_mem ht))
    exact State.Twin.proper twin (start s hs)
  have drains := Explorer.drains_of_exhausted decisive start proper ignores finds avoids below uncapped
    ran exhausted
  have drains' := Explorer.drains_of_exhausted decisive' start' (hooks ▸ proper) (hooks ▸ ignores)
    finds avoids (cap ▸ below) (limits ▸ uncapped) ran' exhausted'
  have visits : Progress.visit y.hooks y.config find avoid =
      Progress.visit x.hooks x.config find avoid := by
    funext s
    rw [Progress.visit, Progress.visit, hooks, limits, cap]
  have items : (x.active.map State.anonymous : Multiset State) = y.active.map State.anonymous :=
    Multiset.coe_eq_coe.mpr queue
  rw [visits, ← items] at drains'
  have same := drains.unique drains'
  simp only [Sorted.tally, Prod.mk.injEq, Multiset.coe_eq_coe] at same
  exact same

namespace Explorer

theorem forking_proper : forking.hooks.Proper := by
  intro address h run found custom
  simp only [forking, HookTable.insert, HookTable.lookup?, Std.TreeMap.getElem?_insert] at found
  split at found
  · cases found
    cases custom
    intro s n m states hs ran
    cases ran
    have copy : (s.fork n).Proper := (s.twin_fork n).proper hs
    exact List.forall_mem_cons.mpr ⟨hs.setIp _, List.forall_mem_singleton.mpr (copy.setIp _)⟩
  · simp at found

theorem forking_ignoresIds : forking.hooks.IgnoresIds := by
  intro address h run found custom
  simp only [forking, HookTable.insert, HookTable.lookup?, Std.TreeMap.getElem?_insert] at found
  split at found
  · cases found
    cases custom
    intro s t n m twin
    exact .ok (.cons (twin.setIp _) (.cons ((twin.fork n m).setIp _) .nil))
  · simp at found

/-- The search in which a hook forks, with two states in each batch. -/
noncomputable def forkingInPairs : Explorer :=
  { forking with config := { forking.config with batchSize := 2 } }

end Explorer

/-- One search takes the newest state first, the other all states at once. -/
theorem explore_order_independent_forking : ∃ r x' r' y',
    Explorer.forking.explore 4 .never .never (.depthFirst : Strategy Unit) () =
      .ok (some (r, x', ())) ∧
    Explorer.forkingInPairs.explore 4 .never .never (.breadthFirst : Strategy Unit) () =
      .ok (some (r', y', ())) ∧
    r.iterations = 3 ∧ r'.iterations = 2 ∧
    (r.sorted.deadended.map State.anonymous).Perm (r'.sorted.deadended.map State.anonymous) ∧
    (r.sorted.errored.map State.nameless).Perm (r'.sorted.errored.map State.nameless) ∧
    r.steps = r'.steps := by
  obtain ⟨r, x', ran, exhausted, rounds⟩ : ∃ r x',
      Explorer.forking.explore 4 .never .never (.depthFirst : Strategy Unit) () =
        .ok (some (r, x', ())) ∧ r.outcome = .exhausted ∧ r.iterations = 3 := ⟨_, _, rfl, rfl, rfl⟩
  obtain ⟨r', y', ran', exhausted', rounds'⟩ : ∃ r' y',
      Explorer.forkingInPairs.explore 4 .never .never (.breadthFirst : Strategy Unit) () =
        .ok (some (r', y', ())) ∧ r'.outcome = .exhausted ∧ r'.iterations = 2 := ⟨_, _, rfl, rfl, rfl⟩
  have start : ∀ s ∈ Explorer.forking.active, s.Proper := by
    intro s hs
    cases List.mem_singleton.mp hs
    exact ⟨Step.inFrontOf_wellFormed _, fun fd stream opened => by cases opened⟩
  obtain ⟨-, -, deadended, errored, steps⟩ := explore_order_independent
    (x := Explorer.forking) (y := Explorer.forkingInPairs) rfl rfl rfl (.refl _)
    (Solver.decisive_new _) (Solver.decisive_new _) start Explorer.forking_proper
    Explorer.forking_ignoresIds (fun _ _ _ => rfl) (fun _ _ _ => rfl) (by decide) rfl ran ran' exhausted
    exhausted'
  exact ⟨r, x', r', y', ran, ran', rounds, rounds', deadended, errored, steps⟩

end PathSearch
