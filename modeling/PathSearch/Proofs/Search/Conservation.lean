import Mathlib.Data.Multiset.Bind
import Mathlib.Tactic.Abel
import PathSearch.Proofs.Lineage
import PathSearch.Proofs.Search.Soundness

/-! # A search neither loses nor duplicates states

A round takes its batch off the queue and puts every successor of it somewhere. So over a whole run
the states at the start and all that steps gave are those that were stepped and those at the end, and
the counts of the steps account for the difference.
-/

namespace PathSearch

/-- A successor that failed, with the reason. -/
def Successor.failure? : Successor → Option (State × Reason)
  | .errored s reason => some (s, reason)
  | _ => none

/-- A successor that can be stepped again. -/
def Successor.active? : Successor → Option State
  | .active s => some s
  | _ => none

/-- All states that were put aside. -/
def Sorted.states (q : Sorted) : Multiset State :=
  q.found + q.avoided + q.errored.map (·.1) + q.deadended

theorem Sorted.card_states (q : Sorted) : q.states.card =
    q.found.length + q.avoided.length + q.errored.length + q.deadended.length := by
  simp [states, Nat.add_assoc]

theorem length_failures (list : List Successor) :
    (list.filterMap (·.failure?)).length = list.countP (·.isErrored) := by
  induction list with
  | nil => rfl
  | cons x rest ih =>
      rw [List.filterMap_cons, List.countP_cons, ← ih]
      cases x <;> rfl

/-- States that were stepped, in order, each with what its step gave. -/
abbrev StepLog := List (State × StepResult)

namespace StepLog

def stepped (log : StepLog) : List State := log.map (·.1)

/-- All that the steps gave. -/
def successors (log : StepLog) : List Successor := log.flatMap (·.2.successors)

theorem stepped_append (log more : StepLog) : stepped (log ++ more) = log.stepped ++ more.stepped :=
  List.map_append

theorem successors_cons (s : State) (r : StepResult) (log : StepLog) :
    successors ((s, r) :: log) = r.successors ++ log.successors := rfl

theorem successors_append (log more : StepLog) :
    successors (log ++ more) = log.successors ++ more.successors :=
  List.flatMap_append

end StepLog

namespace Progress

variable {σ : Type}

/-- All states of a search, put aside or in the queue. -/
def states (p : Progress σ) : Multiset State := p.sorted.states + p.active

/-- What a round steps. -/
def roundLog (hooks : HookTable) (c : Config) (strategy : Strategy σ) (p : Progress σ) : StepLog :=
  let (batch, p) := selectBatch strategy.select c.batchSize p
  batch.zip ((stepAll hooks c.addressCap batch).run p.session).1

/-- What a run steps, round by round. -/
def logs (hooks : HookTable) (c : Config) (strategy : Strategy σ) (find avoid : Predicate) :
    (fuel : Nat) → Progress σ → List StepLog
  | 0, _ => []
  | fuel + 1, p =>
      match outcome? c.limits p with
      | some _ => []
      | none =>
          roundLog hooks c strategy p ::
            logs hooks c strategy find avoid fuel (round hooks c strategy find avoid p)

/-- The successors that may be stepped again, and are not spent. -/
def fit (l : Limits) (list : List Successor) : List State :=
  (list.filterMap (·.active?)).filter fun t => !isSpent l t

theorem fit_append (l : Limits) (list more : List Successor) :
    fit l (list ++ more) = fit l list ++ fit l more := by
  simp [fit]

theorem active_of_mem_fit {l : Limits} {list : List Successor} {t : State} (ht : t ∈ fit l list) :
    .active t ∈ list := by
  obtain ⟨x, hx, same⟩ := List.mem_filterMap.mp (List.mem_of_mem_filter ht)
  cases x <;> cases same
  exact hx

/-- Successors are put somewhere, and nothing else happens but that states leave the queue and are put
    aside. -/
structure Sorts (l : Limits) (p : Progress σ) (list : List Successor) (q : Progress σ) : Prop where
  states : q.states = p.states + list.map (·.state)
  active : (q.active : Multiset State) ≤ p.active + fit l list
  errored : q.sorted.errored = p.sorted.errored ++ list.filterMap (·.failure?)
  session : q.session = p.session
  steps : q.steps = p.steps

theorem Sorts.refl (l : Limits) (p : Progress σ) : Sorts l p [] p := by
  constructor <;> simp [fit]

theorem Sorts.trans {l : Limits} {p q r : Progress σ} {list more : List Successor}
    (first : Sorts l p list q) (later : Sorts l q more r) : Sorts l p (list ++ more) r where
  states := by
    rw [later.states, first.states, List.map_append, ← Multiset.coe_add, add_assoc]
  active := by
    rw [fit_append, ← Multiset.coe_add, ← add_assoc]
    exact later.active.trans (add_le_add_left first.active _)
  errored := by
    rw [later.errored, first.errored, List.filterMap_append, List.append_assoc]
  session := later.session.trans first.session
  steps := later.steps.trans first.steps

theorem Sorts.mem_states {l : Limits} {p q : Progress σ} {list : List Successor} (h : Sorts l p list q)
    {s : State} (hs : s ∈ q.states) : s ∈ p.states ∨ ∃ x ∈ list, x.state = s := by
  rw [h.states, Multiset.mem_add, Multiset.mem_coe, List.mem_map] at hs
  exact hs

theorem Sorts.mem_active {l : Limits} {p q : Progress σ} {list : List Successor} (h : Sorts l p list q)
    {s : State} (hs : s ∈ q.active) : s ∈ p.active ∨ s ∈ fit l list := by
  have queued := Multiset.mem_of_le h.active (Multiset.mem_coe.mpr hs)
  rwa [Multiset.mem_add, Multiset.mem_coe, Multiset.mem_coe] at queued

section Classify

variable (l : Limits) (find avoid : Predicate)

theorem states_classify (p : Progress σ) (x : Successor) :
    (classify l find avoid p x).states = p.states + {x.state} := by
  have outcome := classified l find avoid p x
  generalize classify l find avoid p x = q at outcome ⊢
  cases outcome <;>
    simp only [states, Sorted.states, Successor.state, List.map_append, List.map_singleton,
      ← Multiset.coe_add, Multiset.coe_singleton] <;> abel

theorem sorts_classify (p : Progress σ) (x : Successor) :
    Sorts l p [x] (classify l find avoid p x) := by
  have states := states_classify l find avoid p x
  have outcome := classified l find avoid p x
  generalize classify l find avoid p x = q at outcome states ⊢
  cases outcome with
  | errored => exact ⟨states, Multiset.le_add_right _ _, rfl, rfl, rfl⟩
  | avoided fine | found fine | deadended fine =>
      refine ⟨states, Multiset.le_add_right _ _, ?_, rfl, rfl⟩
      cases x with
      | errored => cases fine
      | active | exited => simp [Successor.failure?]
  | queued _ _ goesOn =>
      refine ⟨states, ?_, by simp [Successor.failure?], rfl, rfl⟩
      simp only [fit, Successor.active?, List.filterMap_cons, List.filterMap_nil, List.filter_cons,
        goesOn, Multiset.coe_add]
      exact le_refl _

theorem sorts_foldl (list : List Successor) (p : Progress σ) :
    Sorts l p list (list.foldl (classify l find avoid) p) := by
  induction list generalizing p with
  | nil => exact .refl l p
  | cons x rest ih => exact (sorts_classify l find avoid p x).trans (ih _)

end Classify

theorem sorts_enforceCap (l : Limits) (pick : List State → σ → Option Nat × σ) (p : Progress σ) :
    Sorts l p [] (enforceCap l pick p) := by
  obtain ⟨given, queue, frame⟩ := enforceCap_spec l pick p
  generalize enforceCap l pick p = q at queue frame ⊢
  have whole : (p.active : Multiset State) = given + q.active := Multiset.coe_eq_coe.mpr queue
  have sorted : q.sorted = { p.sorted with deadended := p.sorted.deadended ++ given } := by rw [frame]
  have session : q.session = p.session := by rw [frame]
  have steps : q.steps = p.steps := by rw [frame]
  refine ⟨?_, ?_, by simp [sorted], session, steps⟩
  · simp only [states, Sorted.states, sorted, whole, List.map_nil, ← Multiset.coe_add,
      Multiset.coe_nil]
    abel
  · rw [whole]
    exact (Multiset.le_add_left _ _).trans (Multiset.le_add_right _ _)

/-- What happens to the states from one point of a run to another, and what is counted. -/
structure Accounts (hooks : HookTable) (p : Progress σ) (log : StepLog) (q : Progress σ) : Prop where
  /-- Every state is stepped or stays, and every successor is put somewhere. -/
  states : p.states + log.successors.map (·.state) = log.stepped + q.states
  /-- What is stepped was in the queue or came out of a step. -/
  active : (log.stepped + q.active : Multiset State) ≤
    p.active + log.successors.filterMap (·.active?)
  errored : q.sorted.errored = p.sorted.errored ++ log.successors.filterMap (·.failure?)
  steps : q.steps = p.steps + log.length
  executed : q.session.stats.instructions + q.session.stats.hooks +
      log.countP (fun entry => Step.isUndecoded hooks entry.1) =
    p.session.stats.instructions + p.session.stats.hooks + log.length
  forks : q.session.stats.forks + log.length =
    p.session.stats.forks + log.successors.length + log.countP (·.2.successors.isEmpty)
  errors : q.session.stats.errors = p.session.stats.errors + log.successors.countP (·.isErrored)

namespace Accounts

variable {hooks : HookTable} {p q r : Progress σ} {log more : StepLog}

theorem refl (p : Progress σ) : Accounts hooks p [] p := by
  constructor <;> simp [StepLog.successors, StepLog.stepped]

theorem trans_le {a b c d e f : Multiset State} (first : a + b ≤ c + d) (later : e ≤ b + f) :
    a + e ≤ c + (d + f) :=
  calc a + e ≤ a + (b + f) := add_le_add_right later _
    _ = a + b + f := (add_assoc _ _ _).symm
    _ ≤ c + d + f := add_le_add_left first _
    _ = c + (d + f) := add_assoc _ _ _

theorem trans (first : Accounts hooks p log q) (later : Accounts hooks q more r) :
    Accounts hooks p (log ++ more) r where
  states := by
    rw [log.stepped_append, log.successors_append, List.map_append, ← Multiset.coe_add,
      ← Multiset.coe_add, ← add_assoc, first.states, add_assoc, later.states, add_assoc]
  active := by
    rw [log.stepped_append, log.successors_append, List.filterMap_append, ← Multiset.coe_add,
      ← Multiset.coe_add]
    rw [add_assoc]
    exact trans_le first.active later.active
  errored := by
    rw [log.successors_append, List.filterMap_append, later.errored, first.errored, List.append_assoc]
  steps := by
    rw [later.steps, first.steps, List.length_append]
    omega
  executed := by
    have before := first.executed
    have after := later.executed
    rw [List.countP_append, List.length_append]
    omega
  forks := by
    have before := first.forks
    have after := later.forks
    rw [log.successors_append, List.countP_append, List.length_append, List.length_append]
    omega
  errors := by
    rw [later.errors, first.errors, log.successors_append, List.countP_append, Nat.add_assoc]

end Accounts

/-- What the steps of a batch count. -/
theorem chain_counts {hooks : HookTable} {batch : List State} {results : List StepResult}
    {u v : Session} (h : Chain (Step.Effect hooks) batch u results v) :
    let log : StepLog := batch.zip results
    v.stats.instructions + v.stats.hooks + log.countP (fun entry => Step.isUndecoded hooks entry.1) =
        u.stats.instructions + u.stats.hooks + log.length ∧
      v.stats.forks + log.length =
        u.stats.forks + log.successors.length + log.countP (·.2.successors.isEmpty) ∧
      v.stats.errors = u.stats.errors + log.successors.countP (·.isErrored) := by
  induction h with
  | nil => simp [StepLog.successors]
  | @cons s r batch results u mid v first rest ih =>
      obtain ⟨executed, forks, errors⟩ := ih
      have executed' := first.executed_or_hooked
      have forks' := first.forks
      have errors' := first.errors
      have branches : r.successors.length - 1 + 1 =
          r.successors.length + if r.successors.isEmpty then 1 else 0 := by
        cases r.successors <;> simp
      simp only [List.zip_cons_cons, StepLog.successors_cons, List.countP_cons, List.length_cons,
        List.length_append, List.countP_append]
      exact ⟨by omega, by omega, by omega⟩

section Run

variable {hooks : HookTable} {c : Config} {strategy : Strategy σ} {find avoid : Predicate}

theorem chain_stepAll (hooks : HookTable) (cap : Nat) (batch : List State) (u : Session) :
    Chain (Step.Effect hooks) batch u ((stepAll hooks cap batch).run u).1
      ((stepAll hooks cap batch).run u).2 := by
  refine (Chain.mapM (Step.step hooks cap) batch u).mono fun s u r v ran => ?_
  have effect := Step.effect_step hooks cap s u
  rw [ran] at effect
  exact effect

/-- A round in terms of what it runs: the batch leaves the queue, and what its steps give is sorted. -/
theorem round_runs (hooks : HookTable) (c : Config) (strategy : Strategy σ) (find avoid : Predicate)
    (p : Progress σ) : ∃ batch left memory,
    let outcome := (stepAll hooks c.addressCap batch).run p.session
    roundLog hooks c strategy p = batch.zip outcome.1 ∧ p.active.Perm (batch ++ left) ∧
      (selectBatch strategy.select c.batchSize p).1 = batch ∧
      Sorts c.limits { p with
          session := outcome.2
          memory
          active := left
          steps := p.steps + batch.length
          iterations := p.iterations + 1 }
        (outcome.1.flatMap (·.successors)) (round hooks c strategy find avoid p) := by
  obtain ⟨batch, selected, results, session, picked, ran, whole⟩ :=
    round_spec hooks c strategy find avoid p
  obtain ⟨queue, frame⟩ := selectBatch_spec picked
  have same : selected.session = p.session := by rw [frame]
  have log : roundLog hooks c strategy p = batch.zip results := by simp only [roundLog, picked, ran]
  rw [same] at ran
  refine ⟨batch, selected.active, selected.memory, by rw [log, ran], queue, by rw [picked], ?_⟩
  simp only [ran]
  rw [whole, frame, ← List.append_nil (results.flatMap (·.successors))]
  simpa using (sorts_foldl c.limits find avoid _ _).trans (sorts_enforceCap c.limits strategy.evict _)

/-- A round in terms of what its steps do. -/
theorem round_sorts (hooks : HookTable) (c : Config) (strategy : Strategy σ) (find avoid : Predicate)
    (p : Progress σ) : ∃ batch results left session memory,
    roundLog hooks c strategy p = batch.zip results ∧ p.active.Perm (batch ++ left) ∧
      Chain (Step.Effect hooks) batch p.session results session ∧
      (selectBatch strategy.select c.batchSize p).1 = batch ∧
      Sorts c.limits { p with
          session, memory
          active := left
          steps := p.steps + batch.length
          iterations := p.iterations + 1 }
        (results.flatMap (·.successors)) (round hooks c strategy find avoid p) := by
  obtain ⟨batch, left, memory, log, queue, picked, sorts⟩ := round_runs hooks c strategy find avoid p
  exact ⟨batch, _, left, _, memory, log, queue, chain_stepAll hooks c.addressCap batch p.session, picked,
    sorts⟩

theorem round_accounts (hooks : HookTable) (c : Config) (strategy : Strategy σ)
    (find avoid : Predicate) (p : Progress σ) :
    Accounts hooks p (roundLog hooks c strategy p) (round hooks c strategy find avoid p) := by
  obtain ⟨batch, results, left, session, memory, log, queue, chain, -, sorts⟩ :=
    round_sorts hooks c strategy find avoid p
  generalize round hooks c strategy find avoid p = q at sorts ⊢
  have batches : StepLog.stepped (batch.zip results) = batch := List.map_fst_zip chain.length_eq.le
  have given : StepLog.successors (batch.zip results) = results.flatMap (·.successors) := by
    rw [StepLog.successors, ← List.flatMap_map, List.map_snd_zip chain.length_eq.ge]
  have entries : (batch.zip results).length = batch.length := by
    rw [List.length_zip, chain.length_eq, Nat.min_self]
  have waiting : (p.active : Multiset State) = batch + left := Multiset.coe_eq_coe.mpr queue
  obtain ⟨executed, forks, errors⟩ := chain_counts chain
  rw [log]
  constructor
  · rw [batches, given, sorts.states]
    simp only [states, waiting]
    abel
  · rw [batches, given, waiting, add_assoc]
    have alive : (fit c.limits (results.flatMap (·.successors)) : Multiset State) ≤
        (results.flatMap (·.successors)).filterMap (·.active?) :=
      Multiset.coe_le.mpr List.filter_sublist.subperm
    exact add_le_add_right (sorts.active.trans (add_le_add_right alive _)) _
  · rw [given, sorts.errored]
  · rw [entries, sorts.steps]
  · rw [sorts.session]
    exact executed
  · rw [sorts.session]
    exact forks
  · rw [sorts.session]
    exact errors

theorem logs_account {fuel : Nat} {p q : Progress σ} {o : Outcome}
    (ran : runFor hooks c strategy find avoid fuel p = some (o, q)) :
    Accounts hooks p (logs hooks c strategy find avoid fuel p).flatten q := by
  induction fuel generalizing p with
  | zero =>
      rcases runFor_cases ran with ⟨-, rfl⟩ | ⟨-, _, impossible, -⟩
      · exact .refl _
      · cases impossible
  | succ fuel ih =>
      rcases runFor_cases ran with ⟨ended, rfl⟩ | ⟨goesOn, k, same, later⟩
      · simp only [logs, ended]
        exact .refl _
      · cases same
        simp only [logs, goesOn]
        exact (round_accounts hooks c strategy find avoid p).trans (ih later)

theorem roundLog_le (hooks : HookTable) (c : Config) (strategy : Strategy σ) (p : Progress σ) :
    (StepLog.stepped (roundLog hooks c strategy p) : Multiset State) ≤ p.active := by
  obtain ⟨batch, results, left, session, memory, log, queue, chain, -⟩ :=
    round_sorts hooks c strategy .never .never p
  have batches : StepLog.stepped (batch.zip results) = batch := List.map_fst_zip chain.length_eq.le
  rw [log, batches, Multiset.coe_eq_coe.mpr queue, ← Multiset.coe_add]
  exact Multiset.le_add_right _ _

/-- What the first rounds step was in the queue, or came out of a round before. -/
theorem stepped_le (fuel n : Nat) (p : Progress σ) :
    let logs := logs hooks c strategy find avoid fuel p
    (StepLog.stepped (logs.take (n + 1)).flatten : Multiset State) ≤
      p.active + (StepLog.successors (logs.take n).flatten).filterMap (·.active?) := by
  induction fuel generalizing n p with
  | zero => exact Multiset.zero_le _
  | succ fuel ih =>
      cases outcome : outcome? c.limits p with
      | some o =>
          simp only [logs, outcome, List.take_nil]
          exact Multiset.zero_le _
      | none =>
          simp only [logs, outcome, List.take_succ_cons, List.flatten_cons, StepLog.stepped_append]
          cases n with
          | zero =>
              have first := roundLog_le hooks c strategy p
              simpa [StepLog.stepped, StepLog.successors] using first
          | succ n =>
              have first := (round_accounts hooks c strategy find avoid p).active
              have later := ih n (round hooks c strategy find avoid p)
              simp only [List.take_succ_cons, List.flatten_cons, StepLog.successors_append,
                List.filterMap_append, ← Multiset.coe_add] at later ⊢
              exact Accounts.trans_le first later

end Run

/-- Identities that are all different, and all before the next one. -/
structure Taken (ids : Multiset Nat) (next : Nat) : Prop where
  nodup : ids.Nodup
  old : ∀ i ∈ ids, i < next

/-- The successors of a state take its place among identities that are all different. -/
theorem Taken.issued {ids : List Nat} {id n m : Nat} {kept : Multiset Nat}
    (taken : Taken (id ::ₘ kept) n) (issued : Issued id n m ids) : Taken (↑ids + kept) m := by
  obtain ⟨own, distinct⟩ := Multiset.nodup_cons.mp taken.nodup
  have forward := issued.forward
  constructor
  · refine Multiset.nodup_add.mpr ⟨issued.distinct, distinct, ?_⟩
    rw [Multiset.disjoint_left]
    intro i here there
    rcases issued.own_or_new i here with rfl | ⟨new, -⟩
    · exact own there
    · have := taken.old i (Multiset.mem_cons_of_mem there)
      omega
  · have below : ∀ i ∈ id ::ₘ kept, i < m := fun i hi => Nat.lt_of_lt_of_le (taken.old i hi) forward
    intro i hi
    rcases Multiset.mem_add.mp hi with here | there
    · rcases issued.own_or_new i here with rfl | ⟨-, new⟩
      · exact below _ (Multiset.mem_cons_self _ _)
      · exact new
    · exact below i (Multiset.mem_cons_of_mem there)

theorem Taken.chain {hooks : HookTable} (fresh : hooks.FreshIds) {batch : List State}
    {results : List StepResult} {u v : Session} (h : Chain (Step.Effect hooks) batch u results v)
    {others : Multiset Nat} (taken : Taken (↑(batch.map (·.id)) + others) u.nextId) :
    Taken (↑((results.flatMap (·.successors)).map (·.state.id)) + others) v.nextId := by
  induction h generalizing others with
  | nil => exact taken
  | @cons s r batch results u mid v first rest ih =>
      rw [List.map_cons, ← Multiset.cons_coe, Multiset.cons_add] at taken
      have issued := first.issued fresh (taken.old s.id (Multiset.mem_cons_self _ _))
      have after := taken.issued issued
      -- the states still to be stepped come first again, and what this step gave joins the others
      rw [add_left_comm] at after
      have done := ih after
      rw [← add_assoc, add_comm (Multiset.ofList _) (Multiset.ofList _), Multiset.coe_add] at done
      rw [List.flatMap_cons, List.map_append]
      exact done

/-- The states of a search have different identities, all of them before the next one. -/
def Distinct (p : Progress σ) : Prop := Taken (p.states.map (·.id)) p.session.nextId

section Run

variable {hooks : HookTable} {c : Config} {strategy : Strategy σ} {find avoid : Predicate}

/-- A round keeps the identities of the states of a search different. -/
theorem Distinct.round (fresh : hooks.FreshIds) {p : Progress σ} (distinct : p.Distinct) :
    (round hooks c strategy find avoid p).Distinct := by
  obtain ⟨batch, results, left, session, memory, -, queue, chain, -, sorts⟩ :=
    round_sorts hooks c strategy find avoid p
  generalize Progress.round hooks c strategy find avoid p = q at sorts ⊢
  have waiting : (p.active : Multiset State) = batch + left := Multiset.coe_eq_coe.mpr queue
  have before : p.states.map (·.id) =
      ↑(batch.map (·.id)) + (p.sorted.states + left).map (·.id) := by
    rw [states, waiting, add_left_comm, Multiset.map_add, Multiset.map_coe]
  have after : q.states.map (·.id) = ↑((results.flatMap (·.successors)).map (·.state.id)) +
      (p.sorted.states + left).map (·.id) := by
    rw [sorts.states, add_comm, Multiset.map_add, Multiset.map_coe, List.map_map]
    rfl
  unfold Distinct at distinct ⊢
  rw [before] at distinct
  rw [after, sorts.session]
  exact distinct.chain fresh chain

end Run

end Progress

namespace Explorer

open Progress

variable {σ : Type}

/-- What a search steps, round by round. -/
def logs (fuel : Nat) (x : Explorer) (find avoid : Predicate) (strategy : Strategy σ) (memory : σ) :
    List StepLog :=
  Progress.logs x.hooks x.config strategy find avoid fuel
    { session := x.session, active := x.active, memory }

end Explorer

open Progress in
/-- No state of a search is lost or duplicated, and the counts of the steps account for all of them. -/
theorem explore_conserves {σ : Type} {fuel : Nat} {x x' : Explorer} {find avoid : Predicate}
    {strategy : Strategy σ} {memory memory' : σ} {r : Result}
    (ran : x.explore fuel find avoid strategy memory = .ok (some (r, x', memory'))) :
    let logs := x.logs fuel find avoid strategy memory
    let log : StepLog := logs.flatten
    -- every state and every successor is stepped, put aside or left in the queue, and only once
    (x.active + log.successors.map (·.state) : Multiset State) =
        log.stepped + r.sorted.states + r.active ∧
      r.sorted.errored = log.successors.filterMap (·.failure?) ∧
      -- what is stepped, or is left in the queue, came out of an earlier step or was there at first
      (∀ n, (StepLog.stepped (logs.take (n + 1)).flatten : Multiset State) ≤
        x.active + (StepLog.successors (logs.take n).flatten).filterMap (·.active?)) ∧
      (log.stepped + r.active : Multiset State) ≤
        x.active + log.successors.filterMap (·.active?) ∧
      -- the counts
      (r.sorted.found.length + r.sorted.avoided.length + r.sorted.errored.length +
          r.sorted.deadended.length + r.active.length : Int) =
        x.active.length + (r.stepper.forks - x.session.stats.forks) -
          log.countP (·.2.successors.isEmpty) ∧
      r.steps = log.length ∧
      (r.steps : Int) = r.stepper.instructions - x.session.stats.instructions +
        (r.stepper.hooks - x.session.stats.hooks) +
        log.countP (fun entry => Step.isUndecoded x.hooks entry.1) ∧
      (r.stepper.errors - x.session.stats.errors : Int) = r.sorted.errored.length ∧
      -- the identities
      (x.hooks.FreshIds → (x.active.map (·.id)).Nodup → (∀ s ∈ x.active, s.id < x.session.nextId) →
        ((r.sorted.states + r.active).map (·.id)).Nodup) := by
  intro logs log
  obtain ⟨-, p, rounds, result, -, -⟩ := Explorer.explore_ran ran
  have account : Accounts x.hooks { session := x.session, active := x.active, memory } log p :=
    logs_account rounds
  have states : (x.active + log.successors.map (·.state) : Multiset State) =
      log.stepped + (p.sorted.states + p.active) := by
    have given := account.states
    have start : Progress.states { session := x.session, active := x.active, memory } =
      (x.active : Multiset State) := zero_add _
    rwa [start] at given
  have errored : p.sorted.errored = log.successors.filterMap (·.failure?) := account.errored
  have steps : p.steps = log.length := account.steps.trans (Nat.zero_add _)
  have forks := account.forks
  have executed := account.executed
  have errors := account.errors
  have card := congrArg Multiset.card states
  simp only at forks executed errors
  simp only [Multiset.card_add, Multiset.coe_card, List.length_map, Sorted.card_states,
    StepLog.stepped] at card
  rw [result]
  refine ⟨by rw [states, add_assoc], errored, fun n => stepped_le fuel n _, account.active,
    ?_, steps, ?_, ?_, fun fresh nodup old => ?_⟩
  · simp only
    omega
  · simp only
    omega
  · have failures := length_failures log.successors
    rw [← errored] at failures
    simp only
    omega
  · have kept := (runFor_induction (motive := Distinct) ?_
      (fun _ _ distinct => distinct.round fresh) rounds).1
    · exact kept.nodup
    · have start : Progress.states { session := x.session, active := x.active, memory } =
          (x.active : Multiset State) := zero_add _
      refine ⟨start ▸ nodup, fun i hi => ?_⟩
      rw [start] at hi
      obtain ⟨s, hs, rfl⟩ := Multiset.mem_map.mp hi
      exact old s hs

namespace Explorer

/-- A search in which a hook forks: one state goes on behind the hook, its copy leaves the code. -/
noncomputable def forking : Explorer :=
  { inFrontOf [.nop, .halt] with
    hooks := HookTable.insert {} ⟨"fork", 0x1000, .custom fun s => do
      let copy ← s.forkFresh
      return [s.setIp 0x1001, copy.setIp 0]⟩ }

theorem forking_fresh : forking.hooks.FreshIds := by
  intro address h run found custom
  simp only [forking, HookTable.insert, HookTable.lookup?, Std.TreeMap.getElem?_insert] at found
  split at found
  · cases found
    cases custom
    intro s n m result ran
    cases ran
    refine ⟨Nat.le_succ n, fun states given old => ?_⟩
    cases given
    constructor
    · exact Nat.le_succ n
    · simp [State.setIp, State.fork]
    · simp [State.setIp, State.fork]
      omega
  · simp at found

end Explorer

theorem explore_conserves_forking : ∃ r x',
    Explorer.forking.explore 4 .never .never (.breadthFirst : Strategy Unit) () =
      .ok (some (r, x', ())) ∧
    r.steps = 3 ∧ r.stepper.forks = 1 ∧ r.sorted.errored.length = 1 ∧
    r.sorted.deadended.length = 1 ∧
    (r.stepper.errors - Explorer.forking.session.stats.errors : Int) = 1 ∧
    ((r.sorted.states + r.active).map (·.id)).Nodup := by
  obtain ⟨r, x', ran, steps, forks, failed, ended⟩ : ∃ r x',
      Explorer.forking.explore 4 .never .never (.breadthFirst : Strategy Unit) () =
        .ok (some (r, x', ())) ∧
      r.steps = 3 ∧ r.stepper.forks = 1 ∧ r.sorted.errored.length = 1 ∧
      r.sorted.deadended.length = 1 := ⟨_, _, rfl, rfl, rfl, rfl, rfl⟩
  obtain ⟨-, -, -, -, -, -, -, errors, distinct⟩ := explore_conserves ran
  refine ⟨r, x', ran, steps, forks, failed, ended, by rw [errors, failed]; rfl, ?_⟩
  refine distinct Explorer.forking_fresh (List.pairwise_singleton _ _) fun s hs => ?_
  cases List.mem_singleton.mp hs
  exact Nat.zero_lt_one

end PathSearch
