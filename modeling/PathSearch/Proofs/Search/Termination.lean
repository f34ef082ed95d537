import Mathlib.Algebra.Order.BigOperators.Group.Finset
import Mathlib.Data.Multiset.DershowitzManna
import PathSearch.Proofs.Search.Conservation

/-! # Limits end a search

A limit on the number of all steps is used up by every round that steps a state. A limit on a path is
used up by the states themselves: each has so many steps left, or so many visits over all addresses,
and a step puts any number of states with less left in the place of one. The queue then gets smaller
as a multiset, and such a descent has an end.
-/

namespace PathSearch

/-- Picks a place of every queue that is not empty. -/
def Strategy.Picks {σ : Type} (pick : List State → σ → Option Nat × σ) : Prop :=
  ∀ (queue : List State) (memory : σ), queue ≠ [] →
    ∃ i, (pick queue memory).1 = some i ∧ i < queue.length

/-- Selects a state of every queue that has one. -/
def Strategy.Valid {σ : Type} (strategy : Strategy σ) : Prop := Picks strategy.select

theorem Random.belowFor_lt {bound : Nat} (positive : 0 < bound) (fuel : Nat) (r : Random) :
    (belowFor bound fuel r).1 < bound := by
  induction fuel generalizing r with
  | zero => exact positive
  | succ fuel ih =>
      simp only [belowFor]
      split
      · have word := r.next.1.toNat_lt
        exact Nat.div_lt_of_lt_mul (Nat.mul_lt_mul_of_pos_right word positive)
      · exact ih _

namespace Strategy

variable {σ : Type}

theorem picks_first : Picks fun queue (memory : σ) => (first? queue, memory) := by
  intro queue memory some
  exact ⟨0, by simp [first?, some], List.length_pos_iff.mpr some⟩

theorem picks_last : Picks fun queue (memory : σ) => (last? queue, memory) := by
  intro queue memory some
  have filled := List.length_pos_iff.mpr some
  exact ⟨queue.length - 1, by simp [last?, some], by omega⟩

theorem picks_draw : Picks draw := by
  intro queue r some
  have filled := List.length_pos_iff.mpr some
  exact ⟨(r.below queue.length).1, by simp [draw, some], Random.belowFor_lt filled _ _⟩

theorem depthFirst_valid : (depthFirst : Strategy σ).Valid := picks_last

theorem breadthFirst_valid : (breadthFirst : Strategy σ).Valid := picks_first

theorem random_valid : random.Valid := picks_draw

end Strategy

/-- Some number of steps or visits is limited. -/
def Limits.Bounded (l : Limits) : Prop :=
  l.maxTotalSteps ≠ 0 ∨ l.maxPathSteps ≠ 0 ∨ l.loopUnrollLimit.isSome

namespace History

theorem visits_record (h : History) (visited address : Word) :
    (h.record visited).visits address =
      if visited = address then min (h.visits visited + 1) maxCount else h.visits address := by
  simp only [visits, record, Std.TreeMap.getD_insert, Std.compare_eq_iff_eq]

/-- The number of visits left, over all addresses. -/
def room (h : History) (limit : Nat) : Nat :=
  ∑ a : Fin UInt64.size, (limit - h.visits (UInt64.ofFin a))

variable {h : History} {limit : Nat}

theorem left_record (counted : limit ≤ maxCount) (visited address : Word) :
    limit - (h.record visited).visits address ≤ limit - h.visits address := by
  rw [visits_record]
  split
  · rename_i here
    subst here
    omega
  · exact Nat.le_refl _

theorem room_record_le (counted : limit ≤ maxCount) (visited : Word) :
    (h.record visited).room limit ≤ h.room limit :=
  Finset.sum_le_sum fun _ _ => left_record counted visited _

/-- A visit to an address that has one left takes it away. -/
theorem room_record_lt (counted : limit ≤ maxCount) {visited : Word}
    (left : h.visits visited < limit) : (h.record visited).room limit < h.room limit := by
  refine Finset.sum_lt_sum (fun _ _ => left_record counted visited _)
    ⟨visited.toFin, Finset.mem_univ _, ?_⟩
  rw [UInt64.ofFin_toFin, visits_record, if_pos rfl]
  omega

end History

/-- What is left for a state goes down with every step, as long as it is not spent. -/
def Limits.Ranks (l : Limits) (rank : State → Nat) : Prop :=
  ∀ s t : State, s.recordStep.lineage.SamePath t.lineage → Progress.isSpent l t = false →
    rank t < rank s

theorem Limits.ranks_steps {l : Limits} (limited : l.maxPathSteps ≠ 0) :
    l.Ranks fun s => l.maxPathSteps - s.steps := by
  intro s t path unspent
  have length : t.steps = s.steps + 1 := path.1
  have goesOn := (Progress.isSpent_eq_false_iff.mp unspent).1 limited
  change l.maxPathSteps - t.steps < l.maxPathSteps - s.steps
  omega

/-- A state of the start may be at an address without a visit left; it is then one above those that
    come after it. -/
theorem Limits.ranks_visits {l : Limits} {limit : Nat} (limited : l.loopUnrollLimit = some limit)
    (counted : limit ≤ History.maxCount) :
    l.Ranks fun s => s.history.room limit + if limit ≤ s.history.visits s.ip then 1 else 0 := by
  intro s t path unspent
  have history : t.history = s.history.record s.ip := path.2
  have goesOn : ¬ limit ≤ t.history.visits t.ip :=
    Nat.not_le.mpr ((Progress.isSpent_eq_false_iff.mp unspent).2 limit limited)
  change t.history.room limit + (if limit ≤ t.history.visits t.ip then 1 else 0) <
    s.history.room limit + (if limit ≤ s.history.visits s.ip then 1 else 0)
  rw [if_neg goesOn, Nat.add_zero, history]
  by_cases spent : limit ≤ s.history.visits s.ip
  · rw [if_pos spent]
    exact Nat.lt_succ_of_le (History.room_record_le counted s.ip)
  · rw [if_neg spent, Nat.add_zero]
    exact History.room_record_lt counted (Nat.not_le.mp spent)

namespace Progress

variable {σ : Type} {hooks : HookTable} {c : Config} {strategy : Strategy σ} {find avoid : Predicate}

/-- A run ends that goes down with every round, in an order without infinite descent. -/
theorem runFor_ends {lower : Progress σ → Progress σ → Prop} (wf : WellFounded lower)
    (descends : ∀ p, outcome? c.limits p = none → lower (round hooks c strategy find avoid p) p)
    (p : Progress σ) :
    ∃ fuel o q, runFor hooks c strategy find avoid fuel p = some (o, q) := by
  induction p using wf.induction with
  | _ p ih =>
      cases outcome : outcome? c.limits p with
      | some o => exact ⟨0, o, p, runFor_ended outcome 0⟩
      | none =>
          obtain ⟨fuel, o, q, ran⟩ := ih _ (descends p outcome)
          exact ⟨fuel + 1, o, q, (runFor_succ outcome fuel).trans ran⟩

theorem take_of_picks {pick : List State → σ → Option Nat × σ} (picks : Strategy.Picks pick)
    {p : Progress σ} (some : p.active ≠ []) : ∃ s q, p.take pick = (Option.some s, q) := by
  obtain ⟨i, picked, inside⟩ := picks p.active p.memory some
  have taken : (p.take pick).1 = p.active[i] := by
    simp [take, picked, inside]
  exact ⟨_, _, Prod.ext taken rfl⟩

theorem selectBatch_ne_nil (valid : strategy.Valid) {n : Nat} (positive : n ≠ 0) {p : Progress σ}
    (some : p.active ≠ []) : (selectBatch strategy.select n p).1 ≠ [] := by
  obtain ⟨s, q, first⟩ := take_of_picks valid some
  obtain ⟨n, rfl⟩ := Nat.exists_eq_succ_of_ne_zero positive
  simp [selectBatch, first]

theorem steps_lt_round (hooks : HookTable) (find avoid : Predicate) (valid : strategy.Valid)
    (positive : c.batchSize ≠ 0) {p : Progress σ} (goesOn : outcome? c.limits p = none) :
    p.steps < (round hooks c strategy find avoid p).steps := by
  obtain ⟨batch, results, left, session, memory, -, -, -, picked, sorts⟩ :=
    round_sorts hooks c strategy find avoid p
  have some := selectBatch_ne_nil valid positive (outcome?_none_iff.mp goesOn).2.1
  rw [picked] at some
  have filled := List.length_pos_iff.mpr some
  have steps : (round hooks c strategy find avoid p).steps = p.steps + batch.length := sorts.steps
  omega

/-- The successors of a batch that are not spent have less left than some state of it. -/
theorem fit_chain_lt (keeps : hooks.KeepsPath) {rank : State → Nat} (ranks : c.limits.Ranks rank)
    {batch : List State} {results : List StepResult} {u v : Session}
    (chain : Chain (Step.Effect hooks) batch u results v) :
    ∀ t ∈ fit c.limits (results.flatMap (·.successors)), ∃ s ∈ batch, rank t < rank s := by
  intro t ht
  have unspent := List.of_mem_filter ht
  obtain ⟨r, hr, member⟩ := List.mem_flatMap.mp (active_of_mem_fit ht)
  obtain ⟨s, hs, u, v, effect⟩ := chain.exists_left hr
  have path := effect.path keeps _ member
  exact ⟨s, hs, ranks s t path (by simpa using unspent)⟩

/-- A round makes the queue smaller: some states leave it, and what comes in has less left. -/
theorem round_lt (valid : strategy.Valid) (positive : c.batchSize ≠ 0) (keeps : hooks.KeepsPath)
    {rank : State → Nat} (ranks : c.limits.Ranks rank) {p : Progress σ}
    (goesOn : outcome? c.limits p = none) :
    ((round hooks c strategy find avoid p).active.map rank : Multiset Nat).IsDershowitzMannaLT
      (p.active.map rank) := by
  obtain ⟨batch, results, left, session, memory, -, queue, chain, picked, sorts⟩ :=
    round_sorts hooks c strategy find avoid p
  generalize round hooks c strategy find avoid p = q at sorts ⊢
  have some := selectBatch_ne_nil valid positive (outcome?_none_iff.mp goesOn).2.1
  rw [picked] at some
  let old : Multiset Nat := left.map rank
  let new : Multiset Nat := (fit c.limits (results.flatMap (·.successors))).map rank
  let queue' : Multiset Nat := q.active.map rank
  have within : queue' ≤ old + new := by
    have mapped := Multiset.map_le_map (f := rank) sorts.active
    simpa [queue', old, new] using mapped
  have whole : (p.active.map rank : Multiset Nat) = old + batch.map rank := by
    rw [Multiset.coe_eq_coe.mpr (queue.map rank), List.map_append, ← Multiset.coe_add, add_comm]
  -- what stays of the old queue, what comes in, and what leaves
  refine ⟨queue' ∩ old, queue' - old, (old - queue') + batch.map rank, ?_, ?_, ?_, ?_⟩
  · intro empty
    have none := (add_eq_zero.mp empty).2
    exact some (List.map_eq_nil_iff.mp ((Multiset.coe_eq_zero _).mp none))
  · rw [add_comm, Multiset.sub_add_inter]
  · rw [whole, ← add_assoc, Multiset.inter_comm, add_comm (old ∩ queue'), Multiset.sub_add_inter]
  · intro y hy
    have incoming : y ∈ new := Multiset.mem_of_le (tsub_le_iff_left.mpr within) hy
    obtain ⟨t, ht, rfl⟩ := List.mem_map.mp incoming
    obtain ⟨s, hs, less⟩ := fit_chain_lt keeps ranks chain t ht
    exact ⟨rank s, Multiset.mem_add.mpr (.inr (List.mem_map_of_mem hs)), less⟩

theorem runFor_terminates (find avoid : Predicate) (valid : strategy.Valid) (positive : c.batchSize ≠ 0)
    (keeps : hooks.KeepsPath) (bounded : c.limits.Bounded)
    (counted : ∀ limit, c.limits.loopUnrollLimit = some limit → limit ≤ History.maxCount)
    (p : Progress σ) : ∃ fuel o q, runFor hooks c strategy find avoid fuel p = some (o, q) := by
  have ranked {rank : State → Nat} (ranks : c.limits.Ranks rank) :
      ∃ fuel o q, runFor hooks c strategy find avoid fuel p = some (o, q) :=
    runFor_ends
      (InvImage.wf (fun q : Progress σ => (q.active.map rank : Multiset Nat))
        Multiset.wellFounded_isDershowitzMannaLT)
      (fun _ goesOn => round_lt valid positive keeps ranks goesOn) p
  rcases bounded with total | path | loops
  · refine runFor_ends (InvImage.wf (fun q : Progress σ => c.limits.maxTotalSteps - q.steps)
      Nat.lt_wfRel.wf) (fun p goesOn => ?_) p
    have more := steps_lt_round hooks find avoid valid positive goesOn
    have below := (outcome?_none_iff.mp goesOn).2.2
    simp [Limits.stepsExceeded, total] at below
    change c.limits.maxTotalSteps - _ < c.limits.maxTotalSteps - p.steps
    omega
  · exact ranked (Limits.ranks_steps path)
  · obtain ⟨limit, limited⟩ := Option.isSome_iff_exists.mp loops
    exact ranked (Limits.ranks_visits limited (counted limit limited))

end Progress

theorem Config.batchSize_ne_zero {c : Config} (accepted : c.validate = .ok ()) : c.batchSize ≠ 0 := by
  intro zero
  unfold validate at accepted
  simp only [zero] at accepted
  split at accepted <;> cases accepted

/-- A search with a limit on the number of steps, or of visits, is refused at once or ends. Visits are
    counted in 32 bits, so that a limit on them is one of these numbers. -/
theorem explore_terminates {σ : Type} {x : Explorer} {strategy : Strategy σ}
    (accepted : x.config.validate = .ok ()) (bounded : x.config.limits.Bounded)
    (counted : ∀ limit, x.config.limits.loopUnrollLimit = some limit → limit ≤ History.maxCount)
    (valid : strategy.Valid) (keeps : x.hooks.KeepsPath) (find avoid : Predicate) (memory : σ) :
    (∃ e, Predicate.checkDisjoint find avoid = .error e ∧
      ∀ fuel, x.explore fuel find avoid strategy memory = .error e) ∨
    ∃ fuel r x' memory',
      x.explore fuel find avoid strategy memory = .ok (some (r, x', memory')) := by
  cases disjoint : Predicate.checkDisjoint find avoid with
  | error e =>
      refine .inl ⟨e, rfl, fun fuel => ?_⟩
      unfold Explorer.explore
      rw [disjoint]
      rfl
  | ok _ =>
      obtain ⟨fuel, o, p, ran⟩ := Progress.runFor_terminates find avoid valid
        (Config.batchSize_ne_zero accepted) keeps bounded counted
        { session := x.session, active := x.active, memory }
      exact .inr ⟨fuel, _, _, _, Explorer.explore_of_runFor disjoint ran⟩

namespace Explorer

/-- A search with no limit but the number of visits, in which a hook at its own address comes back. -/
noncomputable def looping : Explorer :=
  let x := inFrontOf [.nop]
  { x with
    config := { x.config with
      limits := { maxTotalSteps := 0, timeoutMs := 0, maxPathSteps := 0, loopUnrollLimit := some 3 } }
    hooks := HookTable.insert {} ⟨"twice", 0x1000, .custom fun s => pure [s, s]⟩ }

theorem looping_keepsPath : looping.hooks.KeepsPath := by
  intro address h run found custom
  simp only [looping, HookTable.insert, HookTable.lookup?, Std.TreeMap.getElem?_insert] at found
  split at found
  · cases found
    cases custom
    intro s n m states given
    cases given
    simp [Lineage.SamePath]
  · simp at found

end Explorer

theorem explore_terminates_looping :
    Explorer.looping.config.limits.maxTotalSteps = 0 ∧
      ∃ fuel r x' memory', Explorer.looping.explore fuel .never .never
        (.depthFirst : Strategy Unit) () = .ok (some (r, x', memory')) := by
  refine ⟨rfl, ?_⟩
  rcases explore_terminates (x := Explorer.looping) rfl (.inr (.inr rfl))
    (fun limit limited => by cases limited; decide) Strategy.depthFirst_valid
    Explorer.looping_keepsPath .never .never () with ⟨e, refused, -⟩ | ended
  · cases refused
  · exact ended

end PathSearch
