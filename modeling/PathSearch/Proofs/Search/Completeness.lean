import PathSearch.Proofs.Search.Soundness

/-! # An exhausted search has found everything

A run of the concrete machine that stays within the limits of a search is followed by some state in
the queue until it arrives where the search looks. So when the queue is empty and no state failed,
every such run has been found.
-/

namespace PathSearch

open PathSearch.Expr Session

namespace Machine

/-- The beginning of a run is a run, and the machine after it stands at the next address visited. -/
theorem run_take {image : Program} {m : Machine} {n i : Nat} {visited : List Word} {e : Stepped}
    (h : run image m n = some (visited, e)) (before : i < n) :
    ∃ m', run image m i = some (visited.take i, .running m') ∧ visited[i]? = some m'.ip := by
  induction n generalizing visited e with
  | zero => cases before
  | succ n ih =>
      obtain ⟨first, m', start, -, rfl⟩ := run_succ_inv h
      have length := length_visited start
      rcases Nat.lt_succ_iff_lt_or_eq.mp before with earlier | rfl
      · obtain ⟨m'', part, place⟩ := ih start earlier
        refine ⟨m'', ?_, ?_⟩
        · rw [List.take_append_of_le_length (by omega)]
          exact part
        · rw [List.getElem?_append_left (by omega)]
          exact place
      · refine ⟨m', ?_, ?_⟩
        · rw [List.take_left' length]
          exact start
        · rw [List.getElem?_append_right (by omega)]
          simp [length]

end Machine

namespace History

/-- An address was not visited more often than the trail tells. -/
def Counted (h : History) : Prop := ∀ address, h.visits address ≤ h.addresses.count address

theorem counted_start : Counted {} := fun address => by
  simp [visits]

theorem Counted.record {h : History} (counted : h.Counted) (visited : Word) :
    (h.record visited).Counted := by
  intro address
  have before := counted address
  rw [Descends.addresses_record, List.count_append, List.count_singleton]
  simp only [visits, History.record, Std.TreeMap.getD_insert, Std.compare_eq_iff_eq]
  by_cases here : visited = address
  · subst here
    simp only [visits] at before
    simp only [if_true, beq_self_eq_true]
    omega
  · simp only [visits] at before
    simpa [here] using before

end History

namespace Predicate

/-- Looks at the address only. -/
def isAddressSet : Predicate → Bool
  | .never | .addresses _ => true
  | .custom _ => false

/-- Holds an address. -/
def covers : Predicate → Word → Bool
  | .addresses set, address => set.contains address
  | .never, _ | .custom _, _ => false

theorem accepts_eq_covers {p : Predicate} (h : p.isAddressSet = true) (s : State) :
    p.accepts s = p.covers s.ip := by
  cases p with
  | never => rfl
  | addresses set => rfl
  | custom holds => cases h

/-- Predicates that do not contradict each other have no address in common. -/
theorem covers_avoid {find avoid : Predicate} (disjoint : checkDisjoint find avoid = .ok ())
    {address : Word} (finds : find.covers address = true) : avoid.covers address = false := by
  cases find with
  | never => cases finds
  | custom holds => cases finds
  | addresses f => cases avoid with
    | never => rfl
    | custom holds => rfl
    | addresses a =>
        simp only [checkDisjoint] at disjoint
        split at disjoint
        · cases disjoint
        · rename_i apart
          have inside : address ∈ f.toList := Std.TreeSet.mem_toList.mpr finds
          exact eq_false_of_ne_true (List.find?_eq_none.mp apart address inside)

end Predicate

/-- A run of `k` instructions that arrives at an address that is looked for, stays clear of all other
    such addresses and of those that are avoided after its start, and keeps within the limits of a
    path. -/
structure Target (l : Limits) (find avoid : Predicate) (image : Program) (start : Machine) (k : Nat)
    (visited : List Word) (m : Machine) : Prop where
  positive : 1 ≤ k
  run : start.run image k = some (visited, .running m)
  finds : find.covers m.ip = true
  passes : ∀ (i : Nat) (address : Word), 1 ≤ i → visited[i]? = some address →
    find.covers address = false ∧ avoid.covers address = false
  short : l.maxPathSteps ≠ 0 → k ≤ l.maxPathSteps
  unrolled : ∀ limit, l.loopUnrollLimit = some limit →
    ∀ (i : Nat) (address : Word), 1 ≤ i → visited[i]? = some address →
      (visited.take i).count address < limit

/-- A state in the queue that follows a run, with the run not yet at its end. -/
structure Follows (s₀ : State) (α : Assignment) (k : Nat) (t : State) : Prop where
  descends : Descends s₀ (.active t)
  admits : t.Admits α
  counted : t.history.Counted
  before : t.steps < k

namespace Progress

variable {σ : Type} {K : Constraints → Prop} {l : Limits} {find avoid : Predicate} {p : Progress σ}

/-- Some state is on its way to the target, or at it and found. -/
def Pending (s₀ : State) (α : Assignment) (k : Nat) (m : Machine) (p : Progress σ) : Prop :=
  (∃ t ∈ p.active, Follows s₀ α k t) ∨ ∃ t ∈ p.sorted.found, t.ip = m.ip ∧ t.Admits α

variable {s₀ : State} {α : Assignment} {k : Nat} {visited : List Word} {m : Machine}

theorem Pending.classify (h : p.Pending s₀ α k m) (x : Successor) :
    (classify l find avoid p x).Pending s₀ α k m := by
  have outcome := classified l find avoid p x
  generalize Progress.classify l find avoid p x = q at outcome ⊢
  rcases h with ⟨t, queued, follows⟩ | ⟨t, found, arrived⟩
  · refine .inl ⟨t, ?_, follows⟩
    cases outcome with
    | queued => exact List.mem_append_left _ queued
    | _ => exact queued
  · refine .inr ⟨t, ?_, arrived⟩
    cases outcome with
    | found => exact List.mem_append_left _ found
    | _ => exact found

theorem Pending.foldl_classify (h : p.Pending s₀ α k m) (list : List Successor) :
    (list.foldl (Progress.classify l find avoid) p).Pending s₀ α k m := by
  induction list generalizing p with
  | nil => exact h
  | cons x rest ih => exact ih (h.classify x)

/-- One successor that goes on, or arrives, is enough. -/
theorem pending_of_mem {list : List Successor} {x : Successor} (hx : x ∈ list)
    (sorted : ∀ q : Progress σ, (Progress.classify l find avoid q x).Pending s₀ α k m) :
    (list.foldl (Progress.classify l find avoid) p).Pending s₀ α k m := by
  induction list generalizing p with
  | nil => cases hx
  | cons y rest ih =>
      rcases List.mem_cons.mp hx with rfl | later
      · exact (sorted p).foldl_classify rest
      · exact ih later

/-- Failures stay listed. -/
theorem foldl_classify_fine {list : List Successor}
    (fine : (list.foldl (Progress.classify l find avoid) p).sorted.errored = []) :
    p.sorted.errored = [] ∧ ∀ x ∈ list, x.isErrored = false := by
  induction list generalizing p with
  | nil => exact ⟨fine, fun x hx => by cases hx⟩
  | cons y rest ih =>
      obtain ⟨first, others⟩ := ih fine
      have outcome := classified l find avoid p y
      generalize Progress.classify l find avoid p y = q at outcome first
      have here : p.sorted.errored = [] ∧ y.isErrored = false := by
        cases outcome with
        | errored s reason => simp at first
        | queued => exact ⟨first, rfl⟩
        | avoided fine => exact ⟨first, fine⟩
        | found fine => exact ⟨first, fine⟩
        | deadended fine => exact ⟨first, fine⟩
      refine ⟨here.1, fun x hx => ?_⟩
      rcases List.mem_cons.mp hx with rfl | later
      · exact here.2
      · exact others x later

/-- A successor on the way to the target is no longer than a path may be, nor too often where it
    is. -/
theorem isSpent_eq_false (target : Target l find avoid s₀.memory.image (s₀.concrete α) k visited m)
    {t : State} (counted : t.history.Counted) (positive : 1 ≤ t.steps) (before : t.steps < k)
    (addresses : t.history.addresses = visited.take t.steps) (place : visited[t.steps]? = some t.ip) :
    isSpent l t = false := by
  refine isSpent_eq_false_iff.mpr ⟨fun limited => ?_, fun limit limited => ?_⟩
  · have := target.short limited
    omega
  · have few := target.unrolled limit limited t.steps t.ip positive place
    have often := counted t.ip
    rw [addresses] at often
    omega

/-- A successor that the run of the target leads to is kept: it goes on, or it is found. -/
theorem pending_of_descends (target : Target l find avoid s₀.memory.image (s₀.concrete α) k visited m)
    (findsAddresses : find.isAddressSet = true) (avoidsAddresses : avoid.isAddressSet = true)
    (disjoint : Predicate.checkDisjoint find avoid = .ok ()) {x : Successor} (descends : Descends s₀ x)
    (admits : x.state.Admits α) (counted : x.state.history.Counted) (positive : 1 ≤ x.state.steps)
    (within : x.state.steps ≤ k) (q : Progress σ) :
    (Progress.classify l find avoid q x).Pending s₀ α k m := by
  obtain ⟨e, same, ran⟩ := descends.run α admits
  have outcome := classified l find avoid q x
  generalize Progress.classify l find avoid q x = after at outcome ⊢
  rcases Nat.lt_or_eq_of_le within with before | last
  · obtain ⟨m', part, place⟩ := Machine.run_take target.run before
    obtain ⟨addresses, rfl⟩ := Prod.mk.inj (Option.some.inj (part.symm.trans ran))
    cases x with
    | errored t reason => cases same
    | exited t => cases same
    | active t =>
        cases same
        obtain ⟨misses, passes⟩ := target.passes t.steps t.ip positive place
        rw [← Predicate.accepts_eq_covers findsAddresses] at misses
        rw [← Predicate.accepts_eq_covers avoidsAddresses] at passes
        have goesOn := isSpent_eq_false target counted positive before addresses.symm place
        cases outcome with
        | queued =>
            exact .inl ⟨t, List.mem_append_right _ (by simp), descends, admits, counted, before⟩
        | avoided _ avoids => cases passes.symm.trans avoids
        | found _ _ finds => cases misses.symm.trans finds
        | deadended _ _ _ ends =>
            rcases ends with ended | spent
            · cases ended
            · cases goesOn.symm.trans spent
  · rw [last, target.run] at ran
    obtain ⟨-, rfl⟩ := Prod.mk.inj (Option.some.inj ran)
    cases x with
    | errored t reason => cases same
    | exited t => cases same
    | active t =>
        cases same
        have finds : find.accepts t = true := by
          rw [Predicate.accepts_eq_covers findsAddresses]
          exact target.finds
        have passes : avoid.accepts t = false := by
          rw [Predicate.accepts_eq_covers avoidsAddresses]
          exact Predicate.covers_avoid disjoint target.finds
        cases outcome with
        | found => exact .inr ⟨t, List.mem_append_right _ (by simp [Successor.state]), rfl, admits⟩
        | avoided _ avoids => cases passes.symm.trans avoids
        | deadended _ _ misses => cases finds.symm.trans misses
        | queued _ misses => cases finds.symm.trans misses

/-- Where no step fails, a following state has a successor that follows on or arrives. -/
theorem ensures_step_pending (target : Target l find avoid s₀.memory.image (s₀.concrete α) k visited m)
    (findsAddresses : find.isAddressSet = true) (avoidsAddresses : avoid.isAddressSet = true)
    (disjoint : Predicate.checkDisjoint find avoid = .ok ()) {hooks : HookTable}
    (empty : hooks.size = 0) {cap : Nat} (below : State.Countable cap) {t : State}
    (ht : t.WellFormed) (about : ∀ cs, t.Asks cs → K cs) :
    Ensures K (Step.step hooks cap t) fun r => Follows s₀ α k t →
      (∀ x ∈ r.successors, x.isErrored = false) →
      ∃ x ∈ r.successors, ∀ q : Progress σ, (classify l find avoid q x).Pending s₀ α k m := by
  refine (Step.ensures_step empty ht about).mono fun r outcome h fine => ?_
  rcases outcome with ⟨u, reason, failed⟩ | ⟨i, decoded, executed⟩
  · have member : Successor.errored u reason ∈ r.successors := failed ▸ List.mem_singleton_self _
    cases fine _ member
  · obtain ⟨cs, listed, here⟩ := (executed.partition below fine).covers α h.admits
    obtain ⟨x, hx, rfl⟩ := List.mem_map.mp listed
    have executes := executed.executes x hx (fine x hx)
    have steps : x.state.steps = t.steps + 1 := executes.steps
    have counted : x.state.history.Counted := by
      rw [executes.history]
      exact h.counted.record t.ip
    have before := h.before
    refine ⟨x, hx, fun q => ?_⟩
    exact pending_of_descends target findsAddresses avoidsAddresses disjoint
      (h.descends.step decoded executes) here counted (by omega) (by omega) q

/-- A round in which nothing fails keeps following the run. -/
theorem Pending.round (h : p.Pending s₀ α k m) {c : Config}
    (target : Target c.limits find avoid s₀.memory.image (s₀.concrete α) k visited m)
    (findsAddresses : find.isAddressSet = true) (avoidsAddresses : avoid.isAddressSet = true)
    (disjoint : Predicate.checkDisjoint find avoid = .ok ()) {hooks : HookTable}
    (empty : hooks.size = 0) (below : State.Countable c.addressCap)
    (unlimited : c.limits.maxActive = none) {initial : List State} (sound : p.Sound K initial)
    {strategy : Strategy σ}
    (about : ∀ s ∈ (selectBatch strategy.select c.batchSize p).1, ∀ cs, s.Asks cs → K cs)
    (fine : (round hooks c strategy find avoid p).sorted.errored = []) :
    (round hooks c strategy find avoid p).Pending s₀ α k m := by
  have wellFormed : ∀ u ∈ (selectBatch strategy.select c.batchSize p).1, u.WellFormed := by
    intro u hu
    obtain ⟨_, -, descends⟩ := sound.active u (mem_active_of_selected hu)
    exact descends.wellFormed
  obtain ⟨batch, selected, results, session, picked, -, outcomes, whole⟩ :=
    round_ensures sound.exact fun u hu => ensures_step_pending (σ := σ) target findsAddresses
      avoidsAddresses disjoint empty below (wellFormed u hu) (about u hu)
  obtain ⟨queue, frame⟩ := selectBatch_spec picked
  have uncapped : ∀ q : Progress σ, enforceCap c.limits strategy.evict q = q := fun q => by
    simp only [enforceCap, unlimited]
  rw [uncapped] at whole
  rw [whole] at fine ⊢
  obtain ⟨-, stepped⟩ := foldl_classify_fine fine
  rcases h with ⟨t, queued, follows⟩ | ⟨t, found, arrived⟩
  · rcases List.mem_append.mp (queue.mem_iff.mp queued) with taken | left
    · obtain ⟨r, hr, leads⟩ := exists_right outcomes taken
      obtain ⟨x, hx, kept⟩ := leads follows fun x hx =>
        stepped x (List.mem_flatMap.mpr ⟨r, hr, hx⟩)
      exact pending_of_mem (List.mem_flatMap.mpr ⟨r, hr, hx⟩) kept
    · refine Pending.foldl_classify ?_ _
      exact .inl ⟨t, left, follows⟩
  · refine Pending.foldl_classify (.inr ⟨t, ?_, arrived⟩) _
    rw [frame]
    exact found

/-- Failures of earlier rounds stay listed. -/
theorem errored_of_round {hooks : HookTable} {c : Config} {strategy : Strategy σ}
    (fine : (round hooks c strategy find avoid p).sorted.errored = []) : p.sorted.errored = [] := by
  obtain ⟨batch, selected, results, session, picked, -, whole⟩ :=
    round_spec hooks c strategy find avoid p
  obtain ⟨-, frame⟩ := selectBatch_spec picked
  rw [whole] at fine
  obtain ⟨given, -, capped⟩ := enforceCap_spec c.limits strategy.evict
    ((results.flatMap (·.successors)).foldl (classify c.limits find avoid)
      { selected with
        session
        steps := selected.steps + batch.length
        iterations := selected.iterations + 1 })
  rw [capped] at fine
  have earlier := (foldl_classify_fine fine).1
  rw [frame] at earlier
  exact earlier

end Progress

/-- A search without hooks, failures and a limit of its queue, among addresses, that ends because its
    queue is empty has found every run that stays within the limits of a path. -/
theorem explore_complete {σ : Type} {fuel : Nat} {x x' : Explorer} {find avoid : Predicate}
    {strategy : Strategy σ} {memory memory' : σ} {r : Result} (empty : x.hooks.size = 0)
    (exact : x.session.solver.ExactOn (x.Asks find avoid strategy memory)) (unlimited : x.config.limits.maxActive = none)
    (below : x.config.addressCap < 0xffffffffffffffff)
    (fresh : ∀ s ∈ x.active, s.WellFormed ∧ s.steps = 0 ∧ s.history = {})
    (findsAddresses : find.isAddressSet = true) (avoidsAddresses : avoid.isAddressSet = true)
    (h : x.explore fuel find avoid strategy memory = .ok (some (r, x', memory')))
    (exhausted : r.outcome = .exhausted) (fine : r.sorted.errored = []) :
    ∀ s₀ ∈ x.active, ∀ α, s₀.Admits α → ∀ k visited m,
      Target x.config.limits find avoid s₀.memory.image (s₀.concrete α) k visited m →
      ∃ t ∈ r.sorted.found, t.ip = m.ip ∧ t.Admits α := by
  intro s₀ begins α admits k visited m target
  obtain ⟨disjoint, p, ran, sorted, active, -⟩ := Explorer.explore_ok h
  obtain ⟨wellFormed, steps, history⟩ := fresh s₀ begins
  have counted : s₀.history.Counted := by
    rw [history]
    exact History.counted_start
  have before : s₀.steps < k := by
    have := target.positive
    omega
  have follows : Follows s₀ α k s₀ := ⟨.start wellFormed steps history, admits, counted, before⟩
  obtain ⟨-, pending, ended, -⟩ := Progress.Sound.runFor
    (motive := fun p => p.sorted.errored = [] → p.Pending s₀ α k m)
    (.start exact fresh memory) empty (fun _ => id) (fun _ => .inl ⟨s₀, begins, follows⟩)
    (fun p sound asked pending fine =>
      (pending (Progress.errored_of_round fine)).round target findsAddresses avoidsAddresses disjoint
        empty below unlimited sound asked fine) ran
  rw [sorted] at fine ⊢
  rcases pending fine with ⟨t, queued, -⟩ | found
  · -- an exhausted search has nothing in its queue
    rw [exhausted] at ended
    unfold Progress.outcome? at ended
    split at ended
    · cases ended
    · split at ended
      · rename_i none
        rw [List.isEmpty_iff.mp none] at queued
        cases queued
      · simp at ended
  · exact found

theorem explore_complete_increment :
    let s₀ := Step.inFrontOf [.alu .add .r0 .r0 (.imm 1), .halt]
    ∃ r x', (Explorer.inFrontOf [.alu .add .r0 .r0 (.imm 1), .halt]).explore 4
        (.ofAddresses [0x100D]) .never (.breadthFirst : Strategy Unit) () = .ok (some (r, x', ())) ∧
      ∀ α, ∃ m, (s₀.concrete α).run s₀.memory.image 1 = some ([0x1000], .running m) ∧
        ∃ t ∈ r.sorted.found, t.ip = m.ip ∧ t.Admits α := by
  obtain ⟨r, x', ran, exhausted, fine⟩ : ∃ r x',
      (Explorer.inFrontOf [.alu .add .r0 .r0 (.imm 1), .halt]).explore 4 (.ofAddresses [0x100D]) .never
        (.breadthFirst : Strategy Unit) () = .ok (some (r, x', ())) ∧
      r.outcome = .exhausted ∧ r.sorted.errored = [] := ⟨_, _, rfl, rfl, rfl⟩
  have complete := explore_complete rfl (Explorer.inFrontOf_exact _ _) rfl (by decide)
    (Explorer.inFrontOf_fresh _) rfl rfl ran exhausted fine
  have decoded : (Step.inFrontOf [.alu .add .r0 .r0 (.imm 1), .halt]).memory.image.decode 0x1000 =
      .ok ⟨0x1000, 13, .alu .add .r0 .r0 (.imm 1)⟩ := rfl
  refine ⟨r, x', ran, fun α => ?_⟩
  have run : ((Step.inFrontOf [.alu .add .r0 .r0 (.imm 1), .halt]).concrete α).run
      (Step.inFrontOf [.alu .add .r0 .r0 (.imm 1), .halt]).memory.image 1 =
      some ([0x1000], ((Step.inFrontOf [.alu .add .r0 .r0 (.imm 1), .halt]).concrete α).execute
        ⟨0x1000, 13, .alu .add .r0 .r0 (.imm 1)⟩) := Machine.run_one decoded
  refine ⟨_, run, complete _ (.head _) α (fun c hc => by cases hc) 1 [0x1000] _ ?_⟩
  refine ⟨by decide, run, rfl, fun i address after place => ?_, fun _ => by decide,
    fun _ none => by cases none⟩
  rw [List.getElem?_eq_none (by simpa using after)] at place
  cases place

end PathSearch
