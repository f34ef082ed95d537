import PathSearch.Proofs.Faultless
import PathSearch.Proofs.Search.Limits
import PathSearch.Proofs.Search.MergeSound

/-! # What is asserted globally holds everywhere

A constraint that is asserted is added to the active states and remembered for those that come later.
From then on whatever is done with states adds constraints, merges states that all entail it, or drops
states. So every state in the queue entails what was asserted before, and so does every state that a
search started after that puts aside.
-/

namespace PathSearch

open Session

variable {σ : Type}

namespace Progress

variable {hooks : HookTable} {c : Config} {strategy : Strategy σ} {find avoid : Predicate}
  {p q : Progress σ} {P : State → Prop}

/-- What steps hand on to the states they give, a round keeps of all states. -/
theorem forall_states_round
    (steps : ∀ s, P s → Always (Step.step hooks c.addressCap s) fun r => ∀ x ∈ r.successors, P x.state)
    (h : ∀ s ∈ p.states, P s) : ∀ s ∈ (round hooks c strategy find avoid p).states, P s := by
  obtain ⟨batch, left, memory, -, queue, -, sorts⟩ := round_runs hooks c strategy find avoid p
  have waiting (s : State) (hs : s ∈ batch ++ left) : P s :=
    h s (Multiset.mem_add.mpr (.inr (queue.mem_iff.mpr hs)))
  have stepped : Always (stepAll hooks c.addressCap batch) fun results =>
      ∀ r ∈ results, ∀ x ∈ r.successors, P x.state :=
    .mapM fun s hs => steps s (waiting s (List.mem_append_left _ hs))
  intro s hs
  rcases sorts.mem_states hs with before | ⟨x, hx, rfl⟩
  · rcases Multiset.mem_add.mp before with aside | stays
    · exact h s (Multiset.mem_add.mpr (.inl aside))
    · exact waiting s (List.mem_append_right _ stays)
  · obtain ⟨r, hr, member⟩ := List.mem_flatMap.mp hx
    exact stepped p.session r hr x member

theorem Reaches.forall_states
    (steps : ∀ s, P s → Always (Step.step hooks c.addressCap s) fun r => ∀ x ∈ r.successors, P x.state)
    (reaches : Reaches hooks c strategy find avoid p q) (h : ∀ s ∈ p.states, P s) :
    ∀ s ∈ q.states, P s := by
  induction reaches with
  | start => exact h
  | round _ _ ih => exact forall_states_round steps ih

end Progress

/-- A sound state that entails everything in a list. -/
structure State.Obeys (gs : List Expr) (s : State) : Prop where
  sound : s.Sound
  entails : ∀ g ∈ gs, s.constraints.Entails g

namespace State

variable {gs : List Expr} {s t : State}

theorem Obeys.descends (h : s.Obeys gs) (descends : s.Descends t) : t.Obeys gs where
  sound := descends.sound
  entails g hg := (h.entails g hg).extends descends.kept

theorem Obeys.append (h : s.Obeys gs) {c : Expr} (entails : s.constraints.Entails c) :
    s.Obeys (gs ++ [c]) where
  sound := h.sound
  entails := List.forall_mem_append.mpr ⟨h.entails, List.forall_mem_singleton.mpr entails⟩

theorem entails_of_addConstraint {c : Expr} (added : s.addConstraint c = .ok t) :
    t.constraints.Entails c := by
  obtain ⟨cs, pushed, result⟩ := bind_ok added
  cases result
  exact Constraints.entails_of_push pushed

end State

namespace Explorer

open State

variable {x x' : Explorer} {gs : List Expr} {s t : State}

/-- A request to a search, with the constraint that it makes global. A request that is refused leaves
    the search as it is. -/
inductive Serves (x : Explorer) : Option Expr → Explorer → Prop where
  | entryState : Serves x none x.entryState.2
  | addState {s : State} {x' : Explorer} (hs : s.Sound) (added : x.addState s = .ok x') :
      Serves x none x'
  | assertGlobal {c : Expr} {x' : Explorer} (hc : c.WellFormed)
      (accepted : x.assertGlobal c = .ok x') : Serves x (some c) x'
  | prune : Serves x none x.prune
  | mergeActive : Serves x none x.mergeActive.1
  | explore {σ : Type} {find avoid : Predicate} {strategy : Strategy σ} {memory memory' : σ}
      {r : Result} {x' : Explorer} (returns : x.Returns find avoid strategy memory r x' memory') :
      Serves x none x'
  | refused : Serves x none x

/-- The searches that requests lead to, with the constraints that were made global, in order. -/
inductive Served (x₀ : Explorer) : List Expr → Explorer → Prop where
  | start : Served x₀ [] x₀
  | next {gs : List Expr} {accepted : Option Expr} {x x' : Explorer} (before : Served x₀ gs x)
      (serves : x.Serves accepted x') : Served x₀ (gs ++ accepted.toList) x'

/-- The states in the queue obey what is global, and hooks leave it at that. -/
structure Governed (gs : List Expr) (x : Explorer) : Prop where
  gives : x.hooks.GivesDescendants
  global : x.global = gs
  conditions : ∀ g ∈ gs, g.WellFormed
  active : ∀ s ∈ x.active, s.Obeys gs

/-- With another queue. -/
theorem Governed.requeue {y : Explorer} (h : x.Governed gs) (hooks : y.hooks = x.hooks)
    (global : y.global = x.global) (active : ∀ s ∈ y.active, s.Obeys gs) : y.Governed gs where
  gives := hooks ▸ h.gives
  global := global.trans h.global
  conditions := h.conditions
  active := active

theorem obeys_imposeAll {known : List Expr} (conditions : ∀ g ∈ gs, g.WellFormed) (hs : s.Obeys known)
    (imposed : imposeAll gs s = .ok t) : t.Obeys (known ++ gs) := by
  induction gs generalizing known s with
  | nil => exact (known.append_nil).symm ▸ Except.ok.inj imposed ▸ hs
  | cons g rest ih =>
      obtain ⟨hg, others⟩ := List.forall_mem_cons.mp conditions
      rw [imposeAll, List.foldlM_cons] at imposed
      obtain ⟨u, first, later⟩ := bind_ok imposed
      have here : u.Obeys (known ++ [g]) := by
        split at first
        · rename_i present
          exact Except.ok.inj first ▸ hs.append (Constraints.entails_of_contains present)
        · exact (hs.descends (hs.sound.addConstraint hg first)).append (entails_of_addConstraint first)
      rw [List.append_cons]
      exact ih others here later

theorem Governed.addState (h : x.Governed gs) (hs : s.Sound) (added : x.addState s = .ok x') :
    x'.Governed gs := by
  obtain ⟨t, imposed, result⟩ := bind_ok added
  cases result
  rw [h.global] at imposed
  have obeys : t.Obeys ([] ++ gs) := obeys_imposeAll h.conditions ⟨hs, List.forall_mem_nil _⟩ imposed
  exact h.requeue rfl rfl (List.forall_mem_append.mpr ⟨h.active, List.forall_mem_singleton.mpr obeys⟩)

theorem Governed.assertGlobal (h : x.Governed gs) {c : Expr} (hc : c.WellFormed)
    (accepted : x.assertGlobal c = .ok x') : x'.Governed (gs ++ [c]) := by
  obtain ⟨_, -, accepted⟩ := bind_ok accepted
  obtain ⟨active, added, result⟩ := bind_ok accepted
  cases result
  have each := mapM_ok added
  refine ⟨h.gives, congrArg (· ++ [c]) h.global, ?_, fun t ht => ?_⟩
  · exact List.forall_mem_append.mpr ⟨h.conditions, List.forall_mem_singleton.mpr hc⟩
  · obtain ⟨s, hs, pushed⟩ := exists_left each ht
    have before := h.active s hs
    exact (before.descends (before.sound.addConstraint hc pushed)).append (entails_of_addConstraint pushed)

theorem Governed.prune (h : x.Governed gs) : x.prune.Governed gs :=
  h.requeue rfl rfl fun s hs =>
    h.active s (Always.filterM x.active isFeasible x.session s hs)

theorem obeys_of_merge {states : List State} {selector : String} {n n' : Nat} {m : State}
    (each : ∀ s ∈ states, s.Obeys gs) (merged : (Merge.merge states selector).run n = (.ok m, n')) :
    m.Obeys gs :=
  have sound : ∀ s ∈ states, s.Sound := fun s hs => (each s hs).sound
  ⟨Merge.sound_of_merge sound merged,
    fun g hg => Merge.entails_of_merge sound merged fun s hs => (each s hs).entails g hg⟩

/-- A group becomes one state with the next selector, or it stays as it is, being a single state or
    one that merging refuses. -/
theorem mergeGroup_cases (x : Explorer) (group : List State) :
    (∃ m session, 2 ≤ group.length ∧
      (Merge.merge group (selectorName x.merges)).run x.session.nextId = (.ok m, session.nextId) ∧
      x.mergeGroup group =
        ({ x with session, active := x.active ++ [m], merges := x.merges + 1 }, group.length - 1)) ∨
    ∃ session, (group.length < 2 ∨ ∃ e, (Merge.merge group (selectorName x.merges)).run
        x.session.nextId = (.error e, session.nextId)) ∧
      x.mergeGroup group = ({ x with session, active := x.active ++ group }, 0) := by
  unfold mergeGroup
  split
  · rename_i single
    exact .inr ⟨x.session, .inl single, rfl⟩
  · rename_i several
    generalize ran : (Session.fresh (Merge.merge group (selectorName x.merges))).run x.session = outcome
    obtain ⟨result, session⟩ := outcome
    obtain ⟨merged, left⟩ := Prod.ext_iff.mp ran
    have identity : ((Merge.merge group (selectorName x.merges)).run x.session.nextId).2 =
        session.nextId := congrArg Session.nextId left
    cases result with
    | ok m => exact .inl ⟨m, session, Nat.le_of_not_lt several, Prod.ext merged identity, rfl⟩
    | error e => exact .inr ⟨session, .inr ⟨e, Prod.ext merged identity⟩, rfl⟩

theorem Governed.mergeGroup (h : x.Governed gs) {group : List State} (each : ∀ s ∈ group, s.Obeys gs) :
    (mergeGroup x group).1.Governed gs := by
  rcases mergeGroup_cases x group with ⟨m, session, -, merged, result⟩ | ⟨session, -, result⟩
  · have obeys : m.Obeys gs := obeys_of_merge each merged
    rw [result]
    exact h.requeue rfl rfl (List.forall_mem_append.mpr ⟨h.active, List.forall_mem_singleton.mpr obeys⟩)
  · rw [result]
    exact h.requeue rfl rfl (List.forall_mem_append.mpr ⟨h.active, each⟩)

theorem Governed.mergeGroups (h : x.Governed gs) {list : List (List State)}
    (each : ∀ group ∈ list, ∀ s ∈ group, s.Obeys gs) : (x.mergeGroups list).1.Governed gs := by
  induction list generalizing x with
  | nil => exact h
  | cons group rest ih =>
      obtain ⟨here, others⟩ := List.forall_mem_cons.mp each
      exact ih (h.mergeGroup here) others

theorem mem_of_mem_group {states group : List State} (hgroup : group ∈ groups states) (hs : s ∈ group) :
    s ∈ states := by
  obtain ⟨ip, -, rfl⟩ := List.mem_map.mp hgroup
  exact List.mem_of_mem_filter hs

theorem Governed.mergeActive (h : x.Governed gs) : x.mergeActive.1.Governed gs := by
  have members : ∀ group ∈ groups x.active, ∀ s ∈ group, s.Obeys gs := fun group hgroup s hs =>
    h.active s (mem_of_mem_group hgroup hs)
  have emptied := h.requeue (y := { x with active := [] }) rfl rfl (List.forall_mem_nil _)
  exact emptied.mergeGroups members

section Explore

variable {σ : Type} {find avoid : Predicate} {strategy : Strategy σ} {memory memory' : σ} {r : Result}

/-- A search changes the session and the queue only. -/
theorem Returns.frame (h : x.Returns find avoid strategy memory r x' memory') :
    x' = { x with session := x'.session, active := x'.active } := by
  cases h with
  | ended ran =>
      obtain ⟨-, p, -, -, left, -⟩ := explore_ran ran
      rw [left]
  | late => rfl

/-- What steps hand on to the states they give, a search keeps of all its states. -/
theorem forall_states_reached {P : State → Prop}
    (steps : ∀ s, P s → Always (Step.step x.hooks x.config.addressCap s) fun r =>
      ∀ y ∈ r.successors, P y.state)
    (each : ∀ s ∈ x.active, P s) {p : Progress σ}
    (reached : Progress.Reaches x.hooks x.config strategy find avoid
      { session := x.session, active := x.active, memory } p) : ∀ s ∈ p.states, P s := by
  refine reached.forall_states steps fun s hs => ?_
  have queued : s ∈ x.active := by simpa [Progress.states, Sorted.states] using hs
  exact each s queued

/-- Between the rounds of a search all states obey what was global when it began. -/
theorem Governed.reaches (h : x.Governed gs) {p : Progress σ}
    (reached : Progress.Reaches x.hooks x.config strategy find avoid
      { session := x.session, active := x.active, memory } p) : ∀ s ∈ p.states, s.Obeys gs := by
  refine forall_states_reached (fun s obeys => ?_) h.active reached
  exact (Step.descends_step h.gives x.config.addressCap obeys.sound).mono
    fun r given y hy => obeys.descends (given y hy)

theorem Governed.returns (h : x.Governed gs)
    (returns : x.Returns find avoid strategy memory r x' memory') :
    (∀ s ∈ r.sorted.states, s.Obeys gs) ∧ x'.Governed gs := by
  obtain ⟨p, reached, result, left⟩ := returns.reached
  have hooks : x'.hooks = x.hooks := by rw [returns.frame]
  have global : x'.global = x.global := by rw [returns.frame]
  have each := h.reaches reached
  constructor
  · rw [result]
    exact fun s hs => each s (Multiset.mem_add.mpr (.inl hs))
  · exact h.requeue hooks global fun s hs => each s (Multiset.mem_add.mpr (.inr (left ▸ hs)))

end Explore

theorem Governed.serves (h : x.Governed gs) {accepted : Option Expr} (serves : x.Serves accepted x') :
    x'.Governed (gs ++ accepted.toList) := by
  have same {y : Explorer} (hy : y.Governed gs) : y.Governed (gs ++ (none : Option Expr).toList) :=
    (List.append_nil gs).symm ▸ hy
  cases serves with
  | entryState => exact same (h.requeue rfl rfl h.active)
  | addState hs added => exact same (h.addState hs added)
  | assertGlobal hc accepted => exact h.assertGlobal hc accepted
  | prune => exact same h.prune
  | mergeActive => exact same h.mergeActive
  | explore returns => exact same (h.returns returns).2
  | refused => exact same h

theorem Governed.served {x₀ : Explorer} (start : x₀.Governed []) (served : x₀.Served gs x) :
    x.Governed gs := by
  induction served with
  | start => exact start
  | next _ serves ih => exact ih.serves serves

/-- A new search has no states and nothing global. -/
theorem governed_new {backend : Smt.Backend} {image : Program} {hooks : HookTable} {config : Config}
    (gives : hooks.GivesDescendants) (made : Explorer.new backend image hooks config = .ok x) :
    x.Governed [] := by
  obtain ⟨_, -, result⟩ := bind_ok made
  cases result
  exact ⟨gives, rfl, List.forall_mem_nil _, List.forall_mem_nil _⟩

end Explorer

/-- After any requests to a search, every state in the queue entails every constraint that was made
    global before, also under bindings that leave variables open. The same holds between any two
    rounds of a search that is started then, and of all states that it puts aside. Of hooks it is
    asked that they give sound states that keep the constraints, as those do that add conditions to
    copies of the state that arrives. -/
theorem global_entailed {backend : Smt.Backend} {image : Program} {hooks : HookTable} {config : Config}
    {x₀ x : Explorer} {gs : List Expr} (gives : hooks.GivesDescendants)
    (made : Explorer.new backend image hooks config = .ok x₀) (served : x₀.Served gs x) :
    (∀ s ∈ x.active, ∀ g ∈ gs, s.constraints.Entails g) ∧
    ∀ {σ : Type} (find avoid : Predicate) (strategy : Strategy σ) (memory : σ),
      (∀ p : Progress σ, Progress.Reaches x.hooks x.config strategy find avoid
          { session := x.session, active := x.active, memory } p →
        ∀ s ∈ p.states, ∀ g ∈ gs, s.constraints.Entails g) ∧
      ∀ (r : Result) (x' : Explorer) (memory' : σ),
        x.Returns find avoid strategy memory r x' memory' →
        ∀ s ∈ r.sorted.states, ∀ g ∈ gs, s.constraints.Entails g := by
  have governed := (Explorer.governed_new gives made).served served
  refine ⟨fun s hs => (governed.active s hs).entails, fun find avoid strategy memory => ⟨?_, ?_⟩⟩
  · exact fun p reached s hs => (governed.reaches reached s hs).entails
  · exact fun r x' memory' returns s hs => ((governed.returns returns).1 s hs).entails

namespace Explorer

/-- A hook that copies the state that arrives and assumes a condition of the copy. -/
def assuming (c : Expr) : HookTable :=
  HookTable.insert {} ⟨"assume", 0x1000, .custom fun s => do
    let copy ← s.forkFresh
    return [← (copy.addConstraint c : Except Error State)]⟩

theorem assuming_givesDescendants {c : Expr} (hc : c.WellFormed) : (assuming c).GivesDescendants := by
  intro address h run found custom
  simp only [assuming, HookTable.insert, HookTable.lookup?, Std.TreeMap.getElem?_insert] at found
  split at found
  · cases found
    cases custom
    refine Summary.givesDescendants_of_forks fun s n m states ran t ht => ?_
    obtain ⟨copy, k, forked, ran⟩ := run_bind_ok ran
    cases forked
    obtain ⟨u, k, added, result⟩ := run_bind_ok ran
    cases result
    obtain rfl := List.mem_singleton.mp ht
    have assumed : (s.fork n).addConstraint c = .ok t := run_lift_ok added
    exact ⟨n, [c], List.forall_mem_singleton.mpr hc, by rw [List.foldlM_cons, assumed]; rfl⟩
  · simp at found

end Explorer

/-- A state in front of code that is outside the hook, with a condition made global. -/
theorem global_entailed_halting :
    let flag := Expr.var "flag" 1
    let start := Step.inFrontOf [.nop, .halt]
    ∃ x₀ x₁ x₂ r x' memory',
      Explorer.new .perfect start.memory.image (Explorer.assuming flag) {} = .ok x₀ ∧
      x₀.addState (start.setIp 0x1001) = .ok x₁ ∧ x₁.assertGlobal flag = .ok x₂ ∧
      x₂.Returns .never .never (.breadthFirst : Strategy Unit) () r x' memory' ∧
      r.sorted.deadended.length = 1 ∧ ∀ s ∈ r.sorted.states, s.constraints.Entails flag := by
  obtain ⟨x₀, x₁, x₂, r, x', memory', made, added, accepted, ran, ended⟩ : ∃ x₀ x₁ x₂ r x' memory',
      Explorer.new .perfect (Step.inFrontOf [.nop, .halt]).memory.image (Explorer.assuming (.var "flag" 1))
        {} = .ok x₀ ∧
      x₀.addState ((Step.inFrontOf [.nop, .halt]).setIp 0x1001) = .ok x₁ ∧
      x₁.assertGlobal (.var "flag" 1) = .ok x₂ ∧
      x₂.explore 4 .never .never (.breadthFirst : Strategy Unit) () = .ok (some (r, x', memory')) ∧
      r.sorted.deadended.length = 1 := ⟨_, _, _, _, _, _, rfl, rfl, rfl, rfl, rfl⟩
  have hc : (Expr.var "flag" 1).WellFormed := ⟨by decide, by decide⟩
  have hs : (Step.inFrontOf [.nop, .halt]).Sound :=
    ((State.Sound.start _ _ _).makeSymbolicRegister .r0 "x").sound
  have served := (Explorer.Served.start.next (.addState (hs.setIp 0x1001).sound added)).next
    (.assertGlobal hc accepted)
  obtain ⟨-, searches⟩ := global_entailed (Explorer.assuming_givesDescendants hc) made served
  have entailed := (searches .never .never .breadthFirst ()).2 r x' memory' (.ended ran)
  exact ⟨x₀, x₁, x₂, r, x', memory', made, added, accepted, .ended ran, ended,
    fun s hs => entailed s hs _ (List.mem_singleton_self _)⟩

end PathSearch
