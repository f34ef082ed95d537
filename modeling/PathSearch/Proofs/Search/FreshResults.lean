import PathSearch.Proofs.Search.MergeActive

/-! # The results of hooks are new variables

A hook that returns a variable names it for itself and for the number of steps on the path. A step is
counted before the hook is applied, and a merged state counts as many steps as the longest of its parts.
So no name with a higher number than the steps of a state is in use, and the variable that a hook
returns is a new one, also where several hooks have one name.
-/

namespace PathSearch

open PathSearch.Expr Session

namespace Summary

theorem notMem_digits (k : Nat) : '@' ∉ Nat.toDigits 10 k := by
  intro digit
  have known := Nat.isDigit_of_mem_toDigits (by decide) (by decide) digit
  cases known

/-- The number of a result stands behind the last sign of its kind, whatever the hook is called. -/
theorem number_inj {hook hook' : String} {k k' : Nat}
    (same : hook ++ "@" ++ toString k = hook' ++ "@" ++ toString k') : k = k' := by
  have number (hook : String) (k : Nat) :
      (hook ++ "@" ++ toString k).toList.reverse.takeWhile (· ≠ '@') = (Nat.toDigits 10 k).reverse := by
    have text : (hook ++ "@" ++ toString k).toList.reverse =
        (Nat.toDigits 10 k).reverse ++ '@' :: hook.toList.reverse := by simp
    rw [text, List.takeWhile_append_of_pos, List.takeWhile_cons_of_neg (by simp), List.append_nil]
    intro c hc
    have other : c ≠ '@' := fun same => notMem_digits k (same ▸ List.mem_reverse.mp hc)
    simpa using other
  have digits : Nat.toDigits 10 k = Nat.toDigits 10 k' := by
    rw [← List.reverse_inj, ← number hook, same, number]
  exact Nat.repr_inj.mp (String.toList_inj.mp (by rw [Nat.toList_repr, Nat.toList_repr, digits]))

/-- The variable that a hook returns is in `r0` and among the inputs. -/
theorem returnSymbolic_ok {hook : String} {s : State} {n n' : Nat} {states : List State}
    (ran : (Summary.returnSymbolic.apply hook s).run n = (.ok states, n')) :
    ∀ t ∈ states, t.readRegister .r0 = .var (resultName hook s) 64 ∧
      t.inputs = s.inputs ++ [(resultName hook s, .var (resultName hook s) 64)] := by
  obtain ⟨t, _, returned, same⟩ := run_bind_ok ran
  cases same
  obtain ⟨address, rfl⟩ := returnToCaller_ok (run_lift_ok returned)
  refine List.forall_mem_singleton.mpr ⟨?_, rfl⟩
  exact (Registers.get_set _ _ _ _).trans (if_pos rfl)

end Summary

namespace HookTable

/-- The names of results that hooks may still return when a path has a number of steps behind it. -/
def upcoming (hooks : HookTable) (steps : Nat) : Set String :=
  {name | ∃ address h k, hooks.lookup? address = some h ∧ h.summary = .returnSymbolic ∧ steps < k ∧
    name = h.name ++ "@" ++ toString k}

variable {hooks : HookTable} {steps more : Nat}

theorem upcoming_anti (later : steps ≤ more) : hooks.upcoming more ⊆ hooks.upcoming steps := by
  rintro name ⟨address, h, k, found, symbolic, above, named⟩
  exact ⟨address, h, k, found, symbolic, Nat.lt_of_le_of_lt later above, named⟩

theorem next_mem_upcoming {address : Word} {h : Hook} (found : hooks.lookup? address = some h)
    (symbolic : h.summary = .returnSymbolic) (steps : Nat) :
    h.name ++ "@" ++ toString (steps + 1) ∈ hooks.upcoming steps :=
  ⟨address, h, steps + 1, found, symbolic, Nat.lt_succ_self _, rfl⟩

/-- A result that was returned is not returned again. -/
theorem notMem_upcoming (hook : String) (steps : Nat) :
    hook ++ "@" ++ toString steps ∉ hooks.upcoming steps := by
  rintro ⟨address, h, k, -, -, above, same⟩
  exact Nat.ne_of_lt above (Summary.number_inj same)

/-- The name of a result has a sign in it that other names need not have. -/
theorem notMem_upcoming_of_plain {name : String} (plain : '@' ∉ name.toList) :
    name ∉ hooks.upcoming steps := by
  rintro ⟨address, h, k, -, -, -, same⟩
  exact plain (by simp [same])

theorem selectorName_notMem_upcoming (k : Nat) : Explorer.selectorName k ∉ hooks.upcoming steps := by
  refine notMem_upcoming_of_plain ?_
  simpa [Explorer.selectorName] using Summary.notMem_digits k

theorem BuiltIn.empty : BuiltIn {} := fun address h run found => by simp [lookup?] at found

theorem BuiltIn.insert (builtIn : hooks.BuiltIn) {h : Hook} (own : ∀ run, h.summary ≠ .custom run) :
    (hooks.insert h).BuiltIn := by
  intro address h' run found
  simp only [HookTable.insert, lookup?, Std.TreeMap.getElem?_insert] at found
  split at found
  · exact Option.some.inj found ▸ own run
  · exact builtIn address h' run found

theorem BuiltIn.keepsPath (builtIn : hooks.BuiltIn) : hooks.KeepsPath :=
  fun address h run found custom => absurd custom (builtIn address h run found)

/-- The states to which steps and merges lead, from states in which no name occurs that is still to be
    returned. The names that were given to merges for their selectors are listed. -/
inductive Reached (hooks : HookTable) (selectors : Set String) : State → Prop where
  | start {s : State} (unused : ∀ name ∈ hooks.upcoming s.steps, ¬ s.Mentions name) :
      Reached hooks selectors s
  | step {s : State} (before : Reached hooks selectors s) (cap : Nat) (session : Session)
      {x : Successor} (hx : x ∈ ((Step.step hooks cap s).run session).1.successors) :
      Reached hooks selectors x.state
  | merge {states : List State} {selector : String} {m : State} {n n' : Nat}
      (parts : ∀ s ∈ states, Reached hooks selectors s) (listed : selector ∈ selectors)
      (merged : (Merge.merge states selector).run n = (.ok m, n')) : Reached hooks selectors m
  | mergeActive {x : Explorer} (active : ∀ s ∈ x.active, Reached hooks selectors s) {t : State}
      (ht : t ∈ x.mergeActive.1.active) : Reached hooks selectors t

/-- A state mentions none of the names that are still to be returned, but for selectors. -/
def Spared (hooks : HookTable) (selectors : Set String) (s : State) : Prop :=
  s.Within (hooks.upcoming s.steps \ selectors)ᶜ

variable {selectors : Set String} {s t m : State}

theorem spared_iff : hooks.Spared selectors s ↔
    ∀ name ∈ hooks.upcoming s.steps \ selectors, ¬ s.Mentions name := by
  rw [Spared, State.within_iff]
  exact ⟨fun h name next mentioned => h name mentioned next,
    fun h name mentioned next => h name next mentioned⟩

theorem Spared.later (h : hooks.Spared selectors s) (later : s.steps ≤ steps) :
    s.Within (hooks.upcoming steps \ selectors)ᶜ :=
  State.Within.mono h (Set.compl_subset_compl.mpr (Set.sdiff_subset_sdiff_left (upcoming_anti later)))

/-- A hook brings in no name but that of the result for the step that was counted. -/
theorem Spared.apply (builtIn : hooks.BuiltIn) {address : Word} {h : Hook}
    (found : hooks.lookup? address = some h) (spared : hooks.Spared selectors s) {n n' : Nat}
    {states : List State} (ran : (h.apply s.recordStep).run n = (.ok states, n')) :
    ∀ t ∈ states, t.Within (hooks.upcoming (s.steps + 1) \ selectors)ᶜ := by
  have arrives := (spared.later (Nat.le_succ s.steps)).inherits.recordStep
  have result : Summary.resultName h.name s.recordStep ∈ (hooks.upcoming (s.steps + 1) \ selectors)ᶜ :=
    fun next => notMem_upcoming h.name (s.steps + 1) next.1
  have given := Summary.inherits_apply (builtIn address h · found) (fun _ => result) arrives ran
  exact fun t ht => (given t ht).within

theorem Spared.step (builtIn : hooks.BuiltIn) (spared : hooks.Spared selectors s) (cap : Nat)
    (session : Session) :
    ∀ x ∈ ((Step.step hooks cap s).run session).1.successors, hooks.Spared selectors x.state := by
  have within : Always (Step.step hooks cap s) fun r =>
      ∀ x ∈ r.successors, x.state.Within (hooks.upcoming (s.steps + 1) \ selectors)ᶜ := by
    have arrives := (spared.later (Nat.le_succ s.steps)).inherits
    cases here : hooks.lookup? s.ip with
    | none =>
        exact (Step.inherits_step_unhooked here arrives cap).mono fun _ each x hx => (each x hx).within
    | some h =>
        exact Step.always_step_hooked here arrives.recordStep.within
          (fun n n' states ran => spared.apply builtIn here ran) cap
  intro x hx
  have counted : x.state.steps = s.steps + 1 :=
    ((Step.effect_step hooks cap s session).path builtIn.keepsPath x hx).1
  rw [Spared, counted]
  exact within session x hx

theorem Spared.merge {states : List State} {selector : String} {n n' : Nat}
    (each : ∀ s ∈ states, hooks.Spared selectors s)
    (known : selector ∉ hooks.upcoming m.steps \ selectors)
    (merged : (Merge.merge states selector).run n = (.ok m, n')) : hooks.Spared selectors m := by
  have parts (s : State) (hs : s ∈ states) : s.Within (hooks.upcoming m.steps \ selectors)ᶜ :=
    (each s hs).later (Merge.steps_le_of_merge merged s hs)
  exact (Merge.within_of_merge known parts merged).1

/-- Along every run no state mentions a name that is still to be returned, but for selectors. -/
theorem Reached.spared (builtIn : hooks.BuiltIn) (reached : hooks.Reached selectors s) :
    hooks.Spared selectors s := by
  induction reached with
  | start unused => exact spared_iff.mpr fun name next => unused name next.1
  | step _ cap session hx ih => exact ih.step builtIn cap session _ hx
  | merge _ listed merged ih => exact .merge ih (fun next => next.2 listed) merged
  | @mergeActive x _ t ht ih =>
      obtain ⟨regroups, -⟩ := Explorer.regroups_mergeActive x
      obtain ⟨group, hgroup, stays | merged⟩ := regroups.mem ht
      · exact ih t (Explorer.mem_of_mem_group hgroup stays)
      · obtain ⟨k, n, n', -, -, -, merged⟩ := merged
        exact .merge (fun s hs => ih s (Explorer.mem_of_mem_group hgroup hs))
          (fun next => selectorName_notMem_upcoming k next.1) merged

/-- Where a hook stands, the states that go on are those that the hook gave. -/
theorem active_of_hooked {h : Hook} (found : hooks.lookup? s.ip = some h) {P : State → Prop}
    (given : ∀ (n n' : Nat) (states : List State), (h.apply s.recordStep).run n = (.ok states, n') →
      ∀ t ∈ states, P t) (cap : Nat) :
    Always (Step.step hooks cap s) fun r => ∀ t, .active t ∈ r.successors → P t := by
  intro session t ht
  have effect := Step.effect_step hooks cap s session
  generalize ((Step.step hooks cap s).run session).1 = r at effect ht
  generalize ((Step.step hooks cap s).run session).2 = session' at effect
  cases effect with
  | undecoded free | executed free => cases found.symm.trans free
  | refused _ _ kept =>
      rw [kept] at ht
      cases List.mem_singleton.mp ht
  | hooked here ran kept =>
      obtain rfl := Option.some.inj (here.symm.trans found)
      exact given _ _ _ ran t (kept.subset (List.mem_map_of_mem ht))

/-- Wherever a run of steps and merges arrives at a hook that returns a variable, no part of the state
    that arrives has the variable in it, unless a merge was given this very name for its selector. The
    states that go on return it. -/
theorem Reached.result_fresh (builtIn : hooks.BuiltIn) (reached : hooks.Reached selectors s) {h : Hook}
    (found : hooks.lookup? s.ip = some h) (symbolic : h.summary = .returnSymbolic) (cap : Nat)
    (session : Session) :
    let name := h.name ++ "@" ++ toString (s.steps + 1)
    (name ∉ selectors → ¬ s.Mentions name) ∧
      ∀ t, .active t ∈ ((Step.step hooks cap s).run session).1.successors →
        t.readRegister .r0 = .var name 64 ∧ t.inputs = s.inputs ++ [(name, .var name 64)] := by
  intro name
  constructor
  · intro other
    exact spared_iff.mp (reached.spared builtIn) name ⟨next_mem_upcoming found symbolic s.steps, other⟩
  · refine active_of_hooked found ?_ cap session
    intro n n' states ran
    rw [Hook.apply, symbolic] at ran
    exact Summary.returnSymbolic_ok ran

/-- Two hooks with one name. -/
def randomTwice : HookTable :=
  (HookTable.insert {} ⟨"rand", 0x1000, .returnSymbolic⟩).insert ⟨"rand", 0x2000, .returnSymbolic⟩

/-- A state that calls what stands at an address. -/
def calling (address caller : Word) : State :=
  ((State.start { entry := 0x1000 } .zero 0).writeRegister .lr (Expr.word caller)).setIp address

/-- The state that the first hook gives. -/
def returned : State :=
  (((calling 0x1000 0x2000).recordStep.writeRegister .r0 (.var "rand@1" 64)).recordInput "rand@1"
    (.var "rand@1" 64)).setIp 0x2000

theorem calling_proper (address caller : Word) : (calling address caller).Proper :=
  ((State.Sound.start _ _ _).toProper.writeRegister .lr (State.word_wellFormed caller)).setIp address

theorem returned_proper : returned.Proper := by
  have result : (Expr.var "rand@1" 64).WellFormed := ⟨by decide, by decide⟩
  have written := (calling_proper 0x1000 0x2000).recordStep.writeRegister .r0 result
  exact (written.recordInput _ _).setIp 0x2000

theorem reached_calling (address caller : Word) :
    randomTwice.Reached {"sel"} (calling address caller) := by
  have start : (State.start { entry := 0x1000 } .zero 0).Within (randomTwice.upcoming 0)ᶜ :=
    State.within_start _ _ (by rintro ⟨⟩)
  have arrives := (start.inherits.writeRegister .lr (within_word caller)).setIp address
  exact .start fun name next mentioned => State.within_iff.mp arrives.within name mentioned next

theorem reached_returned : randomTwice.Reached {"sel"} returned := by
  have stepped : ((Step.step randomTwice 16 (calling 0x1000 0x2000)).run
      { solver := .new .perfect {} }).1.successors = [.active returned] := rfl
  have given := List.mem_of_mem_head? (congrArg List.head? stepped)
  exact (reached_calling 0x1000 0x2000).step 16 { solver := .new .perfect {} } given

/-- Two paths of different lengths are merged in front of the second hook. -/
theorem Reached.result_fresh_merged :
    ∃ m n', (Merge.merge [returned, calling 0x2000 0x3000] "sel").run 1 = (.ok m, n') ∧
      randomTwice.Reached {"sel"} m ∧ ¬ m.Mentions "rand@2" ∧
      ∀ t, .active t ∈ ((Step.step randomTwice 16 m).run { solver := .new .perfect {} }).1.successors →
        t.readRegister .r0 = .var "rand@2" 64 := by
  have own : ∀ run, Summary.returnSymbolic ≠ .custom run := nofun
  have builtIn : randomTwice.BuiltIn := (BuiltIn.empty.insert own).insert own
  have wellFormed : ∀ s ∈ [returned, calling 0x2000 0x3000], s.WellFormed :=
    List.forall_mem_cons.mpr ⟨returned_proper.toWellFormed,
      List.forall_mem_singleton.mpr (calling_proper 0x2000 0x3000).toWellFormed⟩
  have compatible : ∀ s ∈ [calling 0x2000 0x3000], Merge.Compatible returned s :=
    List.forall_mem_singleton.mpr ⟨rfl, rfl⟩
  have room : Merge.selectorWidth [returned, calling 0x2000 0x3000].length ≤ 64 :=
    (by decide : Merge.selectorWidth 2 ≤ 64)
  have ground : ∀ s ∈ [returned, calling 0x2000 0x3000], s.memory = returned.memory :=
    List.forall_mem_cons.mpr ⟨rfl, List.forall_mem_singleton.mpr rfl⟩
  obtain ⟨m, merged, whole⟩ : ∃ m, (Merge.merge [returned, calling 0x2000 0x3000] "sel").run 1 =
      (.ok m, 2) ∧ Merge.Merged "sel" [returned, calling 0x2000 0x3000] m :=
    Merge.merge_total (List.cons_ne_nil _ _) room compatible wellFormed
      (fun s hs => by rw [ground s hs]) (fun s hs => by rw [ground s hs]) 1
  have steps : m.steps = 1 := by
    obtain ⟨s, hs, same⟩ := whole.steps_mem
    have atLeast : 1 ≤ m.steps := whole.steps returned (.head _)
    rcases List.mem_cons.mp hs with rfl | hs
    · exact same
    · have none : s.steps = 0 := List.mem_singleton.mp hs ▸ rfl
      omega
  have reached : randomTwice.Reached {"sel"} m :=
    .merge (List.forall_mem_cons.mpr
      ⟨reached_returned, List.forall_mem_singleton.mpr (reached_calling 0x2000 0x3000)⟩) rfl merged
  have found : randomTwice.lookup? m.ip = some ⟨"rand", 0x2000, .returnSymbolic⟩ := by
    rw [whole.ip returned (.head _)]
    rfl
  obtain ⟨fresh, active⟩ := reached.result_fresh builtIn found rfl 16 { solver := .new .perfect {} }
  rw [steps] at fresh active
  exact ⟨m, 2, merged, reached, fresh (by decide), fun t ht => (active t ht).1⟩

end HookTable

end PathSearch
