import PathSearch.Proofs.Solver.Requests

/-! # The memory of a solver does not show

Two solvers over one exact procedure that always decides give the same replies, whatever each of them
remembers. Only deciding looks at the memory, and there both of them are right.
-/

namespace PathSearch

open PathSearch.Expr Smt

namespace Ask

variable {α β : Type} {I J : Solver → Prop}

/-- A question has the same answer in two kinds of solvers. -/
def Agree (I J : Solver → Prop) (x : Ask α) : Prop := ∀ s t, I s → J t → (x.run s).1 = (x.run t).1

namespace Agree

theorem pure (a : α) : Agree I J (pure a) := fun _ _ _ _ => rfl

theorem throw (e : SolverError) : Agree I J (throwThe SolverError e : Ask α) := fun _ _ _ _ => rfl

theorem modify (f : Solver → Solver) : Agree I J (modify f) := fun _ _ _ _ => rfl

theorem lift (result : Except SolverError α) : Agree I J (liftM result) := by
  intro s t _ _
  cases result <;> rfl

/-- What comes next has to agree in the solvers that the first question leaves behind. -/
theorem bind {x : Ask α} {f : α → Ask β} {answer answer' : α → Prop}
    {failure failure' : SolverError → Prop} (first : Agree I J x) (left : Ensures I x answer failure)
    (right : Ensures J x answer' failure') (rest : ∀ a, Agree I J (f a)) : Agree I J (x >>= f) := by
  intro s t hs ht
  have same := first s t hs ht
  obtain ⟨keptLeft, -⟩ := left s hs
  obtain ⟨keptRight, -⟩ := right t ht
  rw [run_bind, run_bind]
  generalize x.run s = outcome at same keptLeft
  generalize x.run t = outcome' at same keptRight
  obtain ⟨result, u⟩ := outcome
  obtain ⟨result', u'⟩ := outcome'
  cases same
  cases result with
  | ok a => exact rest a u u' keptLeft keptRight
  | error e => rfl

/-- Where the rest agrees in all solvers, nothing need be kept. -/
theorem last {x : Ask α} {f : α → Ask β} (first : Agree I J x)
    (rest : ∀ a, Agree (fun _ => True) (fun _ => True) (f a)) : Agree I J (x >>= f) := by
  intro s t hs ht
  have same := first s t hs ht
  rw [run_bind, run_bind]
  generalize x.run s = outcome at same
  generalize x.run t = outcome' at same
  obtain ⟨result, u⟩ := outcome
  obtain ⟨result', u'⟩ := outcome'
  cases same
  cases result with
  | ok a => exact rest a u u' trivial trivial
  | error e => rfl

theorem returning {x : Ask α} (f : α → β) (h : Agree I J x) : Agree I J (do return f (← x)) :=
  last h fun a => pure (f a)

end Agree

end Ask

namespace Solver

open Ask

variable {backend backend' : Backend} {config config' : SolverConfig} {K K' : Constraints → Prop}
  {cs : Constraints}

section Timeouts

variable (timeouts : config.timeoutMs = config'.timeoutMs)

include timeouts

theorem takeVerdict_agree (v : Verdict) :
    Agree (Faithful backend config K) (Faithful backend config' K) (takeVerdict v) := by
  intro s t hs ht
  cases v with
  | sat | unsat | unknown => rfl
  | timeout =>
      change Except.error (SolverError.timeout s.config.timeoutMs) =
        .error (.timeout t.config.timeoutMs)
      rw [hs.config_eq, ht.config_eq, timeouts]

theorem check_agree (script : Script) :
    Agree (Faithful backend config K) (Faithful backend config' K) (check script) := by
  intro s t hs ht
  change ((takeVerdict (s.backend.check script)).run s).1 = ((takeVerdict (t.backend.check script)).run t).1
  rw [hs.backend_eq, ht.backend_eq]
  exact takeVerdict_agree timeouts _ s t hs ht

theorem enumerate_agree (exact : backend.Exact) (line n : Nat) (script : Script) :
    Agree (Faithful backend config K) (Faithful backend config' K) (enumerate line n script) := by
  induction n generalizing script with
  | zero => exact Agree.pure []
  | succ n ih =>
      refine Agree.bind (check_agree timeouts script) (check_ensures exact script) (check_ensures exact script)
        fun answer => ?_
      cases answer with
      | none => exact Agree.pure []
      | some model => exact (ih _).returning _

end Timeouts

theorem refuseFalse_agree (cs : Constraints) :
    Agree (Faithful backend config K) (Faithful backend config' K) (refuseFalse cs) := by
  intro s t _ _
  unfold refuseFalse
  split <;> rfl

theorem count_agree {α : Type} (f : SolverCounters → SolverCounters) {x : Ask α}
    (next : Agree (Faithful backend config K) (Faithful backend' config' K') x) :
    Agree (Faithful backend config K) (Faithful backend' config' K') (do count f; x) := by
  intro s t hs ht
  exact next _ _ { hs with } { ht with }

theorem not_answered (hcs : cs.WellFormed) {e : SolverError} (possible : cs.isTriviallyFalse = false)
    (failed : Lowering.scriptOf cs.items [] = .error e) :
    ¬ (cs.isTriviallyFalse = true ∨ cs.OneWidthEach) := by
  rintro (never | oneWidth)
  · rw [possible] at never
    cases never
  · exact Lowering.not_oneWidthEach_of_error hcs failed oneWidth

/-- Both answers are right, or what was asked could not be lowered. -/
theorem decide_agree (exact : backend.Exact) (exact' : backend'.Exact) (decides : backend.Decides)
    (decides' : backend'.Decides) (distinct : Distinct config K) (distinct' : Distinct config' K')
    (about : K cs) (about' : K' cs) (hcs : cs.WellFormed) :
    Agree (Faithful backend config K) (Faithful backend' config' K') (decide cs) := by
  intro s t hs ht
  obtain ⟨-, answered, failed⟩ := decide_ensures exact distinct about hcs s hs
  obtain ⟨-, answered', failed'⟩ := decide_ensures exact' distinct' about' hcs t ht
  cases left : ((decide cs).run s).1 with
  | ok b =>
      obtain ⟨right, lowered⟩ := answered b left
      cases other : ((decide cs).run t).1 with
      | ok b' =>
          obtain ⟨right', -⟩ := answered' b' other
          rw [Bool.eq_iff_iff.mpr (right.trans right'.symm)]
      | error e =>
          obtain ⟨possible, notLowered⟩ := (failed' e other).2 decides'
          exact (not_answered hcs possible notLowered lowered).elim
  | error e =>
      obtain ⟨possible, notLowered⟩ := (failed e left).2 decides
      cases other : ((decide cs).run t).1 with
      | ok b =>
          obtain ⟨-, lowered⟩ := answered' b other
          exact (not_answered hcs possible notLowered lowered).elim
      | error e' =>
          obtain ⟨-, notLowered'⟩ := (failed' e' other).2 decides'
          rw [notLowered] at notLowered'
          rw [Except.error.inj notLowered']

section Queries

variable (exact : backend.Exact) (decides : backend.Decides) (distinct : Distinct config K)
  (distinct' : Distinct config' K) (about : K cs) (hcs : cs.WellFormed)

include exact decides distinct distinct' about hcs

variable (timeouts : config.timeoutMs = config'.timeoutMs)

include timeouts

theorem evaluateMany_agree (e : Expr) (n : Nat) :
    Agree (Faithful backend config K) (Faithful backend config' K) (evaluateMany e cs n) := by
  refine count_agree _ ?_
  split
  · exact Agree.pure []
  split
  · have decided := decide_agree exact exact decides decides distinct distinct' about about hcs
    refine Agree.last decided fun b => ?_
    split
    · exact Agree.pure _
    · exact Agree.throw _
  · refine Agree.bind (refuseFalse_agree cs) (refuseFalse_ensures hcs) (refuseFalse_ensures hcs) fun _ => ?_
    refine Agree.bind (Agree.lift _) (Ensures.lift _) (Ensures.lift _) fun ⟨script, lines⟩ => ?_
    refine Agree.last (enumerate_agree timeouts exact _ n script) fun values => ?_
    split
    · exact Agree.last (Agree.modify _) fun _ => Agree.throw _
    · exact Agree.last (Agree.modify _) fun _ => Agree.pure _

theorem evaluate_agree (e : Expr) :
    Agree (Faithful backend config K) (Faithful backend config' K) (evaluate e cs) := by
  refine Agree.last (evaluateMany_agree exact decides distinct distinct' about hcs timeouts e 1) ?_
  intro values
  cases values with
  | nil => exact Agree.throw _
  | cons v rest => exact Agree.pure v

theorem evaluateAll_agree (es : List Expr) :
    Agree (Faithful backend config K) (Faithful backend config' K) (evaluateAll es cs) := by
  refine count_agree _ ?_
  split
  · have decided := decide_agree exact exact decides decides distinct distinct' about about hcs
    refine Agree.last decided fun b => ?_
    split
    · exact Agree.pure _
    · exact Agree.throw _
  · refine Agree.bind (refuseFalse_agree cs) (refuseFalse_ensures hcs) (refuseFalse_ensures hcs) fun _ => ?_
    refine Agree.bind (Agree.lift _) (Ensures.lift _) (Ensures.lift _) fun ⟨script, lines⟩ => ?_
    refine Agree.last (check_agree timeouts script) fun answer => ?_
    cases answer with
    | none => exact Agree.last (Agree.modify _) fun _ => Agree.throw _
    | some model => exact Agree.last (Agree.modify _) fun _ => Agree.pure _

end Queries

theorem ask_agree (exact : backend.Exact) (decides : backend.Decides) (distinct : Distinct config K)
    (distinct' : Distinct config' K) (timeouts : config.timeoutMs = config'.timeoutMs) {r : Request}
    (hr : r.WellFormed) (about : ∀ cs ∈ r.constraints, K cs) :
    Agree (Faithful backend config K) (Faithful backend config' K) r.ask := by
  obtain ⟨constraints, -⟩ := hr
  cases r with
  | clearCache => exact Agree.last (Agree.modify _) fun _ => Agree.pure _
  | isSatisfiable cs =>
      have decided := decide_agree exact exact decides decides distinct distinct' (about cs (.head _))
        (about cs (.head _)) (constraints cs (.head _))
      exact (count_agree _ decided).returning Reply.verdict
  | evaluate e cs =>
      have asked := evaluate_agree exact decides distinct distinct' (about cs (.head _))
        (constraints cs (.head _)) timeouts e
      exact asked.returning Reply.value
  | evaluateMany e cs n =>
      have asked := evaluateMany_agree exact decides distinct distinct' (about cs (.head _))
        (constraints cs (.head _)) timeouts e n
      exact asked.returning Reply.values
  | evaluateAll es cs =>
      have asked := evaluateAll_agree exact decides distinct distinct' (about cs (.head _))
        (constraints cs (.head _)) timeouts es
      exact asked.returning Reply.values
  | evaluateBytes es cs =>
      have asked := evaluateAll_agree exact decides distinct distinct' (about cs (.head _))
        (constraints cs (.head _)) timeouts es
      exact (asked.returning (·.map (·.toUInt8))).returning Reply.bytes

theorem distinct_off (config : SolverConfig) (K : Constraints → Prop) :
    Distinct { config with cacheResults := false } K := nofun

theorem replies_eq_map (exact : backend.Exact) (decides : backend.Decides)
    (distinct : Distinct config K) {s : Solver} (hs : s.Faithful backend config K)
    {requests : List Request} (wellFormed : ∀ r ∈ requests, r.WellFormed)
    (about : ∀ cs, About requests cs → K cs) :
    s.replies requests = requests.map fun r =>
      (r.ask.run (new backend { config with cacheResults := false })).1 := by
  induction requests generalizing s with
  | nil => rfl
  | cons r rest ih =>
      obtain ⟨here, later⟩ := List.forall_mem_cons.mp wellFormed
      have aboutHere : ∀ cs ∈ r.constraints, K cs := fun cs hcs => about cs ⟨r, .head _, hcs⟩
      have reply := ask_agree exact decides distinct (distinct_off config K) rfl here aboutHere s _ hs
        faithful_new
      have kept := ask_faithful exact distinct here aboutHere hs
      rw [replies, List.map_cons, reply,
        ih kept later fun cs ⟨q, hq, hcs⟩ => about cs ⟨q, .tail _ hq, hcs⟩]

/-- Whatever a solver is asked, its memory holds nothing but the truth at any time, no more of it than
    it may, and every reply is that of a new solver without a memory. -/
theorem cache_transparent (exact : backend.Exact) (decides : backend.Decides) (config : SolverConfig)
    (requests : List Request) (wellFormed : ∀ r ∈ requests, r.WellFormed)
    (distinct : Distinct config (About requests)) :
    (∀ n : Nat,
      let s := (new backend config).after (requests.take n)
      (∀ (d : Digest) (b : Bool), s.cache.entries[d]? = some b → ∃ cs : Constraints,
        About requests cs ∧ cs.digest = d ∧ (b = true ↔ ∃ σ, cs.SatisfiedBy σ)) ∧
      s.cacheEntries ≤ if config.cacheResults then config.maxCacheEntries else 0) ∧
    (new backend config).replies requests = requests.map fun r =>
      (r.ask.run (new backend { config with cacheResults := false })).1 := by
  refine ⟨fun n => ?_, replies_eq_map exact decides distinct faithful_new wellFormed fun _ => id⟩
  have faithful : ((new backend config).after (requests.take n)).Faithful backend config _ :=
    after_faithful exact distinct (fun r hr => wellFormed r (List.mem_of_mem_take hr))
      (fun cs ⟨r, hr, hcs⟩ => ⟨r, List.mem_of_mem_take hr, hcs⟩) faithful_new
  refine ⟨fun d b found => ?_, ?_⟩
  · obtain ⟨cs, about, same, settled⟩ := faithful.entries d b found
    exact ⟨cs, about, same, settled.right⟩
  · rw [← faithful.capacity_eq]
    exact faithful.size_le

/-- A cache with room for one answer, asked twice about one bit and emptied in between. -/
theorem cache_transparent_flag :
    let config : SolverConfig := { maxCacheEntries := 1 }
    let flag : Constraints := ({} : Constraints).append (.var "flag" 1)
    let requests : List Request :=
      [.evaluateMany (.var "flag" 1) flag 2, .isSatisfiable flag, .clearCache, .isSatisfiable flag]
    ((new .perfect config).after (requests.take 2)).cacheEntries ≤ 1 ∧
      (new .perfect config).replies requests = requests.map fun r =>
        (r.ask.run (new .perfect { config with cacheResults := false })).1 := by
  intro config flag requests
  have wellFormed : ∀ r ∈ requests, r.WellFormed := by
    have hcs : ∀ cs ∈ [flag], cs.WellFormed := by
      simp [flag, Constraints.WellFormed, Constraints.append, Expr.WellFormed, Expr.width]
    have he : ∀ e ∈ [Expr.var "flag" 1], e.WellFormed := by simp [Expr.WellFormed]
    simp only [requests, List.forall_mem_cons]
    exact ⟨⟨hcs, he⟩, ⟨hcs, List.forall_mem_nil _⟩, ⟨List.forall_mem_nil _, List.forall_mem_nil _⟩,
      ⟨hcs, List.forall_mem_nil _⟩, List.forall_mem_nil _⟩
  have single : ∀ cs, About requests cs → cs = flag := by
    rintro cs ⟨r, hr, hcs⟩
    simp only [requests, List.mem_cons, List.not_mem_nil, or_false] at hr
    rcases hr with rfl | rfl | rfl | rfl
    · exact List.mem_singleton.mp hcs
    · exact List.mem_singleton.mp hcs
    · cases hcs
    · exact List.mem_singleton.mp hcs
  have distinct : Distinct config (About requests) :=
    fun _ cs ds hcs hds _ => (single cs hcs).trans (single ds hds).symm
  obtain ⟨memory, replies⟩ :=
    cache_transparent Backend.perfect_exact Backend.perfect_decides config requests wellFormed distinct
  exact ⟨(memory 2).2, replies⟩

end Solver

end PathSearch
