import PathSearch.Proofs.Access
import PathSearch.Proofs.Session
import PathSearch.Proofs.Solver.Decisive

/-! # The same work in two sessions

Identities tell states apart and nothing else. So the same work on states that differ in them only, in
two sessions whose solvers always decide, fails in both for one reason or gives the same states in
both, up to identities and up to the order in which a solver happens to list values.
-/

namespace PathSearch

open PathSearch.Expr

namespace Matches

variable {ε α α' β β' : Type} {same : α → β → Prop} {same' : α' → β' → Prop}

theorem refl (result : Except ε α) : Matches (fun a b => result = .ok a ∧ a = b) result result := by
  cases result with
  | ok a => exact .ok ⟨rfl, rfl⟩
  | error e => exact .error e

theorem mono {x : Except ε α} {y : Except ε β} {same' : α → β → Prop} (h : Matches same x y)
    (weaker : ∀ a b, same a b → same' a b) : Matches same' x y := by
  cases h with
  | ok h => exact .ok (weaker _ _ h)
  | error e => exact .error e

theorem bind {x : Except ε α} {y : Except ε β} {f : α → Except ε α'} {g : β → Except ε β'}
    (first : Matches same x y) (next : ∀ a b, same a b → Matches same' (f a) (g b)) :
    Matches same' (x >>= f) (y >>= g) := by
  cases first with
  | ok h => exact next _ _ h
  | error e => exact .error e

end Matches

namespace Session

variable {α α' β β' : Type} {K : Constraints → Prop}

/-- In two sessions whose solvers decide, the one whatever is in `K`, the other everything, one piece
    of work and the other give related results, and the solvers go on deciding. -/
def Alike (K : Constraints → Prop) (x : StateM Session α) (y : StateM Session β)
    (same : α → β → Prop) : Prop :=
  ∀ u v : Session, u.solver.Decisive K → v.solver.Decisive (fun _ => True) →
    same (x.run u).1 (y.run v).1 ∧ (x.run u).2.solver.Decisive K ∧
      (y.run v).2.solver.Decisive fun _ => True

namespace Alike

variable {x : StateM Session α} {y : StateM Session β} {same : α → β → Prop}

theorem pure {a : α} {b : β} (h : same a b) : Alike K (pure a) (pure b) same :=
  fun _ _ hu hv => ⟨h, hu, hv⟩

theorem bind {f : α → StateM Session α'} {g : β → StateM Session β'} {same' : α' → β' → Prop}
    (first : Alike K x y same) (next : ∀ a b, same a b → Alike K (f a) (g b) same') :
    Alike K (x >>= f) (y >>= g) same' := by
  intro u v hu hv
  obtain ⟨given, hu', hv'⟩ := first u v hu hv
  exact next _ _ given _ _ hu' hv'

theorem foldlM {xs : List α} {ys : List β} {f : α' → α → StateM Session α'}
    {g : β' → β → StateM Session β'} {same' : α' → β' → Prop} (pairs : List.Forall₂ same xs ys)
    (each : ∀ a b, same a b → ∀ c d, same' c d → Alike K (f c a) (g d b) same') {c : α'} {d : β'}
    (start : same' c d) : Alike K (xs.foldlM f c) (ys.foldlM g d) same' := by
  induction pairs generalizing c d with
  | nil => exact pure start
  | cons head _ ih =>
      rw [List.foldlM_cons, List.foldlM_cons]
      exact bind (each _ _ head _ _ start) fun _ _ next => ih next

theorem fresh {work : Fresh α} {other : Fresh β} {same : Except Error α → Except Error β → Prop}
    (h : ∀ n m, same (work.run n).1 (other.run m).1) :
    Alike K (Session.fresh work) (Session.fresh other) same :=
  fun u v hu hv => ⟨h u.nextId v.nextId, hu, hv⟩

variable {cs : Constraints}

theorem isSatisfiable (about : K cs) (hcs : cs.WellFormed) :
    Alike K (ask (Solver.isSatisfiable cs)) (ask (Solver.isSatisfiable cs)) (· = ·) := by
  intro u v hu hv
  exact ⟨hu.isSatisfiable_eq hv about trivial hcs, hu.isSatisfiable about hcs,
    hv.isSatisfiable trivial hcs⟩

theorem evaluateMany (about : K cs) (hcs : cs.WellFormed) {e : Expr} (he : e.WellFormed)
    (unknown : e.const? = none) {n : Nat} (positive : n ≠ 0) :
    Alike K (ask (Solver.evaluateMany e cs n)) (ask (Solver.evaluateMany e cs n))
      (Matches fun vs ws => Solver.Lists cs e n vs ∧ Solver.Lists cs e n ws) := by
  intro u v hu hv
  exact ⟨hu.evaluateMany_matches hv about trivial hcs he unknown positive,
    hu.evaluateMany about hcs he n, hv.evaluateMany trivial hcs he n⟩

end Alike

end Session

namespace Attempt

variable {α α' β β' γ δ : Type} {K : Constraints → Prop}

/-- The work fails in both sessions for one reason, or gives related results. -/
def Alike (K : Constraints → Prop) (x : Attempt α) (y : Attempt β) (same : α → β → Prop) : Prop :=
  Session.Alike K x.run y.run (Matches same)

namespace Alike

variable {x : Attempt α} {y : Attempt β} {same : α → β → Prop}

theorem pure {a : α} {b : β} (h : same a b) : Alike K (pure a) (pure b) same :=
  Session.Alike.pure (.ok h)

theorem mono {same' : α → β → Prop} (h : Alike K x y same) (weaker : ∀ a b, same a b → same' a b) :
    Alike K x y same' := by
  intro u v hu hv
  obtain ⟨given, kept⟩ := h u v hu hv
  exact ⟨given.mono weaker, kept⟩

theorem throw (reason : Reason) : Alike K (throw reason : Attempt α) (throw reason : Attempt β) same :=
  Session.Alike.pure (.error reason)

theorem bind {f : α → Attempt α'} {g : β → Attempt β'} {same' : α' → β' → Prop}
    (first : Alike K x y same) (next : ∀ a b, same a b → Alike K (f a) (g b) same') :
    Alike K (x >>= f) (y >>= g) same' := by
  unfold Alike
  rw [ExceptT.run_bind, ExceptT.run_bind]
  refine Session.Alike.bind first fun result result' given => ?_
  cases given with
  | ok h => exact next _ _ h
  | error reason => exact Session.Alike.pure (.error reason)

theorem lift {x : StateM Session α} {y : StateM Session β} (h : Session.Alike K x y same) :
    Alike K (liftM x) (liftM y) same :=
  Session.Alike.bind h fun _ _ given => Session.Alike.pure (.ok given)

theorem orFault {result : Except Error α} {result' : Except Error β}
    (h : Matches same result result') :
    Alike K (Session.orFault result) (Session.orFault result') same := by
  cases h with
  | ok given => exact pure given
  | error e => exact throw _

end Alike

/-- Work that never fails, leaves the solver alone, and gives a result with the property. -/
def Settles (x : Attempt α) (post : α → Prop) : Prop :=
  ∀ u : Session, ∃ a v, x.run u = (.ok a, v) ∧ v.solver = u.solver ∧ post a

namespace Settles

variable {x : Attempt α} {y : Attempt β} {post : α → Prop}

theorem pure {a : α} (h : post a) : Settles (pure a) post := fun u => ⟨a, u, rfl, rfl, h⟩

theorem bind {f : α → Attempt β} {post' : β → Prop} (first : Settles x post)
    (next : ∀ a, post a → Settles (f a) post') : Settles (x >>= f) post' := by
  intro u
  obtain ⟨a, v, ran, kept, given⟩ := first u
  obtain ⟨b, w, later, kept', given'⟩ := next a given v
  exact ⟨b, w, (run_ok_bind ran f).trans later, kept'.trans kept, given'⟩

theorem orFault {result : Except Error α} {a : α} (h : result = .ok a) (given : post a) :
    Settles (Session.orFault result) post := by
  subst h
  exact pure given

theorem mapM {list : List α} {f : α → Attempt β} {post : α → β → Prop}
    (each : ∀ a ∈ list, Settles (f a) (post a)) : Settles (list.mapM f) (List.Forall₂ post list) := by
  induction list with
  | nil =>
      rw [List.mapM_nil]
      exact pure .nil
  | cons a rest ih =>
      rw [List.mapM_cons]
      refine bind (each a (by simp)) fun b head => ?_
      refine bind (ih fun a ha => each a (by simp [ha])) fun bs tail => ?_
      exact pure (.cons head tail)

theorem alike {post' : β → Prop} {same : α → β → Prop} (left : Settles x post)
    (right : Settles y post') (related : ∀ a b, post a → post' b → same a b) : Alike K x y same := by
  intro u v hu hv
  obtain ⟨a, u', ran, kept, given⟩ := left u
  obtain ⟨b, v', ran', kept', given'⟩ := right v
  change Matches same (x.run u).1 (y.run v).1 ∧ (x.run u).2.solver.Decisive K ∧
    (y.run v).2.solver.Decisive fun _ => True
  rw [ran, ran']
  exact ⟨.ok (related a b given given'), kept ▸ hu, kept' ▸ hv⟩

end Settles

/-- Work along lists with the same elements in any order gives the same results in some order, if
    what each element gives is settled by the part of it that is compared. -/
theorem Alike.mapM {key : α → γ} {tag : β → δ} (give : γ → Except Error δ) {xs ys : List α}
    {f g : α → Attempt β} (shuffled : (xs.map key).Perm (ys.map key))
    (left : ∀ a ∈ xs, Settles (f a) fun b => give (key a) = .ok (tag b))
    (right : ∀ a ∈ ys, Settles (g a) fun b => give (key a) = .ok (tag b)) :
    Alike K (xs.mapM f) (ys.mapM g) fun bs cs =>
      (bs.map tag).Perm (cs.map tag) ∧ ∀ b ∈ bs, ∃ a ∈ xs, give (key a) = .ok (tag b) := by
  refine (Settles.mapM left).alike (Settles.mapM right) fun bs cs hb hc =>
    ⟨?_, fun b member => exists_left hb member⟩
  have whole : (xs.map key).map give = bs.map fun b => Except.ok (tag b) := by
    rw [List.map_map]
    exact map_eq_map hb fun _ _ given => given
  have whole' : (ys.map key).map give = cs.map fun b => Except.ok (tag b) := by
    rw [List.map_map]
    exact map_eq_map hc fun _ _ given => given
  -- nothing fails on either side, so what is compared can be read off the results
  have results := shuffled.map give
  rw [whole, whole'] at results
  simpa [List.filterMap_map, Function.comp_def, Except.toOption] using
    results.filterMap Except.toOption

end Attempt

namespace State

/-- A state without its identities. -/
def anonymous (s : State) : State := { s with id := 0, parent := none }

/-- States that differ in their identities only. -/
def Twin (s t : State) : Prop := s.anonymous = t.anonymous

variable {s t : State} {K : Constraints → Prop}

theorem Twin.eq (h : s.Twin t) : t = { s with id := t.id, parent := t.parent } := by
  cases s
  cases t
  cases h
  rfl

theorem twin_anonymous (s : State) : s.Twin s.anonymous := rfl

theorem twin_fork (s : State) (id : Nat) : s.Twin (s.fork id) := rfl

theorem Twin.constraints (h : s.Twin t) : t.constraints = s.constraints :=
  (congrArg State.constraints h).symm

theorem Twin.addConstraint (h : s.Twin t) (c : Expr) :
    Matches (fun u v => s.addConstraint c = .ok u ∧ u.Twin v) (s.addConstraint c)
      (t.addConstraint c) := by
  rw [h.eq]
  refine (Matches.refl (s.constraints.push c)).bind fun cs ds pushed => ?_
  obtain ⟨pushed, rfl⟩ := pushed
  exact .ok ⟨ok_bind pushed _, rfl⟩

/-- The state on which an expression has a value. -/
def pinned (s : State) (e : Expr) (value : Word) : Except Error State := do
  let c ← Expr.mkConst value e.width
  s.addConstraint (← e.equals c)

open Attempt Session

theorem settles_fork (s : State) :
    Settles (liftM (fresh s.forkFresh)) fun result => ∃ id, result = .ok (s.fork id) :=
  fun u => ⟨_, { u with nextId := u.nextId + 1 }, rfl, rfl, u.nextId, rfl⟩

/-- Pinning always succeeds, and what it gives is settled but for the identity. -/
theorem settles_pin (s : State) {e : Expr} (he : e.WellFormed) (v : Word) :
    Settles (s.pin e v) fun t => s.anonymous.pinned e v = .ok t.anonymous := by
  obtain ⟨c, constant⟩ := mkConst_total v he.width_pos he.width_le
  have denotes := mkConst_denotes constant
  obtain ⟨d, equal, bit, -⟩ := equals_bit he denotes.wellFormed denotes.width_eq.symm
  obtain ⟨cs, pushed⟩ := s.constraints.push_total bit
  have given (t : State) (same : t.constraints = s.constraints) :
      t.pinned e v = .ok { t with constraints := cs } := by
    rw [← same] at pushed
    exact (ok_bind constant _).trans ((ok_bind equal _).trans (ok_bind pushed _))
  refine .bind s.settles_fork fun result forked => ?_
  obtain ⟨id, rfl⟩ := forked
  refine .bind (.orFault rfl rfl) fun fork same => ?_
  cases same
  exact .orFault (given (s.fork id) rfl) (given s.anonymous rfl)

/-- But for its identity, the state with one more constraint, which holds where an expression has a
    value. -/
structure PinnedBy (s : State) (e : Expr) (v : Word) (c : Expr) (t : State) : Prop where
  bit : c.IsBit
  holds : ∀ σ, c.value σ = 1 ↔ e.value σ = Word.truncate e.width v
  pushed : s.constraints.push c = .ok t.constraints
  same : t = { s with id := t.id, parent := t.parent, constraints := t.constraints }

theorem settles_pinnedBy (s : State) {e : Expr} (he : e.WellFormed) (v : Word) :
    Settles (s.pin e v) fun t => ∃ c, s.PinnedBy e v c t := by
  obtain ⟨d, constant⟩ := mkConst_total v he.width_pos he.width_le
  have denotes := mkConst_denotes constant
  obtain ⟨c, equal, bit, holds⟩ := equals_bit he denotes.wellFormed denotes.width_eq.symm
  obtain ⟨cs, pushed⟩ := s.constraints.push_total bit
  refine .bind s.settles_fork fun result forked => ?_
  obtain ⟨id, rfl⟩ := forked
  refine .bind (.orFault rfl rfl) fun fork same => ?_
  cases same
  have added : (s.fork id).addConstraint c = .ok { s.fork id with constraints := cs } :=
    ok_bind pushed _
  refine .orFault ((ok_bind constant _).trans ((ok_bind equal _).trans added)) ⟨c, bit, fun σ => ?_, pushed,
    rfl⟩
  rw [holds, Option.some.inj (denotes.some_value σ)]

theorem memory_of_pinned {e : Expr} {v : Word} (h : s.pinned e v = .ok t) : t.memory = s.memory := by
  obtain ⟨c, -, h⟩ := bind_ok h
  obtain ⟨d, -, h⟩ := bind_ok h
  obtain ⟨cs, -, h⟩ := bind_ok h
  cases h
  rfl

/-- A state without its identities, beside something else. -/
def nameless {α : Type} (p : State × α) : State × α := (p.1.anonymous, p.2)

/-- Two lists of states in which an address is resolved: the same states with the same values, each
    with the memory of the state that it comes from. -/
def SameCandidates (s : State) (ps qs : List (State × Word)) : Prop :=
  (ps.map nameless).Perm (qs.map nameless) ∧ ∀ p ∈ ps, p.1.memory = s.memory

theorem alike_pinEach (twin : s.Twin t) {address : Expr} (ha : address.WellFormed)
    {values values' : List Word} (shuffled : values.Perm values') :
    Attempt.Alike K (values.mapM fun v => do pure (← s.pin address v, v))
      (values'.mapM fun v => do pure (← t.pin address v, v)) s.SameCandidates := by
  let give (v : Word) : Except Error (State × Word) := do pure (← s.anonymous.pinned address v, v)
  have each (u : State) (same : s.Twin u) (v : Word) :
      Settles (do pure (← u.pin address v, v)) fun p => give v = .ok (nameless p) := by
    refine .bind (u.settles_pin ha v) fun w given => .pure ?_
    rw [← same] at given
    exact ok_bind given _
  have keys : (values.map fun v => v).Perm (values'.map fun v => v) := shuffled.map _
  refine (Alike.mapM give keys (fun v _ => each s rfl v) fun v _ => each t twin v).mono ?_
  rintro ps qs ⟨results, origin⟩
  refine ⟨results, fun p hp => ?_⟩
  obtain ⟨v, -, given⟩ := origin p hp
  obtain ⟨u, pinned, same⟩ := bind_ok given
  cases same
  have kept : p.1.anonymous.memory = s.anonymous.memory := memory_of_pinned pinned
  exact kept

theorem alike_resolveAddress (twin : s.Twin t) (about : K s.constraints)
    (hcs : s.constraints.WellFormed) {address : Expr} (ha : address.WellFormed) {cap : Nat}
    (below : Countable cap) :
    Attempt.Alike K (s.resolveAddress address cap) (t.resolveAddress address cap)
      s.SameCandidates := by
  unfold resolveAddress
  rw [twin.constraints]
  unfold Countable at below
  have wanted : min (cap + 1) 0xffffffffffffffff = cap + 1 := by omega
  split
  · refine .pure ⟨?_, by simp⟩
    rw [List.map_singleton, List.map_singleton, nameless, nameless, twin]
  · rename_i unknown
    rw [wanted]
    refine .bind (.lift (.evaluateMany about hcs ha unknown (by omega))) fun answer answer' given => ?_
    cases given with
    | error e =>
        simp only
        split
        · exact .throw _
        · exact .pure ⟨.refl _, by simp⟩
    | @ok values values' listed =>
        obtain ⟨lists, lists'⟩ := listed
        simp only
        by_cases many : cap < values.length
        · -- a listing that stays below the cap is complete, so the other one is as long
          have many' : cap < values'.length := by
            by_contra few
            have same := (lists'.perm lists (by omega)).length_eq
            omega
          rw [if_pos many, if_pos many']
          exact .throw _
        · have shuffled := lists.perm lists' (by omega)
          rw [if_neg many, if_neg (shuffled.length_eq ▸ many)]
          exact alike_pinEach twin ha shuffled

theorem alike_readResolved (twin : s.Twin t) (about : K s.constraints) (hs : s.WellFormed)
    {address : Expr} (ha : address.WellFormed) {size cap : Nat} (pos : 0 < size) (few : size ≤ 8)
    (below : Countable cap) :
    Attempt.Alike K (s.readResolved address size cap) (t.readResolved address size cap)
      fun ps qs => (ps.map nameless).Perm (qs.map nameless) := by
  refine .bind (alike_resolveAddress twin about hs.constraints ha below) fun ps qs resolved => ?_
  obtain ⟨shuffled, memory⟩ := resolved
  let give (p : State × Word) : Except Error (State × Expr) := do pure (p.1, ← p.1.readMemory p.2 size)
  have each (p : State × Word) (same : p.1.memory = s.memory) :
      Settles (do pure (p.1, ← Session.orFault (p.1.readMemory p.2 size))) fun q =>
        give (nameless p) = .ok (nameless q) := by
    obtain ⟨e, read⟩ := Memory.read_total hs.memory p.2 pos few
    rw [← same] at read
    exact .bind (.orFault read rfl) fun v same => .pure (same ▸ ok_bind read _)
  have memory' : ∀ q ∈ qs, q.1.memory = s.memory := by
    intro q hq
    obtain ⟨p, hp, same⟩ := List.mem_map.mp (shuffled.mem_iff.mpr (List.mem_map_of_mem hq))
    have anonymous : p.1.anonymous = q.1.anonymous := congrArg Prod.fst same
    exact (congrArg State.memory anonymous).symm.trans (memory p hp)
  have reads := Alike.mapM (K := K) give shuffled (fun p hp => each p (memory p hp))
    fun q hq => each q (memory' q hq)
  exact reads.mono fun _ _ given => given.1

theorem alike_writeResolved (twin : s.Twin t) (about : K s.constraints)
    (hcs : s.constraints.WellFormed) {address value : Expr} (ha : address.WellFormed)
    (hv : value.WellFormed) (whole : value.width % 8 = 0) {cap : Nat} (below : Countable cap) :
    Attempt.Alike K (s.writeResolved address value cap) (t.writeResolved address value cap)
      fun ts us => (ts.map anonymous).Perm (us.map anonymous) := by
  refine .bind (alike_resolveAddress twin about hcs ha below) fun ps qs resolved => ?_
  have each (p : State × Word) :
      Settles (Session.orFault (p.1.writeMemory p.2 value)) fun u =>
        (nameless p).1.writeMemory (nameless p).2 value = .ok u.anonymous := by
    obtain ⟨m, written⟩ := p.1.memory.write_total p.2 hv whole
    exact .orFault (ok_bind written _) (ok_bind written _)
  have writes := Alike.mapM (K := K) (fun p : State × Word => p.1.writeMemory p.2 value)
    resolved.1 (fun p _ => each p) fun q _ => each q
  exact writes.mono fun _ _ given => given.1

end State

end PathSearch
