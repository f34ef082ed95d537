import Mathlib.Data.List.Forall2

/-! # Work that may fail, and lists of results -/

namespace PathSearch

variable {ε α β γ : Type}

/-- Work that passes, in front of further work. -/
theorem bind_ok {x : Except ε α} {f : α → Except ε β} {b : β} (h : x >>= f = .ok b) :
    ∃ a, x = .ok a ∧ f a = .ok b := by
  cases x with
  | error _ => cases h
  | ok a => exact ⟨a, rfl, h⟩

theorem ok_bind {x : Except ε α} {a : α} (h : x = .ok a) (f : α → Except ε β) : x >>= f = f a := by
  rw [h]
  rfl

theorem error_bind {x : Except ε α} {e : ε} (h : x = .error e) (f : α → Except ε β) :
    x >>= f = .error e := by
  rw [h]
  rfl

theorem bind_error {x : Except ε α} {f : α → Except ε β} {e : ε} (h : x >>= f = .error e) :
    x = .error e ∨ ∃ a, x = .ok a ∧ f a = .error e := by
  cases x with
  | error failure => exact .inl (Except.error.inj h ▸ rfl)
  | ok a => exact .inr ⟨a, rfl, h⟩

/-- Work along a list fails as one of its steps does. -/
theorem foldlM_error {P : ε → Prop} {f : β → α → Except ε β} (step : ∀ b a e, f b a = .error e → P e)
    {list : List α} {b : β} {e : ε} (h : list.foldlM f b = .error e) : P e := by
  induction list generalizing b with
  | nil => cases h
  | cons a rest ih =>
      rw [List.foldlM_cons] at h
      rcases bind_error h with failed | ⟨_, -, later⟩
      · exact step b a e failed
      · exact ih later

/-- Work along a list keeps what each of its steps keeps. -/
theorem foldlM_ok {P : β → Prop} {f : β → α → Except ε β} {list : List α}
    (step : ∀ b, ∀ a ∈ list, ∀ b', P b → f b a = .ok b' → P b') {b b' : β} (start : P b)
    (h : list.foldlM f b = .ok b') : P b' := by
  induction list generalizing b with
  | nil => exact Except.ok.inj h ▸ start
  | cons a rest ih =>
      rw [List.foldlM_cons] at h
      obtain ⟨c, first, later⟩ := bind_ok h
      exact ih (fun b a ha => step b a (.tail _ ha)) (step b a (.head _) c start first) later

/-- Each element of a list of results comes from the element in its place. -/
theorem mapM_ok {f : α → Except ε β} {list : List α} {results : List β}
    (h : list.mapM f = .ok results) : List.Forall₂ (fun a b => f a = .ok b) list results := by
  induction list generalizing results with
  | nil =>
      cases h
      exact .nil
  | cons first rest ih =>
      rw [List.mapM_cons] at h
      obtain ⟨b, head, h⟩ := bind_ok h
      obtain ⟨bs, tail, h⟩ := bind_ok h
      cases h
      exact .cons head (ih tail)

/-- Work along a list passes if each of its steps does. -/
theorem mapM_total {P : α → β → Prop} {f : α → Except ε β} {list : List α}
    (each : ∀ a ∈ list, ∃ b, f a = .ok b ∧ P a b) :
    ∃ results, list.mapM f = .ok results ∧ List.Forall₂ P list results := by
  induction list with
  | nil => exact ⟨[], rfl, .nil⟩
  | cons a rest ih =>
      obtain ⟨b, first, here⟩ := each a (.head _)
      obtain ⟨results, others, later⟩ := ih fun x hx => each x (.tail _ hx)
      refine ⟨b :: results, ?_, .cons here later⟩
      rw [List.mapM_cons, first, others]
      rfl

theorem mapM_congr {f g : α → Except ε β} {list : List α} (same : ∀ a ∈ list, f a = g a) :
    list.mapM f = list.mapM g := by
  induction list with
  | nil => rfl
  | cons a rest ih =>
      rw [List.mapM_cons, List.mapM_cons, same a (.head _), ih fun x hx => same x (.tail _ hx)]

/-- Work along a list fails at the first of its steps that does. -/
theorem mapM_error {f : α → Except ε β} {before after : List α} {a : α} {e : ε}
    (passes : ∀ x ∈ before, ∃ b, f x = .ok b) (fails : f a = .error e) :
    (before ++ a :: after).mapM f = .error e := by
  obtain ⟨results, done, -⟩ := mapM_total (P := fun _ _ => True) fun x hx =>
    (passes x hx).imp fun _ ok => ⟨ok, trivial⟩
  rw [List.mapM_append, ok_bind done, List.mapM_cons]
  exact error_bind (error_bind fails _) _

/-- Work that may fail and has a state goes on from the state that its first part leaves. -/
theorem run_bind {σ : Type} (x : ExceptT ε (StateM σ) α) (f : α → ExceptT ε (StateM σ) β) (s : σ) :
    (x >>= f).run s = match x.run s with
      | (.ok a, t) => (f a).run t
      | (.error e, t) => (.error e, t) := by
  rw [ExceptT.run_bind]
  change StateT.run (x.run >>= _) s = _
  rw [StateT.run_bind]
  change (StateT.run x.run s >>= _ : Id _) = match StateT.run x.run s with
    | (.ok a, t) => (f a).run t
    | (.error e, t) => (.error e, t)
  rcases StateT.run x.run s with ⟨r, t⟩
  cases r <;> rfl

theorem run_ok_bind {σ : Type} {x : ExceptT ε (StateM σ) α} {s t : σ} {a : α}
    (h : x.run s = (.ok a, t)) (f : α → ExceptT ε (StateM σ) β) : (x >>= f).run s = (f a).run t := by
  rw [run_bind, h]

theorem run_bind_ok {σ : Type} {x : ExceptT ε (StateM σ) α} {f : α → ExceptT ε (StateM σ) β} {s u : σ}
    {b : β} (h : (x >>= f).run s = (.ok b, u)) :
    ∃ a t, x.run s = (.ok a, t) ∧ (f a).run t = (.ok b, u) := by
  rw [run_bind] at h
  generalize x.run s = outcome at h
  obtain ⟨result, t⟩ := outcome
  cases result with
  | ok a => exact ⟨a, t, rfl, h⟩
  | error _ => cases h

theorem run_lift {σ : Type} {result : Except ε α} {a : α} (h : result = .ok a) (s : σ) :
    (liftM result : ExceptT ε (StateM σ) α).run s = (.ok a, s) := by
  rw [h]
  rfl

theorem run_lift_ok {σ : Type} {result : Except ε α} {a : α} {s t : σ}
    (h : (liftM result : ExceptT ε (StateM σ) α).run s = (.ok a, t)) : result = .ok a := by
  cases result with
  | ok _ =>
      cases h
      rfl
  | error _ => cases h

theorem exists_left {R : α → β → Prop} {as : List α} {bs : List β}
    (h : List.Forall₂ R as bs) {b : β} (hb : b ∈ bs) : ∃ a ∈ as, R a b := by
  induction h with
  | nil => cases hb
  | cons head _ ih =>
      rcases List.mem_cons.mp hb with rfl | later
      · exact ⟨_, by simp, head⟩
      · obtain ⟨a, ha, related⟩ := ih later
        exact ⟨a, by simp [ha], related⟩

theorem exists_right {R : α → β → Prop} {as : List α} {bs : List β}
    (h : List.Forall₂ R as bs) {a : α} (ha : a ∈ as) : ∃ b ∈ bs, R a b := by
  obtain ⟨b, hb, related⟩ := exists_left h.flip ha
  exact ⟨b, hb, related⟩

/-- Related lists have related elements in the same places. -/
theorem left_of_getElem? {R : α → β → Prop} {as : List α} {bs : List β} (h : List.Forall₂ R as bs)
    {i : Nat} {b : β} (found : bs[i]? = some b) : ∃ a, as[i]? = some a ∧ R a b := by
  induction h generalizing i with
  | nil => cases found
  | cons head _ ih =>
      cases i with
      | zero =>
          cases found
          exact ⟨_, rfl, head⟩
      | succ i => exact ih found

theorem map_eq_map {R : α → β → Prop} {f : α → γ} {g : β → γ} {as : List α}
    {bs : List β} (h : List.Forall₂ R as bs) (agree : ∀ a b, R a b → f a = g b) :
    as.map f = bs.map g := by
  induction h with
  | nil => rfl
  | cons head _ ih => simp [agree _ _ head, ih]

end PathSearch
