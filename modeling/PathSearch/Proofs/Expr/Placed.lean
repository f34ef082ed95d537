import PathSearch.Expr.Placed
import PathSearch.Proofs.Expr.Build

/-! # Building with places

Where an expression is built step by step with the places of its nodes, it is the expression that is
built without them, and the building is refused for the same reason. A place always fits its node: it has
a part for each operand. That is what lets the functions here find the operand that a rule takes up.
-/

namespace PathSearch

namespace Expr

variable {op : Op} {x y e : Expr} {width : Nat}

theorem operands_of_isConst (const : e.isConst) : e.operands = [] := by
  cases e <;> first | rfl | cases const

/-- A unary operation is a constant, a node over its operand, or what its operand negates. -/
theorem applyUnary_cases (op : Op) (x : Expr) :
    (applyUnary op x).isConst ∨ applyUnary op x = .unary op x ∨ x = .unary op (applyUnary op x) := by
  unfold applyUnary
  split
  · exact .inl rfl
  · split
    · split
      · rename_i same
        exact .inr (.inr (same ▸ rfl))
      · exact .inr (.inl rfl)
    · exact .inr (.inl rfl)

theorem onSame?_cases {r : Expr} (h : onSame? op x = some r) : r.isConst ∨ r = x := by
  cases op <;> cases h <;> first | exact .inl rfl | exact .inr rfl

/-- A rule of a binary operation gives a constant or one of the operands. -/
theorem simplify?_cases {r : Expr} (h : simplify? op x y = some r) : r.isConst ∨ r = x ∨ r = y := by
  have twice : (if x = y then onSame? op x else none) = some r → r.isConst ∨ r = x ∨ r = y := by
    intro rule
    split at rule
    · exact (onSame?_cases rule).imp_right .inl
    · cases rule
  unfold simplify? at h
  simp only at h
  split at h
  · cases h
    exact .inr (.inl rfl)
  split at h
  · cases h
    exact .inr (.inr rfl)
  split at h
  · split at h
    · cases h
      exact .inl rfl
    · exact twice h
  · exact twice h

/-- A binary operation is a constant, one of its operands, or a node over them. -/
theorem applyBinary_cases (op : Op) (x y : Expr) :
    (applyBinary op x y).isConst ∨ applyBinary op x y = x ∨ applyBinary op x y = y ∨
      applyBinary op x y = .binary op x y := by
  unfold applyBinary
  split
  · split
    · exact .inl rfl
    · exact .inr (.inr (.inr rfl))
  · cases rule : simplify? op x y with
    | none => exact .inr (.inr (.inr rfl))
    | some r => exact (simplify?_cases rule).imp_right (·.imp_right .inl)

/-- A zero extension is its operand, a constant, or a node over its operand. -/
theorem mkZext_operands (extended : mkZext x width = .ok e) :
    e = x ∨ e.isConst ∨ e.operands = [x] := by
  rcases mkZext_cases extended with ⟨-, same⟩ | ⟨-, ⟨v, -, rfl⟩ | ⟨-, rfl⟩⟩
  · exact .inl same
  · exact .inr (.inl rfl)
  · exact .inr (.inr rfl)

theorem mkSext_operands (extended : mkSext x width = .ok e) :
    e = x ∨ e.isConst ∨ e.operands = [x] := by
  obtain ⟨_, -, h⟩ := bind_ok extended
  cases h
  split
  · exact .inl rfl
  · split
    · exact .inr (.inl rfl)
    · exact .inr (.inr rfl)

/-- What becomes of a slice that is not the whole, by the form of what it is taken from. -/
theorem mkExtract_cases {high low : Nat} (sliced : mkExtract high low x = .ok e)
    (part : ¬ (low = 0 ∧ high + 1 = x.width)) :
    match x with
    | .extract _ innerLow inner => mkExtract (high + innerLow) (low + innerLow) inner = .ok e
    | .concat hi lo =>
        if high < lo.width then mkExtract high low lo = .ok e
        else if lo.width ≤ low then mkExtract (high - lo.width) (low - lo.width) hi = .ok e
        else e = .extract high low x
    | .zext inner _ =>
        if high < inner.width then mkExtract high low inner = .ok e
        else e.isConst ∨ e = .extract high low x
    | _ => e.isConst ∨ e = .extract high low x := by
  rw [mkExtract] at sliced
  split at sliced
  · cases sliced
  rw [if_neg (by omega)] at sliced
  cases x with
  | const v bits => exact .inl (Except.ok.inj sliced ▸ rfl)
  | var | unary | binary | ite | sext => exact .inr (Except.ok.inj sliced).symm
  | extract => exact sliced
  | concat hi lo =>
      simp only at sliced ⊢
      split at sliced <;> rename_i inLow <;> simp only [inLow, if_true, if_false]
      · exact sliced
      · split at sliced <;> rename_i inHigh <;> simp only [inHigh, if_true, if_false]
        · exact sliced
        · exact (Except.ok.inj sliced).symm
  | zext inner bits =>
      simp only at sliced ⊢
      split at sliced <;> rename_i inside <;> simp only [inside, if_true, if_false]
      · exact sliced
      · split at sliced
        · exact .inl (Except.ok.inj sliced ▸ rfl)
        · exact .inr (Except.ok.inj sliced).symm

theorem width_of_mkZext (extended : mkZext x width = .ok e) : e.width = width := by
  rcases mkZext_cases extended with ⟨same, rfl⟩ | ⟨-, ⟨v, -, rfl⟩ | ⟨-, rfl⟩⟩
  · exact same.symm
  · rfl
  · rfl

end Expr

/-- A place for a node and for all nodes below it. -/
inductive Place.Fits : Place → Expr → Prop where
  | held (e : Expr) : Fits .held e
  | made {e : Expr} {parts : List Place} (step : Nat) (each : List.Forall₂ Fits parts e.operands) :
      Fits (.made step parts) e

namespace Placed

open PathSearch.Expr

/-- This is the expression, and the place fits it. -/
structure Shows (p : Placed) (e : Expr) : Prop where
  expr : p.expr = e
  fits : p.place.Fits e

/-- Building from any step on gives a result that is related to that of work without places, or fails as
    that does. -/
def Agrees {α β : Type} (related : α → β → Prop) (built : Build α) (plain : Except Error β) : Prop :=
  ∀ n, match built.run n, plain with
    | .ok (a, _), .ok b => related a b
    | .error failure, .error failure' => failure = failure'
    | _, _ => False

section Agrees

variable {α β γ δ : Type} {R : α → β → Prop} {S : γ → δ → Prop}

theorem Agrees.pure {a : α} {b : β} (related : R a b) : Agrees R (Pure.pure a) (.ok b) := fun _ => related

theorem Agrees.throw (failure : Error) : Agrees R (MonadExcept.throw failure) (.error failure) :=
  fun _ => rfl

theorem Agrees.bind {built : Build α} {plain : Except Error β} {f : α → Build γ} {g : β → Except Error δ}
    (first : Agrees R built plain) (later : ∀ a b, R a b → Agrees S (f a) (g b)) :
    Agrees S (built >>= f) (plain >>= g) := by
  intro n
  have here := first n
  rw [StateT.run_bind]
  revert here
  rcases built.run n with _ | ⟨a, m⟩ <;> rcases plain with _ | b <;> intro here
  · exact here
  · exact here.elim
  · exact here.elim
  · exact later a b here m

/-- A part of the building that has nothing to fail without places. -/
theorem Agrees.andThen {built : Build α} {b : β} {f : α → Build γ} {plain : Except Error δ}
    (first : Agrees R built (.ok b)) (later : ∀ a, R a b → Agrees S (f a) plain) :
    Agrees S (built >>= f) plain := by
  intro n
  have here := first n
  rw [StateT.run_bind]
  revert here
  rcases built.run n with _ | ⟨a, m⟩ <;> intro here
  · exact here.elim
  · exact later a here m

theorem Agrees.passed {result : Except Error β} {b : β} {f : β → Build γ} {plain : Except Error δ}
    (known : result = .ok b) (later : Agrees S (f b) plain) :
    Agrees S ((liftM result : Build β) >>= f) plain := by
  rw [known]
  exact later

theorem Agrees.mono {built : Build α} {plain : Except Error β} {R' : α → β → Prop}
    (h : Agrees R built plain) (weaker : ∀ a b, plain = .ok b → R a b → R' a b) : Agrees R' built plain := by
  intro n
  have here := h n
  revert here
  rcases built.run n with _ | ⟨a, m⟩ <;> rcases plain with _ | b <;> intro here
  · exact here
  · exact here
  · exact here
  · exact weaker a b rfl here

theorem Agrees.mapM {cs : List γ} {f : γ → Build α} {g : γ → Except Error β}
    (each : ∀ c ∈ cs, Agrees R (f c) (g c)) : Agrees (List.Forall₂ R) (cs.mapM f) (cs.mapM g) := by
  induction cs with
  | nil => exact .pure .nil
  | cons c rest ih =>
      rw [List.mapM_cons, List.mapM_cons]
      exact (each c (.head _)).bind fun _ _ first =>
        (ih fun c hc => each c (.tail _ hc)).bind fun _ _ later => .pure (.cons first later)

/-- Work along a list, where without places nothing can fail. -/
theorem Agrees.mapM_pure {cs : List γ} {f : γ → Build α} {g : γ → β}
    (each : ∀ c ∈ cs, Agrees R (f c) (.ok (g c))) :
    Agrees (List.Forall₂ R) (cs.mapM f) (.ok (cs.map g)) := by
  have plain : cs.mapM (fun c => (.ok (g c) : Except Error β)) = .ok (cs.map g) := List.mapM_pure
  exact plain ▸ .mapM each

/-- Work along a list keeps what each of its steps keeps. -/
theorem Agrees.foldlM_pure {P : α → Prop} {cs : List γ} {f : α → γ → Build α} {a : α}
    (step : ∀ a, P a → ∀ c ∈ cs, Agrees (fun a _ => P a) (f a c) (.ok ())) (start : P a) :
    Agrees (fun a _ => P a) (cs.foldlM f a) (.ok ()) := by
  induction cs generalizing a with
  | nil => exact .pure start
  | cons c rest ih =>
      rw [List.foldlM_cons]
      exact (step a start c (.head _)).andThen fun _ kept => ih (fun a h c hc => step a h c (.tail _ hc)) kept

/-- The result is computed without places first, and then found or put over its operands. -/
theorem Agrees.computed {plain : Except Error β} {f : β → Build α}
    (found : ∀ b, plain = .ok b → Agrees R (f b) (.ok b)) :
    Agrees R ((liftM plain : Build β) >>= f) plain := by
  cases plain with
  | error failure => exact fun _ => rfl
  | ok b => exact found b rfl

/-- What is checked first is checked without places. -/
theorem Agrees.checked {check : Except Error Unit} {built : Build γ} {plain : Except Error δ}
    (later : Agrees S built plain) :
    Agrees S (do let _ ← (liftM check : Build Unit); built) (do let _ ← check; plain) := by
  cases check with
  | error failure => exact fun _ => rfl
  | ok _ => exact later

end Agrees

theorem shows_held (e : Expr) : Shows ⟨e, .held⟩ e := ⟨rfl, .held e⟩

variable {p : Placed} {e e' : Expr}

theorem Shows.operands (h : p.Shows e) : List.Forall₂ Shows p.operands e.operands := by
  obtain ⟨e, place⟩ := p
  obtain ⟨rfl, fits⟩ := h
  cases fits with
  | held => exact List.forall₂_map_left_iff.mpr (List.forall₂_same.mpr fun e _ => shows_held e)
  | made step each =>
      change List.Forall₂ Shows (List.map _ (List.zip e.operands _)) e.operands
      generalize e.operands = es at each ⊢
      induction each with
      | nil => exact .nil
      | cons fits _ ih => exact .cons ⟨rfl, fits⟩ ih

theorem Shows.operand (h : p.Shows e) {i : Nat} (found : e.operands[i]? = some e') :
    (p.operand i).Shows e' := by
  obtain ⟨q, place, shows⟩ := left_of_getElem? h.operands found
  rwa [Placed.operand, List.getD_eq_getElem?_getD, place]

theorem Shows.unary_part (h : p.Shows p.expr) {q : Placed} (parts : p.operands = [q])
    (shape : p.expr.operands = [e]) : q.Shows e := by
  have each := h.operands
  rw [parts, shape] at each
  exact (List.forall₂_cons.mp each).1

theorem Shows.binary_parts (h : p.Shows p.expr) {q r : Placed} (parts : p.operands = [q, r])
    (shape : p.expr.operands = [e, e']) : q.Shows e ∧ r.Shows e' := by
  have each := h.operands
  rw [parts, shape] at each
  obtain ⟨left, rest⟩ := List.forall₂_cons.mp each
  exact ⟨left, (List.forall₂_cons.mp rest).1⟩

/-- A new node shows its expression where its parts are the operands. -/
theorem make_agrees {parts : List Placed} (each : List.Forall₂ Shows parts e.operands) :
    Agrees Shows (make e parts) (.ok e) := by
  refine fun n => ⟨rfl, .made n ?_⟩
  exact List.forall₂_map_left_iff.mpr (each.imp fun _ _ shows => shows.expr ▸ shows.fits)

theorem make_const (const : e.isConst) : Agrees Shows (make e []) (.ok e) :=
  make_agrees (operands_of_isConst const ▸ .nil)

theorem leaf_agrees {plain : Except Error Expr} (simple : ∀ e, plain = .ok e → e.operands = []) :
    Agrees Shows (leaf plain) plain :=
  .computed fun e built => make_agrees (simple e built ▸ .nil)

variable {x y z : Placed} {a b c : Expr}

theorem mkUnary_agrees (op : Op) (hx : x.Shows a) :
    Agrees Shows (mkUnary op x) (Expr.mkUnary op a) := by
  obtain rfl := hx.expr
  refine .computed fun e built => ?_
  have result : applyUnary op x.expr = e := by
    unfold Expr.mkUnary at built
    split at built
    · exact Except.ok.inj built
    · cases built
  have rules := applyUnary_cases op x.expr
  rw [result] at rules
  split
  · rename_i const
    exact make_const const
  split
  · rename_i fresh
    exact make_agrees (fresh ▸ .cons hx .nil)
  · rename_i symbolic other
    have twice := (rules.resolve_left symbolic).resolve_left other
    have found : x.expr.operands[0]? = some e := congrArg (·.operands[0]?) twice
    exact .pure (hx.operand found)

theorem mkBinary_agrees (op : Op) (hx : x.Shows a) (hy : y.Shows b) :
    Agrees Shows (mkBinary op x y) (Expr.mkBinary op a b) := by
  obtain rfl := hx.expr
  obtain rfl := hy.expr
  refine .computed fun e built => ?_
  have result : applyBinary op x.expr y.expr = e := by
    unfold Expr.mkBinary at built
    split at built
    · cases built
    · obtain ⟨_, -, built⟩ := bind_ok built
      exact Except.ok.inj built
  have rules := applyBinary_cases op x.expr y.expr
  rw [result] at rules
  split
  · rename_i const
    exact make_const const
  split
  · rename_i left
    exact .pure (left ▸ hx)
  split
  · rename_i right
    exact .pure (right ▸ hy)
  · rename_i symbolic other other'
    have fresh := ((rules.resolve_left symbolic).resolve_left other).resolve_left other'
    exact make_agrees (fresh ▸ .cons hx (.cons hy .nil))

theorem mkIte_agrees (hx : x.Shows a) (hy : y.Shows b) (hz : z.Shows c) :
    Agrees Shows (mkIte x y z) (Expr.mkIte a b c) := by
  obtain rfl := hx.expr
  obtain rfl := hy.expr
  obtain rfl := hz.expr
  refine .computed fun e built => ?_
  obtain ⟨_, -, built⟩ := bind_ok built
  obtain ⟨_, -, built⟩ := bind_ok built
  have result := Except.ok.inj built
  split <;> rename_i known <;> simp only [known] at result
  · subst result
    split
    · exact .pure hy
    · exact .pure hz
  · subst result
    split
    · exact .pure hy
    · exact make_agrees (.cons hx (.cons hy (.cons hz .nil)))

theorem extended_agrees {plain : Except Error Expr} (hx : x.Shows a)
    (rules : ∀ e, plain = .ok e → e = a ∨ e.isConst ∨ e.operands = [a]) :
    Agrees Shows (extended x plain) plain := by
  obtain rfl := hx.expr
  refine .computed fun e built => ?_
  split
  · rename_i same
    exact .pure (same ▸ hx)
  split
  · rename_i const
    exact make_const const
  · rename_i other symbolic
    have fresh := ((rules e built).resolve_left other).resolve_left symbolic
    exact make_agrees (fresh ▸ .cons hx .nil)

theorem mkZext_agrees (hx : x.Shows a) (width : Nat) :
    Agrees Shows (mkZext x width) (Expr.mkZext a width) := by
  obtain rfl := hx.expr
  exact extended_agrees hx fun _ => mkZext_operands

theorem mkSext_agrees (hx : x.Shows a) (width : Nat) :
    Agrees Shows (mkSext x width) (Expr.mkSext a width) := by
  obtain rfl := hx.expr
  exact extended_agrees hx fun _ => mkSext_operands

/-- The way to the node that a slice is taken from leads through the operands of the nodes on it. -/
theorem sliced_shows {high low : Nat} (hx : x.Shows x.expr)
    (built : Expr.mkExtract high low x.expr = .ok e) :
    (x.sliced high low).Shows (x.sliced high low).expr ∧
      (e = (x.sliced high low).expr ∨ e.isConst ∨ e.operands = [(x.sliced high low).expr]) := by
  fun_induction sliced high low x with
  | case1 high low p whole =>
      rw [Expr.mkExtract] at built
      split at built
      · cases built
      · rw [if_pos (by omega)] at built
        exact ⟨hx, .inl (Except.ok.inj built).symm⟩
  | case2 high low p part top innerLow inner x parts shape ih =>
      have shows := hx.unary_part parts (by rw [shape]; rfl)
      rw [shape] at built part
      obtain rfl := shows.expr
      exact ih shows (mkExtract_cases built part)
  | case3 high low p part hi lo hi' lo' parts shape inLow ih =>
      obtain ⟨-, shows⟩ := hx.binary_parts parts (by rw [shape]; rfl)
      rw [shape] at built part
      obtain rfl := shows.expr
      have rule := mkExtract_cases built part
      simp only [inLow, if_true] at rule
      exact ih shows rule
  | case4 high low p part hi lo hi' lo' parts shape notLow inHigh ih =>
      obtain ⟨showsHigh, showsLow⟩ := hx.binary_parts parts (by rw [shape]; rfl)
      rw [shape] at built part
      obtain rfl := showsHigh.expr
      obtain rfl := showsLow.expr
      have rule := mkExtract_cases built part
      simp only [notLow, inHigh, if_true, if_false] at rule
      exact ih showsHigh rule
  | case5 high low p part hi lo hi' lo' parts shape notLow notHigh =>
      obtain ⟨-, shows⟩ := hx.binary_parts parts (by rw [shape]; rfl)
      rw [shape] at built part
      obtain rfl := shows.expr
      have rule := mkExtract_cases built part
      simp only [notLow, notHigh, if_false] at rule
      exact ⟨hx, .inr (.inr (rule ▸ shape ▸ rfl))⟩
  | case6 high low p part inner bits x parts shape inside ih =>
      have shows := hx.unary_part parts (by rw [shape]; rfl)
      rw [shape] at built part
      obtain rfl := shows.expr
      have rule := mkExtract_cases built part
      simp only [inside, if_true] at rule
      exact ih shows rule
  | case7 high low p part inner bits x parts shape outside =>
      have shows := hx.unary_part parts (by rw [shape]; rfl)
      rw [shape] at built part
      obtain rfl := shows.expr
      have rule := mkExtract_cases built part
      simp only [outside, if_false] at rule
      refine ⟨hx, .inr ?_⟩
      rcases rule with const | fresh
      · exact .inl const
      · exact .inr (fresh ▸ shape ▸ rfl)
  | case8 high low p part noSlice noConcat noExtension =>
      refine ⟨hx, .inr ?_⟩
      have each := hx.operands
      have rule : e.isConst ∨ e = .extract high low p.expr := by
        cases shape : p.expr with
        | extract top innerLow inner =>
            rw [shape] at each
            obtain ⟨q, _, -, none, parts⟩ := List.forall₂_cons_right_iff.mp each
            rw [List.forall₂_nil_right_iff.mp none] at parts
            exact (noSlice _ _ _ q shape parts).elim
        | concat hi lo =>
            rw [shape] at each
            obtain ⟨q, _, -, rest, parts⟩ := List.forall₂_cons_right_iff.mp each
            obtain ⟨r, _, -, none, rfl⟩ := List.forall₂_cons_right_iff.mp rest
            rw [List.forall₂_nil_right_iff.mp none] at parts
            exact (noConcat _ _ q r shape parts).elim
        | zext inner bits =>
            rw [shape] at each
            obtain ⟨q, _, -, none, parts⟩ := List.forall₂_cons_right_iff.mp each
            rw [List.forall₂_nil_right_iff.mp none] at parts
            exact (noExtension _ _ q shape parts).elim
        | _ =>
            rw [shape] at built part
            exact mkExtract_cases built part
      exact rule.imp_right fun fresh => by rw [fresh]; rfl

theorem mkExtract_agrees (hx : x.Shows a) (high low : Nat) :
    Agrees Shows (mkExtract high low x) (Expr.mkExtract high low a) := by
  obtain rfl := hx.expr
  refine .computed fun e built => ?_
  obtain ⟨shows, rules⟩ := sliced_shows hx built
  dsimp only
  split
  · rename_i same
    exact .pure (same ▸ shows)
  split
  · rename_i const
    exact make_const const
  · rename_i other symbolic
    have fresh := (rules.resolve_left other).resolve_left symbolic
    exact make_agrees (fresh ▸ .cons shows .nil)

theorem mkConcat_agrees (hx : x.Shows a) (hy : y.Shows b) :
    Agrees Shows (mkConcat x y) (Expr.mkConcat a b) := by
  obtain rfl := hx.expr
  obtain rfl := hy.expr
  refine .computed fun e built => ?_
  split
  · rename_i const
    exact make_const const
  split
  · rename_i fresh
    exact make_agrees (fresh ▸ .cons hx (.cons hy .nil))
  rename_i symbolic other
  obtain ⟨_, -, built⟩ := bind_ok built
  -- what is left are zeros in front and slices that meet
  split at built
  · exact (symbolic (Except.ok.inj built ▸ rfl)).elim
  · rename_i shape _
    rw [shape]
    split at built
    · have width := width_of_mkZext built
      rw [← built, ← width]
      exact mkZext_agrees hy e.width
    · exact (other (Except.ok.inj built).symm).elim
  · rename_i top middle part middle' bottom part' shape shape'
    split at built
    · rw [← built, shape, shape']
      exact mkExtract_agrees (hx.operand (i := 0) (by rw [shape]; rfl)) top bottom
    · exact (other (Except.ok.inj built).symm).elim
  · exact (other (Except.ok.inj built).symm).elim

theorem lnot_agrees (hx : x.Shows a) : Agrees Shows (lnot x) (Expr.lnot a) := by
  obtain rfl := hx.expr
  refine .checked ?_
  have complement := mkUnary_agrees .not hx
  cases shape : x.expr with
  | binary op l r =>
      rw [shape] at complement
      dsimp only
      cases op.negated? with
      | some opposite =>
          exact mkBinary_agrees opposite (hx.operand (i := 0) (by rw [shape]; rfl))
            (hx.operand (i := 1) (by rw [shape]; rfl))
      | none => exact complement
  | _ =>
      rw [shape] at complement
      exact complement

theorem land_agrees (hx : x.Shows a) (hy : y.Shows b) : Agrees Shows (land x y) (Expr.land a b) := by
  obtain rfl := hx.expr
  exact .checked (mkBinary_agrees .and hx hy)

theorem lor_agrees (hx : x.Shows a) (hy : y.Shows b) : Agrees Shows (lor x y) (Expr.lor a b) := by
  obtain rfl := hx.expr
  exact .checked (mkBinary_agrees .or hx hy)

end Placed

end PathSearch
