import PathSearch.Proofs.Expr.Placed
import PathSearch.Proofs.Search.Merge
import PathSearch.Scenario.Tracked

/-! # Tracked states are states

A recipe builds the expression that it stands for, whatever places the expressions have that it refers to.
A tracked state goes through actions and merges as the state does that it tracks. The places that it takes
up fit what the state holds afterwards.
-/

namespace PathSearch

open PathSearch.Expr

open Placed (Agrees)

namespace Recipe

/-- What recipes can refer to, without places. -/
structure Values where
  named : List (String × Expr) := []
  register : String → Except Error Expr
  memory : Word → Nat → Except Error Expr
  input : String → Except Error Expr

/-- An operator applied again and again to the same right operand. -/
def chainValue (op : Op) (operand : Expr) : Nat → Expr → Except Error Expr
  | 0, acc => .ok acc
  | n + 1, acc => do chainValue op operand n (← mkBinary op acc operand)

/-- The expression that a recipe stands for. -/
def value (values : Values) : Recipe → Except Error Expr
  | .const v w => mkConst v w
  | .var n w => mkVar n w
  | .unary op x => do mkUnary op (← value values x)
  | .binary op l r => do mkBinary op (← value values l) (← value values r)
  | .ite c y n => do mkIte (← value values c) (← value values y) (← value values n)
  | .extract high low x => do mkExtract high low (← value values x)
  | .zext x w => do mkZext (← value values x) w
  | .sext x w => do mkSext (← value values x) w
  | .concat h l => do mkConcat (← value values h) (← value values l)
  | .lnot x => do Expr.lnot (← value values x)
  | .land a b => do Expr.land (← value values a) (← value values b)
  | .lor a b => do Expr.lor (← value values a) (← value values b)
  | .chain op n a b => do
      let a ← value values a
      let b ← value values b
      chainValue op b n a
  | .ref name => match values.named.lookup name with
      | some e => .ok e
      | none => .error (.unknownLabel name)
  | .register name => values.register name
  | .memory a size => values.memory a size
  | .input name => values.input name

/-- What recipes see is the same, with places that fit. -/
structure Scope.Shows (scope : Scope) (values : Values) : Prop where
  named : List.Forall₂ (fun p q => p.1 = q.1 ∧ p.2.Shows q.2) scope.named values.named
  register : ∀ name, Agrees Placed.Shows (scope.register name) (values.register name)
  memory : ∀ address size, Agrees Placed.Shows (scope.memory address size) (values.memory address size)
  input : ∀ name, Agrees Placed.Shows (scope.input name) (values.input name)

/-- Lists with the same keys have related values under each key. -/
theorem lookup_related {α β : Type} {R : α → β → Prop} {ps : List (String × α)} {qs : List (String × β)}
    (each : List.Forall₂ (fun p q => p.1 = q.1 ∧ R p.2 q.2) ps qs) (name : String) :
    (ps.lookup name = none ∧ qs.lookup name = none) ∨
      ∃ a b, ps.lookup name = some a ∧ qs.lookup name = some b ∧ R a b := by
  induction each with
  | nil => exact .inl ⟨rfl, rfl⟩
  | @cons p q ps qs head _ ih =>
      obtain ⟨same, related⟩ := head
      obtain ⟨n, a⟩ := p
      obtain ⟨n', b⟩ := q
      cases same
      rw [List.lookup_cons, List.lookup_cons]
      cases name == n with
      | true => exact .inr ⟨a, b, rfl, rfl, related⟩
      | false => exact ih

theorem chainOn_agrees (op : Op) {operand acc : Placed} {b a : Expr} (hb : operand.Shows b)
    (ha : acc.Shows a) (n : Nat) :
    Agrees Placed.Shows (chainOn op operand n acc) (chainValue op b n a) := by
  induction n generalizing acc a with
  | zero => exact .pure ha
  | succ n ih => exact (Placed.mkBinary_agrees op ha hb).bind fun _ _ shows => ih shows

theorem operands_of_mkConst {v : Word} {w : Nat} {e : Expr} (made : mkConst v w = .ok e) :
    e.operands = [] := by
  obtain ⟨_, -, made⟩ := bind_ok made
  cases made
  rfl

theorem operands_of_mkVar {n : String} {w : Nat} {e : Expr} (made : mkVar n w = .ok e) :
    e.operands = [] := by
  obtain ⟨_, -, made⟩ := bind_ok made
  cases made
  rfl

variable {scope : Scope} {values : Values}

/-- A recipe builds the expression that it stands for. -/
theorem build_agrees (sees : scope.Shows values) (recipe : Recipe) :
    Agrees Placed.Shows (recipe.build scope) (recipe.value values) := by
  induction recipe with
  | const v w => exact Placed.leaf_agrees fun _ => operands_of_mkConst
  | var n w => exact Placed.leaf_agrees fun _ => operands_of_mkVar
  | unary op x hx => exact hx.bind fun _ _ => Placed.mkUnary_agrees op
  | binary op l r hl hr =>
      exact hl.bind fun _ _ left => hr.bind fun _ _ right => Placed.mkBinary_agrees op left right
  | ite c y n hc hy hn =>
      exact hc.bind fun _ _ cond => hy.bind fun _ _ yes => hn.bind fun _ _ no =>
        Placed.mkIte_agrees cond yes no
  | extract high low x hx => exact hx.bind fun _ _ shows => Placed.mkExtract_agrees shows high low
  | zext x w hx => exact hx.bind fun _ _ shows => Placed.mkZext_agrees shows w
  | sext x w hx => exact hx.bind fun _ _ shows => Placed.mkSext_agrees shows w
  | concat h l hh hl =>
      exact hh.bind fun _ _ high => hl.bind fun _ _ low => Placed.mkConcat_agrees high low
  | lnot x hx => exact hx.bind fun _ _ => Placed.lnot_agrees
  | land a b ha hb =>
      exact ha.bind fun _ _ left => hb.bind fun _ _ right => Placed.land_agrees left right
  | lor a b ha hb =>
      exact ha.bind fun _ _ left => hb.bind fun _ _ right => Placed.lor_agrees left right
  | chain op n a b ha hb =>
      exact ha.bind fun _ _ first => hb.bind fun _ _ operand => chainOn_agrees op operand first n
  | ref name =>
      rw [build, value]
      rcases lookup_related sees.named name with ⟨left, right⟩ | ⟨p, e, left, right, shows⟩
      · rw [left, right]
        exact .throw _
      · rw [left, right]
        exact .pure shows
  | register name => exact sees.register name
  | memory a size => exact sees.memory a size
  | input name => exact sees.input name

/-- The expression of a recipe does not depend on places. -/
theorem expr_eq_value (sees : scope.Shows values) (recipe : Recipe) :
    recipe.expr scope = recipe.value values := by
  have agrees := build_agrees sees recipe 0
  change Except.map _ (Prod.fst <$> (recipe.build scope).run 0) = _
  revert agrees
  rcases (recipe.build scope).run 0 with failure | ⟨p, n⟩ <;>
    rcases recipe.value values with failure' | e <;> intro agrees
  · exact congrArg Except.error agrees
  · exact agrees.elim
  · exact agrees.elim
  · exact congrArg Except.ok agrees.expr

end Recipe

/-- What recipes can refer to in a state. -/
def State.values (s : State) : Recipe.Values where
  register name := s.readRegister <$> Register.named name
  memory := s.readMemory
  input := s.inputNamed

theorem State.scope_shows (s : State) : s.scope.Shows s.values where
  named := .nil
  register _ := .computed fun e _ => .pure (Placed.shows_held e)
  memory _ _ := .computed fun e _ => .pure (Placed.shows_held e)
  input _ := .computed fun e _ => .pure (Placed.shows_held e)

namespace Tracked

/-- Every place fits what the state holds there. -/
structure Coherent (t : Tracked) : Prop where
  register : ∀ r, (t.register r).Shows (t.state.readRegister r)
  byte : ∀ a, (t.memory.getD a .held).Fits (t.state.memory.byte a)
  inputs : List.Forall₂ (fun place input => place.Fits input.2) t.inputs t.state.inputs

/-- A state that is not tracked yet, without inputs. -/
theorem coherent_start {s : State} (none : s.inputs = []) : Coherent { state := s } where
  register r := Placed.shows_held (s.readRegister r)
  byte a := by
    rw [Std.TreeMap.getD_emptyc]
    exact .held _
  inputs := none ▸ .nil

variable {t : Tracked}

theorem Coherent.fork (h : t.Coherent) (id : Nat) : Coherent { t with state := t.state.fork id } :=
  ⟨h.register, h.byte, h.inputs⟩

section Reading

theorem operands_background (image : Program) (uninitialized : Uninitialized) (a : Word) :
    (Memory.background image uninitialized a).operands = [] := by
  unfold Memory.background
  split
  · rfl
  · split <;> rfl

theorem Coherent.byte_agrees (h : t.Coherent) (a : Word) :
    Agrees Placed.Shows (t.byte a) (.ok (t.state.memory.byte a)) := by
  have fits := h.byte a
  unfold Tracked.byte
  cases written : t.state.memory.written[a]? with
  | some e =>
      have same : t.state.memory.byte a = e := by rw [Memory.byte, written]
      rw [same] at fits ⊢
      exact .pure ⟨rfl, fits⟩
  | none =>
      have same : t.state.memory.byte a =
          Memory.background t.state.memory.image t.state.memory.uninitialized a := by
        rw [Memory.byte, written]
      exact Placed.make_agrees (by rw [same, operands_background]; exact .nil)

theorem join_agrees {bytes : List Placed} {es : List Expr} (each : List.Forall₂ Placed.Shows bytes es) :
    Agrees Placed.Shows (join bytes) (Memory.join es) := by
  induction each with
  | nil => exact .throw _
  | cons shows rest ih =>
      cases rest with
      | nil => exact .pure shows
      | cons _ _ => exact ih.bind fun _ _ high => Placed.mkConcat_agrees high shows

theorem Coherent.readMemory_agrees (h : t.Coherent) (address : Word) (size : Nat) :
    Agrees Placed.Shows (t.readMemory address size) (t.state.readMemory address size) := by
  refine .computed fun e built => ?_
  have joined : Memory.join (t.state.memory.bytes address size) = .ok e := by
    rw [State.readMemory, Memory.read] at built
    split at built
    · cases built
    · exact built
  have bytes : Agrees (List.Forall₂ Placed.Shows)
      ((List.range size).mapM fun i => t.byte (address + UInt64.ofNat i))
      (.ok (t.state.memory.bytes address size)) := .mapM_pure fun _ _ => h.byte_agrees _
  rw [← joined]
  exact bytes.bind fun _ _ => join_agrees

/-- Inputs have their names and values, with places that fit. -/
theorem Coherent.namedInputs (h : t.Coherent) :
    List.Forall₂ (fun p q => p.1 = q.1 ∧ p.2.Shows q.2) t.namedInputs t.state.inputs := by
  have inputs := h.inputs
  unfold Tracked.namedInputs
  generalize t.inputs = places at inputs
  generalize t.state.inputs = known at inputs
  induction inputs with
  | nil => exact .nil
  | cons fits _ ih => exact .cons ⟨rfl, rfl, fits⟩ ih

theorem Coherent.scope_shows (h : t.Coherent) : t.scope.Shows t.state.values where
  named := .nil
  register name := by
    change Agrees Placed.Shows (do return t.register (← (liftM (Register.named name) : Placed.Build _)))
      (t.state.readRegister <$> Register.named name)
    cases Register.named name with
    | error failure => exact .throw failure
    | ok r => exact .pure (h.register r)
  memory := h.readMemory_agrees
  input name := by
    rcases Recipe.lookup_related h.namedInputs name with ⟨left, right⟩ | ⟨p, e, left, right, shows⟩
    · simp only [Tracked.scope, State.values, State.inputNamed, State.input?, left, right]
      exact .throw _
    · simp only [Tracked.scope, State.values, State.inputNamed, State.input?, left, right]
      exact .pure shows

end Reading

section Actions

/-- The bytes of a number at consecutive addresses have the places that were put there. -/
theorem putPlaces_fits {places : List Place} {bytes : List Expr}
    (each : List.Forall₂ Place.Fits places bytes) {known : Std.TreeMap Word Place} {m : Memory}
    (fits : ∀ a, (known.getD a .held).Fits (m.byte a)) (address a : Word) :
    ((putPlaces known address places).getD a .held).Fits ((m.putAll address bytes).byte a) := by
  induction each generalizing known m address with
  | nil => exact fits a
  | @cons p b places bytes here _ ih =>
      refine ih (fun c => ?_) (address + 1)
      simp only [Std.TreeMap.getD_insert, Memory.byte_put, Std.compare_eq_iff_eq]
      split
      · exact here
      · exact fits c

theorem fits_of_shows {ps : List Placed} {es : List Expr} (each : List.Forall₂ Placed.Shows ps es) :
    List.Forall₂ Place.Fits (ps.map (·.place)) es :=
  List.forall₂_map_left_iff.mpr (each.imp fun _ _ shows => shows.fits)

/-- The names of new bytes with their variables. -/
def namedBytes (name : String) (length : Nat) : List (String × Expr) :=
  (List.range length).map fun i => (Stream.byteName name i, .var (Stream.byteName name i) 8)

theorem byteVariables_agree (name : String) (length : Nat) :
    Agrees (List.Forall₂ fun p (q : String × Expr) => p.Shows q.2)
      ((List.range length).mapM (byteVariable name)) (.ok (namedBytes name length)) :=
  .mapM_pure fun _ _ n => Placed.make_agrees .nil n

/-- New bytes among the inputs. -/
theorem inputs_append {places : List Place} {inputs new : List (String × Expr)}
    (old : List.Forall₂ (fun place input => place.Fits input.2) places inputs) {ps : List Placed}
    (each : List.Forall₂ (fun p q => p.Shows q.2) ps new) :
    List.Forall₂ (fun place input => place.Fits input.2) (places ++ ps.map (·.place)) (inputs ++ new) :=
  List.rel_append old (List.forall₂_map_left_iff.mpr (each.imp fun _ _ shows => shows.fits))

/-- A register that was written has the place of the value that it holds. -/
theorem Coherent.writeRegister (h : t.Coherent) (r : Register) {v : Expr} {p : Place}
    (fits : p.Fits (Registers.widen v)) (q : Register) :
    Placed.Shows ⟨(t.state.writeRegister r v).readRegister q, (((r, p) :: t.registers).lookup q).getD .held⟩
      ((t.state.writeRegister r v).readRegister q) := by
  refine ⟨rfl, ?_⟩
  simp only [State.readRegister, State.writeRegister, Registers.get_set, List.lookup_cons]
  by_cases same : q = r
  · simp only [same, beq_self_eq_true, if_true]
    exact fits
  · rw [if_neg same, beq_false_of_ne same]
    exact (h.register q).fits

theorem widen_agrees {x : Placed} {v : Expr} (hx : x.Shows v) :
    Agrees Placed.Shows (widen x) (.ok (Registers.widen v)) := by
  obtain rfl := hx.expr
  unfold widen Registers.widen
  split
  · rename_i narrow
    obtain ⟨e, built⟩ : ∃ e, mkZext x.expr 64 = .ok e := mkZext_total (by omega) (by omega) (by omega)
    have agrees := Placed.mkZext_agrees hx 64
    rw [built] at agrees ⊢
    exact agrees
  · exact .pure hx

/-- The places that are taken up after an action fit the state that it gives. -/
theorem Coherent.place_agrees (h : t.Coherent) {action : Action} {s : State}
    (applied : action.apply t.state = .ok s) :
    Agrees (fun placed s => Coherent { placed with state := s }) (t.place action) (.ok s) := by
  have value (recipe : Recipe) {e : Expr} (built : recipe.expr t.state.scope = .ok e) :
      Agrees Placed.Shows (recipe.build t.scope) (.ok e) := by
    rw [← built, Recipe.expr_eq_value t.state.scope_shows]
    exact Recipe.build_agrees h.scope_shows recipe
  cases action with
  | register name recipe =>
      obtain ⟨e, built, applied⟩ := bind_ok applied
      obtain ⟨r, named, applied⟩ := bind_ok applied
      cases applied
      refine (value recipe built).andThen fun x shows => .passed named ?_
      refine (widen_agrees shows).andThen fun y wide => ?_
      exact .pure ⟨h.writeRegister r (wide.expr ▸ wide.fits), h.byte, h.inputs⟩
  | memory address recipe =>
      obtain ⟨e, built, applied⟩ := bind_ok applied
      obtain ⟨m, written, applied⟩ := bind_ok applied
      cases applied
      obtain ⟨bytes, split, written⟩ := bind_ok written
      cases written
      refine (value recipe built).andThen fun x shows => ?_
      have places : Agrees (List.Forall₂ Placed.Shows)
          ((List.range (x.expr.width / 8)).mapM fun i => Placed.mkExtract (8 * i + 7) (8 * i) x)
          (.ok bytes) := by
        obtain rfl := shows.expr
        unfold Memory.split at split
        split at split
        · cases split
        · rw [← split]
          exact .mapM fun i _ => Placed.mkExtract_agrees shows _ _
      refine places.andThen fun ps each => ?_
      exact .pure ⟨h.register, putPlaces_fits (fits_of_shows each) h.byte address, h.inputs⟩
  | constraint recipe =>
      obtain ⟨e, -, applied⟩ := bind_ok applied
      obtain ⟨cs, -, applied⟩ := bind_ok applied
      cases applied
      exact .pure ⟨h.register, h.byte, h.inputs⟩
  | input name recipe =>
      obtain ⟨e, built, applied⟩ := bind_ok applied
      cases applied
      refine (value recipe built).andThen fun x shows => ?_
      have new : List.Forall₂ (fun p q => p.Shows q.2) [x] [(name, e)] := .cons shows .nil
      exact .pure ⟨h.register, h.byte, inputs_append h.inputs new⟩
  | symbolicRegister r name =>
      obtain ⟨q, named, applied⟩ := bind_ok applied
      cases applied
      refine .passed named ((Placed.make_agrees .nil).andThen fun x shows => ?_)
      have fits : x.place.Fits (Registers.widen (.var name 64)) := shows.fits
      have new : List.Forall₂ (fun p q => p.Shows q.2) [x] [(name, .var name 64)] := .cons shows .nil
      exact .pure ⟨h.writeRegister q fits, h.byte, inputs_append h.inputs new⟩
  | symbolicMemory address length name =>
      cases applied
      refine (byteVariables_agree name length).andThen fun ps each => ?_
      have bytes := fits_of_shows (List.forall₂_map_right_iff.mpr each)
      exact .pure ⟨h.register, putPlaces_fits bytes h.byte address, inputs_append h.inputs each⟩
  | symbolicStream fd name length =>
      cases applied
      refine (byteVariables_agree name length).andThen fun ps each => ?_
      exact .pure ⟨h.register, h.byte, inputs_append h.inputs each⟩
  | stream fd bytes =>
      cases applied
      exact .pure ⟨h.register, h.byte, h.inputs⟩
  | readStream fd count =>
      obtain ⟨⟨bytes, s'⟩, read, applied⟩ := bind_ok applied
      cases applied
      unfold State.readStream at read
      split at read
      · cases read
        exact .pure ⟨h.register, h.byte, h.inputs⟩
      · cases read
  | goto address =>
      cases applied
      exact .pure ⟨h.register, h.byte, h.inputs⟩
  | toCaller =>
      obtain ⟨address, -, applied⟩ := bind_ok applied
      cases applied
      exact .pure ⟨h.register, h.byte, h.inputs⟩

/-- A tracked state goes through an action as its state does. -/
theorem Coherent.apply_agrees (h : t.Coherent) (action : Action) :
    Agrees (fun u s => u.state = s ∧ u.Coherent) (t.apply action) (action.apply t.state) :=
  .computed fun _ applied => (h.place_agrees applied).andThen fun _ placed => .pure ⟨rfl, placed⟩

/-- So it does through actions one after the other, and the same one is the first that fails. -/
theorem Coherent.applyAll_state (h : t.Coherent) (step : Nat) (actions : List Action) :
    let (u, _, failure) := t.applyAll step actions
    u.Coherent ∧ Action.applyAll t.state actions = (u.state, failure) := by
  induction actions generalizing t step with
  | nil => exact ⟨h, rfl⟩
  | cons action rest ih =>
      have here := h.apply_agrees action step
      rw [applyAll, Action.applyAll]
      revert here
      rcases (t.apply action).run step with failure | ⟨u, step'⟩ <;>
        rcases action.apply t.state with failure' | s <;> intro here
      · exact ⟨h, by rw [here]⟩
      · exact here.elim
      · exact here.elim
      · obtain ⟨rfl, coherent⟩ := here
        exact ih coherent step'

end Actions

section Merging

theorem select_agrees {ps : List (Placed × Placed)} {qs : List (Expr × Expr)}
    (each : List.Forall₂ (fun p q => p.1.Shows q.1 ∧ p.2.Shows q.2) ps qs) :
    Agrees Placed.Shows (select ps) (Merge.select qs) := by
  induction each with
  | nil => exact .throw _
  | @cons p q ps qs head rest ih =>
      obtain ⟨guard, value⟩ := p
      obtain ⟨g, v⟩ := q
      obtain ⟨hg, hv⟩ := head
      cases rest with
      | nil => exact .pure hv
      | cons _ _ =>
          refine ih.bind fun x e shows => ?_
          obtain rfl := hv.expr
          obtain rfl := shows.expr
          dsimp only
          split
          · exact .pure shows
          · exact Placed.mkIte_agrees hg hv shows

theorem guards_agree (selector : String) (count : Nat) :
    Agrees (List.Forall₂ Placed.Shows) (guards selector count) (Merge.guards selector count) :=
  (Placed.leaf_agrees fun _ => Recipe.operands_of_mkVar).bind fun _ _ sel =>
    .mapM fun _ _ => (Placed.leaf_agrees fun _ => Recipe.operands_of_mkConst).bind fun _ _ number =>
      Placed.mkBinary_agrees .eq sel number

theorem zip_related {α β γ δ : Type} {R : α → β → Prop} {S : γ → δ → Prop} {as : List α} {bs : List β}
    {cs : List γ} {ds : List δ} (left : List.Forall₂ R as bs) (right : List.Forall₂ S cs ds) :
    List.Forall₂ (fun p q => R p.1 q.1 ∧ S p.2 q.2) (as.zip cs) (bs.zip ds) := by
  induction left generalizing cs ds with
  | nil => exact .nil
  | cons first _ ih =>
      cases right with
      | nil => exact .nil
      | cons second later => exact .cons ⟨first, second⟩ (ih later)

/-- Names with places are names with values. -/
def Listed (p : String × Place) (q : String × Expr) : Prop := p.1 = q.1 ∧ p.2.Fits q.2

theorem any_name_eq {ps : List (String × Place)} {qs : List (String × Expr)}
    (each : List.Forall₂ Listed ps qs) (name : String) :
    ps.any (·.1 == name) = qs.any (·.1 == name) := by
  induction each with
  | nil => rfl
  | cons head _ ih => rw [List.any_cons, List.any_cons, head.1, ih]

/-- The inputs of all states, with the places that the states know. -/
theorem mergedInputs_listed {ts : List Tracked} (coherent : ∀ t ∈ ts, t.Coherent) :
    List.Forall₂ Listed (mergedInputs ts) (Merge.inputs (ts.map (·.state))) := by
  have adds {ps : List (String × Placed)} {inputs : List (String × Expr)}
      (each : List.Forall₂ (fun p q => p.1 = q.1 ∧ p.2.Shows q.2) ps inputs)
      {known : List (String × Place)} {known' : List (String × Expr)}
      (before : List.Forall₂ Listed known known') :
      List.Forall₂ Listed (ps.foldl addInput known)
        (inputs.foldl (fun known input =>
          if known.any (·.1 == input.1) then known else known ++ [(input.1, input.2)]) known') := by
    induction each generalizing known known' with
    | nil => exact before
    | @cons p q ps qs head _ ih =>
        obtain ⟨name, placed⟩ := p
        obtain ⟨name', value⟩ := q
        obtain ⟨same, shows⟩ := head
        cases same
        refine ih ?_
        rw [addInput, any_name_eq before]
        dsimp only
        split
        · exact before
        · exact List.rel_append before (.cons ⟨rfl, shows.fits⟩ .nil)
  cases ts with
  | nil => exact .nil
  | cons first others =>
      obtain ⟨here, later⟩ := List.forall_mem_cons.mp coherent
      have own : List.Forall₂ Listed (first.namedInputs.map fun input => (input.1, input.2.place))
          first.state.inputs :=
        List.forall₂_map_left_iff.mpr (here.namedInputs.imp fun _ _ h => ⟨h.1, h.2.fits⟩)
      rw [mergedInputs, List.map_cons, Merge.inputs]
      dsimp only
      generalize first.namedInputs.map (fun input => (input.1, input.2.place)) = known at own ⊢
      generalize first.state.inputs = known' at own ⊢
      clear here coherent
      induction others generalizing known known' with
      | nil => exact own
      | cons t rest ih =>
          obtain ⟨here, later⟩ := List.forall_mem_cons.mp later
          exact ih later _ _ (adds here.namedInputs own)

/-- What a merged state holds are the values selected by the guards. -/
theorem selected_of_merge {selector : String} {states : List State} (several : 2 ≤ states.length)
    (wellFormed : ∀ s ∈ states, s.WellFormed) {n n' : Nat} {m : State}
    (merged : (Merge.merge states selector).run n = (.ok m, n')) :
    ∃ gs, Merge.guards selector states.length = .ok gs ∧
      (∀ r, Merge.select (gs.zip (states.map (·.readRegister r))) = .ok (m.readRegister r)) ∧
      (∀ a ∈ Merge.writtenAddresses states,
        Merge.select (gs.zip (states.map (·.memory.byte a))) = .ok (m.memory.byte a)) ∧
      m.inputs = Merge.inputs states := by
  obtain _ | ⟨first, others⟩ := states
  · simp at several
  have several : others ≠ [] := by
    rintro rfl
    simp at several
  obtain ⟨-, room⟩ := Merge.merge_inv several merged
  obtain ⟨gs, cs, rs, mem, guarded, -, chosenRegisters, chosenMemory, rfl⟩ :=
    Merge.merge_parts several merged
  obtain ⟨gs', guarded', hg⟩ := Merge.guards_total selector room
  cases guarded.symm.trans guarded'
  refine ⟨gs, guarded, fun r => ?_, fun a ha => ?_, rfl⟩
  · obtain ⟨rs', built, contents⟩ := Merge.foldlM_set_total
      (P := fun r e => Merge.select (gs.zip ((first :: others).map (·.readRegister r))) = .ok e ∧
        e.width = 64) {} fun r (_ : r ∈ Register.all) => by
      obtain ⟨e, selected, -, width, -⟩ :=
        Merge.select_states hg (by simp) fun s hs => (wellFormed s hs).registers r
      exact ⟨e, selected, selected, width⟩
    cases chosenRegisters.symm.trans built
    obtain ⟨e, ⟨selected, width⟩, holds⟩ := (contents r).1 (by cases r <;> decide)
    rw [selected]
    refine congrArg Except.ok ?_
    change e = rs.get r
    rw [holds, Registers.widen, if_neg (by omega)]
  · obtain ⟨mem', built, contents⟩ := Merge.foldlM_writeByte_total
      (P := fun a e => Merge.select (gs.zip ((first :: others).map (·.memory.byte a))) = .ok e)
      first.memory fun a (_ : a ∈ Merge.writtenAddresses (first :: others)) => by
      obtain ⟨e, selected, -, width, -⟩ := Merge.select_states hg (by simp) fun s hs =>
        ⟨((wellFormed s hs).memory a).wellFormed, ((wellFormed s hs).memory a).width_eq⟩
      exact ⟨e, selected, width, selected⟩
    cases chosenMemory.symm.trans built
    exact (contents a).1 ha

/-- Under every key of a list there is what the list has for it. -/
theorem lookup_fits {α : Type} {P : Register → α → Prop} {ps : List (Register × α)} {rs : List Register}
    (each : List.Forall₂ (fun p r => p.1 = r ∧ P r p.2) ps rs) {r : Register} (hr : r ∈ rs) :
    ∃ a, ps.lookup r = some a ∧ P r a := by
  induction each with
  | nil => cases hr
  | @cons p q ps rs head _ ih =>
      obtain ⟨p, a⟩ := p
      obtain ⟨same, holds⟩ := head
      cases same
      rw [List.lookup_cons]
      by_cases here : r = p
      · subst here
        exact ⟨a, by rw [beq_self_eq_true], holds⟩
      · rw [beq_false_of_ne here]
        exact ih ((List.mem_cons.mp hr).resolve_left here)

variable {ts : List Tracked} {placed : List Placed} {gs : List Expr} {m : State}

theorem registers_agree (coherent : ∀ t ∈ ts, t.Coherent) (shows : List.Forall₂ Placed.Shows placed gs)
    (selected : ∀ r, Merge.select (gs.zip ((ts.map (·.state)).map (·.readRegister r))) =
      .ok (m.readRegister r)) :
    Agrees (fun known _ => ∀ r, ((known.lookup r).getD .held).Fits (m.readRegister r))
      (Register.all.mapM fun r => do
        return (r, (← select (placed.zip (ts.map (·.register r)))).place)) (.ok Register.all) := by
  have each : Agrees (List.Forall₂ fun p r => p.1 = r ∧ p.2.Fits (m.readRegister r))
      (Register.all.mapM fun r => do
        return (r, (← select (placed.zip (ts.map (·.register r)))).place)) (.ok (Register.all.map id)) := by
    refine .mapM_pure fun r _ => ?_
    have values : List.Forall₂ Placed.Shows (ts.map (·.register r))
        ((ts.map (·.state)).map (·.readRegister r)) := by
      rw [List.map_map]
      refine List.forall₂_map_left_iff.mpr (List.forall₂_map_right_iff.mpr ?_)
      exact List.forall₂_same.mpr fun t ht => (coherent t ht).register r
    have agrees := select_agrees (zip_related shows values)
    rw [selected r] at agrees
    exact agrees.andThen fun x found => .pure ⟨rfl, found.fits⟩
  rw [List.map_id] at each
  refine each.mono fun known rs all listed r => ?_
  obtain rfl := Except.ok.inj all
  obtain ⟨place, found, fits⟩ := lookup_fits (P := fun r (p : Place) => p.Fits (m.readRegister r)) listed
    (by cases r <;> decide : r ∈ Register.all)
  rw [found]
  exact fits

theorem bytes_agree (coherent : ∀ t ∈ ts, t.Coherent) (shows : List.Forall₂ Placed.Shows placed gs)
    (selected : ∀ a ∈ Merge.writtenAddresses (ts.map (·.state)),
      Merge.select (gs.zip ((ts.map (·.state)).map (·.memory.byte a))) = .ok (m.memory.byte a)) :
    Agrees (fun (known : Std.TreeMap Word Place) _ => ∀ a, (known.getD a .held).Fits (m.memory.byte a))
      ((Merge.writtenAddresses (ts.map (·.state))).foldlM (fun known a => do
        return known.insert a (← select (placed.zip (← ts.mapM (·.byte a)))).place) ∅) (.ok ()) := by
  refine .foldlM_pure (fun known fits a ha => ?_) fun a => ?_
  · have bytes : Agrees (List.Forall₂ Placed.Shows) (ts.mapM (·.byte a))
        (.ok (ts.map (·.state.memory.byte a))) :=
      .mapM_pure fun t ht => (coherent t ht).byte_agrees a
    refine bytes.andThen fun values each => ?_
    have agrees := select_agrees (zip_related shows each)
    have found := selected a ha
    rw [List.map_map] at found
    rw [show ts.map (·.state.memory.byte a) = ts.map ((·.memory.byte a) ∘ (·.state)) from rfl,
      found] at agrees
    refine agrees.andThen fun x shows => .pure fun b => ?_
    rw [Std.TreeMap.getD_insert]
    split
    · rename_i same
      rw [← Std.compare_eq_iff_eq.mp same]
      exact shows.fits
    · exact fits b
  · rw [Std.TreeMap.getD_emptyc]
    exact .held _

/-- Where states are merged into one, the places of the merged state fit what it holds. -/
theorem placeMerged_agrees (coherent : ∀ t ∈ ts, t.Coherent)
    (wellFormed : ∀ t ∈ ts, t.state.WellFormed) {selector : String} {n n' : Nat}
    (merged : (Merge.merge (ts.map (·.state)) selector).run n = (.ok m, n')) :
    Agrees (fun u s => u.state = s ∧ u.Coherent) (placeMerged ts m selector) (.ok m) := by
  by_cases several : 2 ≤ ts.length
  · have proper : ∀ s ∈ ts.map (·.state), s.WellFormed := List.forall_mem_map.mpr wellFormed
    obtain ⟨gs, guarded, registers, bytes, inputs⟩ :=
      selected_of_merge (by rwa [List.length_map]) proper merged
    have guards := guards_agree selector ts.length
    rw [List.length_map] at guarded
    rw [guarded] at guards
    unfold placeMerged
    split
    · simp at several
    refine guards.andThen fun placed shows => ?_
    refine (registers_agree coherent shows registers).andThen fun known registersFit => ?_
    refine (bytes_agree coherent shows bytes).andThen fun written bytesFit => ?_
    refine .pure ⟨rfl, fun r => ⟨rfl, registersFit r⟩, bytesFit, ?_⟩
    change List.Forall₂ _ ((mergedInputs ts).map (·.2)) m.inputs
    rw [inputs]
    exact List.forall₂_map_left_iff.mpr ((mergedInputs_listed coherent).imp fun _ _ h => h.2)
  · obtain _ | ⟨t, _ | ⟨_, _⟩⟩ := ts
    · cases merged
    · cases merged
      exact .pure ⟨rfl, coherent t (.head _)⟩
    · simp at several

end Merging

end Tracked

end PathSearch
