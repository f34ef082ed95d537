import PathSearch.Proofs.Smt.Lowering

/-! # Exact decision procedures

Every model that an exact procedure gives meets the demands, and it says that there is none only
where there is none. It may give up. A procedure that tries all numbers for the variables of a script
is exact and never gives up.
-/

namespace PathSearch.Smt

namespace Script

theorem value_exclude (s : Script) (line v : Nat) (m : Model) (i : Nat) :
    (s.exclude line v).value m i = s.value m i := rfl

theorem holds_exclude (s : Script) (line v : Nat) (m : Model) :
    (s.exclude line v).holds m = true ↔ s.holds m = true ∧ s.value m line ≠ v := by
  simp only [holds_eq_true_iff, value_exclude]
  simp only [exclude, List.forall_mem_cons]
  tauto

/-- No model meets the demands. -/
def Unsatisfiable (s : Script) : Prop := ∀ m, s.holds m = false

theorem holds_congr {s : Script} {m m' : Model} (same : s.values m = s.values m') :
    s.holds m = s.holds m' := by
  unfold holds
  rw [same]

/-- Different values of a line in models of a script, and all of them if they are fewer than asked for. -/
structure Lists (script : Script) (line n : Nat) (values : List Word) : Prop where
  distinct : values.Nodup
  sound : ∀ v ∈ values, ∃ m, script.holds m = true ∧ script.value m line = v.toNat
  complete : values.length < n → ∀ m, script.holds m = true → ∃ v ∈ values, script.value m line = v.toNat

/-- The value in a model in front of the values that the script has without it. -/
theorem Lists.cons {script : Script} {line n : Nat} {m : Model} {v : Word} {values : List Word}
    (meets : script.holds m = true) (value : script.value m line = v.toNat)
    (later : (script.exclude line v.toNat).Lists line n values) :
    script.Lists line (n + 1) (v :: values) where
  distinct := by
    refine List.nodup_cons.mpr ⟨fun again => ?_, later.distinct⟩
    obtain ⟨m', meets', value'⟩ := later.sound v again
    exact ((script.holds_exclude line _ m').mp meets').2 value'
  sound w hw := by
    rcases List.mem_cons.mp hw with rfl | old
    · exact ⟨m, meets, value⟩
    · obtain ⟨m', meets', value'⟩ := later.sound w old
      exact ⟨m', ((script.holds_exclude line _ m').mp meets').1, value'⟩
  complete few m' meets' := by
    by_cases first : script.value m' line = v.toNat
    · exact ⟨v, .head _, first⟩
    · obtain ⟨w, hw, value'⟩ := later.complete (Nat.lt_of_succ_lt_succ few) m'
        ((script.holds_exclude line _ m').mpr ⟨meets', first⟩)
      exact ⟨w, .tail _ hw, value'⟩

end Script

/-- A model was found, or there is none. -/
def Verdict.Decided (v : Verdict) : Prop := (∃ model, v = .sat model) ∨ v = .unsat

namespace Backend

/-- A decision procedure that is sound and complete, as far as it decides. -/
structure Exact (b : Backend) : Prop where
  sound : ∀ {s : Script} {model : List (String × Nat)}, b.check s = .sat model →
    s.holds (modelOf model) = true
  complete : ∀ {s : Script}, b.check s = .unsat → s.Unsatisfiable

/-- A procedure that gives up on nothing. -/
def Decides (b : Backend) : Prop := ∀ s : Script, (b.check s).Decided

end Backend

namespace Script

/-- The variables of a script, with their widths. -/
def declared (s : Script) : List (String × Nat) :=
  s.lines.toList.filterMap fun
    | .var name width => some (name, width)
    | _ => none

/-- A number of bits that is enough for each variable. -/
def room (s : Script) : Nat := Graph.total (s.declared.map (·.2))

/-- Tries all numbers below a bound for the given variables, beside values of others. -/
def tryAll (s : Script) (bound : Nat) :
    (names : List String) → (values : List (String × Nat)) → Option (List (String × Nat))
  | [], values => if s.holds (modelOf values) then some values else none
  | name :: rest, values =>
      (List.range bound).findSome? fun v => s.tryAll bound rest ((name, v) :: values)

/-- The values of a model for variables, beside values of others. -/
def tabulate (m : Model) : (names : List String) → (values : List (String × Nat)) → List (String × Nat)
  | [], values => values
  | name :: rest, values => tabulate m rest ((name, m name) :: values)

variable {s : Script} {bound : Nat} {names : List String} {values : List (String × Nat)} {m : Model}

theorem lookup_tabulate {name : String} (known : name ∈ names ∨ values.lookup name = some (m name)) :
    (tabulate m names values).lookup name = some (m name) := by
  induction names generalizing values with
  | nil => exact known.resolve_left List.not_mem_nil
  | cons other rest ih =>
      refine ih ?_
      by_cases same : name = other
      · right
        rw [same, List.lookup_cons_self]
      · have differs : (name == other) = false := beq_eq_false_iff_ne.mpr same
        rw [List.lookup_cons, differs]
        exact known.imp_left fun inside => (List.mem_cons.mp inside).resolve_left same

theorem holds_of_tryAll {found : List (String × Nat)} (h : s.tryAll bound names values = some found) :
    s.holds (modelOf found) = true := by
  induction names generalizing values with
  | nil =>
      rw [tryAll] at h
      split at h
      · rename_i meets
        exact Option.some.inj h ▸ meets
      · cases h
  | cons name rest ih =>
      obtain ⟨v, -, found⟩ := List.exists_of_findSome?_eq_some h
      exact ih found

theorem not_holds_of_tryAll (h : s.tryAll bound names values = none) (small : ∀ name, m name < bound) :
    s.holds (modelOf (tabulate m names values)) = false := by
  induction names generalizing values with
  | nil =>
      rw [tryAll] at h
      split at h
      · cases h
      · rename_i fails
        exact eq_false_of_ne_true fails
  | cons name rest ih =>
      exact ih (List.findSome?_eq_none_iff.mp h _ (List.mem_range.mpr (small name)))

theorem mem_declared {name : String} {width : Nat} (inside : Line.var name width ∈ s.lines) :
    (name, width) ∈ s.declared :=
  List.mem_filterMap.mpr ⟨_, Array.mem_toList_iff.mpr inside, rfl⟩

theorem width_le_room {v : String × Nat} (inside : v ∈ s.declared) : v.2 ≤ s.room :=
  Graph.le_total (List.mem_map_of_mem inside)

/-- A model without the bits that no line looks at. -/
theorem values_tabulate (s : Script) (m : Model) :
    s.values (modelOf (tabulate (fun name => m name % 2 ^ s.room) (s.declared.map (·.1)) [])) =
      s.values m := by
  refine s.values_congr fun name width inside => ?_
  have declared := mem_declared inside
  have named : name ∈ s.declared.map (·.1) := List.mem_map_of_mem (f := (·.1)) declared
  rw [modelOf, lookup_tabulate (.inl named), Option.getD_some]
  refine congrArg (Bits.mk width) (BitVec.eq_of_toNat_eq ?_)
  rw [BitVec.toNat_ofNat, BitVec.toNat_ofNat, Nat.mod_mod_of_dvd _ (Nat.pow_dvd_pow 2 (width_le_room declared))]

end Script

namespace Backend

/-- The procedure that tries all numbers for the variables of a script. -/
def perfect : Backend where
  check s := match s.tryAll (2 ^ s.room) (s.declared.map (·.1)) [] with
    | some model => .sat model
    | none => .unsat

theorem perfect_exact : perfect.Exact where
  sound {s model} answer := by
    simp only [perfect] at answer
    split at answer
    · rename_i found
      cases answer
      exact Script.holds_of_tryAll found
    · cases answer
  complete {s} answer m := by
    simp only [perfect] at answer
    split at answer
    · cases answer
    · rename_i none
      rw [← Script.holds_congr (s.values_tabulate m)]
      exact Script.not_holds_of_tryAll none fun name => Nat.mod_lt _ (Nat.two_pow_pos _)

theorem perfect_decides : perfect.Decides := by
  intro s
  simp only [perfect]
  split
  · exact .inl ⟨_, rfl⟩
  · exact .inr rfl

end Backend

end PathSearch.Smt
