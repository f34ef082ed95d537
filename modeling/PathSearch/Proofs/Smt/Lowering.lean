import PathSearch.Proofs.Except
import PathSearch.Proofs.Expr.Value
import PathSearch.Proofs.Graph
import PathSearch.Proofs.Op
import PathSearch.Proofs.Smt.Fits
import PathSearch.Smt.Lowering

/-! # Lowering keeps meaning

Every line of a script that was made from expressions has, in every model, the value of the
expression that it was made for. So the models of the script are the inputs that satisfy the
constraints.
-/

namespace PathSearch.Smt

open PathSearch.Expr Word

/-- The inputs that a model stands for. -/
def Model.assignment (m : Model) : Assignment := fun name => UInt64.ofNat (m name)

/-- The bit-vector of a width that a word holds. -/
def Bits.ofWord (width : Nat) (v : Word) : Bits := ⟨width, bits width v⟩

theorem Bits.ofWord_eq {b : Bits} {width : Nat} {v : Word} (sameWidth : width = b.width)
    (atMost : b.width ≤ 64) (value : v = ofBits b.value) : Bits.ofWord width v = b := by
  subst sameWidth
  rw [Bits.ofWord, value, bits_ofBits atMost]

theorem unaryBits_value {w : Nat} (hw : w ≤ 64) {op : Op} (unary : op.isUnary = true) {v r : Word}
    (fold : op.foldUnary v w = some r) :
    (⟨w, unaryBits op (bits w v)⟩ : Bits) = .ofWord w r := by
  rw [Op.foldUnary_eq hw unary] at fold
  exact (Bits.ofWord_eq rfl hw (Option.some.inj fold).symm).symm

theorem binaryBits_value {w : Nat} (pos : 0 < w) (hw : w ≤ 64) {op : Op} (binary : op.isUnary = false)
    {a b r : Word} (fold : op.foldBinary a b w = some r) :
    binaryBits op (bits w a) (bits w b) = .ofWord (if op.isComparison then 1 else w) r := by
  rw [Op.foldBinary_eq pos hw binary] at fold
  have width := Op.width_binaryBits op (bits w a) (bits w b)
  refine (Bits.ofWord_eq width.symm ?_ (Option.some.inj fold).symm).symm
  rw [width]
  split <;> omega

namespace Line

variable {m : Model} {before : Array Bits} {t : Lowering}

/-- A line computes its expression from the values of the operands. -/
theorem eval_lineOf {node : Expr} (h : node.WellFormed)
    (operands : ∀ x ∈ node.operands,
      before.getD (t.line x) default = .ofWord x.width (x.value m.assignment)) :
    (t.lineOf node).eval m before = .ofWord node.width (node.value m.assignment) := by
  cases node with
  | const v width => rw [value_const]; rfl
  | var name width =>
      have toNat : (bits width (m.assignment name)).toNat = m name % 2 ^ width := by
        rw [toNat_bits, Model.assignment, UInt64.toNat_ofNat', mod_two_pow_mod h.2]
      have same : BitVec.ofNat width (m name) = bits width (m.assignment name) :=
        BitVec.eq_of_toNat_eq (by rw [toNat, BitVec.toNat_ofNat])
      simp only [Lowering.lineOf, Line.eval, Bits.ofNat, Bits.ofWord, value_var, same, Expr.width,
        bits_truncate h.2]
  | unary op x =>
      have operand := operands x (.head _)
      simp only [Lowering.lineOf, Line.eval]
      generalize before.getD (t.line x) default = a at operand ⊢
      subst operand
      exact unaryBits_value h.2.width_le h.1 h.value_unary
  | binary op l r =>
      obtain ⟨binary, same, hl, hr⟩ := id h
      have left := operands l (.head _)
      have right := operands r (.tail _ (.head _))
      simp only [Lowering.lineOf, Line.eval]
      generalize before.getD (t.line l) default = a at left ⊢
      generalize before.getD (t.line r) default = b at right ⊢
      subst left right
      have cut : (bits r.width (r.value m.assignment)).setWidth l.width =
          bits l.width (r.value m.assignment) := by
        rw [← same, BitVec.setWidth_eq]
      simp only [Bits.ofWord, cut]
      exact binaryBits_value hl.width_pos hl.width_le binary h.value_binary
  | ite c y n =>
      obtain ⟨oneBit, same, hc, hy, hn⟩ := id h
      have test := operands c (.head _)
      have yes := operands y (.tail _ (.head _))
      have no := operands n (.tail _ (.tail _ (.head _)))
      have small := hc.value_lt m.assignment
      have one : (bits c.width (c.value m.assignment)).toNat = 1 ↔ c.value m.assignment = 1 := by
        rw [toNat_bits, Nat.mod_eq_of_lt small]
        exact UInt64.toNat_inj (b := 1)
      simp only [Lowering.lineOf, Line.eval, yes, no]
      generalize before.getD (t.line c) default = a at test ⊢
      subst test
      rw [h.value_ite]
      simp only [Bits.ofWord, one, Expr.width]
      split
      · rfl
      · rw [same]
  | extract high low x =>
      obtain ⟨ordered, inside, hx⟩ := id h
      have operand := operands x (.head _)
      have atMost := hx.width_le
      simp only [Lowering.lineOf, Line.eval]
      generalize before.getD (t.line x) default = a at operand ⊢
      subst operand
      refine (Bits.ofWord_eq rfl (by simp only; omega) ?_).symm
      rw [h.value_extract]
      exact slice_eq_extractLsb atMost ordered inside (hx.value_lt _)
  | zext x width =>
      obtain ⟨wider, atMost, hx⟩ := id h
      have operand := operands x (.head _)
      simp only [Lowering.lineOf, Line.eval]
      generalize before.getD (t.line x) default = a at operand ⊢
      subst operand
      refine (Bits.ofWord_eq rfl atMost ?_).symm
      rw [value_zext]
      exact eq_setWidth wider atMost (hx.value_lt _)
  | sext x width =>
      obtain ⟨wider, atMost, hx⟩ := id h
      have operand := operands x (.head _)
      simp only [Lowering.lineOf, Line.eval]
      generalize before.getD (t.line x) default = a at operand ⊢
      subst operand
      refine (Bits.ofWord_eq rfl atMost ?_).symm
      rw [h.value_sext]
      exact truncate_ofSigned_eq_signExtend hx.width_le atMost _
  | concat hi lo =>
      obtain ⟨room, hh, hl⟩ := id h
      have upper := operands hi (.head _)
      have lower := operands lo (.tail _ (.head _))
      simp only [Lowering.lineOf, Line.eval]
      generalize before.getD (t.line hi) default = a at upper ⊢
      generalize before.getD (t.line lo) default = b at lower ⊢
      subst upper lower
      refine (Bits.ofWord_eq rfl room ?_).symm
      rw [h.value_concat]
      exact shiftLeft_or_eq_append hh.width_pos room (hh.value_lt _) (hl.value_lt _)

end Line

namespace Lowering

/-- In every model the line has the value of the expression, if the expression is well-formed. -/
def Means (lines : Array Line) (e : Expr) (i : Nat) : Prop :=
  e.WellFormed → ∀ m : Model,
    (Script.values { lines } m)[i]? = some (.ofWord e.width (e.value m.assignment))

theorem values_push (lines : Array Line) (line : Line) (m : Model) :
    Script.values { lines := lines.push line } m =
      (Script.values { lines } m).push (line.eval m (Script.values { lines } m)) := by
  simp [Script.values]

theorem size_values (lines : Array Line) (m : Model) :
    (Script.values { lines } m).size = lines.size := by
  have grows : ∀ (list : List Line) (vs : Array Bits),
      (list.foldl (fun vs line => vs.push (line.eval m vs)) vs).size = vs.size + list.length := by
    intro list
    induction list with
    | nil => intro vs; rfl
    | cons line rest ih =>
        intro vs
        rw [List.foldl_cons, ih, Array.size_push, List.length_cons]
        omega
  rw [Script.values, ← Array.foldl_toList, grows]
  simp

theorem Means.push {lines : Array Line} {e : Expr} {i : Nat} (h : Means lines e i) (line : Line) :
    Means (lines.push line) e i := by
  intro he m
  have here := h he m
  obtain ⟨inside, -⟩ := Array.getElem?_eq_some_iff.mp here
  rw [values_push, Array.getElem?_push, if_neg (by omega)]
  exact here

/-- What comes behind the lines does not change what they mean. -/
theorem Means.append {lines : Array Line} {e : Expr} {i : Nat} (h : Means lines e i)
    (more : List Line) : Means (lines ++ more) e i := by
  induction more generalizing lines with
  | nil => simpa using h
  | cons line rest ih => simpa using ih (h.push line)

/-- What has been lowered so far: every indexed expression has a line with its meaning. -/
def Sound (t : Lowering) : Prop := ∀ (e : Expr) (i : Nat), t.index[e]? = some i → Means t.lines e i

/-- Later in the same lowering: lines and indexed expressions are kept. -/
structure Extends (t u : Lowering) : Prop where
  lines : ∃ more : List Line, u.lines = t.lines ++ more
  indexed : ∀ e : Expr, e ∈ t.index → e ∈ u.index

theorem Extends.refl (t : Lowering) : t.Extends t := ⟨⟨[], by simp⟩, fun _ => id⟩

theorem Extends.trans {t u v : Lowering} (first : t.Extends u) (second : u.Extends v) :
    t.Extends v := by
  obtain ⟨more, grown⟩ := first.lines
  obtain ⟨rest, grown'⟩ := second.lines
  refine ⟨⟨more ++ rest, ?_⟩, fun e he => second.indexed e (first.indexed e he)⟩
  rw [grown', grown]
  exact Array.ext' (by simp)

theorem Means.mono {t u : Lowering} (later : t.Extends u) {e : Expr} {i : Nat}
    (h : Means t.lines e i) : Means u.lines e i := by
  obtain ⟨more, grown⟩ := later.lines
  rw [grown]
  exact h.append more

theorem addNode_inv {t u : Lowering} {node : Expr} (h : t.addNode node = .ok u) :
    ∃ s : Lowering, s.lines = t.lines ∧ s.index = t.index ∧
      u = { s with
        lines := s.lines.push (s.lineOf node)
        index := s.index.insert node s.lines.size } := by
  unfold addNode at h
  split at h
  · rename_i name width
    unfold declare at h
    split at h
    · cases h
      exact ⟨{ t with widths := t.widths.insert name width }, rfl, rfl, rfl⟩
    · split at h
      · cases h
        exact ⟨t, rfl, rfl, rfl⟩
      · cases h
  · cases h
    exact ⟨t, rfl, rfl, rfl⟩

/-- A node whose operands were lowered gets a line with its meaning. -/
theorem addNode_ok {t u : Lowering} {node : Expr} (h : t.addNode node = .ok u) (sound : t.Sound)
    (operands : ∀ x ∈ node.operands, x ∈ t.index) : u.Sound ∧ t.Extends u ∧ node ∈ u.index := by
  obtain ⟨s, lines, index, rfl⟩ := addNode_inv h
  have meaning : Means (s.lines.push (s.lineOf node)) node s.lines.size := by
    intro wellFormed m
    rw [values_push, ← size_values s.lines m, Array.getElem?_push_size]
    refine congrArg some (Line.eval_lineOf wellFormed fun x hx => ?_)
    obtain ⟨i, known⟩ : ∃ i, t.index[x]? = some i :=
      ⟨_, Std.HashMap.getElem?_eq_some_getElem (operands x hx)⟩
    have line : s.line x = i := by
      rw [Lowering.line, index, Std.HashMap.getD_eq_getD_getElem?, known]
      rfl
    have value := sound x i known (wellFormed.of_mem_operands hx) m
    rw [lines, line, getD_of_some value]
  refine ⟨fun e i found => ?_, ⟨⟨[s.lineOf node], by simp [lines]⟩, fun e he => ?_⟩, by simp⟩
  · simp only [Std.HashMap.getElem?_insert] at found
    split at found
    · rename_i same
      cases beq_iff_eq.mp same
      cases found
      exact meaning
    · rw [index] at found
      rw [lines]
      exact (sound e i found).push _
  · simp only [Std.HashMap.mem_insert, index]
    exact .inr he

theorem foldlM_addNode_ok {t u : Lowering} (sound : t.Sound) {order : List Expr}
    (ordered : graph.OperandsFirst (t.index.contains ·) order)
    (h : order.foldlM addNode t = .ok u) :
    u.Sound ∧ t.Extends u ∧ ∀ e ∈ order, e ∈ u.index := by
  induction ordered generalizing u with
  | nil =>
      cases h
      exact ⟨sound, .refl t, fun e he => by cases he⟩
  | @snoc order v before operands ih =>
      rw [List.foldlM_append] at h
      cases front : order.foldlM addNode t with
      | error e =>
          rw [front] at h
          cases h
      | ok s =>
          rw [front] at h
          obtain ⟨soundFront, grown, listed⟩ := ih front
          have last : s.addNode v = .ok u := (bind_pure (s.addNode v)).symm.trans h
          have known : ∀ x ∈ v.operands, x ∈ s.index := by
            intro x hx
            rcases operands x hx with skipped | earlier
            · exact grown.indexed x (Std.HashMap.contains_iff_mem.mp skipped)
            · exact listed x earlier
          obtain ⟨soundLast, grown', here⟩ := addNode_ok last soundFront known
          refine ⟨soundLast, grown.trans grown', fun e he => ?_⟩
          rcases List.mem_append.mp he with earlier | now
          · exact grown'.indexed e (listed e earlier)
          · exact List.mem_singleton.mp now ▸ here

/-- What is lowered is indexed, with the line that it got. -/
theorem add_index {t u : Lowering} {e : Expr} {i : Nat} (h : t.add e = .ok (i, u)) (sound : t.Sound) :
    u.Sound ∧ t.Extends u ∧ u.index[e]? = some i := by
  obtain ⟨s, folded, result⟩ := bind_ok h
  cases result
  rw [← Array.foldlM_toList] at folded
  obtain ⟨soundAfter, grown, listed⟩ :=
    foldlM_addNode_ok sound (graph.operandsFirst_postOrderWhere _ e) folded
  refine ⟨soundAfter, grown, ?_⟩
  have known : e ∈ u.index := by
    by_cases before : t.index.contains e = true
    · exact grown.indexed e (Std.HashMap.contains_iff_mem.mp before)
    · exact listed e (graph.mem_postOrderWhere (eq_false_of_ne_true before))
  rw [Lowering.line, Std.HashMap.getD_eq_getD_getElem?, Std.HashMap.getElem?_eq_some_getElem known]
  rfl

/-- The line that lowering an expression gives has its meaning. -/
theorem add_ok {t u : Lowering} {e : Expr} {i : Nat} (h : t.add e = .ok (i, u)) (sound : t.Sound) :
    u.Sound ∧ t.Extends u ∧ Means u.lines e i := by
  obtain ⟨soundAfter, grown, found⟩ := add_index h sound
  exact ⟨soundAfter, grown, soundAfter e i found⟩

theorem addAll_ok {t u : Lowering} {es : List Expr} {lines : List Nat}
    (h : t.addAll es = .ok (lines, u)) (sound : t.Sound) :
    u.Sound ∧ t.Extends u ∧ List.Forall₂ (Means u.lines) es lines := by
  induction es generalizing t lines with
  | nil =>
      cases h
      exact ⟨sound, .refl _, .nil⟩
  | cons e rest ih =>
      obtain ⟨⟨i, s⟩, first, h⟩ := bind_ok h
      obtain ⟨⟨is, v⟩, others, result⟩ := bind_ok h
      cases result
      obtain ⟨soundFirst, grown, means⟩ := add_ok first sound
      obtain ⟨soundRest, grown', meansRest⟩ := ih others soundFirst
      exact ⟨soundRest, grown.trans grown', .cons (means.mono grown') meansRest⟩

/-- Asserting only checks widths beside lowering. -/
theorem addAll_of_assertAll {t u : Lowering} {es : List Expr} {lines : List Nat}
    (h : t.assertAll es = .ok (lines, u)) : t.addAll es = .ok (lines, u) := by
  induction es generalizing t lines with
  | nil => exact h
  | cons e rest ih =>
      unfold assertAll at h
      split at h
      · cases h
      · obtain ⟨⟨i, s⟩, first, h⟩ := bind_ok h
        obtain ⟨⟨is, v⟩, others, result⟩ := bind_ok h
        cases result
        simp only [addAll, first, ih others, bind, Except.bind, pure, Except.pure]

/-- The lines of a script stand for the expressions that were asserted and those that were asked. -/
theorem scriptOf_ok {asserted asked : List Expr} {script : Script} {lines : List Nat}
    (h : scriptOf asserted asked = .ok (script, lines)) :
    script.excluded = [] ∧ List.Forall₂ (Means script.lines) asserted script.asserted ∧
      List.Forall₂ (Means script.lines) asked lines := by
  unfold scriptOf at h
  rw [shareParts_eq] at h
  obtain ⟨⟨demands, s⟩, first, h⟩ := bind_ok h
  obtain ⟨⟨is, u⟩, second, result⟩ := bind_ok h
  cases result
  have empty : Sound {} := fun e i found => by simp at found
  obtain ⟨sound, -, means⟩ := addAll_ok (addAll_of_assertAll first) empty
  obtain ⟨-, grown, meansAsked⟩ := addAll_ok second sound
  exact ⟨rfl, means.imp fun e i given => given.mono grown, meansAsked⟩

/-- Lowering fails in one way only. -/
def IsUnknown (e : SolverError) : Prop := ∃ reason, e = .unknown reason

theorem addNode_error {t : Lowering} {node : Expr} {e : SolverError}
    (h : t.addNode node = .error e) : IsUnknown e := by
  unfold addNode at h
  split at h
  · rcases bind_error h with failed | ⟨s, -, result⟩
    · unfold declare at failed
      split at failed
      · cases failed
      · split at failed
        · cases failed
        · cases failed
          exact ⟨_, rfl⟩
    · cases result
  · cases h

theorem add_error {t : Lowering} {x : Expr} {e : SolverError} (h : t.add x = .error e) :
    IsUnknown e := by
  rcases bind_error h with failed | ⟨s, -, result⟩
  · rw [← Array.foldlM_toList] at failed
    exact foldlM_error (fun _ _ _ => addNode_error) failed
  · cases result

theorem addAll_error {t : Lowering} {es : List Expr} {e : SolverError}
    (h : t.addAll es = .error e) : IsUnknown e := by
  induction es generalizing t with
  | nil => cases h
  | cons x rest ih =>
      rcases bind_error h with failed | ⟨⟨i, s⟩, -, h⟩
      · exact add_error failed
      · rcases bind_error h with failed | ⟨⟨is, v⟩, -, result⟩
        · exact ih failed
        · cases result

theorem assertAll_error {t : Lowering} {es : List Expr} {e : SolverError}
    (h : t.assertAll es = .error e) : IsUnknown e := by
  induction es generalizing t with
  | nil => cases h
  | cons x rest ih =>
      unfold assertAll at h
      split at h
      · cases h
        exact ⟨_, rfl⟩
      · rcases bind_error h with failed | ⟨⟨i, s⟩, -, h⟩
        · exact add_error failed
        · rcases bind_error h with failed | ⟨⟨is, v⟩, -, result⟩
          · exact ih failed
          · cases result

theorem scriptOf_error {asserted asked : List Expr} {e : SolverError}
    (h : scriptOf asserted asked = .error e) : IsUnknown e := by
  unfold scriptOf at h
  rw [shareParts_eq] at h
  rcases bind_error h with failed | ⟨⟨demands, s⟩, -, h⟩
  · exact assertAll_error failed
  · rcases bind_error h with failed | ⟨⟨is, u⟩, -, result⟩
    · exact addAll_error failed
    · cases result

end Lowering

namespace Model

/-- The model that has the inputs as values. -/
def ofAssignment (σ : Assignment) : Model := fun name => (σ name).toNat

@[simp] theorem assignment_ofAssignment (σ : Assignment) : (ofAssignment σ).assignment = σ := by
  funext name
  exact UInt64.ofNat_toNat

end Model

namespace Script

open Lowering

/-- The value of a line as a number is that of the expression. -/
theorem value_of_means {s : Script} {e : Expr} {i : Nat} (means : Means s.lines e i)
    (he : e.WellFormed) (m : Model) : s.value m i = (e.value m.assignment).toNat := by
  have listed : (s.values m)[i]? = some (.ofWord e.width (e.value m.assignment)) := means he m
  rw [Script.value, getD_of_some listed]
  change (bits e.width (e.value m.assignment)).toNat = _
  rw [toNat_bits, Nat.mod_eq_of_lt (he.value_lt _)]

/-- A model meets the demands of a script if the asserted expressions are 1 under its inputs. -/
theorem holds_iff {s : Script} {asserted : List Expr} (nothing : s.excluded = [])
    (means : List.Forall₂ (Means s.lines) asserted s.asserted)
    (wellFormed : ∀ e ∈ asserted, e.WellFormed) (m : Model) :
    s.holds m = true ↔ ∀ e ∈ asserted, e.value m.assignment = 1 := by
  have one (e : Expr) (i : Nat) (he : e.WellFormed) (here : Means s.lines e i) :
      s.value m i = 1 ↔ e.value m.assignment = 1 := by
    rw [value_of_means here he]
    exact UInt64.toNat_inj (b := 1)
  have demands : s.holds m = true ↔ ∀ i ∈ s.asserted, s.value m i = 1 := by
    simp [holds_eq_true_iff, nothing]
  rw [demands]
  constructor
  · intro all e he
    obtain ⟨i, hi, here⟩ := exists_right means he
    exact (one e i (wellFormed e he) here).mp (all i hi)
  · intro all i hi
    obtain ⟨e, he, here⟩ := exists_left means hi
    exact (one e i (wellFormed e he) here).mpr (all e he)

/-- A script looks at the variables in its lines only, and at each modulo `2 ^ width`. -/
theorem values_congr (s : Script) {m m' : Model}
    (agree : ∀ (name : String) (width : Nat), Line.var name width ∈ s.lines →
      Bits.ofNat width (m name) = Bits.ofNat width (m' name)) :
    s.values m = s.values m' := by
  have fold : ∀ (list : List Line) (vs : Array Bits),
      (∀ (name : String) (width : Nat), Line.var name width ∈ list →
        Bits.ofNat width (m name) = Bits.ofNat width (m' name)) →
      list.foldl (fun vs line => vs.push (line.eval m vs)) vs =
        list.foldl (fun vs line => vs.push (line.eval m' vs)) vs := by
    intro list
    induction list with
    | nil => intro vs _; rfl
    | cons line rest ih =>
        intro vs agree
        have same : line.eval m vs = line.eval m' vs := by
          cases line with
          | var name width => exact agree name width (.head _)
          | _ => rfl
        rw [List.foldl_cons, List.foldl_cons, same]
        exact ih _ fun name width inside => agree name width (.tail _ inside)
  simp only [values, ← Array.foldl_toList]
  exact fold _ _ fun name width inside => agree name width (Array.mem_toList_iff.mp inside)

end Script

end PathSearch.Smt
