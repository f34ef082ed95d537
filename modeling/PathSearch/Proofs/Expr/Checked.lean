import PathSearch.Proofs.Checked
import PathSearch.Proofs.Expr.Accepted

/-! # Expressions without overflow

The constructors, the evaluation and the accesses to memory, with every step of their arithmetic
checked. On well-formed expressions no step is refused but one: the refusal of a slice tells how many
bits were asked for, and the slice of all bits that can be counted has one more than can be told.
-/

namespace PathSearch.Checked

open PathSearch.Expr (boundLimit)

section Definitions

/-- A constant of the given width, cut to it. -/
def mkConst (value : Word) (width : Nat) : Except Error Expr := do
  Expr.checkWidth width
  pure (.const (value &&& (← mask width)) width)

/-- A unary operation. -/
def mkUnary (op : Op) (x : Expr) : Except Error Expr :=
  if op.isUnary then do
    let folded ← match x.const? with
      | some v => foldUnary op v x.width
      | none => pure none
    pure <| match folded with
      | some v => .const v x.width
      | none => match x with
        | .unary inner y => if inner = op then y else .unary op x
        | _ => .unary op x
  else .error (.widthMismatch op.name 2 1)

/-- A binary operation. -/
def mkBinary (op : Op) (lhs rhs : Expr) : Except Error Expr :=
  if op.isUnary then .error (.widthMismatch op.name 1 2)
  else do
    Expr.expectWidth op.name lhs.width rhs.width
    match lhs.const?, rhs.const? with
    | some a, some b =>
        pure <| match ← foldBinary op a b lhs.width with
          | some v => .const v (if op.isComparison then 1 else lhs.width)
          | none => .binary op lhs rhs
    | _, _ => do
        -- The rules of simplification compare constants with the mask.
        let _ ← mask lhs.width
        pure ((Expr.simplify? op lhs rhs).getD (.binary op lhs rhs))

/-- The refusal of a slice, which names the width that was asked for. -/
def refuseSlice (high low : Nat) : Except Error Expr := do
  .error (.invalidWidth (← add (high - low) 1))

/-- The bits from `high` down to `low`. -/
def mkExtract (high low : Nat) (x : Expr) : Except Error Expr :=
  if high < low ∨ x.width ≤ high then refuseSlice high low
  else do
    let width ← add (← sub high low) 1
    if low = 0 ∧ width = x.width then pure x
    else match x with
      | .const v _ => pure (.const ((← shr v low) &&& (← mask width)) width)
      | .extract _ innerLow inner => do
          mkExtract (← add high innerLow) (← add low innerLow) inner
      | .concat hi lo =>
          if high < lo.width then mkExtract high low lo
          else if lo.width ≤ low then do
            mkExtract (← sub high lo.width) (← sub low lo.width) hi
          else pure (.extract high low x)
      | .zext inner _ =>
          if high < inner.width then mkExtract high low inner
          else if inner.width ≤ low then pure (.const 0 width)
          else pure (.extract high low x)
      | _ => pure (.extract high low x)

/-- An expression with copies of its top bit put in front. -/
def mkSext (x : Expr) (width : Nat) : Except Error Expr := do
  Expr.checkExtension x width
  if width = x.width then pure x
  else match x with
    | .const v bits => pure (.const (Word.ofSigned (← toSigned bits v) &&& (← mask width)) width)
    | _ => pure (.sext x width)

/-- One expression in front of another. -/
def mkConcat (high low : Expr) : Except Error Expr := do
  let width ← add high.width low.width
  Expr.checkWidth width
  match high, low with
  | .const h _, .const l _ => pure (.const ((← shl h low.width) ||| l) width)
  | .const h _, _ => if h = 0 then Expr.mkZext low width else pure (.concat high low)
  | .extract h₁ l₁ x₁, .extract h₂ l₂ x₂ => do
      let next ← add h₂ 1
      if x₁ = x₂ ∧ l₁ = next then mkExtract h₁ l₂ x₁ else pure (.concat high low)
  | _, _ => pure (.concat high low)

/-- The negation of a one-bit expression. -/
def lnot (x : Expr) : Except Error Expr := do
  Expr.expectWidth "not" 1 x.width
  match x with
  | .binary op l r => match op.negated? with
    | some opposite => mkBinary opposite l r
    | none => mkUnary .not x
  | _ => mkUnary .not x

/-- A junction of one-bit expressions. -/
def junction (op : Op) (l r : Expr) : Except Error Expr := do
  Expr.expectWidth op.name 1 l.width
  mkBinary op l r

/-- What a constructor gives. -/
def build : Construction → Except Error Expr
  | .const v width => mkConst v width
  | .var name width => Expr.mkVar name width
  | .unary op x => mkUnary op x
  | .binary op l r => mkBinary op l r
  | .ite c y n => Expr.mkIte c y n
  | .extract high low x => mkExtract high low x
  | .zext x width => Expr.mkZext x width
  | .sext x width => mkSext x width
  | .concat hi lo => mkConcat hi lo
  | .equals l r => mkBinary .eq l r
  | .not x => lnot x
  | .and l r => junction .and l r
  | .or l r => junction .or l r

/-- The value of a node, given the values of its operands. -/
def nodeValue (b : Expr.Bindings) (value : Expr → Option Word) : Expr → Except Error (Option Word)
  | .const v _ => pure (some v)
  | .var n bits => match b n with
    | some v => do pure (some (v &&& (← mask bits)))
    | none => pure none
  | .unary op x => match value x with
    | some v => foldUnary op v x.width
    | none => pure none
  | .binary op l r => match value l, value r with
    | some lv, some rv => foldBinary op lv rv l.width
    | _, _ => pure none
  | .ite c y n => pure <| match value c with
    | some v => if v = 1 then value y else value n
    | none => none
  | .extract high low x => match value x with
    | some v => do pure (some ((← shr v low) &&& (← mask (← add (← sub high low) 1))))
    | none => pure none
  | .zext x _ => pure (value x)
  | .sext x bits => match value x with
    | some v => do pure (some (Word.ofSigned (← toSigned x.width v) &&& (← mask bits)))
    | none => pure none
  | .concat h l => match value h, value l with
    | some hv, some lv => do pure (some ((← shl hv l.width) ||| lv))
    | _, _ => pure none

def recordValue (b : Expr.Bindings) (values : Std.HashMap Expr Word) (node : Expr) :
    Except Error (Std.HashMap Expr Word) := do
  match ← nodeValue b (values[·]?) node with
  | some v => pure (values.insert node v)
  | none => pure values

/-- The value under bindings, each distinct part being looked at once. -/
def evaluate (b : Expr.Bindings) (e : Expr) : Except Error (Option Word) := do
  let root := shareParts e
  let values ← (Expr.graph.postOrder root).toList.foldlM (recordValue b) ∅
  pure values[root]?

/-- The number that bytes form, the least significant first. -/
def join : List Expr → Except Error Expr
  | [] => .error (.invalidWidth 0)
  | [b] => pure b
  | b :: rest => do mkConcat (← join rest) b

/-- The number of `size` bytes at an address. -/
def read (m : Memory) (address : Word) (size : Nat) : Except Error Expr :=
  if size = 0 ∨ 8 < size then do .error (.invalidWidth (← mul size 8))
  else do
    let last ← sub size 1
    join (m.bytes address (last + 1))

/-- The bytes of a number, the least significant first. -/
def split (value : Expr) : Except Error (List Expr) :=
  if value.width % 8 ≠ 0 then .error (.invalidWidth value.width)
  else (List.range (value.width / 8)).mapM fun i => do
    let low ← mul 8 i
    mkExtract (← add low 7) low value

/-- Writes a number of whole bytes. -/
def write (m : Memory) (address : Word) (value : Expr) : Except Error Memory := do
  pure (m.putAll address (← split value))

end Definitions

section Constructors

variable {op : Op} {x l r hi lo : Expr} {high low width : Nat}

theorem mkConst_eq (v : Word) (width : Nat) : mkConst v width = Expr.mkConst v width := by
  rw [mkConst, mask_eq]
  rfl

theorem mkUnary_eq (op : Op) (x : Expr) : mkUnary op x = Expr.mkUnary op x := by
  unfold mkUnary Expr.mkUnary Expr.applyUnary
  split
  · cases x.const? with
    | none => rfl
    | some v => exact ok_bind (foldUnary_eq op v x.width) _
  · rfl

theorem mkBinary_eq (op : Op) (hl : l.WellFormed) (r : Expr) : mkBinary op l r = Expr.mkBinary op l r := by
  unfold mkBinary Expr.mkBinary Expr.applyBinary
  split
  · rfl
  · congr 1
    funext
    rcases l.const? with _ | a <;> rcases r.const? with _ | b
    case some.some => exact ok_bind (foldBinary_eq hl.width_pos hl.width_le op a b) _
    all_goals exact ok_bind (mask_eq l.width) _

theorem refuseSlice_eq : refuseSlice high low = .error (Expr.sliceError high low) := by
  rw [refuseSlice, add, Expr.sliceError]
  split <;> rfl

theorem add_small {a b : Nat} (ha : a ≤ 64) (hb : b ≤ 64) : add a b = .ok (a + b) := by
  apply add_eq
  simp only [boundLimit]
  omega

/-- One step of taking a slice adds and takes away bounds of parts that there are. -/
theorem mkExtract_step (hx : x.WellFormed)
    (parts : ∀ y ∈ x.operands, ∀ high low, mkExtract high low y = Expr.mkExtract high low y) :
    mkExtract high low x = Expr.mkExtract high low x := by
  have atMost := hx.width_le
  unfold mkExtract Expr.mkExtract
  by_cases outside : high < low ∨ x.width ≤ high
  · rw [if_pos outside, if_pos outside, refuseSlice_eq]
  have ordered : low ≤ high := by omega
  have inside : high < x.width := by omega
  rw [if_neg outside, if_neg outside, ok_bind (sub_eq ordered), ok_bind (add_small (by omega) (by omega))]
  by_cases whole : low = 0 ∧ high - low + 1 = x.width
  · rw [if_pos whole]
    exact (if_pos whole).symm
  rw [if_neg whole]
  refine Eq.trans ?_ (if_neg whole).symm
  cases x with
  | const v bits => exact (ok_bind (shr_eq v (by omega)) _).trans (ok_bind (mask_eq _) _)
  | var | unary | binary | ite | sext => rfl
  | extract innerHigh innerLow inner =>
      have below := hx.2.1
      have := hx.2.2.width_le
      have := hx.1
      have shifted := parts inner (.head _) (high + innerLow) (low + innerLow)
      refine (ok_bind (add_small ?_ ?_) _).trans ((ok_bind (add_small ?_ ?_) _).trans shifted) <;> omega
  | concat hi lo =>
      simp only
      split
      · exact parts lo (.tail _ (.head _)) high low
      · split
        · have shifted := parts hi (.head _) (high - lo.width) (low - lo.width)
          exact (ok_bind (sub_eq (by omega)) _).trans ((ok_bind (sub_eq (by omega)) _).trans shifted)
        · rfl
  | zext inner bits =>
      simp only
      split
      · exact parts inner (.head _) high low
      · split <;> rfl

theorem mkExtract_eq {x : Expr} (hx : x.WellFormed) (high low : Nat) :
    mkExtract high low x = Expr.mkExtract high low x :=
  mkExtract_step hx fun _ hy => mkExtract_eq (hx.of_mem_operands hy)
termination_by sizeOf x
decreasing_by exact Expr.sizeOf_lt_of_mem_operands hy

theorem mkSext_eq (hx : x.WellFormed) (width : Nat) : mkSext x width = Expr.mkSext x width := by
  unfold mkSext Expr.mkSext
  congr 1
  funext
  split
  · rfl
  · cases x with
    | const v bits => exact (ok_bind (toSigned_eq hx.1 hx.2.1 v) _).trans (ok_bind (mask_eq width) _)
    | _ => rfl

theorem mkConcat_eq (hh : hi.WellFormed) (hl : lo.WellFormed) :
    mkConcat hi lo = Expr.mkConcat hi lo := by
  have pos := hh.width_pos
  unfold mkConcat Expr.mkConcat
  simp only [ok_bind (add_small hh.width_le hl.width_le)]
  cases possible : Expr.checkWidth (hi.width + lo.width) with
  | error failure => rfl
  | ok _ =>
      have room := (Expr.checkWidth_ok possible).2
      refine (ok_bind rfl _).trans (Eq.trans ?_ (ok_bind rfl _).symm)
      cases hi with
      | const h bits =>
          cases lo with
          | const l bits =>
              have small : (Expr.const l bits).width < 64 := by omega
              exact ok_bind (shl_eq h small) _
          | _ => rfl
      | extract h₁ l₁ x₁ =>
          cases lo with
          | extract h₂ l₂ x₂ =>
              have := hl.2.1
              have := hl.2.2.width_le
              refine (ok_bind (add_small (by omega) (by omega)) _).trans ?_
              rw [mkExtract_eq hh.2.2]
          | _ => rfl
      | _ => rfl

theorem lnot_eq (hx : x.WellFormed) : lnot x = Expr.lnot x := by
  unfold lnot Expr.lnot
  congr 1
  funext
  cases x with
  | binary op l r =>
      simp only
      cases op.negated? with
      | none => exact mkUnary_eq .not _
      | some opposite => exact mkBinary_eq opposite hx.2.2.1 r
  | _ => exact mkUnary_eq .not _

theorem junction_eq (op : Op) (hl : l.WellFormed) (r : Expr) :
    junction op l r = (do Expr.expectWidth op.name 1 l.width; Expr.mkBinary op l r) := by
  rw [junction, mkBinary_eq op hl]

/-- On well-formed operands the constructors with checked arithmetic are the constructors. -/
theorem build_eq {c : Construction} (operands : ∀ x ∈ c.operands, x.WellFormed) : build c = c.build := by
  cases c with
  | const v width => exact mkConst_eq v width
  | var | ite | zext => rfl
  | unary op x => exact mkUnary_eq op x
  | binary op l r => exact mkBinary_eq op (operands l (.head _)) r
  | extract high low x => exact mkExtract_eq (operands x (.head _)) high low
  | sext x width => exact mkSext_eq (operands x (.head _)) width
  | concat hi lo => exact mkConcat_eq (operands hi (.head _)) (operands lo (.tail _ (.head _)))
  | equals l r => exact mkBinary_eq .eq (operands l (.head _)) r
  | not x => exact lnot_eq (operands x (.head _))
  | and l r => exact junction_eq .and (operands l (.head _)) r
  | or l r => exact junction_eq .or (operands l (.head _)) r

end Constructors

section Evaluation

variable {e : Expr}

theorem nodeValue_eq (h : e.WellFormed) (b : Expr.Bindings) (value : Expr → Option Word) :
    nodeValue b value e = .ok (Expr.nodeValue b value e) := by
  cases e with
  | const | zext => rfl
  | var n bits =>
      simp only [nodeValue, Expr.nodeValue]
      cases b n with
      | none => rfl
      | some v => exact ok_bind (mask_eq bits) _
  | unary op x =>
      simp only [nodeValue, Expr.nodeValue]
      cases value x with
      | none => rfl
      | some v => exact foldUnary_eq op v x.width
  | binary op l r =>
      simp only [nodeValue, Expr.nodeValue]
      rcases value l with _ | lv <;> rcases value r with _ | rv
      case some.some => exact foldBinary_eq h.2.2.1.width_pos h.2.2.1.width_le op lv rv
      all_goals rfl
  | ite c y n =>
      simp only [nodeValue, Expr.nodeValue]
      cases value c <;> rfl
  | extract high low x =>
      obtain ⟨ordered, inside, hx⟩ := h
      have atMost := hx.width_le
      simp only [nodeValue, Expr.nodeValue]
      cases value x with
      | none => rfl
      | some v =>
          refine (ok_bind (shr_eq v (by omega)) _).trans ((ok_bind (sub_eq ordered) _).trans ?_)
          exact (ok_bind (add_small (by omega) (by omega)) _).trans (ok_bind (mask_eq _) _)
  | sext x bits =>
      have hx := h.2.2
      simp only [nodeValue, Expr.nodeValue]
      cases value x with
      | none => rfl
      | some v =>
          exact (ok_bind (toSigned_eq hx.width_pos hx.width_le v) _).trans (ok_bind (mask_eq bits) _)
  | concat hi lo =>
      obtain ⟨room, hh, -⟩ := h
      have pos := hh.width_pos
      simp only [nodeValue, Expr.nodeValue]
      rcases value hi with _ | hv <;> rcases value lo with _ | lv
      case some.some => exact ok_bind (shl_eq hv (by omega)) _
      all_goals rfl

theorem recordValue_eq (h : e.WellFormed) (b : Expr.Bindings) (values : Std.HashMap Expr Word) :
    recordValue b values e = .ok (Expr.recordValue b values e) := by
  rw [recordValue, ok_bind (nodeValue_eq h b _), Expr.recordValue]
  cases Expr.nodeValue b (values[·]?) e <;> rfl

theorem foldlM_recordValue {order : List Expr} (each : ∀ x ∈ order, x.WellFormed) (b : Expr.Bindings)
    (values : Std.HashMap Expr Word) :
    order.foldlM (recordValue b) values = .ok (order.foldl (Expr.recordValue b) values) := by
  induction order generalizing values with
  | nil => rfl
  | cons first rest ih =>
      rw [List.foldlM_cons, ok_bind (recordValue_eq (each first (.head _)) b values)]
      exact ih (fun x hx => each x (.tail _ hx)) _

/-- Every part that is visited is well-formed, so no step of an evaluation is refused. -/
theorem evaluate_eq (h : e.WellFormed) (b : Expr.Bindings) : evaluate b e = .ok (e.evaluate b) := by
  have each : ∀ x ∈ (Expr.graph.postOrder e).toList, x.WellFormed :=
    Expr.graph.forall_mem_postOrderWhere (fun _ hv _ hu => hv.of_mem_operands hu) h
  simp only [evaluate, Expr.evaluate, shareParts_eq, ok_bind (foldlM_recordValue each b ∅),
    Array.foldl_toList]
  rfl

end Evaluation

section Accesses

variable {m : Memory} {v : Expr}

theorem join_eq {bytes : List Expr} (each : ∀ b ∈ bytes, Memory.IsByte b) :
    join bytes = Memory.join bytes := by
  fun_induction Memory.join bytes with
  | case1 => rfl
  | case2 b => rfl
  | case3 b rest more ih =>
      obtain ⟨hb, hrest⟩ := List.forall_mem_cons.mp each
      rw [join, ih hrest]
      · cases joined : Memory.join rest with
        | error failure => rfl
        | ok upper => exact mkConcat_eq (Memory.join_ok hrest joined).1 hb.wellFormed
      · exact more

theorem read_eq (hm : m.WellFormed) (address : Word) {size : Nat} (few : size < 256) :
    read m address size = m.read address size := by
  unfold read Memory.read
  split
  · have small : size * 8 < boundLimit := by
      simp only [boundLimit]
      omega
    exact ok_bind (mul_eq small) _
  · have last : size - 1 + 1 = size := by omega
    rw [ok_bind (sub_eq (by omega)), last]
    refine join_eq fun b hb => ?_
    obtain ⟨i, -, rfl⟩ := List.mem_map.mp hb
    exact hm _

theorem split_eq (hv : v.WellFormed) : split v = Memory.split v := by
  have atMost := hv.width_le
  unfold split Memory.split
  congr 1
  refine mapM_congr fun i hi => ?_
  have inside := List.mem_range.mp hi
  have low : mul 8 i = .ok (8 * i) := mul_eq (by simp only [boundLimit]; omega)
  rw [ok_bind low, ok_bind (add_small (by omega) (by omega)), mkExtract_eq hv]

theorem write_eq (m : Memory) (address : Word) (hv : v.WellFormed) :
    write m address v = m.write address v := by
  rw [write, split_eq hv]
  rfl

end Accesses

section Outcomes

variable {c : Construction} {m : Memory} {v : Expr}

theorem not_refuses_overflow (c : Construction) : ¬ c.Refuses .overflow := by
  cases c with
  | const | var | extract | zext | sext | concat => rintro ⟨_, ⟨⟩⟩
  | unary | binary | ite | equals | not | and | or => rintro ⟨_, _, _, _, ⟨⟩⟩

/-- A constructor gives an expression or a refusal that it knows, but for the slice of as many bits as
    there are numbers for bounds. -/
theorem build_outcome (operands : ∀ x ∈ c.operands, x.WellFormed)
    (bounds : ∀ high low x, c = .extract high low x → high < 2 ^ 32 ∧ low < 2 ^ 32) :
    (∃ e, c.build = .ok e) ∨ (∃ failure, c.build = .error failure ∧ c.Refuses failure) ∨
      ∃ x, c = .extract (2 ^ 32 - 1) 0 x := by
  by_cases accepts : c.Accepts
  · exact .inl (Construction.build_total operands accepts)
  by_cases largest : ∃ x, c = .extract (2 ^ 32 - 1) 0 x
  · exact .inr (.inr largest)
  refine .inr (.inl (Construction.build_refuses (fun high low x same => ?_) accepts))
  obtain ⟨small, small'⟩ := bounds high low x same
  by_contra many
  simp only [boundLimit] at many
  obtain ⟨rfl, rfl⟩ : high = 2 ^ 32 - 1 ∧ low = 0 := by omega
  exact largest ⟨x, same⟩

theorem build_overflow_iff (operands : ∀ x ∈ c.operands, x.WellFormed)
    (bounds : ∀ high low x, c = .extract high low x → high < 2 ^ 32 ∧ low < 2 ^ 32) :
    c.build = .error .overflow ↔ ∃ x, c = .extract (2 ^ 32 - 1) 0 x := by
  constructor
  · intro overflows
    rcases build_outcome operands bounds with ⟨e, built⟩ | ⟨failure, refused, knows⟩ | largest
    · rw [overflows] at built
      cases built
    · rw [overflows] at refused
      cases refused
      exact absurd knows (not_refuses_overflow c)
    · exact largest
  · rintro ⟨x, rfl⟩
    have atMost := (operands x (.head _)).width_le
    exact Expr.mkExtract_refuses (by omega)

theorem read_outcome (hm : m.WellFormed) (address : Word) (size : Nat) :
    (∃ e, m.read address size = .ok e) ∨
      ∃ failure, m.read address size = .error failure ∧ failure.IsWidth := by
  by_cases outside : size = 0 ∨ 8 < size
  · exact .inr ⟨_, if_pos outside, _, rfl⟩
  · exact .inl (Memory.read_total hm address (by omega) (by omega))

theorem write_outcome (m : Memory) (address : Word) (hv : v.WellFormed) :
    (∃ m', m.write address v = .ok m') ∨
      ∃ failure, m.write address v = .error failure ∧ failure.IsWidth := by
  by_cases whole : v.width % 8 = 0
  · exact .inl (Memory.write_total m address hv whole)
  · have refused : Memory.split v = .error (.invalidWidth v.width) := if_pos whole
    exact .inr ⟨_, error_bind refused _, _, rfl⟩

/-- With every step checked, the constructors, the evaluation and the accesses to memory give what they
    give without the checks: a result or one of the refusals that they know. Only the slice of as many
    bits as there are numbers for bounds is refused by the arithmetic itself. -/
theorem overflow_exact {c : Construction} {e : Expr} {m : Memory} {v : Expr} (b : Expr.Bindings)
    (address : Word) (size : UInt8) (operands : ∀ x ∈ c.operands, x.WellFormed)
    (bounds : ∀ high low x, c = .extract high low x → high < 2 ^ 32 ∧ low < 2 ^ 32)
    (he : e.WellFormed) (hm : m.WellFormed) (hv : v.WellFormed) :
    (build c = c.build ∧ (build c = .error .overflow ↔ ∃ x, c = .extract (2 ^ 32 - 1) 0 x) ∧
      ((∃ e, build c = .ok e) ∨ (∃ failure, build c = .error failure ∧ c.Refuses failure) ∨
        build c = .error .overflow)) ∧
    evaluate b e = .ok (e.evaluate b) ∧
    (read m address size.toNat = m.read address size.toNat ∧
      ((∃ x, read m address size.toNat = .ok x) ∨
        ∃ failure, read m address size.toNat = .error failure ∧ failure.IsWidth)) ∧
    write m address v = m.write address v ∧
      ((∃ m', write m address v = .ok m') ∨
        ∃ failure, write m address v = .error failure ∧ failure.IsWidth) := by
  have overflow := build_overflow_iff operands bounds
  rw [build_eq operands, read_eq hm address size.toNat_lt, write_eq m address hv]
  refine ⟨⟨rfl, overflow, ?_⟩, evaluate_eq he b, ⟨rfl, read_outcome hm address _⟩, rfl,
    write_outcome m address hv⟩
  exact (build_outcome operands bounds).imp_right (Or.imp_right overflow.mpr)

/-- One bit less than all that can be counted is refused like any other slice that does not fit. -/
theorem overflow_exact_largest :
    let x : Expr := .var "x" 8
    let c : Construction := .extract (2 ^ 32 - 1) 1 x
    let m : Memory := { image := { entry := 0 } }
    build c ≠ .error .overflow ∧ c.build = .error (.invalidWidth (2 ^ 32 - 1)) ∧
      evaluate (fun _ => some 0x180) (.sext x 64) = .ok (some 0xffffffffffffff80) ∧
      read m 0xffffffffffffffff 255 = .error (.invalidWidth 2040) ∧
      ∃ m', write m 0xffffffffffffffff x = .ok m' := by
  intro x c m
  have hx : x.WellFormed := ⟨by decide, by decide⟩
  have parts : ∀ y ∈ c.operands, y.WellFormed := by
    intro y hy
    exact List.mem_singleton.mp hy ▸ hx
  have bounds (high low : Nat) (y : Expr) (same : c = .extract high low y) :
      high < 2 ^ 32 ∧ low < 2 ^ 32 := by
    obtain ⟨rfl, rfl, -⟩ := Construction.extract.inj same
    decide
  have extended : (Expr.sext x 64).WellFormed := ⟨by decide, by decide, hx⟩
  have clear : m.WellFormed := Memory.wellFormed_start _ _
  obtain ⟨⟨-, overflow, -⟩, evaluated, ⟨reads, -⟩, writes, -⟩ :=
    overflow_exact (fun _ => some 0x180) 0xffffffffffffffff 255 parts bounds extended clear hx
  refine ⟨?_, by cbv, ?_, reads.trans rfl, ?_⟩
  · rw [ne_eq, overflow]
    rintro ⟨y, same⟩
    cases (Construction.extract.inj same).2.1
  · rw [evaluated, Expr.evaluate_eq_eval]
    exact congrArg Except.ok (by decide)
  · rw [writes]
    exact Memory.write_total m _ hx (by decide)

/-- The slice of all bits that can be counted, of an expression that has eight. -/
theorem slice_overflows :
    let x : Expr := .var "x" 8
    x.WellFormed ∧ build (.extract (2 ^ 32 - 1) 0 x) = .error .overflow :=
  ⟨⟨by decide, by decide⟩, rfl⟩

end Outcomes

end PathSearch.Checked
