import PathSearch.Proofs.Expr.Sharing

/-! # The value of a node in memory

A walk over the nodes puts the value of each into a table, where it has one. Whether equal parts are
one node or several, the value in the table for the last node is that of the expression by recursion,
in which a choice asks for its condition and for the part taken. So it depends on the variables that
the walk meets, and on nothing else.
-/

namespace PathSearch

universe u

namespace Expr

/-- The value of a node from those of its operands, from left to right. -/
def combine (b : Bindings) : Expr → List (Option Word) → Option Word
  | .const v _, _ => some v
  | .var n bits, _ => (b n).map (Word.truncate bits)
  | .unary op x, [v] => do op.foldUnary (← v) x.width
  | .binary op l _, [lv, rv] => do op.foldBinary (← lv) (← rv) l.width
  | .ite .., [c, y, n] => do if (← c) = 1 then y else n
  | .extract high low _, [v] => do
      pure (Word.truncate (high - low + 1) ((← v) >>> UInt64.ofNat low))
  | .zext .., [v] => v
  | .sext x bits, [v] => do
      pure (Word.truncate bits (Word.ofSigned (Word.toSigned x.width (← v))))
  | .concat _ l, [hv, lv] => do pure (((← hv) <<< UInt64.ofNat l.width) ||| (← lv))
  | _, _ => none

theorem combine_operands (b : Bindings) (e : Expr) :
    combine b e (e.operands.map (eval b)) = e.eval b := by
  cases e <;> rfl

theorem mem_collectVariable {widths : Widths} {e : Expr} {name : String} :
    name ∈ collectVariable widths e ↔ name ∈ widths ∨ ∃ bits, e = .var name bits := by
  cases e with
  | var other bits =>
      simp only [collectVariable, Std.TreeMap.mem_insert, Std.compare_eq_iff_eq, var.injEq,
        exists_and_left, exists_eq', and_true]
      exact or_comm
  | _ => simp [collectVariable]

section Values

variable {b : Bindings} {e : Expr} {v : Word}

/-- A value fits the width, also where variables are left open. -/
theorem WellFormed.eval_some_lt (h : e.WellFormed) (known : e.eval b = some v) :
    v.toNat < 2 ^ e.width := by
  rw [← evaluate_eq_eval] at known
  have closed := evaluate_close known
  rw [h.evaluate_eq, Option.some_inj] at closed
  rw [← closed]
  exact h.value_lt _

/-- Where all variables that occur have a value, so has the expression. -/
theorem WellFormed.eval_isSome (h : e.WellFormed)
    (bound : ∀ name, e.Mentions name → (b name).isSome) : (e.eval b).isSome := by
  have same : e.eval b = e.eval b.close.bindings := by
    apply eval_congr
    intro name mentioned
    obtain ⟨x, given⟩ := Option.isSome_iff_exists.mp (bound name mentioned)
    simp [Assignment.bindings, Bindings.close, given]
  rw [same, h.eval_eq]
  rfl

end Values

end Expr

namespace Heap

open PathSearch.Expr

variable {ν : Type u}

section Walk

variable [BEq ν] [Hashable ν]

/-- Adds the value of a node to the values already known. -/
def recordValue (h : Heap ν) (b : Bindings) (values : Std.HashMap ν Word) (v : ν) :
    Std.HashMap ν Word :=
  Graph.record (fun values v => combine b (h.shape v) ((h.operands v).map (values[·]?))) values v

/-- The value of a node under bindings, each node below it being looked at once. -/
def evaluate (h : Heap ν) (b : Bindings) (root : ν) : Option Word :=
  ((h.postOrder root).foldl (h.recordValue b) ∅)[root]?

/-- The free variables below a node, each node being looked at once. -/
def freeVars (h : Heap ν) (root : ν) : Widths :=
  (h.postOrder root).foldl (fun widths v => collectVariable widths (h.shape v)) ∅

end Walk

theorem operands_below (h : Heap ν) {v u : ν} (hu : u ∈ h.operands v) :
    h.shape u ∈ (h.shape v).operands := by
  rw [← h.operands_shape v]
  exact List.mem_map_of_mem hu

theorem mem_foldl_collectVariable {shape : ν → Expr} {order : List ν} {widths : Widths}
    {name : String} :
    name ∈ order.foldl (fun widths v => collectVariable widths (shape v)) widths ↔
      name ∈ widths ∨ ∃ v ∈ order, ∃ bits, shape v = .var name bits := by
  induction order generalizing widths with
  | nil => simp
  | cons v rest ih => simp only [List.foldl_cons, ih, mem_collectVariable, or_assoc, List.mem_cons,
      exists_eq_or_imp]

variable [BEq ν] [LawfulBEq ν] [Hashable ν]

omit [LawfulBEq ν] in
/-- With the values of the operands in the table, a node gets the value that recursion gives it. -/
theorem combine_known (h : Heap ν) (b : Bindings) {values : Std.HashMap ν Word} {v : ν}
    (known : ∀ u ∈ h.operands v, values[u]? = (h.shape u).eval b) :
    combine b (h.shape v) ((h.operands v).map (values[·]?)) = (h.shape v).eval b := by
  have operands : (h.operands v).map (values[·]?) = (h.shape v).operands.map (eval b) := by
    rw [← h.operands_shape v, List.map_map]
    exact List.map_congr_left known
  rw [operands, combine_operands]

theorem evaluate_eq_eval (h : Heap ν) (b : Bindings) (root : ν) :
    h.evaluate b root = (h.shape root).eval b := by
  have ordered := h.operandsFirst_postOrderWhere (fun _ => false) root
  have listed : root ∈ (h.postOrderWhere (fun _ => false) root).toList := h.mem_postOrderWhere rfl
  simp only [evaluate, Graph.postOrder, ← Array.foldl_toList]
  exact (Graph.foldl_record ordered (fun _ _ => h.combine_known b) root).trans (if_pos listed)

omit [BEq ν] [LawfulBEq ν] [Hashable ν] in
/-- A walk that lists a node lists the variables that occur below it. -/
theorem exists_listed_var (h : Heap ν) {order : List ν} (closed : h.Closed order) {v : ν}
    (listed : v ∈ order) {name : String} (mentioned : (h.shape v).Mentions name) :
    ∃ u ∈ order, ∃ bits, h.shape u = .var name bits := by
  induction v using h.acyclic.induction with
  | _ v ih =>
      rcases mentions_iff.mp mentioned with here | ⟨x, hx, below⟩
      · exact ⟨v, listed, here⟩
      · rw [← h.operands_shape v] at hx
        obtain ⟨u, hu, rfl⟩ := List.mem_map.mp hx
        exact ih u hu (closed v listed u hu) below

/-- The walk meets the variables that occur in the expression. -/
theorem mem_freeVars (h : Heap ν) (root : ν) {name : String} :
    name ∈ h.freeVars root ↔ (h.shape root).Mentions name := by
  have closed : h.Closed (h.visit (fun _ => false) root []) := by
    apply Graph.closed_visit
    intro v none
    cases none
  have listed : root ∈ (h.postOrderWhere (fun _ => false) root).toList := h.mem_postOrderWhere rfl
  rw [freeVars, ← Array.foldl_toList, mem_foldl_collectVariable, Graph.postOrder]
  constructor
  · rintro (none | ⟨v, hv, bits, shape⟩)
    · simp at none
    · have inside : ∀ u ∈ (h.postOrderWhere (fun _ => false) root).toList,
          (h.shape u).Mentions name → (h.shape root).Mentions name := by
        refine h.forall_mem_postOrderWhere
          (P := fun u => (h.shape u).Mentions name → (h.shape root).Mentions name) ?_ id
        intro v inside u hu mentioned
        exact inside (mentioned.of_mem_operands (h.operands_below hu))
      exact inside v hv (shape ▸ mentions_var_iff.mpr rfl)
  · intro mentioned
    rw [Graph.toList_postOrderWhere] at listed ⊢
    exact .inr (h.exists_listed_var closed listed mentioned)

/-- Expressions as nodes of which no two are equal. -/
def ofExpr : Heap Expr where
  toGraph := graph
  shape := id
  operands_shape _ := List.map_id _

theorem mem_freeVars_expr {e : Expr} {name : String} : name ∈ e.freeVars ↔ e.Mentions name :=
  ofExpr.mem_freeVars e

/-- However the parts of an expression are shared, evaluation on nodes gives what evaluation by
    recursion gives. A value fits the width and stays when more variables are bound. It depends on the
    variables that the walk over the nodes lists, which are those of the expression, and it is there
    when all of them are bound. -/
theorem evaluate_shared (h : Heap ν) (root : ν) (wellFormed : (h.shape root).WellFormed)
    (b : Bindings) :
    h.evaluate b root = (h.shape root).eval b ∧ (h.shape root).evaluate b = (h.shape root).eval b ∧
    (∀ v, h.evaluate b root = some v → v.toNat < 2 ^ (h.shape root).width ∧
      ∀ b' : Bindings, (∀ name x, b name = some x → b' name = some x) →
        h.evaluate b' root = some v) ∧
    (∀ b' : Bindings, (∀ name ∈ h.freeVars root, b name = b' name) →
      h.evaluate b root = h.evaluate b' root) ∧
    ((∀ name ∈ h.freeVars root, (b name).isSome) → (h.evaluate b root).isSome) ∧
    ∀ name, name ∈ h.freeVars root ↔ name ∈ (h.shape root).freeVars := by
  simp only [h.evaluate_eq_eval, Expr.evaluate_eq_eval, h.mem_freeVars, mem_freeVars_expr, true_and,
    implies_true, and_true]
  refine ⟨?_, ?_, ?_⟩
  · intro v known
    exact ⟨wellFormed.eval_some_lt known, fun b' more => eval_mono more known⟩
  · intro b' agree
    exact eval_congr agree
  · intro bound
    exact wellFormed.eval_isSome bound

/-- A choice by `c` between `x + x`, in which one node stands on both sides, and `y`. -/
def choice : Heap Nat where
  operands
    | 3 => [0, 0]
    | 4 => [2, 3, 1]
    | _ => []
  acyclic := by
    apply Subrelation.wf _ Nat.lt_wfRel.wf
    intro a b ha
    change a < b
    split at ha <;> simp at ha <;> omega
  shape
    | 1 => .var "y" 8
    | 2 => .var "c" 1
    | 3 => .binary .add (.var "x" 8) (.var "x" 8)
    | 4 => .ite (.var "c" 1) (.binary .add (.var "x" 8) (.var "x" 8)) (.var "y" 8)
    | _ => .var "x" 8
  operands_shape v := by
    match v with
    | 0 | 1 | 2 | 3 | 4 => rfl
    | _ + 5 => rfl

/-- The branch that is not taken may be open, and its value changes nothing. -/
theorem evaluate_shared_choice :
    let b : Bindings := fun name => if name = "c" then some 1 else if name = "x" then some 5 else none
    let b' : Bindings := fun name => if name = "y" then some 7 else b name
    (choice.shape 4).WellFormed ∧ choice.evaluate b 4 = some 10 ∧ choice.evaluate b' 4 = some 10 := by
  intro b b'
  have wellFormed : (choice.shape 4).WellFormed := by
    simp [choice, Expr.WellFormed, Expr.width, Op.isComparison, Op.isUnary]
  obtain ⟨byRecursion, -, more, -⟩ := choice.evaluate_shared 4 wellFormed b
  have value : choice.evaluate b 4 = some 10 := byRecursion.trans (by decide)
  refine ⟨wellFormed, value, (more 10 value).2 b' ?_⟩
  intro name x bound
  have other : name ≠ "y" := by
    rintro rfl
    simp [b] at bound
  simp only [b', if_neg other, bound]

end Heap

end PathSearch
