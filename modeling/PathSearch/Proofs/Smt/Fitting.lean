import PathSearch.Proofs.Smt.Lowering

/-! # Lowered scripts fit

In a script that was made from well-formed expressions the operands of all lines are there and have widths
that fit.
-/

namespace PathSearch.Smt

open PathSearch.Expr

theorem Script.widths?_push (lines : Array Line) (line : Line) :
    Script.widths? { lines := lines.push line } =
      (Script.widths? { lines }).bind fun ws => (line.width? ws).map ws.push := by
  rw [Script.widths?, Array.toList_push, List.foldlM_append]
  exact bind_congr fun ws => bind_pure _

namespace Lowering

variable {t u : Lowering} {node : Expr}

/-- All lines so far fit. -/
def Fits (t : Lowering) : Prop := ∃ ws, Script.widths? { lines := t.lines } = some ws

/-- The line of a well-formed node fits to those of its operands and has the node's width. -/
theorem width?_lineOf {ws : Array Nat} (wellFormed : node.WellFormed)
    (operands : ∀ x ∈ node.operands, ws[t.line x]? = some x.width) :
    (t.lineOf node).width? ws = some node.width := by
  cases node with
  | const | var => rfl
  | unary op x => exact operands x (.head _)
  | binary op l r =>
      obtain ⟨-, same, -, -⟩ := id wellFormed
      have hl := operands l (.head _)
      have hr := operands r (.tail _ (.head _))
      simp [lineOf, Line.width?, hl, hr, same, Expr.width]
  | ite c y n =>
      obtain ⟨oneBit, same, -, -, -⟩ := id wellFormed
      have hc := operands c (.head _)
      have hy := operands y (.tail _ (.head _))
      have hn := operands n (.tail _ (.tail _ (.head _)))
      simp [lineOf, Line.width?, hc, hy, hn, oneBit, same, Expr.width]
  | extract high low x =>
      obtain ⟨ordered, inside, -⟩ := id wellFormed
      have hx := operands x (.head _)
      simp [lineOf, Line.width?, hx, ordered, inside, Expr.width]
  | zext x width =>
      obtain ⟨wider, -, -⟩ := id wellFormed
      have hx := operands x (.head _)
      simp [lineOf, Line.width?, hx, wider, Expr.width]
  | sext x width =>
      obtain ⟨wider, -, -⟩ := id wellFormed
      have hx := operands x (.head _)
      simp [lineOf, Line.width?, hx, wider, Expr.width]
  | concat h l =>
      have hh := operands h (.head _)
      have hl := operands l (.tail _ (.head _))
      simp [lineOf, Line.width?, hh, hl, Expr.width]

theorem addNode_fits (h : t.addNode node = .ok u) (sound : t.Sound) (operands : ∀ x ∈ node.operands, x ∈ t.index)
    (wellFormed : node.WellFormed) (fits : t.Fits) : u.Fits := by
  obtain ⟨s, lines, index, rfl⟩ := addNode_inv h
  obtain ⟨ws, fits⟩ := fits
  have known (x : Expr) (hx : x ∈ node.operands) : ws[s.line x]? = some x.width := by
    obtain ⟨i, here⟩ : ∃ i, t.index[x]? = some i :=
      ⟨_, Std.HashMap.getElem?_eq_some_getElem (operands x hx)⟩
    have line : s.line x = i := by
      rw [Lowering.line, index, Std.HashMap.getD_eq_getD_getElem?, here]
      rfl
    have value := sound x i here (wellFormed.of_mem_operands hx) fun _ => 0
    rw [line, ← Script.map_width_values fits fun _ => 0, Array.getElem?_map, value]
    rfl
  refine ⟨ws.push node.width, ?_⟩
  rw [lines, Script.widths?_push, fits, Option.bind_some, width?_lineOf wellFormed known]
  rfl

theorem foldlM_addNode_fits (sound : t.Sound) {order : List Expr}
    (ordered : graph.OperandsFirst (t.index.contains ·) order) (wellFormed : ∀ e ∈ order, e.WellFormed)
    (fits : t.Fits) (h : order.foldlM addNode t = .ok u) : u.Fits := by
  induction ordered generalizing u with
  | nil =>
      cases h
      exact fits
  | @snoc order v before operands ih =>
      rw [List.foldlM_append] at h
      obtain ⟨s, front, h⟩ := bind_ok h
      have last : s.addNode v = .ok u := (bind_pure (s.addNode v)).symm.trans h
      obtain ⟨soundFront, grown, listed⟩ := foldlM_addNode_ok sound before front
      refine addNode_fits last soundFront (fun x hx => ?_) (wellFormed v (by simp))
        (ih (fun e he => wellFormed e (by simp [he])) front)
      rcases operands x hx with skipped | earlier
      · exact grown.indexed x (Std.HashMap.contains_iff_mem.mp skipped)
      · exact listed x earlier

theorem add_fits {e : Expr} {i : Nat} (h : t.add e = .ok (i, u)) (sound : t.Sound) (wellFormed : e.WellFormed)
    (fits : t.Fits) : u.Fits := by
  obtain ⟨s, folded, result⟩ := bind_ok h
  cases result
  rw [← Array.foldlM_toList] at folded
  have parts : ∀ x ∈ (graph.postOrderWhere (t.index.contains ·) e).toList, x.WellFormed :=
    graph.forall_mem_postOrderWhere (fun x hx y hy => hx.of_mem_operands hy) wellFormed
  exact foldlM_addNode_fits sound (graph.operandsFirst_postOrderWhere _ e) parts fits folded

theorem addAll_fits {es : List Expr} {lines : List Nat} (h : t.addAll es = .ok (lines, u)) (sound : t.Sound)
    (wellFormed : ∀ e ∈ es, e.WellFormed) (fits : t.Fits) : u.Fits := by
  induction es generalizing t lines with
  | nil =>
      cases h
      exact fits
  | cons e rest ih =>
      obtain ⟨⟨i, s⟩, first, h⟩ := bind_ok h
      obtain ⟨⟨is, v⟩, others, result⟩ := bind_ok h
      cases result
      obtain ⟨here, later⟩ := List.forall_mem_cons.mp wellFormed
      obtain ⟨soundFirst, -, -⟩ := add_index first sound
      exact ih others soundFirst later (add_fits first sound here fits)

/-- A script that was made from well-formed expressions has a width for every line. -/
theorem scriptOf_fits {asserted asked : List Expr} {script : Script} {lines : List Nat}
    (h : scriptOf asserted asked = .ok (script, lines)) (wellFormed : ∀ e ∈ asserted ++ asked, e.WellFormed) :
    ∃ ws, script.widths? = some ws := by
  unfold scriptOf at h
  rw [shareParts_eq] at h
  obtain ⟨⟨demands, s⟩, first, h⟩ := bind_ok h
  obtain ⟨⟨is, u⟩, second, result⟩ := bind_ok h
  cases result
  have empty : Sound {} := fun e i found => by simp at found
  have first := addAll_of_assertAll first
  obtain ⟨sound, -, -⟩ := addAll_ok first empty
  have fits : s.Fits := addAll_fits first empty
    (fun e he => wellFormed e (List.mem_append_left _ he)) ⟨#[], rfl⟩
  exact addAll_fits second sound (fun e he => wellFormed e (List.mem_append_right _ he)) fits

end Lowering

end PathSearch.Smt
