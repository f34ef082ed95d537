import PathSearch.Proofs.Expr.Occurrence
import PathSearch.Proofs.Smt.Lowering

/-! # What can be lowered

Expressions are lowered together exactly if no variable occurs in them with two widths, and one-bit
expressions are all that can be asserted.
-/

namespace PathSearch.Smt.Lowering

open PathSearch.Expr

/-- No name has two widths. -/
def Consistent (vars : List (String × Nat)) : Prop :=
  ∀ name w w', (name, w) ∈ vars → (name, w') ∈ vars → w = w'

/-- The widths known are those of the variables in what was lowered, and of no others than `vars`. -/
structure Declares (vars : List (String × Nat)) (t : Lowering) : Prop where
  indexed : ∀ e ∈ t.index, ∀ p ∈ e.occurrences, t.widths[p.1]? = some p.2
  widths : ∀ name w, t.widths[name]? = some w → (name, w) ∈ vars

variable {vars : List (String × Nat)} {t u : Lowering} {node : Expr}

theorem declares_empty : Declares vars {} where
  indexed e he := by simp at he
  widths name w found := by simp at found

/-- A variable is taken up if it keeps its width. -/
theorem declare_total {name : String} {w : Nat} (declares : t.Declares vars)
    (consistent : Consistent vars) (inside : (name, w) ∈ vars) : ∃ u, t.declare name w = .ok u := by
  unfold declare
  split
  · exact ⟨_, rfl⟩
  · rename_i known found
    rw [if_pos (consistent name known w (declares.widths name known found) inside)]
    exact ⟨t, rfl⟩

theorem declare_inv {name : String} {w : Nat} (h : t.declare name w = .ok u) :
    u.index = t.index ∧ u.widths[name]? = some w ∧
      (∀ (n : String) (x : Nat), t.widths[n]? = some x → u.widths[n]? = some x) ∧
      ∀ (n : String) (x : Nat), u.widths[n]? = some x →
        t.widths[n]? = some x ∨ (n, x) = (name, w) := by
  unfold declare at h
  split at h
  · rename_i new
    cases h
    refine ⟨rfl, by simp, fun n x found => ?_, fun n x found => ?_⟩
    · have other : ¬ name = n := by
        rintro rfl
        rw [new] at found
        cases found
      simp [Std.HashMap.getElem?_insert, other, found]
    · rw [Std.HashMap.getElem?_insert] at found
      split at found
      · rename_i same
        cases found
        exact .inr (by rw [beq_iff_eq.mp same])
      · exact .inl found
  · rename_i known found
    split at h
    · rename_i same
      cases h
      exact ⟨rfl, same ▸ found, fun n x => id, fun n x => .inl⟩
    · cases h

theorem addNode_total (declares : t.Declares vars) (consistent : Consistent vars)
    (inside : ∀ p ∈ node.occurrences, p ∈ vars) : ∃ u, t.addNode node = .ok u := by
  cases node with
  | var name w =>
      obtain ⟨s, declared⟩ := declare_total declares consistent (inside (name, w) (.head _))
      simp only [addNode, declared]
      exact ⟨_, rfl⟩
  | _ => exact ⟨_, rfl⟩

theorem addNode_declares (h : t.addNode node = .ok u) (declares : t.Declares vars)
    (operands : ∀ x ∈ node.operands, x ∈ t.index) (inside : ∀ p ∈ node.occurrences, p ∈ vars) :
    u.Declares vars := by
  -- what the node adds to the widths is no more than itself
  have step : ∃ s : Lowering,
      u = { s with
        lines := s.lines.push (s.lineOf node)
        index := s.index.insert node s.lines.size } ∧
      s.index = t.index ∧ (∀ p : String × Nat, node = .var p.1 p.2 → s.widths[p.1]? = some p.2) ∧
      (∀ (n : String) (x : Nat), t.widths[n]? = some x → s.widths[n]? = some x) ∧
      ∀ (n : String) (x : Nat), s.widths[n]? = some x →
        t.widths[n]? = some x ∨ (n, x) ∈ node.occurrences := by
    unfold addNode at h
    split at h
    · rename_i name w
      obtain ⟨s, declared, result⟩ := bind_ok h
      cases result
      obtain ⟨index, here, kept, origin⟩ := declare_inv declared
      refine ⟨s, rfl, index, fun p same => ?_, kept, fun n x found => ?_⟩
      · cases same
        exact here
      · rw [occurrences, List.mem_singleton]
        exact origin n x found
    · rename_i notVar
      cases h
      exact ⟨t, rfl, rfl, fun p same => (notVar _ _ same).elim, fun n x => id, fun n x => .inl⟩
  obtain ⟨s, rfl, index, here, kept, origin⟩ := step
  refine ⟨fun e he p hp => ?_, fun n x found => ?_⟩
  · have old (e : Expr) (he : e ∈ t.index) (hp : p ∈ e.occurrences) : s.widths[p.1]? = some p.2 :=
      kept _ _ (declares.indexed e he p hp)
    rcases Std.HashMap.mem_insert.mp he with same | earlier
    · cases beq_iff_eq.mp same
      rcases mem_occurrences_iff.mp hp with var | ⟨x, hx, hp⟩
      · exact here p var
      · exact old x (operands x hx) hp
    · exact old e (index ▸ earlier) hp
  · rcases origin n x found with earlier | now
    · exact declares.widths n x earlier
    · exact inside _ now

section Order

variable {order : List Expr} (sound : t.Sound)
  (ordered : graph.OperandsFirst (t.index.contains ·) order)
  (inside : ∀ e ∈ order, ∀ p ∈ e.occurrences, p ∈ vars) (declares : t.Declares vars)

include sound ordered inside declares

theorem foldlM_addNode_declares (h : order.foldlM addNode t = .ok u) : u.Declares vars := by
  induction ordered generalizing u with
  | nil =>
      cases h
      exact declares
  | @snoc order v before operands ih =>
      rw [List.foldlM_append] at h
      obtain ⟨s, front, h⟩ := bind_ok h
      have last : s.addNode v = .ok u := (bind_pure (s.addNode v)).symm.trans h
      obtain ⟨-, grown, listed⟩ := foldlM_addNode_ok sound before front
      refine addNode_declares last (ih (fun e he => inside e (by simp [he])) front) ?_
        (inside v (by simp))
      intro x hx
      rcases operands x hx with skipped | earlier
      · exact grown.indexed x (Std.HashMap.contains_iff_mem.mp skipped)
      · exact listed x earlier

theorem foldlM_addNode_total (consistent : Consistent vars) :
    ∃ u, order.foldlM addNode t = .ok u := by
  induction ordered with
  | nil => exact ⟨t, rfl⟩
  | @snoc order v before operands ih =>
      have insideFront : ∀ e ∈ order, ∀ p ∈ e.occurrences, p ∈ vars :=
        fun e he => inside e (by simp [he])
      obtain ⟨s, front⟩ := ih insideFront
      have declaresFront := foldlM_addNode_declares sound before insideFront declares front
      obtain ⟨u, last⟩ := addNode_total declaresFront consistent (inside v (by simp))
      refine ⟨u, ?_⟩
      rw [List.foldlM_append, front]
      exact (bind_pure (s.addNode v)).trans last

end Order

/-- The nodes that lowering an expression adds are parts of it. -/
theorem occurrences_of_mem_postOrderWhere {skip : Expr → Bool} {root e : Expr}
    (he : e ∈ (graph.postOrderWhere skip root).toList) :
    ∀ p ∈ e.occurrences, p ∈ root.occurrences := by
  have closed (x : Expr) (h : ∀ p ∈ x.occurrences, p ∈ root.occurrences) :
      ∀ y ∈ graph.operands x, ∀ p ∈ y.occurrences, p ∈ root.occurrences :=
    fun y hy p hp => h p (occurrences_of_mem_operands hy hp)
  exact graph.forall_mem_postOrderWhere closed (fun _ => id) e he

theorem add_declares {e : Expr} {i : Nat} (h : t.add e = .ok (i, u)) (sound : t.Sound)
    (declares : t.Declares vars) (inside : ∀ p ∈ e.occurrences, p ∈ vars) : u.Declares vars := by
  obtain ⟨s, folded, result⟩ := bind_ok h
  cases result
  rw [← Array.foldlM_toList] at folded
  exact foldlM_addNode_declares sound (graph.operandsFirst_postOrderWhere _ e)
    (fun x hx p hp => inside p (occurrences_of_mem_postOrderWhere hx p hp)) declares folded

theorem add_total {e : Expr} (sound : t.Sound) (declares : t.Declares vars)
    (consistent : Consistent vars) (inside : ∀ p ∈ e.occurrences, p ∈ vars) :
    ∃ r, t.add e = .ok r := by
  obtain ⟨u, folded⟩ := foldlM_addNode_total sound (graph.operandsFirst_postOrderWhere _ e)
    (fun x hx p hp => inside p (occurrences_of_mem_postOrderWhere hx p hp)) declares consistent
  rw [Array.foldlM_toList] at folded
  simp only [add, folded]
  exact ⟨_, rfl⟩

theorem addAll_declares {es : List Expr} {lines : List Nat} (h : t.addAll es = .ok (lines, u))
    (sound : t.Sound) (declares : t.Declares vars)
    (inside : ∀ e ∈ es, ∀ p ∈ e.occurrences, p ∈ vars) :
    u.Declares vars ∧ ∀ e ∈ es, e ∈ u.index := by
  induction es generalizing t lines with
  | nil =>
      cases h
      exact ⟨declares, by simp⟩
  | cons e rest ih =>
      obtain ⟨⟨i, s⟩, first, h⟩ := bind_ok h
      obtain ⟨⟨is, v⟩, others, result⟩ := bind_ok h
      cases result
      obtain ⟨soundFirst, -, found⟩ := add_index first sound
      have declaresFirst := add_declares first sound declares (inside e (.head _))
      obtain ⟨declaresRest, listed⟩ :=
        ih others soundFirst declaresFirst fun x hx => inside x (.tail _ hx)
      obtain ⟨-, grown, -⟩ := addAll_ok others soundFirst
      have here : e ∈ s.index := Std.HashMap.mem_iff_isSome_getElem?.mpr (by rw [found]; rfl)
      refine ⟨declaresRest, fun x hx => ?_⟩
      rcases List.mem_cons.mp hx with rfl | later
      · exact grown.indexed x here
      · exact listed x later

theorem addAll_total {es : List Expr} (sound : t.Sound) (declares : t.Declares vars)
    (consistent : Consistent vars) (inside : ∀ e ∈ es, ∀ p ∈ e.occurrences, p ∈ vars) :
    ∃ r, t.addAll es = .ok r := by
  induction es generalizing t with
  | nil => exact ⟨_, rfl⟩
  | cons e rest ih =>
      obtain ⟨⟨i, s⟩, first⟩ := add_total sound declares consistent (inside e (.head _))
      obtain ⟨soundFirst, -, -⟩ := add_index first sound
      have declaresFirst := add_declares first sound declares (inside e (.head _))
      obtain ⟨⟨is, u⟩, others⟩ := ih soundFirst declaresFirst fun x hx => inside x (.tail _ hx)
      simp only [addAll, first, others, bind, Except.bind]
      exact ⟨_, rfl⟩

theorem assertAll_eq_addAll {es : List Expr} (oneBit : ∀ e ∈ es, e.width = 1) :
    t.assertAll es = t.addAll es := by
  induction es generalizing t with
  | nil => rfl
  | cons e rest ih =>
      have here : ¬ e.width ≠ 1 := fun other => other (oneBit e (.head _))
      have later (s : Lowering) : s.assertAll rest = s.addAll rest :=
        ih fun x hx => oneBit x (.tail _ hx)
      rw [assertAll, addAll]
      simp only [if_neg here, later]

theorem oneBit_of_assertAll {es : List Expr} {r : List Nat × Lowering}
    (h : t.assertAll es = .ok r) : ∀ e ∈ es, e.width = 1 := by
  induction es generalizing t r with
  | nil => simp
  | cons e rest ih =>
      unfold assertAll at h
      split at h
      · cases h
      · rename_i oneBit
        obtain ⟨⟨i, s⟩, -, h⟩ := bind_ok h
        obtain ⟨⟨is, u⟩, others, -⟩ := bind_ok h
        exact List.forall_mem_cons.mpr ⟨not_not.mp oneBit, ih others⟩

/-- Lowering succeeds exactly on one-bit demands, with one width for every variable. -/
theorem scriptOf_isOk_iff {asserted asked : List Expr} :
    (∃ r, scriptOf asserted asked = .ok r) ↔
      (∀ c ∈ asserted, c.width = 1) ∧ Consistent ((asserted ++ asked).flatMap occurrences) := by
  have emptySound : Sound {} := fun e i found => by simp at found
  have inside (e : Expr) (he : e ∈ asserted ++ asked) :
      ∀ p ∈ e.occurrences, p ∈ (asserted ++ asked).flatMap occurrences :=
    fun p hp => List.mem_flatMap.mpr ⟨e, he, hp⟩
  have insideAsserted := fun e he => inside e (List.mem_append_left asked he)
  have insideAsked := fun e he => inside e (List.mem_append_right asserted he)
  unfold scriptOf
  rw [shareParts_eq]
  constructor
  · rintro ⟨r, h⟩
    obtain ⟨⟨demands, s⟩, first, h⟩ := bind_ok h
    obtain ⟨⟨is, u⟩, second, -⟩ := bind_ok h
    have adds := addAll_of_assertAll first
    obtain ⟨sound, -, -⟩ := addAll_ok adds emptySound
    obtain ⟨declares, listed⟩ := addAll_declares adds emptySound declares_empty insideAsserted
    obtain ⟨-, grown, -⟩ := addAll_ok second sound
    obtain ⟨declaresAll, listedAsked⟩ := addAll_declares second sound declares insideAsked
    have known (p : String × Nat) (hp : p ∈ (asserted ++ asked).flatMap occurrences) :
        u.widths[p.1]? = some p.2 := by
      obtain ⟨e, he, hp⟩ := List.mem_flatMap.mp hp
      rcases List.mem_append.mp he with demanded | asked
      · exact declaresAll.indexed e (grown.indexed e (listed e demanded)) p hp
      · exact declaresAll.indexed e (listedAsked e asked) p hp
    refine ⟨oneBit_of_assertAll first, fun name w w' hw hw' => ?_⟩
    exact Option.some.inj ((known _ hw).symm.trans (known _ hw'))
  · rintro ⟨oneBit, consistent⟩
    obtain ⟨⟨demands, s⟩, adds⟩ := addAll_total emptySound declares_empty consistent insideAsserted
    obtain ⟨sound, -, -⟩ := addAll_ok adds emptySound
    obtain ⟨declares, -⟩ := addAll_declares adds emptySound declares_empty insideAsserted
    obtain ⟨⟨is, u⟩, second⟩ := addAll_total sound declares consistent insideAsked
    simp only [assertAll_eq_addAll oneBit, adds, second, bind, Except.bind]
    exact ⟨_, rfl⟩

end PathSearch.Smt.Lowering
