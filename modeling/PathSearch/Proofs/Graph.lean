import PathSearch.Graph
import Std.Data.HashMap

/-! # What a walk lists

A walk lists every node after its operands. What is left to do at any moment is a list of visits
that is ready to be worked through: before a node is left, each of its operands is listed, or is
passed over, or has its own visit further in front. What is found out about each node from what is
known of its operands can so be put into a table in one pass.
-/

namespace PathSearch.Graph

universe u

variable {ν : Type u}

theorem le_total {n : Nat} {ns : List Nat} (h : n ∈ ns) : n ≤ total ns := by
  induction ns with
  | nil => simp at h
  | cons m ns ih =>
      rw [total_cons]
      rcases List.mem_cons.mp h with rfl | h
      · omega
      · have := ih h
        omega

/-- An operand unfolds to a smaller tree than the node that uses it. -/
theorem weight_lt_of_mem_operands (g : Graph ν) {a b : ν} (h : a ∈ g.operands b) :
    g.weight a < g.weight b := by
  have := le_total (List.mem_map_of_mem (f := g.weight) h)
  rw [g.weight_eq b]
  omega

/-- Every node comes after its operands, those apart that are passed over. -/
inductive OperandsFirst (g : Graph ν) (skip : ν → Bool) : List ν → Prop where
  | nil : OperandsFirst g skip []
  | snoc {order : List ν} {v : ν} (before : OperandsFirst g skip order)
      (operands : ∀ u ∈ g.operands v, skip u = true ∨ u ∈ order) :
      OperandsFirst g skip (order ++ [v])

/-- The operands of a listed node are listed in front of it, those apart that are passed over. -/
theorem OperandsFirst.in_front {g : Graph ν} {skip : ν → Bool} {order front rest : List ν} {v : ν}
    (first : OperandsFirst g skip order) (split : order = front ++ v :: rest) :
    ∀ u ∈ g.operands v, skip u = true ∨ u ∈ front := by
  induction first generalizing rest with
  | nil => cases List.append_ne_nil_of_right_ne_nil front (List.cons_ne_nil v rest) split.symm
  | @snoc order w _ operands ih =>
      rcases List.eq_nil_or_concat rest with rfl | ⟨rest, last, rfl⟩
      · obtain ⟨rfl, same⟩ := List.append_inj' split rfl
        exact (List.cons.inj same).1 ▸ operands
      · rw [List.concat_eq_append, ← List.cons_append, ← List.append_assoc] at split
        exact ih (List.append_inj' split rfl).1

section Table

universe w

variable {β : Type w} [BEq ν] [Hashable ν]

/-- Adds to a table what is found out about a node, if anything is. -/
def record (f : Std.HashMap ν β → ν → Option β) (table : Std.HashMap ν β) (v : ν) :
    Std.HashMap ν β :=
  match f table v with
  | some x => table.insert v x
  | none => table

/-- The table made along a list of nodes with operands first has what there is to know about the
    nodes listed, where that follows from what there is to know about their operands. -/
theorem foldl_record [LawfulBEq ν] {g : Graph ν} {f : Std.HashMap ν β → ν → Option β}
    {value : ν → Option β} {order : List ν} (first : OperandsFirst g (fun _ => false) order)
    (found : ∀ table v, (∀ u ∈ g.operands v, table[u]? = value u) → f table v = value v) (u : ν) :
    (order.foldl (record f) ∅)[u]? = if u ∈ order then value u else none := by
  induction first generalizing u with
  | nil => simp
  | @snoc order v _ operands ih =>
      have known : ∀ u ∈ g.operands v, (order.foldl (record f) ∅)[u]? = value u := by
        intro u hu
        have listed : u ∈ order := (operands u hu).resolve_left Bool.false_ne_true
        rw [ih, if_pos listed]
      rw [List.foldl_append, List.foldl_cons, List.foldl_nil, record, found _ v known]
      cases here : value v with
      | none =>
          simp only [ih, List.mem_append, List.mem_singleton]
          by_cases same : u = v
          · simp [same, here]
          · simp [same]
      | some x =>
          simp only [Std.HashMap.getElem?_insert, ih, List.mem_append, List.mem_singleton]
          by_cases same : u = v
          · simp [same, here]
          · have other : (v == u) = false := by simpa using Ne.symm same
            simp [same, other]

end Table

/-- The node of a visit. -/
def Visit.node : Visit ν → ν
  | .enter v | .leave v => v

/-- Working through the visits in order, every operand of a node is done before the node is left,
    where a visit gets its node done. -/
def Ready (g : Graph ν) : (done : ν → Prop) → List (Visit ν) → Prop
  | _, [] => True
  | done, .enter v :: rest => Ready g (fun u => done u ∨ u = v) rest
  | done, .leave v :: rest => (∀ u ∈ g.operands v, done u) ∧ Ready g (fun u => done u ∨ u = v) rest

theorem Ready.mono {g : Graph ν} {done done' : ν → Prop} {pending : List (Visit ν)}
    (more : ∀ u, done u → done' u) (h : Ready g done pending) : Ready g done' pending := by
  induction pending generalizing done done' with
  | nil => trivial
  | cons p rest ih =>
      have step : ∀ v u, done u ∨ u = v → done' u ∨ u = v := fun v u => Or.imp_left (more u)
      cases p with
      | enter v => exact ih (step v) h
      | leave v => exact ⟨fun u hu => more u (h.1 u hu), ih (step v) h.2⟩

theorem ready_enter_append {g : Graph ν} {done : ν → Prop} {us : List ν} {rest : List (Visit ν)}
    (h : Ready g (fun u => done u ∨ u ∈ us) rest) : Ready g done (us.map .enter ++ rest) := by
  induction us generalizing done with
  | nil => exact h.mono (by simp)
  | cons u us ih =>
      apply ih
      apply h.mono
      intro v hv
      simp only [List.mem_cons] at hv
      grind

section Walk

variable [BEq ν] [Hashable ν]

/-- What holds of the visits left, the nodes seen and the nodes listed at any moment of a walk. -/
structure Walking (g : Graph ν) (skip : ν → Bool) (pending : List (Visit ν))
    (seen : Std.HashSet ν) (order : Array ν) : Prop where
  operandsFirst : OperandsFirst g skip order.toList
  ready : Ready g (fun u => skip u = true ∨ u ∈ order.toList) pending
  /-- A node that was seen is listed, or its operands are being listed. -/
  seen_cases : ∀ v ∈ seen, v ∈ order.toList ∨ .leave v ∈ pending
  /-- What stands in front of leaving a node is below that node. -/
  below : pending.Pairwise fun p q => ∀ v, q = .leave v → g.weight p.node < g.weight v

namespace Walking

variable {g : Graph ν} {skip : ν → Bool} {rest : List (Visit ν)} {seen : Std.HashSet ν}
  {order : Array ν} {v : ν}

theorem leave (h : Walking g skip (.leave v :: rest) seen order) :
    Walking g skip rest seen (order.push v) := by
  obtain ⟨first, ⟨operands, ready⟩, cases, below⟩ := h
  refine ⟨?_, ?_, ?_, below.tail⟩
  · rw [Array.toList_push]
    exact .snoc first operands
  · apply ready.mono
    intro u hu
    simp only [Array.toList_push, List.mem_append, List.mem_singleton]
    grind
  · intro u hu
    simp only [Array.toList_push, List.mem_append, List.mem_singleton]
    rcases cases u hu with listed | left
    · exact .inl (.inl listed)
    · rcases List.mem_cons.mp left with same | later
      · exact .inl (.inr (by injection same))
      · exact .inr later

/-- A node that was seen and is entered again is listed already: if it were still to be left, it
    would be below itself. -/
theorem listed_of_seen (h : Walking g skip (.enter v :: rest) seen order) (again : v ∈ seen) :
    v ∈ order.toList := by
  rcases h.seen_cases v again with listed | left
  · exact listed
  · rcases List.mem_cons.mp left with impossible | later
    · cases impossible
    · have := (List.pairwise_cons.mp h.below).1 _ later v rfl
      simp only [Visit.node] at this
      omega

theorem pass (h : Walking g skip (.enter v :: rest) seen order)
    (known : skip v = true ∨ v ∈ seen) : Walking g skip rest seen order := by
  have done : skip v = true ∨ v ∈ order.toList := known.imp_right h.listed_of_seen
  refine ⟨h.operandsFirst, ?_, ?_, h.below.tail⟩
  · have ready : Ready g (fun u => (skip u = true ∨ u ∈ order.toList) ∨ u = v) rest := h.ready
    apply ready.mono
    rintro u (known | rfl)
    · exact known
    · exact done
  · intro u hu
    rcases h.seen_cases u hu with listed | left
    · exact .inl listed
    · rcases List.mem_cons.mp left with impossible | later
      · cases impossible
      · exact .inr later

theorem expand [LawfulBEq ν] (h : Walking g skip (.enter v :: rest) seen order) :
    Walking g skip (g.enterOperands v ++ .leave v :: rest) (seen.insert v) order := by
  refine ⟨h.operandsFirst, ?_, ?_, ?_⟩
  · apply ready_enter_append
    refine ⟨fun u hu => .inr hu, ?_⟩
    have ready : Ready g (fun u => (skip u = true ∨ u ∈ order.toList) ∨ u = v) rest := h.ready
    apply ready.mono
    grind
  · intro u hu
    rcases Std.HashSet.mem_insert.mp hu with same | earlier
    · have : v = u := by simpa using same
      subst this
      exact .inr (by simp)
    · rcases h.seen_cases u earlier with listed | left
      · exact .inl listed
      · rcases List.mem_cons.mp left with impossible | later
        · cases impossible
        · exact .inr (by simp [later])
  · obtain ⟨front, back⟩ := List.pairwise_cons.mp h.below
    rw [List.pairwise_append]
    refine ⟨?_, List.pairwise_cons.mpr ⟨front, back⟩, ?_⟩
    · rw [enterOperands, List.pairwise_map]
      exact List.pairwise_of_forall fun _ _ _ impossible => by cases impossible
    · -- an operand of `v` is below `v`, and so below whatever `v` is below
      intro p hp q hq w hw
      obtain ⟨u, hu, rfl⟩ := List.mem_map.mp hp
      have smaller := g.weight_lt_of_mem_operands hu
      subst hw
      rcases List.mem_cons.mp hq with same | later
      · injection same with same
        subst same
        exact smaller
      · have := front _ later w rfl
        simp only [Visit.node] at this ⊢
        omega

end Walking

variable [LawfulBEq ν]

/-- A walk from a good moment lists operands first, and gets to every node that it enters or
    leaves and does not pass over. -/
theorem walk_listed (g : Graph ν) (skip : ν → Bool) (pending : List (Visit ν))
    (seen : Std.HashSet ν) (order : Array ν) (h : Walking g skip pending seen order) :
    OperandsFirst g skip (g.walk skip pending seen order).toList ∧
      (∀ v ∈ order.toList, v ∈ (g.walk skip pending seen order).toList) ∧
      (∀ v, .leave v ∈ pending → v ∈ (g.walk skip pending seen order).toList) ∧
      (∀ v, .enter v ∈ pending → skip v = false → v ∈ (g.walk skip pending seen order).toList) := by
  fun_induction walk g skip pending seen order with
  | case1 seen order => exact ⟨h.operandsFirst, by simp, by simp, by simp⟩
  | case2 v rest seen order ih =>
      obtain ⟨first, kept, left, entered⟩ := ih h.leave
      have self := kept v (by simp)
      refine ⟨first, fun u hu => kept u (by simp [hu]), ?_, ?_⟩
      · rintro u hu
        rcases List.mem_cons.mp hu with same | later
        · injection same with same
          exact same ▸ self
        · exact left u later
      · rintro u hu
        rcases List.mem_cons.mp hu with impossible | later
        · cases impossible
        · exact entered u later
  | case3 v rest seen order known ih =>
      have known' : skip v = true ∨ v ∈ seen := by simpa using known
      obtain ⟨first, kept, left, entered⟩ := ih (h.pass known')
      refine ⟨first, kept, ?_, ?_⟩
      · rintro u hu
        rcases List.mem_cons.mp hu with impossible | later
        · cases impossible
        · exact left u later
      · rintro u hu notSkipped
        rcases List.mem_cons.mp hu with same | later
        · injection same with same
          subst same
          have again : u ∈ seen := known'.resolve_left (by simp [notSkipped])
          exact kept u (h.listed_of_seen again)
        · exact entered u later notSkipped
  | case4 v rest seen order unknown ih =>
      obtain ⟨first, kept, left, entered⟩ := ih h.expand
      have self := left v (by simp)
      refine ⟨first, kept, ?_, ?_⟩
      · rintro u hu
        rcases List.mem_cons.mp hu with impossible | later
        · cases impossible
        · exact left u (by simp [later])
      · rintro u hu notSkipped
        rcases List.mem_cons.mp hu with same | later
        · injection same with same
          exact same ▸ self
        · exact entered u (by simp [later]) notSkipped

omit [LawfulBEq ν] in
theorem walking_start (g : Graph ν) (skip : ν → Bool) (root : ν) :
    Walking g skip [.enter root] ∅ #[] :=
  ⟨.nil, trivial, by simp, by simp⟩

theorem operandsFirst_postOrderWhere (g : Graph ν) (skip : ν → Bool) (root : ν) :
    OperandsFirst g skip (g.postOrderWhere skip root).toList :=
  (g.walk_listed skip _ _ _ (g.walking_start skip root)).1

theorem mem_postOrderWhere (g : Graph ν) {skip : ν → Bool} {root : ν} (h : skip root = false) :
    root ∈ (g.postOrderWhere skip root).toList :=
  (g.walk_listed skip _ _ _ (g.walking_start skip root)).2.2.2 root (by simp) h

omit [LawfulBEq ν] in
/-- A walk lists only what is below the nodes that it enters or leaves. -/
theorem forall_mem_walk (g : Graph ν) {skip : ν → Bool} {P : ν → Prop}
    (closed : ∀ v, P v → ∀ u ∈ g.operands v, P u) (pending : List (Visit ν))
    (seen : Std.HashSet ν) (order : Array ν) (visits : ∀ p ∈ pending, P p.node)
    (listed : ∀ v ∈ order.toList, P v) : ∀ v ∈ (g.walk skip pending seen order).toList, P v := by
  fun_induction walk g skip pending seen order with
  | case1 seen order => exact listed
  | case2 v rest seen order ih =>
      refine ih (fun p hp => visits p (.tail _ hp)) fun u hu => ?_
      rw [Array.toList_push, List.mem_append, List.mem_singleton] at hu
      rcases hu with earlier | rfl
      · exact listed u earlier
      · exact visits (.leave u) (.head _)
  | case3 v rest seen order _ ih => exact ih (fun p hp => visits p (.tail _ hp)) listed
  | case4 v rest seen order _ ih =>
      have here : P v := visits (.enter v) (.head _)
      refine ih (fun p hp => ?_) listed
      rcases List.mem_append.mp hp with operand | later
      · obtain ⟨u, hu, rfl⟩ := List.mem_map.mp operand
        exact closed v here u hu
      · rcases List.mem_cons.mp later with rfl | later
        · exact here
        · exact visits p (.tail _ later)

omit [LawfulBEq ν] in
theorem forall_mem_postOrderWhere (g : Graph ν) {skip : ν → Bool} {root : ν} {P : ν → Prop}
    (closed : ∀ v, P v → ∀ u ∈ g.operands v, P u) (h : P root) :
    ∀ v ∈ (g.postOrderWhere skip root).toList, P v := by
  refine g.forall_mem_walk closed _ _ _ (fun p hp => ?_) (by simp)
  rw [List.mem_singleton.mp hp]
  exact h

end Walk

end PathSearch.Graph
