import PathSearch.Proofs.DepthFirst

/-! # A walk is a topological order

The loop of a walk takes one visit off its stack in every round. It ends after as many rounds as there are
nodes that it lists and operands of these, and one more, however often the nodes are shared. What it lists
are the nodes that are reached from the root through no node that is passed over, each once and behind
those of its operands that are not passed over.
-/

namespace PathSearch.Graph

universe u

variable {ν : Type u}

section Rounds

variable [BEq ν] [Hashable ν]

/-- What the loop of a walk works on: the visits left, the nodes seen and the nodes listed. -/
structure Moment (ν : Type u) [BEq ν] [Hashable ν] where
  pending : List (Visit ν)
  seen : Std.HashSet ν
  order : Array ν

/-- The moment at which a walk starts. -/
def Moment.start (root : ν) : Moment ν := ⟨[.enter root], ∅, #[]⟩

/-- One round of the loop, which takes the visit in front. -/
inductive Round (g : Graph ν) (skip : ν → Bool) : Moment ν → Moment ν → Prop where
  | leave (v : ν) (rest : List (Visit ν)) (seen : Std.HashSet ν) (order : Array ν) :
      Round g skip ⟨.leave v :: rest, seen, order⟩ ⟨rest, seen, order.push v⟩
  | pass (v : ν) (rest : List (Visit ν)) (seen : Std.HashSet ν) (order : Array ν)
      (known : (skip v || seen.contains v) = true) :
      Round g skip ⟨.enter v :: rest, seen, order⟩ ⟨rest, seen, order⟩
  | expand (v : ν) (rest : List (Visit ν)) (seen : Std.HashSet ν) (order : Array ν)
      (unknown : ¬ (skip v || seen.contains v) = true) :
      Round g skip ⟨.enter v :: rest, seen, order⟩
        ⟨g.enterOperands v ++ .leave v :: rest, seen.insert v, order⟩

/-- A number of rounds, one after the other. -/
inductive Rounds (g : Graph ν) (skip : ν → Bool) : Nat → Moment ν → Moment ν → Prop where
  | none (m : Moment ν) : Rounds g skip 0 m m
  | next {n : Nat} {m m' m'' : Moment ν} (first : Round g skip m m') (later : Rounds g skip n m' m'') :
      Rounds g skip (n + 1) m m''

/-- The visits that a node brings in when it is entered: those to its operands and the one that
    lists it. -/
def visits (g : Graph ν) (v : ν) : Nat := (g.operands v).length + 1

/-- The visits that were brought in together with a pending one. -/
def Visit.siblings (g : Graph ν) : Visit ν → Nat
  | .enter _ => 0
  | .leave v => g.visits v

variable {g : Graph ν} {skip : ν → Bool} {m m' m'' : Moment ν}

theorem Round.unique (one : g.Round skip m m') (other : g.Round skip m m'') : m' = m'' := by
  cases one <;> cases other
  case leave.leave | pass.pass | expand.expand => rfl
  all_goals contradiction

/-- Every run is the beginning of the one that leaves nothing pending. -/
theorem Rounds.le_of_ends {n k : Nat} {seen : Std.HashSet ν} {order : Array ν}
    (run : g.Rounds skip n m m') (ends : g.Rounds skip k m ⟨[], seen, order⟩) :
    n ≤ k ∧ g.Rounds skip (k - n) m' ⟨[], seen, order⟩ := by
  induction run generalizing k with
  | none m => exact ⟨Nat.zero_le _, ends⟩
  | next first _ ih =>
      cases ends with
      | none => cases first
      | next first' later =>
          cases first.unique first'
          obtain ⟨le, rest⟩ := ih later
          rw [Nat.add_sub_add_right]
          exact ⟨Nat.succ_le_succ le, rest⟩

omit [BEq ν] [Hashable ν] in
theorem total_siblings_enterOperands (g : Graph ν) (v : ν) :
    total ((g.enterOperands v).map (Visit.siblings g)) = 0 := by
  have none : (g.enterOperands v).map (Visit.siblings g) = (g.operands v).map fun _ => 0 := by
    rw [enterOperands, List.map_map]
    rfl
  rw [none]
  generalize g.operands v = us
  induction us with
  | nil => rfl
  | cons u us ih => rw [List.map_cons, total_cons, ih]

/-- The loop ends. Each visit that is pending, or is brought in later, takes one round. -/
theorem rounds_walk (g : Graph ν) (skip : ν → Bool) (pending : List (Visit ν)) (seen : Std.HashSet ν)
    (order : Array ν) :
    ∃ n seen', g.Rounds skip n ⟨pending, seen, order⟩ ⟨[], seen', g.walk skip pending seen order⟩ ∧
      n + total (order.toList.map g.visits) + total (pending.map (Visit.siblings g)) =
        pending.length + total ((g.walk skip pending seen order).toList.map g.visits) := by
  fun_induction walk g skip pending seen order with
  | case1 seen order => exact ⟨0, seen, .none _, by simp [total]⟩
  | case2 v rest seen order ih =>
      obtain ⟨n, seen', run, count⟩ := ih
      refine ⟨n + 1, seen', .next (.leave v rest seen order) run, ?_⟩
      simp only [Array.toList_push, List.map_append, List.map_cons, List.map_nil, total_append,
        total_cons, List.length_cons, Visit.siblings] at count ⊢
      have nothing : total [] = 0 := rfl
      omega
  | case3 v rest seen order known ih =>
      obtain ⟨n, seen', run, count⟩ := ih
      refine ⟨n + 1, seen', .next (.pass v rest seen order known) run, ?_⟩
      simp only [List.map_cons, total_cons, List.length_cons, Visit.siblings] at count ⊢
      omega
  | case4 v rest seen order unknown ih =>
      obtain ⟨n, seen', run, count⟩ := ih
      refine ⟨n + 1, seen', .next (.expand v rest seen order unknown) run, ?_⟩
      have length : (g.enterOperands v).length = (g.operands v).length := List.length_map _
      simp only [List.map_append, List.map_cons, total_append, total_cons, List.length_append,
        List.length_cons, Visit.siblings, total_siblings_enterOperands, visits] at count ⊢
      omega

theorem rounds_postOrderWhere (g : Graph ν) (skip : ν → Bool) (root : ν) :
    ∃ seen, g.Rounds skip (1 + total ((g.postOrderWhere skip root).toList.map g.visits))
      (.start root) ⟨[], seen, g.postOrderWhere skip root⟩ := by
  obtain ⟨n, seen, run, count⟩ := g.rounds_walk skip [.enter root] ∅ #[]
  have alone : total ([.enter root].map (Visit.siblings g)) = 0 := rfl
  have nothing : total (#[].toList.map g.visits) = 0 := rfl
  rw [nothing, alone, Nat.add_zero, List.length_singleton] at count
  exact ⟨seen, count ▸ run⟩

end Rounds

section Listed

variable {g : Graph ν} {skip : ν → Bool} {root v : ν}

/-- With a node everything below it is passed over, so a way to a node that is not passed over goes
    through none that is. -/
theorem Reaches.unskipped (closed : ∀ v, skip v = true → ∀ u ∈ g.operands v, skip u = true)
    (way : g.Reaches (fun _ => false) root v) (wanted : skip v = false) : g.Reaches skip root v := by
  induction way with
  | refl => exact .refl
  | @tail v u _ last ih =>
      have before : skip v = false := by
        by_contra skipped
        have := closed v (by simpa using skipped) u last.2
        simp [wanted] at this
      exact (ih before).tail ⟨before, last.2⟩

theorem Reaches.unconditional (way : g.Reaches skip root v) : g.Reaches (fun _ => false) root v :=
  Relation.ReflTransGen.mono (fun _ _ step => ⟨rfl, step.2⟩) root v way

variable [BEq ν] [LawfulBEq ν] [Hashable ν]

theorem wanted_of_mem_postOrderWhere (h : v ∈ (g.postOrderWhere skip root).toList) :
    g.Reaches skip root v ∧ skip v = false := by
  rw [toList_postOrderWhere] at h
  exact (mem_visit h).resolve_left List.not_mem_nil

/-- A walk gets to what is reached, since the operands of a node are listed with it. -/
theorem mem_postOrderWhere_of_reaches (way : g.Reaches skip root v) (wanted : skip v = false) :
    v ∈ (g.postOrderWhere skip root).toList := by
  induction way with
  | refl => exact g.mem_postOrderWhere wanted
  | @tail v u _ last ih =>
      have listed := ih last.1
      obtain ⟨front, rest, split⟩ := List.append_of_mem listed
      have first := (g.operandsFirst_postOrderWhere skip root).in_front split u last.2
      have inFront : u ∈ front := first.resolve_left (by simp [wanted])
      rw [split]
      exact List.mem_append_left _ inFront

theorem getLast?_postOrderWhere (wanted : skip root = false) :
    (g.postOrderWhere skip root).toList.getLast? = some root := by
  rw [toList_postOrderWhere, visit_new wanted List.not_mem_nil, List.getLast?_concat]

end Listed

/-- The loop of a walk ends from wherever it has come to, after one round for each visit that there is
    to a listed node or its operands. The list has the nodes that are reached through none that is passed
    over, and that are not passed over themselves: each of them once, behind its operands, the root last.
    Where with a node everything below it is passed over, these are all nodes below the root but for
    those that are passed over. -/
theorem postOrderWhere_topological [BEq ν] [LawfulBEq ν] [Hashable ν] (g : Graph ν) (skip : ν → Bool)
    (root : ν) :
    let order := (g.postOrderWhere skip root).toList
    (∃ seen, ∀ n m, g.Rounds skip n (.start root) m →
      n ≤ 1 + total (order.map g.visits) ∧
        g.Rounds skip (1 + total (order.map g.visits) - n) m
          ⟨[], seen, g.postOrderWhere skip root⟩) ∧
    order.Nodup ∧
    (∀ v, v ∈ order ↔ g.Reaches skip root v ∧ skip v = false) ∧
    (∀ front v rest, order = front ++ v :: rest →
      ∀ u ∈ g.operands v, skip u = false → u ∈ front) ∧
    (skip root = false → order.getLast? = some root) ∧
    ((∀ v, skip v = true → ∀ u ∈ g.operands v, skip u = true) →
      ∀ v, v ∈ order ↔ g.Reaches (fun _ => false) root v ∧ skip v = false) := by
  intro order
  have listed (v : ν) : v ∈ order ↔ g.Reaches skip root v ∧ skip v = false :=
    ⟨wanted_of_mem_postOrderWhere, fun ⟨way, wanted⟩ => mem_postOrderWhere_of_reaches way wanted⟩
  refine ⟨?_, ?_, listed, ?_, getLast?_postOrderWhere, ?_⟩
  · obtain ⟨seen, ends⟩ := g.rounds_postOrderWhere skip root
    exact ⟨seen, fun n m run => run.le_of_ends ends⟩
  · change (g.postOrderWhere skip root).toList.Nodup
    rw [toList_postOrderWhere]
    exact nodup_visit .nil
  · intro front v rest split u hu wanted
    have first := (g.operandsFirst_postOrderWhere skip root).in_front split u hu
    exact first.resolve_left (by simp [wanted])
  · intro closed v
    rw [listed]
    constructor
    · rintro ⟨way, wanted⟩
      exact ⟨way.unconditional, wanted⟩
    · rintro ⟨way, wanted⟩
      exact ⟨way.unskipped closed wanted, wanted⟩

/-- A node over two others, which share a third and use a fourth that is done. -/
def diamond : Graph Nat where
  operands
    | 4 => [3, 2]
    | 3 => [1, 1]
    | 2 => [1, 0]
    | _ => []
  acyclic := by
    apply Subrelation.wf _ Nat.lt_wfRel.wf
    intro a b ha
    change a < b
    split at ha <;> simp at ha <;> omega

theorem postOrderWhere_topological_diamond :
    let skip : Nat → Bool := (· == 0)
    let order := (diamond.postOrderWhere skip 4).toList
    order = [1, 3, 2, 4] ∧ order.Nodup ∧ order.getLast? = some 4 ∧
      (∃ seen, diamond.Rounds skip 11 (.start 4) ⟨[], seen, diamond.postOrderWhere skip 4⟩) ∧
      (∀ v, skip v = true → ∀ u ∈ diamond.operands v, skip u = true) ∧
      ∀ v, v ∈ order ↔ diamond.Reaches (fun _ => false) 4 v ∧ skip v = false := by
  intro skip order
  have listed : order = [1, 3, 2, 4] := by
    simp [order, skip, postOrderWhere, walk, enterOperands, diamond]
  have count : 1 + total (order.map diamond.visits) = 11 := by
    rw [listed]
    rfl
  have closed : ∀ v, skip v = true → ∀ u ∈ diamond.operands v, skip u = true := by
    intro v skipped u hu
    obtain rfl : v = 0 := by simpa [skip] using skipped
    cases hu
  obtain ⟨⟨seen, runs⟩, once, -, -, last, below⟩ := diamond.postOrderWhere_topological skip 4
  have run := (runs 0 _ (.none _)).2
  rw [count] at run
  exact ⟨listed, once, last rfl, ⟨seen, run⟩, closed, below closed⟩

end PathSearch.Graph
