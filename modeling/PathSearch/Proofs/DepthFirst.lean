import Mathlib.Data.List.Induction
import Mathlib.Logic.Relation
import PathSearch.Proofs.Graph

/-! # A walk lists depth first

The visits that a walk keeps pending are those of a recursion: a node that is not listed yet gets
its operands listed from left to right and then itself.
-/

namespace PathSearch.Graph

universe u w

section Ways

variable {ν : Type u} {g : Graph ν} {skip : ν → Bool} {v w : ν}

/-- A way leads from operand to operand, through no node that is passed over. It may end at one. -/
def Reaches (g : Graph ν) (skip : ν → Bool) : ν → ν → Prop :=
  Relation.ReflTransGen fun v u => skip v = false ∧ u ∈ g.operands v

theorem Reaches.weight_le (way : g.Reaches skip v w) : g.weight w ≤ g.weight v := by
  induction way with
  | refl => exact Nat.le_refl _
  | tail _ last ih => exact Nat.le_trans (Nat.le_of_lt (g.weight_lt_of_mem_operands last.2)) ih

end Ways

variable {ν : Type u} [BEq ν]

/-- Lists what is below a node and the node itself behind the nodes listed so far. -/
def visit (g : Graph ν) (skip : ν → Bool) : ν → List ν → List ν :=
  g.acyclic.fix fun v below order =>
    if skip v || order.contains v then order
    else (g.operands v).attach.foldl (fun order ⟨u, hu⟩ => below u hu order) order ++ [v]

/-- Visits to several nodes, one after the other. -/
def visitAll (g : Graph ν) (skip : ν → Bool) (us order : List ν) : List ν :=
  us.foldl (fun order u => g.visit skip u order) order

variable {g : Graph ν} {skip : ν → Bool}

theorem visit_eq (v : ν) (order : List ν) : g.visit skip v order =
    if skip v || order.contains v then order else g.visitAll skip (g.operands v) order ++ [v] := by
  rw [visit, WellFounded.fix_eq, visitAll]
  simp [visit]

/-- What visits to nodes list was listed before, or one of the visits lists it. -/
theorem mem_visitAll {w : ν} {us order : List ν} {R : ν → Prop}
    (each : ∀ u ∈ us, ∀ order, w ∈ g.visit skip u order → w ∈ order ∨ R u)
    (h : w ∈ g.visitAll skip us order) : w ∈ order ∨ ∃ u ∈ us, R u := by
  induction us generalizing order with
  | nil => exact .inl h
  | cons u us ih =>
      rcases ih (fun u hu => each u (.tail _ hu)) h with visited | ⟨u', hu', below⟩
      · exact (each u (.head _) order visited).imp_right fun below => ⟨u, .head _, below⟩
      · exact .inr ⟨u', .tail _ hu', below⟩

theorem prefix_visitAll {us order : List ν}
    (each : ∀ u ∈ us, ∀ order, order <+: g.visit skip u order) : order <+: g.visitAll skip us order := by
  induction us generalizing order with
  | nil => exact List.prefix_rfl
  | cons u us ih => exact (each u (.head _) order).trans (ih fun u hu => each u (.tail _ hu))

/-- What is listed when pending visits are worked through. -/
def complete (g : Graph ν) (skip : ν → Bool) (pending : List (Visit ν)) (order : List ν) : List ν :=
  pending.foldl (fun order p => match p with
    | .enter v => g.visit skip v order
    | .leave v => order ++ [v]) order

theorem complete_enter (v : ν) (rest : List (Visit ν)) (order : List ν) :
    g.complete skip (.enter v :: rest) order = g.complete skip rest (g.visit skip v order) := rfl

theorem complete_enterOperands (v : ν) (rest : List (Visit ν)) (order : List ν) :
    g.complete skip (g.enterOperands v ++ .leave v :: rest) order =
      g.complete skip rest (g.visitAll skip (g.operands v) order ++ [v]) := by
  rw [complete, List.foldl_append, enterOperands, List.foldl_map]
  rfl

variable [LawfulBEq ν]

theorem visit_done {v : ν} {order : List ν} (done : skip v = true ∨ v ∈ order) :
    g.visit skip v order = order := by
  rw [visit_eq, if_pos]
  simpa using done

theorem visit_new {v : ν} {order : List ν} (wanted : skip v = false) (new : v ∉ order) :
    g.visit skip v order = g.visitAll skip (g.operands v) order ++ [v] := by
  rw [visit_eq, if_neg]
  simp [wanted, new]

theorem visit_cases (g : Graph ν) (skip : ν → Bool) (v : ν) (order : List ν) :
    (skip v = true ∨ v ∈ order) ∧ g.visit skip v order = order ∨
      skip v = false ∧ v ∉ order ∧
        g.visit skip v order = g.visitAll skip (g.operands v) order ++ [v] := by
  by_cases done : skip v = true ∨ v ∈ order
  · exact .inl ⟨done, visit_done done⟩
  · rw [not_or, Bool.not_eq_true] at done
    exact .inr ⟨done.1, done.2, visit_new done.1 done.2⟩

/-- A visit lists nothing but what it reaches. -/
theorem mem_visit {v w : ν} {order : List ν} (h : w ∈ g.visit skip v order) :
    w ∈ order ∨ g.Reaches skip v w ∧ skip w = false := by
  induction v using g.acyclic.induction generalizing order with
  | _ v ih =>
      rcases g.visit_cases skip v order with ⟨-, same⟩ | ⟨wanted, -, listed⟩
      · exact .inl (same ▸ h)
      · rw [listed, List.mem_append, List.mem_singleton] at h
        rcases h with h | rfl
        · rcases mem_visitAll (fun u hu _ => ih u hu) h with old | ⟨u, hu, way, unskipped⟩
          · exact .inl old
          · exact .inr ⟨way.head ⟨wanted, hu⟩, unskipped⟩
        · exact .inr ⟨.refl, wanted⟩

/-- The operands of a node do not list the node. -/
theorem not_mem_visitAll_operands {v : ν} {order : List ν} (new : v ∉ order) :
    v ∉ g.visitAll skip (g.operands v) order := by
  intro h
  rcases mem_visitAll (fun _ _ _ => mem_visit) h with old | ⟨u, hu, way, -⟩
  · exact new old
  · exact absurd way.weight_le (Nat.not_le_of_lt (g.weight_lt_of_mem_operands hu))

theorem prefix_visit (v : ν) (order : List ν) : order <+: g.visit skip v order := by
  induction v using g.acyclic.induction generalizing order with
  | _ v ih =>
      rcases g.visit_cases skip v order with ⟨-, same⟩ | ⟨-, -, listed⟩
      · exact ⟨[], (List.append_nil order).trans same.symm⟩
      · rw [listed]
        exact (prefix_visitAll fun u hu _ => ih u hu _).trans (List.prefix_append _ _)

theorem visited (g : Graph ν) (skip : ν → Bool) (v : ν) (order : List ν) :
    skip v = true ∨ v ∈ g.visit skip v order := by
  rcases g.visit_cases skip v order with ⟨done, same⟩ | ⟨-, -, listed⟩
  · rwa [same]
  · rw [listed]
    exact .inr List.mem_concat_self

theorem visitedAll {us order : List ν} {u : ν} (hu : u ∈ us) :
    skip u = true ∨ u ∈ g.visitAll skip us order := by
  induction us generalizing order with
  | nil => cases hu
  | cons first us ih =>
      rcases List.mem_cons.mp hu with rfl | later
      · have kept : g.visit skip u order <+: g.visitAll skip (u :: us) order :=
          prefix_visitAll fun u _ => prefix_visit u
        exact (g.visited skip u order).imp_right fun h => kept.subset h
      · exact ih later

/-- What a list of nodes keeps as it grows by a node that is new and has its operands listed, it
    keeps in a visit. -/
theorem visit_induction {P : List ν → Prop}
    (step : ∀ order v, P order → skip v = false → v ∉ order →
      (∀ u ∈ g.operands v, skip u = true ∨ u ∈ order) → P (order ++ [v]))
    {v : ν} {order : List ν} (h : P order) : P (g.visit skip v order) := by
  induction v using g.acyclic.induction generalizing order with
  | _ v ih =>
      rcases g.visit_cases skip v order with ⟨-, same⟩ | ⟨wanted, new, listed⟩
      · rwa [same]
      · have all : P (g.visitAll skip (g.operands v) order) :=
          List.foldlRecOn _ _ h fun order h u hu => ih u hu h
        rw [listed]
        exact step _ v all wanted (not_mem_visitAll_operands new) fun u hu => visitedAll hu

omit [BEq ν] [LawfulBEq ν] in
theorem nodup_concat {order : List ν} {v : ν} (new : v ∉ order) (once : order.Nodup) :
    (order ++ [v]).Nodup := by
  refine List.nodup_append.mpr ⟨once, List.pairwise_singleton _ v, fun u hu w hw => ?_⟩
  rintro rfl
  exact new (List.mem_singleton.mp hw ▸ hu)

theorem nodup_visit {v : ν} {order : List ν} (once : order.Nodup) : (g.visit skip v order).Nodup :=
  visit_induction (fun _ _ once _ new _ => nodup_concat new once) once

section Walk

variable [Hashable ν]

/-- Nodes that are listed or are about to be left have been seen. -/
structure Noted (pending : List (Visit ν)) (seen : Std.HashSet ν) (order : Array ν) : Prop where
  listed : ∀ v ∈ order.toList, v ∈ seen
  leaving : ∀ v, .leave v ∈ pending → v ∈ seen

/-- A walk lists what the visits that are pending list. -/
theorem toList_walk (g : Graph ν) (skip : ν → Bool) (pending : List (Visit ν))
    (seen : Std.HashSet ν) (order : Array ν) (h : Walking g skip pending seen order)
    (noted : Noted pending seen order) :
    (g.walk skip pending seen order).toList = g.complete skip pending order.toList := by
  fun_induction walk g skip pending seen order with
  | case1 seen order => rfl
  | case2 v rest seen order ih =>
      have noted' : Noted rest seen (order.push v) := by
        refine ⟨fun u hu => ?_, fun u hu => noted.leaving u (.tail _ hu)⟩
        rw [Array.toList_push, List.mem_append, List.mem_singleton] at hu
        rcases hu with listed | rfl
        · exact noted.listed u listed
        · exact noted.leaving u (.head _)
      rw [ih h.leave noted', Array.toList_push]
      rfl
  | case3 v rest seen order known ih =>
      have known' : skip v = true ∨ v ∈ seen := by simpa using known
      have noted' : Noted rest seen order :=
        ⟨noted.listed, fun u hu => noted.leaving u (.tail _ hu)⟩
      rw [ih (h.pass known') noted', complete_enter, visit_done (known'.imp_right h.listed_of_seen)]
  | case4 v rest seen order unknown ih =>
      obtain ⟨wanted, unseen⟩ : skip v = false ∧ v ∉ seen := by simpa using unknown
      have new : v ∉ order.toList := fun listed => unseen (noted.listed v listed)
      have noted' : Noted (g.enterOperands v ++ .leave v :: rest) (seen.insert v) order := by
        refine ⟨fun u hu => Std.HashSet.mem_insert.mpr (.inr (noted.listed u hu)), fun u hu => ?_⟩
        rcases List.mem_append.mp hu with operand | later
        · obtain ⟨_, -, impossible⟩ := List.mem_map.mp operand
          cases impossible
        · rcases List.mem_cons.mp later with same | later
          · cases same
            exact Std.HashSet.mem_insert_self
          · exact Std.HashSet.mem_insert.mpr (.inr (noted.leaving u (.tail _ later)))
      rw [ih h.expand noted', complete_enterOperands, ← visit_new wanted new, complete_enter]

theorem toList_postOrderWhere (g : Graph ν) (skip : ν → Bool) (root : ν) :
    (g.postOrderWhere skip root).toList = g.visit skip root [] :=
  g.toList_walk skip _ _ _ (g.walking_start skip root) ⟨by simp, by simp⟩

end Walk

section Image

/-- The operands of every listed node are listed. -/
def Closed (g : Graph ν) (order : List ν) : Prop := ∀ v ∈ order, ∀ u ∈ g.operands v, u ∈ order

theorem closed_visit {v : ν} {order : List ν} (closed : g.Closed order) :
    g.Closed (g.visit (fun _ => false) v order) := by
  refine visit_induction (fun order v closed _ _ operands => ?_) closed
  intro w hw u hu
  rcases List.mem_append.mp hw with listed | here
  · exact List.mem_append_left _ (closed w listed u hu)
  · rw [List.mem_singleton.mp here] at hu
    exact List.mem_append_left _ ((operands u hu).resolve_left Bool.false_ne_true)

theorem visitAll_listed {us order : List ν} (listed : ∀ u ∈ us, u ∈ order) :
    g.visitAll skip us order = order := by
  induction us with
  | nil => rfl
  | cons u us ih =>
      rw [visitAll, List.foldl_cons, visit_done (.inr (listed u (.head _)))]
      exact ih fun u hu => listed u (.tail _ hu)

/-- A list without what stands in it already further in front. -/
def firsts (list : List ν) : List ν :=
  list.foldl (fun kept v => if kept.contains v then kept else kept ++ [v]) []

theorem firsts_concat (list : List ν) (v : ν) :
    firsts (list ++ [v]) = if v ∈ firsts list then firsts list else firsts list ++ [v] := by
  rw [firsts, List.foldl_append, List.foldl_cons, List.foldl_nil, ← firsts]
  simp only [List.contains_iff_mem]

theorem mem_firsts {list : List ν} {v : ν} (h : v ∈ list) : v ∈ firsts list := by
  induction list using List.reverseRecOn with
  | nil => cases h
  | append_singleton list last ih =>
      rw [firsts_concat]
      rcases List.mem_append.mp h with listed | here
      · split
        · exact ih listed
        · exact List.mem_append_left _ (ih listed)
      · rw [List.mem_singleton.mp here]
        split
        · assumption
        · exact List.mem_concat_self

theorem nodup_firsts (list : List ν) : (firsts list).Nodup := by
  induction list using List.reverseRecOn with
  | nil => exact .nil
  | append_singleton list last ih =>
      rw [firsts_concat]
      split
      · exact ih
      · rename_i new
        exact nodup_concat new ih

variable {μ : Type w} [BEq μ] [LawfulBEq μ] {image : Graph μ} {f : ν → μ}

omit [LawfulBEq ν] in
theorem firsts_visitAll {us order : List ν}
    (each : ∀ u ∈ us, ∀ order, image.Closed (firsts (order.map f)) →
      firsts ((g.visit (fun _ => false) u order).map f) =
        image.visit (fun _ => false) (f u) (firsts (order.map f)))
    (closed : image.Closed (firsts (order.map f))) :
    firsts ((g.visitAll (fun _ => false) us order).map f) =
      image.visitAll (fun _ => false) (us.map f) (firsts (order.map f)) := by
  induction us generalizing order with
  | nil => rfl
  | cons u us ih =>
      have first := each u (.head _) order closed
      have closed' : image.Closed (firsts ((g.visit (fun _ => false) u order).map f)) :=
        first ▸ closed_visit closed
      rw [visitAll, List.foldl_cons, ← visitAll, ih (fun u hu => each u (.tail _ hu)) closed', first]
      rfl

/-- Where a graph is mapped to another one with the operands of each node, visits to the nodes
    list, up to repetitions, the images that visits to the images list. -/
theorem firsts_visit (operands : ∀ v, (g.operands v).map f = image.operands (f v)) {v : ν}
    {order : List ν} (closed : image.Closed (firsts (order.map f))) :
    firsts ((g.visit (fun _ => false) v order).map f) =
      image.visit (fun _ => false) (f v) (firsts (order.map f)) := by
  induction v using g.acyclic.induction generalizing order with
  | _ v ih =>
      rcases g.visit_cases (fun _ => false) v order with ⟨done, same⟩ | ⟨-, -, listed⟩
      · have listed : v ∈ order := done.resolve_left Bool.false_ne_true
        rw [same, visit_done (.inr (mem_firsts (List.mem_map_of_mem listed)))]
      rw [listed, List.map_append, List.map_singleton, firsts_concat,
        firsts_visitAll (fun u hu _ => ih u hu) closed, operands]
      -- if an equal node is listed, the images of the operands are, and both visits add nothing
      by_cases known : f v ∈ firsts (order.map f)
      · rw [visitAll_listed (closed (f v) known), if_pos known, visit_done (.inr known)]
      · rw [if_neg (not_mem_visitAll_operands known), visit_new rfl known]

end Image

end PathSearch.Graph
