import PathSearch.Proofs.Expr.Canonical

/-! # Sharing leaves no trace in the canonical form

In memory an expression is a node that refers to the nodes of its operands. Equal parts may be one
node or several, and a walk tells nodes apart by identity. The canonical form is written from such a
walk, a part that was written before being left out, and it is the form of the expression alone.
-/

namespace PathSearch

universe u

/-- Nodes in memory, each with its operands and the expression that it is. -/
structure Heap (ν : Type u) extends Graph ν where
  shape : ν → Expr
  operands_shape : ∀ v, (operands v).map shape = (shape v).operands

namespace Heap

open PathSearch.Graph (firsts firsts_concat)

/-- Writes one more node, unless one of its shape is written. -/
def writeNew (w : Expr.Written) (e : Expr) : Expr.Written :=
  if w.1.contains e then w else Expr.writeRecord w e

/-- The canonical form, written from a walk over the nodes. -/
def canonical {ν : Type u} [BEq ν] [Hashable ν] (h : Heap ν) (root : ν) : List UInt8 :=
  ((h.postOrder root).foldl (fun w v => writeNew w (h.shape v)) (∅, [])).2.reverse.flatten

theorem foldl_writeNew (list : List Expr) :
    list.foldl writeNew (∅, []) = (firsts list).foldl Expr.writeRecord (∅, []) := by
  induction list using List.reverseRecOn with
  | nil => rfl
  | append_singleton list e ih =>
      have once : ([] ++ firsts list).Nodup := Graph.nodup_firsts list
      have known := (Expr.foldl_writeRecord .empty once).1.contains e
      rw [List.nil_append] at known
      rw [List.foldl_append, List.foldl_cons, List.foldl_nil, ih, firsts_concat, writeNew]
      split
      · rename_i written
        rw [if_pos (known.mp written)]
      · rename_i new
        rw [if_neg (mt known.mpr new), List.foldl_append]
        rfl

variable {ν : Type u} [BEq ν] [LawfulBEq ν] [Hashable ν]

/-- The form written from memory is that of the expression. -/
theorem canonical_eq (h : Heap ν) (root : ν) : h.canonical root = (h.shape root).canonical := by
  have start : Expr.graph.Closed (firsts (([] : List ν).map h.shape)) := fun _ none => by cases none
  have listed := Graph.firsts_visit h.operands_shape (v := root) start
  rw [canonical, ← Array.foldl_toList, Graph.postOrder, Graph.toList_postOrderWhere,
    ← List.foldl_map (f := h.shape) (g := writeNew), foldl_writeNew]
  exact listed ▸ (Expr.canonical_eq_foldl (h.shape root)).symm

end Heap

end PathSearch
