import Std.Data.HashSet

/-! # Walking an acyclic graph, operands first

A graph is given by the operands of each of its nodes. Equality of nodes is their identity: a node
that is an operand of several others is one node, and a walk lists it once, after its operands and
before the first node that uses it.
-/

namespace PathSearch

universe u

/-- The same value with equal parts kept once in store. Nodes that were made apart but are equal are
    found to be so in one step afterwards, which keeps a walk as short as the number of nodes. -/
def shareParts {α : Type u} (a : α) : α := ShareCommon.shareCommon' a

@[simp] theorem shareParts_eq {α : Type u} (a : α) : shareParts a = a := rfl

/-- Nodes with finitely many operands each and no infinite chain of operands. -/
structure Graph (ν : Type u) where
  operands : ν → List ν
  acyclic : WellFounded fun a b => a ∈ operands b

namespace Graph

variable {ν : Type u}

/-- The total of finitely many weights. -/
def total (ns : List Nat) : Nat := ns.foldr (· + ·) 0

theorem total_cons (n : Nat) (ns : List Nat) : total (n :: ns) = n + total ns := rfl

theorem total_append (ns ms : List Nat) : total (ns ++ ms) = total ns + total ms := by
  induction ns with
  | nil => simp [total]
  | cons n ns ih => rw [List.cons_append, total_cons, total_cons, ih, Nat.add_assoc]

/-- Twice the size of the tree that a node unfolds to. It bounds the work of a walk. -/
noncomputable def weight (g : Graph ν) : ν → Nat :=
  g.acyclic.fix fun v below => 2 + total ((g.operands v).attach.map fun u => below u.1 u.2)

theorem weight_eq (g : Graph ν) (v : ν) :
    g.weight v = 2 + total ((g.operands v).map g.weight) := by
  rw [weight, WellFounded.fix_eq]
  simp

/-- A pending part of a walk. -/
inductive Visit (ν : Type u) where
  /-- Look at the node: list its operands, then the node itself. -/
  | enter (v : ν)
  /-- The operands are listed: list the node. -/
  | leave (v : ν)

/-- The work that a pending visit can cause. -/
noncomputable def visitWeight (g : Graph ν) : Visit ν → Nat
  | .enter v => g.weight v
  | .leave _ => 1

/-- Visits to all operands of a node. -/
def enterOperands (g : Graph ν) (v : ν) : List (Visit ν) := (g.operands v).map .enter

theorem total_visitWeight_enterOperands (g : Graph ν) (v : ν) :
    total ((g.enterOperands v).map g.visitWeight) = total ((g.operands v).map g.weight) := by
  rw [enterOperands, List.map_map]
  rfl

section Walk

variable [BEq ν] [Hashable ν]

/-- Works through pending visits, collecting nodes in the order in which they are left. Nodes for
    which `skip` holds, and what is only below them, are passed over. -/
def walk (g : Graph ν) (skip : ν → Bool) :
    List (Visit ν) → Std.HashSet ν → Array ν → Array ν
  | [], _, order => order
  | .leave v :: rest, seen, order => walk g skip rest seen (order.push v)
  | .enter v :: rest, seen, order =>
      if skip v || seen.contains v then walk g skip rest seen order
      else walk g skip (g.enterOperands v ++ .leave v :: rest) (seen.insert v) order
termination_by pending => total (pending.map g.visitWeight)
decreasing_by
  · simp only [List.map_cons, total_cons, visitWeight]
    omega
  · have := g.weight_eq v
    simp only [List.map_cons, total_cons, visitWeight]
    omega
  · have := g.weight_eq v
    simp only [List.map_append, List.map_cons, total_append, total_cons,
      total_visitWeight_enterOperands, visitWeight]
    omega

/-- The nodes below and including `root`, each once and after its operands, without those for which
    `skip` holds and those that are only below such. -/
def postOrderWhere (g : Graph ν) (skip : ν → Bool) (root : ν) : Array ν :=
  g.walk skip [.enter root] ∅ #[]

/-- The nodes below and including `root`, each once and after its operands. -/
def postOrder (g : Graph ν) (root : ν) : Array ν :=
  g.postOrderWhere (fun _ => false) root

end Walk

end Graph

end PathSearch
