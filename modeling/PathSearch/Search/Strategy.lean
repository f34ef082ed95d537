import PathSearch.Search.Random
import PathSearch.State.Basic

/-! # The order of a search

A strategy picks the state to go on with, and the state to give up when there are too many.
-/

namespace PathSearch

/-- A way to pick from the queue of active states, with a memory of type `σ`. -/
structure Strategy (σ : Type) where
  name : String
  /-- The place of the state to step next. -/
  select : List State → σ → Option Nat × σ
  /-- The place of the state to give up. -/
  evict : List State → σ → Option Nat × σ

namespace Strategy

variable {σ : Type}

/-- The first place of a queue. -/
def first? (queue : List State) : Option Nat := if queue.isEmpty then none else some 0

/-- The last place of a queue. -/
def last? (queue : List State) : Option Nat :=
  if queue.isEmpty then none else some (queue.length - 1)

/-- Goes on with the newest state and gives up the oldest. -/
def depthFirst : Strategy σ where
  name := "dfs"
  select queue m := (last? queue, m)
  evict queue m := (first? queue, m)

/-- Goes on with the oldest state and gives up the newest. -/
def breadthFirst : Strategy σ where
  name := "bfs"
  select queue m := (first? queue, m)
  evict queue m := (last? queue, m)

/-- A random place of a queue; an empty queue draws nothing. -/
def draw (queue : List State) (r : Random) : Option Nat × Random :=
  if queue.isEmpty then (none, r)
  else
    let (i, r) := r.below queue.length
    (some i, r)

/-- Goes on with, and gives up, any state. -/
def random : Strategy Random where
  name := "random"
  select := draw
  evict := draw

end Strategy

end PathSearch
