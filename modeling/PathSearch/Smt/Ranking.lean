/-! # A ranking of variables

Variables with a score each, and a heap of those that are waiting to be taken, the highest score
first. Scores of variables that matter now grow faster and faster, so older merits fade.
-/

namespace PathSearch.Smt

/-- Scores and a heap of variables, which are numbered from 0. -/
structure Ranking where
  score : Array Nat
  /-- Waiting variables; no score is above that of the parent. -/
  heap : Array Nat := #[]
  /-- For every variable one more than its position in the heap, 0 where it is not waiting. -/
  position : Array Nat
  /-- What a variable gains by being rewarded. -/
  gain : Nat := 1
  deriving Inhabited

namespace Ranking

/-- Puts a variable at a position of the heap. -/
def put (r : Ranking) (i v : Nat) : Ranking :=
  { r with heap := r.heap.setIfInBounds i v, position := r.position.setIfInBounds v (i + 1) }

/-- Moves the variable at a position up while its parent has a lower score. -/
def siftUp : (fuel i : Nat) → Ranking → Ranking
  | 0, _, r => r
  | fuel + 1, i, r =>
      let parent := (i - 1) / 2
      let v := r.heap.getD i 0
      let p := r.heap.getD parent 0
      if i ≠ 0 ∧ r.score.getD p 0 < r.score.getD v 0 then
        siftUp fuel parent ((r.put parent v).put i p)
      else r

/-- Moves the variable at a position down while a child has a higher score. -/
def siftDown : (fuel i : Nat) → Ranking → Ranking
  | 0, _, r => r
  | fuel + 1, i, r =>
      let left := 2 * i + 1
      if r.heap.size ≤ left then r
      else
        let right := left + 1
        let best :=
          if right < r.heap.size ∧
            r.score.getD (r.heap.getD left 0) 0 < r.score.getD (r.heap.getD right 0) 0
          then right else left
        let v := r.heap.getD i 0
        let c := r.heap.getD best 0
        if r.score.getD v 0 < r.score.getD c 0 then siftDown fuel best ((r.put i c).put best v)
        else r

/-- More than the depth of any heap. -/
def depth : Nat := 64

/-- Makes a variable wait, if it does not. -/
def insert (r : Ranking) (v : Nat) : Ranking :=
  if r.position.getD v 0 ≠ 0 then r
  else
    let i := r.heap.size
    siftUp depth i
      { r with heap := r.heap.push v, position := r.position.setIfInBounds v (i + 1) }

/-- The waiting variable of the highest score. -/
def top? (r : Ranking) : Option Nat := r.heap[0]?

/-- Takes the variable of the highest score off the heap. -/
def pop (r : Ranking) : Ranking :=
  let first := r.heap.getD 0 0
  let last := r.heap.back?.getD 0
  let r := { r with heap := r.heap.pop, position := r.position.setIfInBounds first 0 }
  if first = last then r else siftDown depth 0 (r.put 0 last)

/-- Gives a variable the current gain. -/
def reward (r : Ranking) (v : Nat) : Ranking :=
  let r := { r with score := r.score.modify v (· + r.gain) }
  match r.position.getD v 0 with
  | 0 => r
  | i + 1 => siftUp depth i r

/-- Makes later rewards count more, and keeps numbers small. -/
def age (r : Ranking) : Ranking :=
  let gain := r.gain + r.gain / 16 + 1
  if gain < 0x4000000000000 then { r with gain }
  else { r with score := r.score.map (· / 0x10000000000), gain := gain / 0x10000000000 + 1 }

/-- A ranking in which all of `n` variables wait. -/
def all (n : Nat) : Ranking where
  score := Array.replicate n 0
  heap := Array.range n
  position := (Array.range n).map (· + 1)

end Ranking

end PathSearch.Smt
