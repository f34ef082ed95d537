import PathSearch.Smt.Circuit
import PathSearch.Smt.Derived
import PathSearch.Smt.Ranking

/-! # Search for a satisfying assignment

Clauses are searched by unit propagation, decisions and learning from conflicts. The first two
literals of every clause are watched, so a clause is looked at only when one of them becomes false.
A conflict is resolved back to the first literal of its level that implies it, the clause learnt
from that is kept, and the search goes back to the level at which the clause becomes a unit.

Learnt clauses whose literals were set at few levels are kept for good; of the others, half are
forgotten from time to time. The search starts over, with what it learnt, whenever recent clauses
are worse than those before.

Beside the search stand the clauses and literals that were derived so far. What the search learns has to
be derived with the clauses that the analysis of the conflict used, and that there is no assignment is
said of what was derived, not of what the search believes.
-/

namespace PathSearch.Smt

/-- A search in progress. Variables and literals are numbered as in a circuit. -/
structure Search where
  /-- Clauses, the watched literals first. A forgotten clause has no literals. -/
  clauses : Array (Array Lit) := #[]
  /-- Learnt clauses that may be forgotten, each with the number of levels of its literals. -/
  learnt : Array (Nat × Nat) := #[]
  /-- For every literal, the clauses that watch it, each followed by another of its literals. -/
  watchers : Array (Array Nat)
  /-- For every literal 0 while it is open, 1 where it is true, 2 where it is false. -/
  values : Array UInt8
  /-- For every variable, the level at which it was set. -/
  levels : Array Nat
  /-- For every variable, one more than the clause that set it, 0 for a decision. -/
  reasons : Array Nat
  /-- For every variable, its place on the trail. -/
  places : Array Nat
  /-- The literals made true, in order. -/
  trail : Array Lit := #[]
  /-- The length of the trail at every decision. -/
  limits : Array Nat := #[]
  /-- The number of literals of the trail whose consequences are drawn. -/
  head : Nat := 0
  /-- Open variables, by their part in conflicts. -/
  ranking : Ranking
  /-- The value each variable had last. -/
  phases : Array Bool
  /-- For every variable, what the analysis of a conflict found: 1 where it is in the learnt clause,
      2 where it follows from that clause, 3 where it does not. -/
  marks : Array UInt8
  conflicts : Nat := 0
  /-- The average number of levels in recent learnt clauses, and in all, in 1/1024. -/
  recent : Nat := 0
  overall : Nat := 0
  /-- The number of conflicts at which the search may start over. -/
  restartAt : Nat := 50
  /-- The number of conflicts at which clauses are forgotten. -/
  forgetAt : Nat := 2000
  /-- How much later clauses are forgotten each time. -/
  patience : Nat := 2000
  deriving Inhabited

namespace Search

def value (s : Search) (l : Lit) : UInt8 := s.values.getD l 0

def level (s : Search) : Nat := s.limits.size

def levelOf (s : Search) (l : Lit) : Nat := s.levels.getD (l / 2) 0

/-- Makes a literal true. -/
def assign (s : Search) (l : Lit) (reason : Nat) : Search :=
  let v := l / 2
  let level := s.limits.size
  { s with
    values := (s.values.setIfInBounds l 1).setIfInBounds l.neg 2
    levels := s.levels.setIfInBounds v level
    reasons := s.reasons.setIfInBounds v reason
    places := s.places.setIfInBounds v s.trail.size
    trail := s.trail.push l }

/-- Adds a clause of at least two literals. -/
def attach (s : Search) (clause : Array Lit) : Search :=
  let n := s.clauses.size
  let a := clause.getD 0 0
  let b := clause.getD 1 0
  { s with
    clauses := s.clauses.push clause
    watchers := (s.watchers.modify a fun w => (w.push n).push b).modify b fun w =>
      (w.push n).push a }

/-- The place, from `i` on, of a literal that is not false, among `n` literals of a clause. -/
def findOpen (s : Search) (clause : Array Lit) : (n i : Nat) → Option Nat
  | 0, _ => none
  | n + 1, i => if s.value (clause.getD i 0) = 2 then findOpen s clause n (i + 1) else some i

/-- Moves `n` entries of a list of watching clauses from place `i` down to place `j`. -/
def moveRest : (n i j : Nat) → Array Nat → Array Nat
  | 0, _, j, watching => watching.shrink j
  | n + 1, i, j, watching => moveRest n (i + 1) (j + 1) (watching.setIfInBounds j (watching.getD i 0))

/-- Goes through `n` of the clauses that watch the literal `f`, which became false, from place `i`
    on: each finds another literal to watch, makes its other watched literal true, or is in
    conflict. Those that go on watching `f` are kept from place `j` on. -/
def visitWatchers (f : Lit) :
    (n i j : Nat) → Array Nat → Search → Search × Array Nat × Option Nat
  | 0, _, j, watching, s => (s, watching.shrink j, none)
  | n + 1, i, j, watching, s =>
      let c := watching.getD i 0
      let blocker := watching.getD (i + 1) 0
      let keep (watching : Array Nat) (other : Lit) : Array Nat :=
        (watching.setIfInBounds j c).setIfInBounds (j + 1) other
      if s.value blocker = 1 then
        visitWatchers f n (i + 2) (j + 2) (keep watching blocker) s
      else
        let clause := s.clauses.getD c #[]
        if clause.size = 0 then visitWatchers f n (i + 2) j watching s
        else
          let a := clause.getD 0 0
          let other := if a = f then clause.getD 1 0 else a
          if s.value other = 1 then visitWatchers f n (i + 2) (j + 2) (keep watching other) s
          else match findOpen s clause (clause.size - 2) 2 with
            | some k =>
                let l := clause.getD k 0
                let s := { s with
                  clauses := s.clauses.modify c fun clause =>
                    ((clause.setIfInBounds 0 other).setIfInBounds 1 l).setIfInBounds k f
                  watchers := s.watchers.modify l fun w => (w.push c).push other }
                visitWatchers f n (i + 2) j watching s
            | none =>
                if s.value other = 2 then
                  (s, moveRest (2 * n) (i + 2) (j + 2) (keep watching other), some c)
                else
                  visitWatchers f n (i + 2) (j + 2) (keep watching other) (s.assign other (c + 1))

/-- Draws the consequences of the trail, up to a conflict. -/
def propagate : (fuel : Nat) → Search → Search × Option Nat
  | 0, s => (s, none)
  | fuel + 1, s =>
      if s.trail.size ≤ s.head then (s, none)
      else
        let f := (s.trail.getD s.head 0).neg
        let watching := s.watchers.getD f #[]
        let s := { s with head := s.head + 1, watchers := s.watchers.setIfInBounds f #[] }
        let (s, watching, conflict) := visitWatchers f (watching.size / 2) 0 0 watching s
        let s := { s with watchers := s.watchers.setIfInBounds f watching }
        match conflict with
        | some c => (s, some c)
        | none => propagate fuel s

/-- What is found while a conflict is analysed. -/
structure Analysis where
  search : Search
  /-- The number of marked variables of the current level that are still to be resolved. -/
  pending : Nat := 0
  /-- Literals of lower levels, all false. -/
  lower : Array Lit := #[]
  /-- The marked variables of the current level. -/
  resolved : Array Nat := #[]
  /-- The clauses that were resolved with, the last one first. -/
  used : List Nat := []

/-- Takes up a literal of a clause. -/
def takeUp (x : Analysis) (l : Lit) : Analysis :=
  let v := l / 2
  let level := x.search.levels.getD v 0
  if x.search.marks.getD v 0 ≠ 0 ∨ level = 0 then x
  else
    let x := { x with search := { x.search with
      marks := x.search.marks.setIfInBounds v 1
      ranking := x.search.ranking.reward v } }
    if level = x.search.limits.size then
      { x with pending := x.pending + 1, resolved := x.resolved.push v }
    else { x with lower := x.lower.push l }

/-- Resolves a conflict back along the first `n` literals of the trail, to the literal that implies
    the conflict at this level. -/
def resolve : (n : Nat) → Analysis → Lit × Analysis
  | 0, x => (0, x)
  | n + 1, x =>
      let p := x.search.trail.getD n 0
      let v := p / 2
      if x.search.marks.getD v 0 = 0 then resolve n x
      else if x.pending ≤ 1 then (p, x)
      else
        let reason := x.search.reasons.getD v 0 - 1
        let clause := x.search.clauses.getD reason #[]
        resolve n (clause.foldl takeUp { x with pending := x.pending - 1, used := reason :: x.used })

/-- Whether a false literal follows from the marked ones, looking at most `fuel` reasons deep. Marks
    what it finds out. -/
def follows : (fuel : Nat) → Search × Array Nat → Lit → Bool × Search × Array Nat
  | 0, x, _ => (false, x)
  | fuel + 1, (s, found), l =>
      let v := l / 2
      let mark := s.marks.getD v 0
      let reason := s.reasons.getD v 0
      if mark = 1 ∨ mark = 2 ∨ s.levels.getD v 0 = 0 then (true, s, found)
      else if mark = 3 ∨ reason = 0 then (false, s, found)
      else
        let clause := s.clauses.getD (reason - 1) #[]
        let (all, s, found) := clause.foldl (fun (all, s, found) m =>
          if all = false ∨ m / 2 = v then (all, s, found) else follows fuel (s, found) m)
          (true, s, found)
        (all, { s with marks := s.marks.setIfInBounds v (if all then 2 else 3) }, found.push v)

/-- Whether a literal of the learnt clause follows from the others. -/
def redundant (x : Search × Array Nat) (l : Lit) : Bool × Search × Array Nat :=
  let (s, found) := x
  let reason := s.reasons.getD (l / 2) 0
  if reason = 0 then (false, s, found)
  else (s.clauses.getD (reason - 1) #[]).foldl (fun (all, s, found) m =>
    if all = false ∨ m / 2 = l / 2 then (all, s, found) else follows 32 (s, found) m)
    (true, s, found)

/-- The literals of a learnt clause that do not follow from the others, and the variables that were
    looked at, those of the dropped literals among them. -/
def minimize (s : Search) (lower : Array Lit) : Array Lit × Search × Array Nat :=
  lower.foldl (fun (kept, s, found) l =>
    let (drop, s, found) := redundant (s, found) l
    if drop then (kept, s, found.push (l / 2)) else (kept.push l, s, found)) (#[], s, #[])

/-- The clauses that set those of the variables that follow from the marked ones, in the order of the
    trail. -/
def reasonsFor (s : Search) (found : Array Nat) : List Nat :=
  let follow := found.toList.filter fun v => s.marks.getD v 0 ≠ 3
  (follow.mergeSort fun v w => s.places.getD v 0 ≤ s.places.getD w 0).map fun v => s.reasons.getD v 0 - 1

/-- Takes marks away. -/
def unmark (s : Search) (vs : Array Nat) : Search :=
  vs.foldl (fun s v => { s with marks := s.marks.setIfInBounds v 0 }) s

/-- The number of different levels of literals. -/
def levelCount (s : Search) (ls : Array Lit) : Nat :=
  (ls.foldl (fun (seen : Std.HashSet Nat) l => seen.insert (s.levelOf l)) ∅).size

/-- Undoes the last `n` literals of the trail. -/
def undo : (n : Nat) → Search → Search
  | 0, s => s
  | n + 1, s =>
      let l := s.trail.back?.getD 0
      undo n { s with
        values := (s.values.setIfInBounds l 0).setIfInBounds l.neg 0
        phases := s.phases.setIfInBounds (l / 2) (l % 2 == 0)
        ranking := s.ranking.insert (l / 2)
        trail := s.trail.pop }

/-- Goes back to a level. -/
def backTo (s : Search) (level : Nat) : Search :=
  if s.level ≤ level then s
  else
    let keep := s.limits.getD level 0
    let s := undo (s.trail.size - keep) s
    { s with limits := s.limits.shrink level, head := keep }

/-- The place of the literal of the highest level among literals. -/
def highest (s : Search) (ls : Array Lit) : Nat :=
  ((List.range ls.size).foldl (fun best i =>
    if s.levelOf (ls.getD best 0) < s.levelOf (ls.getD i 0) then i else best) 0)

/-- Takes up the quality of a learnt clause in the averages. -/
def account (s : Search) (levels : Nat) : Search :=
  { s with
    conflicts := s.conflicts + 1
    ranking := s.ranking.age
    recent := s.recent - s.recent / 32 + levels * 32
    overall := s.overall - s.overall / 1024 + levels }

/-- Learns from a conflict, goes back, and makes the implied literal true. Gives the learnt clause and
    the clauses that it comes from, in an order in which each of them sets a literal. -/
def learn (s : Search) (conflict : Nat) : Search × Array Lit × List Nat :=
  let clause := s.clauses.getD conflict #[]
  let n := s.trail.size
  let (p, x) := resolve n (clause.foldl takeUp { search := s })
  let implied := p.neg
  let (lower, s, found) := x.search.minimize x.lower
  let sources := s.reasonsFor found ++ x.used ++ [conflict]
  let s := ((s.unmark found).unmark x.resolved).unmark (x.lower.map (· / 2))
  let levels := s.levelCount lower + 1
  let s := s.account levels
  if lower.isEmpty then ((s.backTo 0).assign implied 0, #[implied], sources)
  else
    let place := s.highest lower
    let second := lower.getD place 0
    let target := s.levelOf second
    let rest := (lower.setIfInBounds place (lower.getD 0 0)).setIfInBounds 0 second
    let learnt := #[implied] ++ rest
    let s := (s.backTo target).attach learnt
    let c := s.clauses.size - 1
    let s := if levels ≤ 2 then s else { s with learnt := s.learnt.push (c, levels) }
    (s.assign implied (c + 1), learnt, sources)

/-- The clauses that set a literal. -/
def reasonsInUse (s : Search) : Std.HashSet Nat :=
  s.trail.foldl (fun set l => set.insert (s.reasons.getD (l / 2) 0)) ∅

/-- Forgets the worse half of the learnt clauses, except those that set a literal. -/
def forget (s : Search) : Search :=
  if s.conflicts < s.forgetAt then s
  else
    let used := s.reasonsInUse
    let sorted := s.learnt.toList.mergeSort fun a b => a.2 ≤ b.2
    let (good, bad) := sorted.splitAt (sorted.length / 2)
    let (kept, dropped) := bad.partition fun (c, _) => used.contains (c + 1)
    let clauses := dropped.foldl (fun cs (c, _) => cs.setIfInBounds c #[]) s.clauses
    let patience := s.patience + 300
    { s with
      clauses
      learnt := (good ++ kept).toArray
      patience
      forgetAt := s.conflicts + patience }

/-- Starts over when recent clauses are worse than those before. -/
def restart (s : Search) : Search :=
  if s.conflicts < s.restartAt ∨ s.recent * 4 ≤ s.overall * 5 then s
  else { s.backTo 0 with restartAt := s.conflicts + 50 }

/-- Takes open variables off the ranking until one is open; at most `n` are looked at. -/
def choose : (n : Nat) → Search → Option Nat × Search
  | 0, s => (none, s)
  | n + 1, s =>
      match s.ranking.top? with
      | none => (none, s)
      | some v =>
          let s := { s with ranking := s.ranking.pop }
          if s.value (2 * v) = 0 then (some v, s) else choose n s

/-- Opens a new level with a decision on a variable. -/
def decide (s : Search) (v : Nat) : Search :=
  let l := if s.phases.getD v false then 2 * v else 2 * v + 1
  let n := s.trail.size
  { s with limits := s.limits.push n }.assign l 0

/-- Takes up literals of the trail of level 0, each by the clause that set it. -/
def settle (s : Search) (d : Derived) : Option Derived := do
  let later := (s.trail.extract d.settled s.trail.size).toList
  let d ← later.foldlM (fun d l => d.takeUnit l (d.clauses.getD (s.reasons.getD (l / 2) 0 - 1) #[])) d
  pure { d with settled := s.trail.size }

/-- The end of a search. -/
inductive Outcome where
  /-- The search stands at a satisfying assignment. -/
  | sat (search : Search)
  | unsat
  | exhausted

/-- Searches for at most `fuel` decisions and conflicts. -/
def run : (fuel : Nat) → Derived → Search → Outcome
  | 0, _, _ => .exhausted
  | fuel + 1, d, s =>
      let (s, conflict) := s.propagate (s.levels.size + 1)
      match if s.level = 0 then s.settle d else some d with
      | none => .exhausted
      | some d => match conflict with
        | some c =>
            if s.level = 0 then if d.refutes [c] ∅ then .unsat else .exhausted
            else
              let (s, clause, sources) := s.learn c
              match d.learn clause sources with
              | none => .exhausted
              | some d => run fuel d s.restart.forget
        | none => match s.choose (s.levels.size + 1) with
            | (some v, s) => run fuel d (s.decide v)
            | (none, s) => .sat s

/-- What becomes of clauses that are added at level 0. -/
inductive Start where
  /-- The literals of some clause are all false. -/
  | unsat
  | going (derived : Derived) (search : Search)
  /-- What the search believes was not derived. -/
  | exhausted

/-- Adds a clause at level 0, where literals that are false there count for nothing. -/
def addClause : Start → Array Lit → Start
  | .going d s, clause =>
      if clause.any (s.value · = 1) then .going d s
      else
        let left := clause.filter (s.value · = 0)
        match left[0]?, left[1]? with
        | none, _ => if d.openIn ∅ clause = [] then .unsat else .exhausted
        | some l, none => match d.takeUnit l clause with
          | none => .exhausted
          | some d => .going { d with settled := d.settled + 1 } (s.assign l 0)
        | some _, some _ => .going { d with clauses := d.clauses.push clause } (s.attach left)
  | ended, _ => ended

/-- A search for an assignment that satisfies the clauses of a circuit. -/
def ofCircuit (c : Circuit) : Start :=
  c.clauses.foldl addClause (.going {}
    { watchers := Array.replicate (2 * c.size) #[]
      values := Array.replicate (2 * c.size) 0
      levels := Array.replicate c.size 0
      reasons := Array.replicate c.size 0
      places := Array.replicate c.size 0
      ranking := Ranking.all c.size
      phases := Array.replicate c.size false
      marks := Array.replicate c.size 0 })

/-- Searches for an assignment that satisfies the clauses of a circuit. -/
def solve (c : Circuit) (fuel : Nat) : Outcome :=
  match ofCircuit c with
  | .unsat => .unsat
  | .exhausted => .exhausted
  | .going d s => run fuel d s

end Search

end PathSearch.Smt
