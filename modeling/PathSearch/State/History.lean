import PathSearch.Word
import Std.Data.TreeMap

/-! # The history of a path

The addresses of the instructions executed so far, and how often each was.
-/

namespace PathSearch

/-- The addresses that a path visited. -/
structure History where
  /-- The visited addresses, the latest first. -/
  trail : List Word := []
  counts : Std.TreeMap Word Nat := ∅
  deriving Inhabited

namespace History

/-- Visits are counted up to this number. -/
def maxCount : Nat := 0xffffffff

/-- The number of visits to an address. -/
def visits (h : History) (address : Word) : Nat := h.counts.getD address 0

/-- Takes up one more visit. -/
def record (h : History) (address : Word) : History where
  trail := address :: h.trail
  counts := h.counts.insert address (min (h.visits address + 1) maxCount)

def length (h : History) : Nat := h.trail.length

/-- The address visited last. -/
def last? (h : History) : Option Word := h.trail.head?

/-- The number of visits to the address visited most. -/
def maxVisits (h : History) : Nat := h.counts.foldl (fun m _ n => max m n) 0

/-- The visited addresses, oldest first. -/
def addresses (h : History) : List Word := h.trail.reverse

end History

end PathSearch
