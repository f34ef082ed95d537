import Mathlib.Algebra.Group.Nat.Defs
import PathSearch.State.Stream

/-! # Where a stream stands

A stream can be kept as all its bytes and an index to the next one. A read then ends at a sum of words that
stays at the last word where it would pass it, or at the last byte. Such a stream gives the bytes that a
stream gives that is divided at its reading position. Its index never gets behind the bytes, and no read
ends before it begins.
-/

namespace PathSearch.Stream

theorem left_eq_drop (stream : Stream) : stream.left = stream.bytes.drop stream.position := by
  simp [bytes, position]

theorem bytes_read (stream : Stream) (n : Nat) : (stream.read n).2.bytes = stream.bytes := by
  simp [bytes, read]

theorem position_read (stream : Stream) (n : Nat) :
    (stream.read n).2.position = stream.position + (stream.left.take n).length := by
  simp [position, read]

theorem length_eq (stream : Stream) : stream.length = stream.position + stream.left.length :=
  List.length_append

/-- Reads of so many bytes, one after the other. -/
def readAll : Stream → List Nat → List (List Expr) × Stream
  | s, [] => ([], s)
  | s, n :: rest =>
      let (taken, s) := s.read n
      let (later, s) := s.readAll rest
      (taken :: later, s)

/-- A stream as all its bytes and an index to the next one. -/
structure Indexed where
  bytes : List Expr
  next : Word

namespace Indexed

/-- The sum of two words, or the last word where the sum passes it. -/
def saturatingAdd (a b : Word) : Word :=
  if a.toNat + b.toNat < 2 ^ 64 then a + b else 0xffffffffffffffff

/-- Where a read ends. -/
def stop (x : Indexed) (n : Word) : Word := min (saturatingAdd x.next n) (UInt64.ofNat x.bytes.length)

/-- The next `n` bytes, or as many as are left. Nothing comes back where that ends before it begins. -/
def read (x : Indexed) (n : Word) : Option (List Expr × Indexed) :=
  if x.next ≤ x.stop n then
    some ((x.bytes.drop x.next.toNat).take (x.stop n - x.next).toNat, { x with next := x.stop n })
  else none

/-- Reads, one after the other. -/
def readAll : Indexed → List Word → Option (List (List Expr) × Indexed)
  | x, [] => some ([], x)
  | x, n :: rest => do
      let (taken, x) ← x.read n
      let (later, x) ← x.readAll rest
      some (taken :: later, x)

/-- Both are one stream. -/
structure Shows (x : Indexed) (s : Stream) : Prop where
  bytes : x.bytes = s.bytes
  next : x.next.toNat = s.position

/-- A stream with an index in the place of the division. -/
def ofStream (s : Stream) : Indexed := ⟨s.bytes, UInt64.ofNat s.position⟩

variable {x : Indexed} {s : Stream}

theorem shows_ofStream (room : s.length < 2 ^ 64) : (ofStream s).Shows s := by
  have inside : s.position < 2 ^ 64 := Nat.lt_of_le_of_lt (s.length_eq ▸ Nat.le_add_right _ _) room
  exact ⟨rfl, by rw [ofStream, UInt64.toNat_ofNat', Nat.mod_eq_of_lt inside]⟩

/-- The end is that of the sum without a bound, since there are fewer bytes than words. -/
theorem toNat_stop (room : x.bytes.length < 2 ^ 64) (n : Word) :
    (x.stop n).toNat = min (x.next.toNat + n.toNat) x.bytes.length := by
  have length : (UInt64.ofNat x.bytes.length).toNat = x.bytes.length := by
    rw [UInt64.toNat_ofNat', Nat.mod_eq_of_lt room]
  have least (a b : Word) : (min a b).toNat = min a.toNat b.toNat := by
    change (if a ≤ b then a else b).toNat = min a.toNat b.toNat
    rw [Nat.min_def, apply_ite UInt64.toNat]
    simp only [UInt64.le_iff_toNat_le]
  rw [stop, least, length, saturatingAdd]
  split
  · rename_i small
    rw [UInt64.toNat_add, Nat.mod_eq_of_lt small]
  · have last : (0xffffffffffffffff : Word).toNat = 2 ^ 64 - 1 := rfl
    omega

theorem Shows.read (shows : x.Shows s) (room : s.length < 2 ^ 64) (n : Word) :
    ∃ y, x.read n = some ((s.read n.toNat).1, y) ∧ y.Shows (s.read n.toNat).2 := by
  have size := s.length_eq
  have length : x.bytes.length = s.length := congrArg List.length shows.bytes
  have stop := toNat_stop (length ▸ room) n
  rw [shows.next, length] at stop
  have ordered : x.next ≤ x.stop n := by
    rw [UInt64.le_iff_toNat_le, stop, shows.next]
    omega
  have amount : (x.stop n - x.next).toNat = min n.toNat s.left.length := by
    rw [UInt64.toNat_sub_of_le _ _ ordered, stop, shows.next]
    omega
  refine ⟨{ x with next := x.stop n }, ?_, shows.bytes.trans (s.bytes_read _).symm, ?_⟩
  · rw [Indexed.read, if_pos ordered, amount, shows.bytes, shows.next, ← s.left_eq_drop,
      ← List.take_eq_take_min]
    rfl
  · change (x.stop n).toNat = (s.read n.toNat).2.position
    rw [position_read, List.length_take, stop]
    omega

theorem Shows.readAll (shows : x.Shows s) (room : s.length < 2 ^ 64) (lengths : List Word) :
    ∃ y, x.readAll lengths = some ((s.readAll (lengths.map (·.toNat))).1, y) ∧
      y.Shows (s.readAll (lengths.map (·.toNat))).2 := by
  induction lengths generalizing x s with
  | nil => exact ⟨x, rfl, shows⟩
  | cons n rest ih =>
      obtain ⟨y, first, moved⟩ := shows.read room n
      have same : (s.read n.toNat).2.length = s.length := congrArg List.length (s.bytes_read _)
      obtain ⟨z, later, last⟩ := ih moved (same ▸ room)
      refine ⟨z, ?_, last⟩
      simp only [Indexed.readAll, first, later, Option.bind_eq_bind, Option.bind_some]
      rfl

end Indexed

end PathSearch.Stream
