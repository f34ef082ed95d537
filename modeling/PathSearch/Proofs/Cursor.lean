import PathSearch.Bytes.Cursor
import PathSearch.Proofs.Bytes
import PathSearch.Proofs.Except

/-! # Where a cursor stands

A cursor is asked to move and to read, any number of times. It is refused what passes the end of its data,
and nothing else, and a refusal leaves it where it is; what it reads are the bytes that begin at its
position. A cursor that is kept as an index into the data, with sums that may leave the range of words and
with bytes that are cut out between two indices, gives the same answers at the same positions, and never
cuts outside of the data.
-/

namespace PathSearch.Cursor

/-- What a cursor can be asked. -/
inductive Request where
  | seek (position : Word)
  | advance (n : Word)
  | peek
  | read (n : Word)
  | readInt (t : Bytes.IntType)

/-- What a cursor answers where it does not refuse. -/
inductive Answer where
  | moved
  | byte (b : UInt8)
  | bytes (bs : List UInt8)
  | int (value : Int)

namespace Request

/-- Where the bytes end that a cursor needs for a request. The sum has no bound. -/
def reach (position : Nat) : Request → Nat
  | .seek target => target.toNat
  | .advance n | .read n => position + n.toNat
  | .peek => position + 1
  | .readInt t => position + t.size

/-- Where a cursor stands after a request. -/
def target (position : Nat) : Request → Nat
  | .seek target => target.toNat
  | .advance n | .read n => position + n.toNat
  | .peek => position
  | .readInt t => position + t.size

/-- The answer that the data have at a position. -/
def answer (data : List UInt8) (position : Nat) : Request → Answer
  | .seek _ | .advance _ => .moved
  | .peek => .byte (data.getD position 0)
  | .read n => .bytes ((data.drop position).take n.toNat)
  | .readInt t => .int (t.decode ((data.drop position).take t.size))

/-- An answer tells what is in the data: as many bytes as were asked for, from the position on, or the
    integer of the type that the bytes there stand for, up to multiples of the number of its values. -/
def Answered (data : List UInt8) (position : Nat) : Request → Answer → Prop
  | .seek _, .moved | .advance _, .moved => True
  | .peek, .byte b => data[position]? = some b
  | .read n, .bytes bs => bs.length = n.toNat ∧ ∀ i < n.toNat, bs[i]? = data[position + i]?
  | .readInt t, .int v =>
      t.Fits v ∧ v % t.modulus = Bytes.ofLE ((data.drop position).take t.size)
  | _, _ => False

end Request

/-- Carries out a request. -/
def ask (c : Cursor) : Request → Except Error (Answer × Cursor)
  | .seek target => (c.seek target.toNat).map fun next => (.moved, next)
  | .advance n => (c.advance n.toNat).map fun next => (.moved, next)
  | .peek => c.peek.map fun b => (.byte b, c)
  | .read n => (c.read n.toNat).map fun (bs, next) => (.bytes bs, next)
  | .readInt t => (c.readInt t).map fun (value, next) => (.int value, next)

/-- The cursor with which a program goes on after a request: the one it had, if it was refused. -/
def next (c : Cursor) (r : Request) : Cursor :=
  match c.ask r with
  | .ok (_, moved) => moved
  | .error _ => c

/-- The cursor after requests, one after the other. -/
def after (c : Cursor) (requests : List Request) : Cursor := requests.foldl next c

/-- What requests one after the other are answered. -/
def answers (c : Cursor) : List Request → List (Except Error Answer)
  | [] => []
  | r :: rest => (c.ask r).map (·.1) :: (c.next r).answers rest

theorem after_cons (c : Cursor) (r : Request) (rest : List Request) :
    c.after (r :: rest) = (c.next r).after rest := rfl

theorem answers_cons (c : Cursor) (r : Request) (rest : List Request) :
    c.answers (r :: rest) = (c.ask r).map (·.1) :: (c.next r).answers rest := rfl

/-- A cursor over data, at a position in them. -/
def standing (data : List UInt8) (position : Nat) : Cursor := ⟨data.take position, data.drop position⟩

section Standing

variable {data : List UInt8} {position : Nat}

theorem data_standing (data : List UInt8) (position : Nat) : (standing data position).data = data :=
  List.take_append_drop position data

theorem position_standing (inside : position ≤ data.length) :
    (standing data position).position = position := List.length_take_of_le inside

theorem standing_position (c : Cursor) : standing c.data c.position = c := by
  cases c
  simp [standing, data, Cursor.position]

theorem position_le (c : Cursor) : c.position ≤ c.data.length := by
  rw [position, data, List.length_append]
  exact Nat.le_add_right _ _

theorem drop_position (c : Cursor) : c.data.drop c.position = c.ahead := List.drop_left

end Standing

section Steps

variable (c : Cursor)

theorem seek_eq (target : Nat) : c.seek target =
    if c.data.length < target then .error .outOfBounds else .ok (standing c.data target) := rfl

theorem read_eq (n : Nat) : c.read n =
    if c.data.length < c.position + n then .error .outOfBounds
    else .ok ((c.data.drop c.position).take n, standing c.data (c.position + n)) := by
  have size : c.data.length = c.position + c.ahead.length := List.length_append
  rw [read, Bytes.split?, drop_position]
  by_cases short : c.ahead.length < n
  · rw [if_pos short, if_pos (by omega)]
  · rw [if_neg short, if_neg (by omega), List.splitAt_eq]
    simp only [standing, data, position, List.take_length_add_append, List.drop_length_add_append]

theorem advance_eq (n : Nat) : c.advance n =
    if c.data.length < c.position + n then .error .outOfBounds
    else .ok (standing c.data (c.position + n)) := by
  rw [advance, read_eq]
  split <;> rfl

theorem peek_eq : c.peek =
    if c.data.length < c.position + 1 then .error .outOfBounds
    else .ok (c.data.getD c.position 0) := by
  have size : c.data.length = c.position + c.ahead.length := List.length_append
  rw [peek]
  split
  · rename_i b rest ahead
    have first : c.data.getD c.position 0 = b := by simp [data, position, ahead]
    rw [ahead, List.length_cons] at size
    rw [if_neg (by omega), first]
  · rename_i ended
    rw [ended, List.length_nil] at size
    rw [if_pos (by omega)]

theorem readInt_eq (t : Bytes.IntType) : c.readInt t =
    if c.data.length < c.position + t.size then .error .outOfBounds
    else .ok (t.decode ((c.data.drop c.position).take t.size),
      standing c.data (c.position + t.size)) := by
  rw [readInt, read_eq]
  split <;> rfl

/-- A request is refused where it needs bytes behind the end. Otherwise it is answered from the data. -/
theorem ask_eq (r : Request) : c.ask r =
    if c.data.length < r.reach c.position then .error .outOfBounds
    else .ok (r.answer c.data c.position, standing c.data (r.target c.position)) := by
  cases r with
  | seek target =>
      rw [ask, seek_eq]
      exact apply_ite _ _ _ _
  | advance n =>
      rw [ask, advance_eq]
      exact apply_ite _ _ _ _
  | peek =>
      rw [ask, peek_eq, Request.target, standing_position]
      exact apply_ite _ _ _ _
  | read n =>
      rw [ask, read_eq]
      exact apply_ite _ _ _ _
  | readInt t =>
      rw [ask, readInt_eq]
      exact apply_ite _ _ _ _

theorem ask_error {failure : Error} {r : Request} (refused : c.ask r = .error failure) :
    failure = .outOfBounds ∧ c.data.length < r.reach c.position := by
  rw [ask_eq] at refused
  split at refused
  · rename_i short
    exact ⟨(Except.error.inj refused).symm, short⟩
  · cases refused

theorem ask_ok {r : Request} {given : Answer} {d : Cursor} (granted : c.ask r = .ok (given, d)) :
    r.reach c.position ≤ c.data.length ∧ given = r.answer c.data c.position ∧
      d = standing c.data (r.target c.position) := by
  rw [ask_eq] at granted
  split at granted
  · cases granted
  · rename_i enough
    cases granted
    exact ⟨Nat.le_of_not_lt enough, rfl, rfl⟩

end Steps

section Requests

variable {data : List UInt8} {position : Nat} {r : Request}

theorem Request.target_le_reach (r : Request) (position : Nat) :
    r.target position ≤ r.reach position := by
  cases r with
  | peek => exact Nat.le_succ position
  | _ => exact Nat.le_refl _

/-- What the data have at a position is an answer, where the request ends inside of them. -/
theorem Request.answered_answer (enough : r.reach position ≤ data.length) :
    r.Answered data position (r.answer data position) := by
  cases r with
  | seek | advance => trivial
  | peek =>
      have inside : position < data.length := enough
      simp [Answered, answer, inside]
  | read n =>
      have enough : position + n.toNat ≤ data.length := enough
      refine ⟨?_, fun i hi => ?_⟩
      · rw [List.length_take, List.length_drop]
        omega
      · rw [List.getElem?_take_of_lt hi, List.getElem?_drop]
  | readInt t =>
      have enough : position + t.size ≤ data.length := enough
      have whole : ((data.drop position).take t.size).length = t.size := by
        rw [List.length_take, List.length_drop]
        omega
      exact ⟨Bytes.IntType.fits_decode whole, Bytes.IntType.decode_emod whole⟩

end Requests

section Runs

theorem next_of_ok {c d : Cursor} {r : Request} {given : Answer} (granted : c.ask r = .ok (given, d)) :
    c.next r = d := by
  rw [next, granted]

theorem next_of_error {c : Cursor} {r : Request} {failure : Error} (refused : c.ask r = .error failure) :
    c.next r = c := by
  rw [next, refused]

/-- No request changes the data. -/
theorem data_next (c : Cursor) (r : Request) : (c.next r).data = c.data := by
  cases asked : c.ask r with
  | error failure => rw [next_of_error asked]
  | ok given =>
      obtain ⟨-, -, moved⟩ := c.ask_ok asked
      rw [next_of_ok asked, moved, data_standing]

theorem data_after (c : Cursor) (requests : List Request) : (c.after requests).data = c.data := by
  induction requests generalizing c with
  | nil => rfl
  | cons r rest ih => rw [after_cons, ih, data_next]

end Runs

namespace Indexed

/-- The sum of two words, where it is a word. -/
def add? (a b : Word) : Option Word := if a.toNat + b.toNat < 2 ^ 64 then some (a + b) else none

/-- The bytes between two indices, where these are in order and inside of the data. -/
def cut? (data : List UInt8) (start stop : Word) : Option (List UInt8) :=
  if start ≤ stop ∧ stop.toNat ≤ data.length then
    some ((data.drop start.toNat).take (stop - start).toNat)
  else none

/-- Moves an index, unless it would get outside of the data. -/
def seek (data : List UInt8) (position target : Word) : Except Error Answer × Word :=
  if data.length < target.toNat then (.error .outOfBounds, position) else (.ok .moved, target)

/-- Carries out a request with an index for the position. The index comes back also from a request that is
    refused. Nothing comes back where a sum or a cut was relied on that there is not. -/
def ask (data : List UInt8) (position : Word) : Request → Option (Except Error Answer × Word)
  | .seek target => some (seek data position target)
  | .advance n =>
      match add? position n with
      | some target => some (seek data position target)
      | none => some (.error .outOfBounds, position)
  | .peek =>
      match data[position.toNat]? with
      | some b => some (.ok (.byte b), position)
      | none => some (.error .outOfBounds, position)
  | .read n =>
      if data.length - position.toNat < n.toNat then some (.error .outOfBounds, position)
      else do
        let stop ← add? position n
        let bytes ← cut? data position stop
        some (.ok (.bytes bytes), stop)
  | .readInt t =>
      match add? position (UInt64.ofNat t.size) with
      | some stop =>
          if data.length < stop.toNat then some (.error .outOfBounds, position)
          else do
            let bytes ← cut? data position stop
            some (.ok (.int (t.decode bytes)), stop)
      | none => some (.error .outOfBounds, position)

/-- Carries out requests, one after the other. -/
def run (data : List UInt8) (position : Word) :
    List Request → Option (List (Except Error Answer) × Word)
  | [] => some ([], position)
  | r :: rest => do
      let (first, position) ← ask data position r
      let (others, position) ← run data position rest
      some (first :: others, position)

section Exact

variable {data : List UInt8} {w : Word} {r : Request}

theorem toNat_add_word {a b : Word} (small : a.toNat + b.toNat < 2 ^ 64) :
    (a + b).toNat = a.toNat + b.toNat := by
  rw [UInt64.toNat_add, Nat.mod_eq_of_lt small]

theorem add?_some {a b : Word} (small : a.toNat + b.toNat < 2 ^ 64) : add? a b = some (a + b) :=
  if_pos small

theorem add?_none {a b : Word} (large : ¬ a.toNat + b.toNat < 2 ^ 64) : add? a b = none :=
  if_neg large

theorem toNat_size (t : Bytes.IntType) : (UInt64.ofNat t.size).toNat = t.size := by
  cases t <;> rfl

/-- A cut that begins at an index and ends inside of the data. -/
theorem cut?_add {n : Word} (small : w.toNat + n.toNat < 2 ^ 64)
    (enough : w.toNat + n.toNat ≤ data.length) :
    cut? data w (w + n) = some ((data.drop w.toNat).take n.toNat) := by
  have sum := toNat_add_word small
  have ordered : w ≤ w + n := by
    rw [UInt64.le_iff_toNat_le, sum]
    exact Nat.le_add_right _ _
  have length : w + n - w = n := by grind
  rw [cut?, if_pos ⟨ordered, sum ▸ enough⟩, length]

theorem seek_short {target : Word} (short : data.length < target.toNat) :
    seek data w target = (.error .outOfBounds, w) := if_pos short

theorem seek_inside {target : Word} (enough : target.toNat ≤ data.length) :
    seek data w target = (.ok .moved, target) := if_neg (Nat.not_lt.mpr enough)

theorem ask_short (inside : w.toNat ≤ data.length) (short : data.length < r.reach w.toNat) :
    ask data w r = some (.error .outOfBounds, w) := by
  cases r with
  | seek target => rw [ask, seek_short short]
  | advance n =>
      have short : data.length < w.toNat + n.toNat := short
      by_cases small : w.toNat + n.toNat < 2 ^ 64
      · simp only [ask, add?_some small]
        rw [seek_short (by rwa [toNat_add_word small])]
      · simp only [ask, add?_none small]
  | peek =>
      have ended : data[w.toNat]? = none := List.getElem?_eq_none (Nat.le_of_lt_succ short)
      simp only [ask, ended]
  | read n =>
      have short : data.length < w.toNat + n.toNat := short
      rw [ask, if_pos (by omega)]
  | readInt t =>
      have size := toNat_size t
      have short : data.length < w.toNat + t.size := short
      by_cases small : w.toNat + (UInt64.ofNat t.size).toNat < 2 ^ 64
      · simp only [ask, add?_some small]
        rw [if_pos (by rw [toNat_add_word small]; omega)]
      · simp only [ask, add?_none small]

theorem ask_enough (room : data.length < 2 ^ 64) (enough : r.reach w.toNat ≤ data.length) :
    ∃ w', ask data w r = some (.ok (r.answer data w.toNat), w') ∧ w'.toNat = r.target w.toNat := by
  cases r with
  | seek target => exact ⟨target, congrArg some (seek_inside enough), rfl⟩
  | advance n =>
      have enough : w.toNat + n.toNat ≤ data.length := enough
      have small : w.toNat + n.toNat < 2 ^ 64 := Nat.lt_of_le_of_lt enough room
      refine ⟨w + n, ?_, toNat_add_word small⟩
      simp only [ask, add?_some small]
      rw [seek_inside (by rwa [toNat_add_word small])]
      rfl
  | peek =>
      have inside : w.toNat < data.length := enough
      have found : data[w.toNat]? = some data[w.toNat] := List.getElem?_eq_getElem inside
      refine ⟨w, ?_, rfl⟩
      simp only [ask, found, Request.answer, List.getD_eq_getElem?_getD, Option.getD_some]
  | read n =>
      have enough : w.toNat + n.toNat ≤ data.length := enough
      have small : w.toNat + n.toNat < 2 ^ 64 := Nat.lt_of_le_of_lt enough room
      refine ⟨w + n, ?_, toNat_add_word small⟩
      rw [ask, if_neg (by omega), add?_some small, Option.bind_eq_bind, Option.bind_some,
        cut?_add small enough]
      rfl
  | readInt t =>
      have size := toNat_size t
      have enough : w.toNat + t.size ≤ data.length := enough
      have small : w.toNat + (UInt64.ofNat t.size).toNat < 2 ^ 64 := by omega
      have sum := toNat_add_word small
      refine ⟨w + UInt64.ofNat t.size, ?_, by rw [sum, size]; rfl⟩
      simp only [ask, add?_some small]
      rw [if_neg (by omega), cut?_add small (by omega), size]
      rfl

/-- An index does what a cursor does that stands there. -/
theorem ask_eq {c : Cursor} (room : c.data.length < 2 ^ 64) (place : w.toNat = c.position) (r : Request) :
    ∃ w', ask c.data w r = some ((c.ask r).map (·.1), w') ∧ w'.toNat = (c.next r).position := by
  by_cases short : c.data.length < r.reach c.position
  · have refused : c.ask r = .error .outOfBounds := by rw [Cursor.ask_eq, if_pos short]
    have inside : w.toNat ≤ c.data.length := place ▸ c.position_le
    refine ⟨w, ?_, ?_⟩
    · rw [refused, ask_short inside (place ▸ short)]
      rfl
    · rw [next_of_error refused, place]
  · have granted := c.ask_eq r
    rw [if_neg short] at granted
    have enough : r.reach c.position ≤ c.data.length := Nat.le_of_not_lt short
    obtain ⟨w', asked, moved⟩ := ask_enough room (place ▸ enough : r.reach w.toNat ≤ _)
    refine ⟨w', ?_, ?_⟩
    · rw [asked, granted, place]
      rfl
    · rw [next_of_ok granted, position_standing (Nat.le_trans (r.target_le_reach _) enough), moved, place]

theorem run_eq {c : Cursor} (room : c.data.length < 2 ^ 64) (place : w.toNat = c.position)
    (requests : List Request) :
    ∃ w', run c.data w requests = some (c.answers requests, w') ∧
      w'.toNat = (c.after requests).position := by
  induction requests generalizing c w with
  | nil => exact ⟨w, rfl, place⟩
  | cons r rest ih =>
      obtain ⟨w₁, first, moved⟩ := ask_eq room place r
      have same := c.data_next r
      obtain ⟨w₂, others, last⟩ := ih (same.symm ▸ room) moved
      refine ⟨w₂, ?_, last⟩
      rw [same] at others
      simp only [run, first, others, Option.bind_eq_bind, Option.bind_some, answers_cons]

end Exact

end Indexed

section Written

open Bytes (IntType)

/-- Reading at an offset is reading with a cursor that stands there. -/
theorem readIntAt_eq (c : Cursor) (t : IntType) :
    Bytes.readIntAt c.data t c.position = (c.readInt t).map fun (value, d) => (value, d.position) := by
  have there : (ofBytes c.data).seek c.position = .ok c := by
    have place : (ofBytes c.data).data = c.data := rfl
    rw [seek_eq, place, if_neg (Nat.not_lt.mpr c.position_le), standing_position]
  rw [Bytes.readIntAt, ok_bind there]
  cases c.readInt t <;> rfl

/-- An integer whose bytes are ahead is read from them. -/
theorem readInt_encode {c : Cursor} {t : IntType} {value : Int} {rest : List UInt8}
    (fits : t.Fits value) (ahead : c.ahead = t.encode value ++ rest) :
    c.readInt t = .ok (value, ⟨c.behind ++ t.encode value, rest⟩) := by
  have split : Bytes.split? t.size c.ahead = some (t.encode value, rest) :=
    Bytes.split?_eq_some_iff.mpr ⟨ahead, t.length_encode value⟩
  rw [readInt, read, split]
  exact congrArg (fun value => Except.ok (value, _)) (Bytes.IntType.decode_encode fits)

/-- Integers one after the other, as bytes. -/
def written (values : List (IntType × Int)) : List UInt8 :=
  values.flatMap fun (t, value) => t.encode value

/-- The requests that read integers back. -/
def readBack (values : List (IntType × Int)) : List Request := values.map fun (t, _) => .readInt t

/-- What was written is read back, and the cursor stands behind it. -/
theorem answers_written {values : List (IntType × Int)} (fits : ∀ p ∈ values, p.1.Fits p.2) {c : Cursor}
    {rest : List UInt8} (ahead : c.ahead = written values ++ rest) :
    c.answers (readBack values) = values.map (fun (_, value) => .ok (.int value)) ∧
      c.after (readBack values) = ⟨c.behind ++ written values, rest⟩ := by
  induction values generalizing c with
  | nil =>
      cases c
      have none : written [] = [] := rfl
      rw [none, List.append_nil]
      rw [none, List.nil_append] at ahead
      exact ⟨rfl, congrArg _ ahead⟩
  | cons p values ih =>
      obtain ⟨t, value⟩ := p
      have first : written ((t, value) :: values) = t.encode value ++ written values := rfl
      have requests : readBack ((t, value) :: values) = .readInt t :: readBack values := rfl
      rw [first, List.append_assoc] at ahead
      have read := readInt_encode (fits (t, value) (.head _)) ahead
      have asked : c.ask (.readInt t) =
          .ok (.int value, ⟨c.behind ++ t.encode value, written values ++ rest⟩) := by
        rw [ask, read]
        rfl
      obtain ⟨given, moved⟩ := ih (fun p hp => fits p (.tail _ hp))
        (c := ⟨c.behind ++ t.encode value, written values ++ rest⟩) rfl
      have step := next_of_ok asked
      constructor
      · rw [requests, answers_cons, asked, step, given]
        rfl
      · rw [requests, after_cons, step, moved, first, List.append_assoc]

end Written

/-- Whatever a cursor was asked before, it stands inside of its data, which stay as they are. It refuses a
    request exactly if that needs bytes behind the end, and then stays; otherwise the answer tells what is
    in the data, and the cursor moves by as much as it says. Kept as an index the cursor gives the same
    answers and gets to the same positions, with no sum out of range and no cut outside of the data. And
    integers that were written one after the other are read back, by a cursor or from their offset. -/
theorem ask_exact :
    (∀ (data : List UInt8) (earlier : List Request) (r : Request),
      let c := (ofBytes data).after earlier
      c.data = data ∧ c.position ≤ data.length ∧
      ((∃ failure, c.ask r = .error failure) ↔ data.length < r.reach c.position) ∧
      (∀ failure, c.ask r = .error failure → failure = .outOfBounds ∧ c.next r = c) ∧
      (∀ given d, c.ask r = .ok (given, d) → r.Answered data c.position given ∧ c.next r = d ∧
        d.data = data ∧ d.position = r.target c.position)) ∧
    (∀ (data : List UInt8) (requests : List Request), data.length < 2 ^ 64 →
      ∃ w, Indexed.run data 0 requests = some ((ofBytes data).answers requests, w) ∧
        w.toNat = ((ofBytes data).after requests).position) ∧
    (∀ (c : Cursor) (values : List (Bytes.IntType × Int)) (rest : List UInt8),
      (∀ p ∈ values, p.1.Fits p.2) → c.ahead = written values ++ rest →
      c.answers (readBack values) = values.map (fun (_, value) => .ok (.int value)) ∧
        c.after (readBack values) = ⟨c.behind ++ written values, rest⟩) ∧
    ∀ (c : Cursor) (t : Bytes.IntType),
      Bytes.readIntAt c.data t c.position = (c.readInt t).map fun (value, d) => (value, d.position) := by
  refine ⟨?_, ?_, fun _ _ _ fits ahead => answers_written fits ahead, readIntAt_eq⟩
  · intro data earlier r c
    have same : c.data = data := data_after (ofBytes data) earlier
    refine ⟨same, same ▸ c.position_le, ?_, ?_, ?_⟩
    · rw [← same]
      constructor
      · rintro ⟨failure, refused⟩
        exact (c.ask_error refused).2
      · intro short
        exact ⟨.outOfBounds, by rw [ask_eq, if_pos short]⟩
    · intro failure refused
      exact ⟨(c.ask_error refused).1, next_of_error refused⟩
    · intro given d granted
      obtain ⟨enough, rfl, rfl⟩ := c.ask_ok granted
      refine ⟨same ▸ Request.answered_answer enough, next_of_ok granted, ?_, ?_⟩
      · rw [data_standing, same]
      · exact position_standing (Nat.le_trans (r.target_le_reach _) enough)
  · intro data requests room
    exact Indexed.run_eq (c := ofBytes data) room rfl requests

/-- A move whose end is no word, and a read of two bytes of which one is there, between reads that pass. -/
theorem ask_exact_overflow :
    let data : List UInt8 := [0xff, 0x80, 0x01]
    let requests : List Request :=
      [.seek 1, .advance 0xffffffffffffffff, .readInt .i8, .readInt .u16, .peek]
    let c := (ofBytes data).after requests
    let values : List (Bytes.IntType × Int) := [(.i16, -2), (.u64, 0xffffffffffffffff), (.i8, 127)]
    (∃ w, Indexed.run data 0 requests = some ([.ok .moved, .error .outOfBounds, .ok (.int (-128)),
        .error .outOfBounds, .ok (.byte 1)], w) ∧ w.toNat = 2) ∧
      (∃ failure, c.ask (.read 2) = .error failure) ∧ c.next (.read 2) = c ∧
      (∃ bs d, c.ask (.read 1) = .ok (.bytes bs, d) ∧ bs.length = 1 ∧ d.position = 3) ∧
      (ofBytes (written values ++ data)).answers (readBack values) =
        [.ok (.int (-2)), .ok (.int 0xffffffffffffffff), .ok (.int 127)] := by
  intro data requests c values
  obtain ⟨each, index, back, -⟩ := ask_exact
  obtain ⟨w, ran, place⟩ := index data requests (by decide)
  have told : (ofBytes data).answers requests = [.ok .moved, .error .outOfBounds, .ok (.int (-128)),
      .error .outOfBounds, .ok (.byte 1)] := rfl
  have stands : c.position = 2 := by decide
  rw [told] at ran
  obtain ⟨-, -, refused, stays, -⟩ := each data requests (.read 2)
  have short : data.length < (Request.read 2).reach c.position := by decide
  obtain ⟨failure, failed⟩ := refused.mpr short
  obtain ⟨same, -, -, -, given⟩ := each data requests (.read 1)
  have granted : c.ask (.read 1) = .ok (.bytes [1], standing data 3) := by
    rw [ask_eq, same, stands, if_neg (by decide)]
    rfl
  obtain ⟨⟨length, -⟩, -, -, moved⟩ := given _ _ granted
  rw [stands] at moved
  have fits : ∀ p ∈ values, p.1.Fits p.2 := by
    simp [values, Bytes.IntType.Fits, Bytes.IntType.signed, Bytes.IntType.modulus, Bytes.IntType.size]
  have read := (back (ofBytes (written values ++ data)) values data fits rfl).1
  exact ⟨⟨w, ran, place.trans stands⟩, ⟨failure, failed⟩, (stays failure failed).2,
    ⟨_, _, granted, length, moved⟩, read⟩

end PathSearch.Cursor
