import PathSearch.Word

/-! # Random numbers

A generator that gives the same numbers for the same seed everywhere: the ChaCha stream cipher with
twelve rounds, keyed by a seed that is spread to 256 bits. Numbers below a bound are drawn without
bias.
-/

namespace PathSearch

/-- A generator: its key and the number of 64-bit words drawn. -/
structure Random where
  key : List UInt32
  drawn : Nat := 0
  deriving Repr, DecidableEq, Inhabited

namespace Random

def rotateRight (w n : UInt32) : UInt32 := (w >>> n) ||| (w <<< ((32 - n) % 32))

def rotateLeft (w n : UInt32) : UInt32 := (w <<< n) ||| (w >>> (32 - n))

/-- One word of the key from the state of a congruential generator: the state's middle bits,
    rotated by its top bits. -/
def keyWord (state : UInt64) : UInt32 :=
  rotateRight (((state >>> 18) ^^^ state) >>> 27).toUInt32 (state >>> 59).toUInt32

/-- The words of the key that follow a state. -/
def keyWords : (n : Nat) → UInt64 → List UInt32
  | 0, _ => []
  | n + 1, state =>
      let next := state * 6364136223846793005 + 11634580027462260723
      keyWord next :: keyWords n next

/-- A generator for a seed. -/
def ofSeed (seed : Word) : Random := { key := keyWords 8 seed }

/-- Mixes four words of a block. -/
def quarter (b : Array UInt32) (i j k l : Nat) : Array UInt32 :=
  let w (n : Nat) : UInt32 := b.getD n 0
  let a := w i + w j
  let d := rotateLeft (w l ^^^ a) 16
  let c := w k + d
  let e := rotateLeft (w j ^^^ c) 12
  let a := a + e
  let d := rotateLeft (d ^^^ a) 8
  let c := c + d
  let e := rotateLeft (e ^^^ c) 7
  (((b.setIfInBounds i a).setIfInBounds j e).setIfInBounds k c).setIfInBounds l d

/-- Mixes the columns and then the diagonals of a block. -/
def doubleRound (b : Array UInt32) : Array UInt32 :=
  let b := quarter b 0 4 8 12
  let b := quarter b 1 5 9 13
  let b := quarter b 2 6 10 14
  let b := quarter b 3 7 11 15
  let b := quarter b 0 5 10 15
  let b := quarter b 1 6 11 12
  let b := quarter b 2 7 8 13
  quarter b 3 4 9 14

/-- The sixteen words of a block of the stream. -/
def block (key : List UInt32) (counter : Nat) : Array UInt32 :=
  let n := UInt64.ofNat counter
  let constants : List UInt32 := [0x61707865, 0x3320646E, 0x79622D32, 0x6B206574]
  let position : List UInt32 := [n.toUInt32, (n >>> 32).toUInt32, 0, 0]
  let start := (constants ++ key ++ position).toArray
  let mixed := (List.range 6).foldl (fun b _ => doubleRound b) start
  Array.zipWith (· + ·) mixed start

/-- The next 64-bit word: two words of the stream, the low one first. -/
def next (r : Random) : Word × Random :=
  let b := block r.key (r.drawn / 8)
  let half (i : Nat) : Word := (b.getD (2 * (r.drawn % 8) + i) 0).toUInt64
  (half 0 ||| half 1 <<< 32, { r with drawn := r.drawn + 1 })

/-- The largest low half of a product that counts for a bound, so that every result is equally
    likely. -/
def acceptLimit (bound : Nat) : Nat :=
  let shift := 63 - bound.log2
  (bound * Nat.pow 2 shift + 0xffffffffffffffff) % 0x10000000000000000

/-- Draws until a word is accepted, at most `fuel` times. -/
def belowFor (bound : Nat) : (fuel : Nat) → Random → Nat × Random
  | 0, r => (0, r)
  | fuel + 1, r =>
      let (word, r) := r.next
      let product := word.toNat * bound
      if product % 0x10000000000000000 ≤ acceptLimit bound then (product / 0x10000000000000000, r)
      else belowFor bound fuel r

/-- A number below a bound that is not zero. A word is refused with a chance below one half, so the
    number of draws is never reached. -/
def below (bound : Nat) (r : Random) : Nat × Random := belowFor bound 1024 r

end Random

end PathSearch
