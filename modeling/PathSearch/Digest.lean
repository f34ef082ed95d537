import PathSearch.Text.Hex

/-! # SHA-1

A fingerprint of 160 bits for byte strings, kept as five words. The message is padded with one set
bit, zeros and its length in bits, and its blocks of 64 bytes are mixed into the words one after
the other.
-/

namespace PathSearch

/-- Five 32-bit words, the most significant first. -/
structure Digest where
  a : UInt32
  b : UInt32
  c : UInt32
  d : UInt32
  e : UInt32
  deriving Repr, DecidableEq, Inhabited, Hashable

namespace Digest

/-- The bytes of a 32-bit word, the most significant first. -/
def wordBytes (w : UInt32) : List UInt8 :=
  [(w >>> 24).toUInt8, (w >>> 16).toUInt8, (w >>> 8).toUInt8, w.toUInt8]

/-- The twenty bytes of a digest. -/
def bytes (x : Digest) : List UInt8 := [x.a, x.b, x.c, x.d, x.e].flatMap wordBytes

/-- The forty hexadecimal digits of a digest. -/
def hex (x : Digest) : String := Text.hexBytes x.bytes

/-- The words before any block is mixed in. -/
def initial : Digest := ⟨0x67452301, 0xEFCDAB89, 0x98BADCFE, 0x10325476, 0xC3D2E1F0⟩

def rotateLeft (w : UInt32) (n : UInt32) : UInt32 := (w <<< n) ||| (w >>> (32 - n))

/-- The message followed by a set bit, zeros and the length in bits, a multiple of 64 bytes. -/
def pad (message : List UInt8) : List UInt8 :=
  let bits := UInt64.ofNat (8 * message.length)
  let zeros := (119 - message.length % 64) % 64
  message ++ ((0x80 : UInt8) :: List.replicate zeros (0 : UInt8)) ++
    wordBytes (bits >>> 32).toUInt32 ++ wordBytes bits.toUInt32

/-- Reads four bytes at a time as words. -/
def wordsOf : List UInt8 → List UInt32
  | p :: q :: r :: s :: rest =>
      (p.toUInt32 <<< 24 ||| q.toUInt32 <<< 16 ||| r.toUInt32 <<< 8 ||| s.toUInt32) :: wordsOf rest
  | _ => []

/-- The word of the schedule at position `i ≥ 16`, from four earlier ones. -/
def scheduleWord (w : Array UInt32) (i : Nat) : UInt32 :=
  let earlier (back : Nat) : UInt32 := w.getD (i - back) 0
  rotateLeft (earlier 3 ^^^ earlier 8 ^^^ earlier 14 ^^^ earlier 16) 1

/-- The eighty words that a block of sixteen is drawn out to. -/
def schedule (block : List UInt32) : Array UInt32 :=
  (List.range' 16 64).foldl (fun w i => w.push (scheduleWord w i)) block.toArray

/-- The mixing function of round `i`. -/
def choose (i : Nat) (b c d : UInt32) : UInt32 :=
  if i < 20 then (b &&& c) ||| (~~~ b &&& d)
  else if i < 40 then b ^^^ c ^^^ d
  else if i < 60 then (b &&& c) ||| (b &&& d) ||| (c &&& d)
  else b ^^^ c ^^^ d

/-- The constant of round `i`. -/
def roundConstant (i : Nat) : UInt32 :=
  if i < 20 then 0x5A827999
  else if i < 40 then 0x6ED9EBA1
  else if i < 60 then 0x8F1BBCDC
  else 0xCA62C1D6

/-- One of the eighty rounds. -/
def round (x : Digest) (i : Nat) (w : UInt32) : Digest :=
  let mixed := rotateLeft x.a 5 + choose i x.b x.c x.d + x.e + roundConstant i + w
  ⟨mixed, x.a, rotateLeft x.b 30, x.c, x.d⟩

/-- Mixes one block of sixteen words into the digest. -/
def mixBlock (x : Digest) (block : List UInt32) : Digest :=
  let w := schedule block
  let y := (List.range 80).foldl (fun y i => round y i (w.getD i 0)) x
  ⟨x.a + y.a, x.b + y.b, x.c + y.c, x.d + y.d, x.e + y.e⟩

/-- Mixes in the given number of blocks. -/
def mixBlocks : (blocks : Nat) → Digest → List UInt8 → Digest
  | 0, x, _ => x
  | n + 1, x, bytes => mixBlocks n (mixBlock x (wordsOf (bytes.take 64))) (bytes.drop 64)

/-- The SHA-1 digest of a byte string. -/
def sha1 (message : List UInt8) : Digest :=
  let bytes := pad message
  mixBlocks (bytes.length / 64) initial bytes

end Digest

end PathSearch
