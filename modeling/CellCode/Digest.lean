/-!
# SHA-256

The digest that identifies a cell. A message is padded to whole blocks of sixteen words, and
each block is mixed into eight words of state; the eight words left at the end are the
digest. Nothing in this library depends on how the words are mixed, only that equal messages
have equal digests.
-/

namespace CellCode

/-- A digest of 256 bits, in eight words. -/
structure Digest where
  a : UInt32
  b : UInt32
  c : UInt32
  d : UInt32
  e : UInt32
  f : UInt32
  g : UInt32
  h : UInt32
  deriving DecidableEq, Repr, Inhabited, Hashable

namespace Digest

/-! ## The digest as bytes and as text -/

/-- The four bytes of a word, most significant first. -/
def wordBytes (w : UInt32) : List UInt8 :=
  [(w >>> 24).toUInt8, (w >>> 16).toUInt8, (w >>> 8).toUInt8, w.toUInt8]

/-- The words of a digest in order. -/
def words (x : Digest) : List UInt32 := [x.a, x.b, x.c, x.d, x.e, x.f, x.g, x.h]

/-- The 32 bytes of a digest. -/
def toBytes (x : Digest) : List UInt8 := x.words.flatMap wordBytes

@[simp] theorem length_toBytes (x : Digest) : x.toBytes.length = 32 := rfl

/-- The two hexadecimal digits of a byte, lower case. -/
def byteHex (b : UInt8) : List Char := [Nat.digitChar (b.toNat / 16), Nat.digitChar (b.toNat % 16)]

/-- The 64 hexadecimal digits of a digest, lower case. -/
def toHex (x : Digest) : String := String.ofList (x.toBytes.flatMap byteHex)

/-- The first eight hexadecimal digits, as messages name a cell. -/
def shortHex (x : Digest) : String := String.ofList ((x.toBytes.take 4).flatMap byteHex)

/-! ## The digest of a message -/

/-- The state before the first block. -/
def initial : Digest :=
  ⟨0x6a09e667, 0xbb67ae85, 0x3c6ef372, 0xa54ff53a, 0x510e527f, 0x9b05688c, 0x1f83d9ab, 0x5be0cd19⟩

/-- The constants of the 64 rounds. -/
def roundConstants : List UInt32 := [
  0x428a2f98, 0x71374491, 0xb5c0fbcf, 0xe9b5dba5, 0x3956c25b, 0x59f111f1, 0x923f82a4, 0xab1c5ed5,
  0xd807aa98, 0x12835b01, 0x243185be, 0x550c7dc3, 0x72be5d74, 0x80deb1fe, 0x9bdc06a7, 0xc19bf174,
  0xe49b69c1, 0xefbe4786, 0x0fc19dc6, 0x240ca1cc, 0x2de92c6f, 0x4a7484aa, 0x5cb0a9dc, 0x76f988da,
  0x983e5152, 0xa831c66d, 0xb00327c8, 0xbf597fc7, 0xc6e00bf3, 0xd5a79147, 0x06ca6351, 0x14292967,
  0x27b70a85, 0x2e1b2138, 0x4d2c6dfc, 0x53380d13, 0x650a7354, 0x766a0abb, 0x81c2c92e, 0x92722c85,
  0xa2bfe8a1, 0xa81a664b, 0xc24b8b70, 0xc76c51a3, 0xd192e819, 0xd6990624, 0xf40e3585, 0x106aa070,
  0x19a4c116, 0x1e376c08, 0x2748774c, 0x34b0bcb5, 0x391c0cb3, 0x4ed8aa4a, 0x5b9cca4f, 0x682e6ff3,
  0x748f82ee, 0x78a5636f, 0x84c87814, 0x8cc70208, 0x90befffa, 0xa4506ceb, 0xbef9a3f7, 0xc67178f2
]

/-- The word turned right by `n` places. -/
@[inline] def rotateRight (w : UInt32) (n : UInt32) : UInt32 := (w >>> n) ||| (w <<< (32 - n))

/-- The schedule grown by one word, from four earlier ones. -/
def extendSchedule (schedule : Array UInt32) : Array UInt32 :=
  let word (back : Nat) : UInt32 := schedule.getD (schedule.size - back) 0
  let w15 := word 15
  let w2 := word 2
  let s0 := rotateRight w15 7 ^^^ rotateRight w15 18 ^^^ (w15 >>> 3)
  let s1 := rotateRight w2 17 ^^^ rotateRight w2 19 ^^^ (w2 >>> 10)
  schedule.push (word 16 + s0 + word 7 + s1)

/-- The 64 words that a block of sixteen is spread over. -/
def schedule (block : List UInt32) : List UInt32 :=
  (Nat.repeat extendSchedule 48 block.toArray).toList

/-- One round: the state turned by one word, with one word of the schedule mixed in. -/
def round (x : Digest) (constant word : UInt32) : Digest :=
  let s1 := rotateRight x.e 6 ^^^ rotateRight x.e 11 ^^^ rotateRight x.e 25
  let choice := (x.e &&& x.f) ^^^ (~~~x.e &&& x.g)
  let t1 := x.h + s1 + choice + constant + word
  let s0 := rotateRight x.a 2 ^^^ rotateRight x.a 13 ^^^ rotateRight x.a 22
  let majority := (x.a &&& x.b) ^^^ (x.a &&& x.c) ^^^ (x.b &&& x.c)
  ⟨t1 + s0 + majority, x.a, x.b, x.c, x.d + t1, x.e, x.f, x.g⟩

/-- The state after a block of sixteen words. -/
def compress (x : Digest) (block : List UInt32) : Digest :=
  let y := (roundConstants.zip (schedule block)).foldl (fun s (k, w) => round s k w) x
  ⟨x.a + y.a, x.b + y.b, x.c + y.c, x.d + y.d, x.e + y.e, x.f + y.f, x.g + y.g, x.h + y.h⟩

/-- The message with its padding: a one bit, zeros up to a whole block, and the length. -/
def padded (message : List UInt8) : List UInt8 :=
  let zeros := (64 - (message.length + 9) % 64) % 64
  let bits := UInt64.ofNat (8 * message.length)
  message ++ (0x80 : UInt8) :: List.replicate zeros 0 ++
    wordBytes (bits >>> 32).toUInt32 ++ wordBytes bits.toUInt32

/-- The words that the bytes hold, four bytes each. -/
def wordsOf : List UInt8 → List UInt32
  | a :: b :: c :: d :: rest =>
    ((a.toUInt32 <<< 24) ||| (b.toUInt32 <<< 16) ||| (c.toUInt32 <<< 8) ||| d.toUInt32) ::
      wordsOf rest
  | _ => []

/-- The state after `count` blocks, taken from the front of the words. -/
def compressBlocks : (count : Nat) → Digest → List UInt32 → Digest
  | 0, x, _ => x
  | count + 1, x, words => compressBlocks count (compress x (words.take 16)) (words.drop 16)

/-- The SHA-256 digest of a message. -/
def sha256 (message : List UInt8) : Digest :=
  let words := wordsOf (padded message)
  compressBlocks (words.length / 16) initial words

end Digest

end CellCode
