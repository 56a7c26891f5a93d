import HeapImage.Bytes

/-!
# SHA-256

The checksum of an archive file is the SHA-256 digest of all bytes in front of it.

* `Digest.State`, `Digest.round`: eight working words and one of the 64 rounds that mix them.
* `Digest.compress`: what one block of 64 bytes does to the chaining value.
* `Digest.ofBytes`: the digest of a byte array, 32 bytes.
-/

namespace HeapImage.Digest

/-- Bytes of a digest. -/
def size : Nat := 32

/-- Bytes of a block. -/
def blockSize : Nat := 64

/-! ### Rounds -/

/-- Eight words: the chaining value between blocks, the working variables inside one. -/
structure State where
  a : UInt32
  b : UInt32
  c : UInt32
  d : UInt32
  e : UInt32
  f : UInt32
  g : UInt32
  h : UInt32

/-- The chaining value in front of the first block: the fractional parts of the square roots of the
first eight primes. -/
def State.initial : State :=
  ⟨0x6a09e667, 0xbb67ae85, 0x3c6ef372, 0xa54ff53a, 0x510e527f, 0x9b05688c, 0x1f83d9ab, 0x5be0cd19⟩

/-- The fractional parts of the cube roots of the first 64 primes, one for each round. -/
def roundConstants : Array UInt32 := #[
  0x428a2f98, 0x71374491, 0xb5c0fbcf, 0xe9b5dba5, 0x3956c25b, 0x59f111f1, 0x923f82a4, 0xab1c5ed5,
  0xd807aa98, 0x12835b01, 0x243185be, 0x550c7dc3, 0x72be5d74, 0x80deb1fe, 0x9bdc06a7, 0xc19bf174,
  0xe49b69c1, 0xefbe4786, 0x0fc19dc6, 0x240ca1cc, 0x2de92c6f, 0x4a7484aa, 0x5cb0a9dc, 0x76f988da,
  0x983e5152, 0xa831c66d, 0xb00327c8, 0xbf597fc7, 0xc6e00bf3, 0xd5a79147, 0x06ca6351, 0x14292967,
  0x27b70a85, 0x2e1b2138, 0x4d2c6dfc, 0x53380d13, 0x650a7354, 0x766a0abb, 0x81c2c92e, 0x92722c85,
  0xa2bfe8a1, 0xa81a664b, 0xc24b8b70, 0xc76c51a3, 0xd192e819, 0xd6990624, 0xf40e3585, 0x106aa070,
  0x19a4c116, 0x1e376c08, 0x2748774c, 0x34b0bcb5, 0x391c0cb3, 0x4ed8aa4a, 0x5b9cca4f, 0x682e6ff3,
  0x748f82ee, 0x78a5636f, 0x84c87814, 0x8cc70208, 0x90befffa, 0xa4506ceb, 0xbef9a3f7, 0xc67178f2]

/-- Rotation to the right by `n` places, `n` between 1 and 31. -/
@[inline] def rotate (x n : UInt32) : UInt32 := (x >>> n) ||| (x <<< (32 - n))

/-- Bits of `y` where `x` is set and of `z` where it is clear. -/
@[inline] def choose (x y z : UInt32) : UInt32 := (x &&& y) ^^^ ((x ^^^ 0xffffffff) &&& z)

/-- The bit that two of the three words have. -/
@[inline] def majority (x y z : UInt32) : UInt32 := (x &&& y) ^^^ (x &&& z) ^^^ (y &&& z)

/-- One round with its constant and its schedule word. -/
@[inline] def round (k w : UInt32) (s : State) : State :=
  let mixE := rotate s.e 6 ^^^ rotate s.e 11 ^^^ rotate s.e 25
  let mixA := rotate s.a 2 ^^^ rotate s.a 13 ^^^ rotate s.a 22
  let t := s.h + mixE + choose s.e s.f s.g + k + w
  ⟨t + mixA + majority s.a s.b s.c, s.a, s.b, s.c, s.d + t, s.e, s.f, s.g⟩

/-- The last `n` of the 64 rounds. -/
def rounds (w : Array UInt32) : (n : Nat) → State → State
  | 0, s => s
  | n + 1, s => rounds w n (round (roundConstants.getD (63 - n) 0) (w.getD (63 - n) 0) s)

/-! ### Blocks -/

/-- The big-endian word at offset `i`. -/
@[inline] def wordAt (b : ByteArray) (i : Nat) : UInt32 :=
  (Bytes.get b i).toUInt32 <<< 24 ||| (Bytes.get b (i + 1)).toUInt32 <<< 16 |||
    (Bytes.get b (i + 2)).toUInt32 <<< 8 ||| (Bytes.get b (i + 3)).toUInt32

/-- The first `n` words from offset `i` on, after the words read before. -/
def readWords (b : ByteArray) : (n i : Nat) → Array UInt32 → Array UInt32
  | 0, _, w => w
  | n + 1, i, w => readWords b n (i + 4) (w.push (wordAt b i))

/-- Extends a schedule by `n` words, each mixed from four earlier ones. -/
def extendSchedule : (n : Nat) → Array UInt32 → Array UInt32
  | 0, w => w
  | n + 1, w =>
    let i := w.size
    let x := w.getD (i - 15) 0
    let y := w.getD (i - 2) 0
    let mixX := rotate x 7 ^^^ rotate x 18 ^^^ (x >>> 3)
    let mixY := rotate y 17 ^^^ rotate y 19 ^^^ (y >>> 10)
    extendSchedule n (w.push (mixY + w.getD (i - 7) 0 + mixX + w.getD (i - 16) 0))

/-- The chaining value after the block at offset `i`. -/
def compress (b : ByteArray) (i : Nat) (s : State) : State :=
  let w := extendSchedule 48 (readWords b 16 i (Array.emptyWithCapacity 64))
  let t := rounds w 64 s
  ⟨s.a + t.a, s.b + t.b, s.c + t.c, s.d + t.d, s.e + t.e, s.f + t.f, s.g + t.g, s.h + t.h⟩

/-- The chaining value after `n` blocks from offset `i` on. -/
def compressAll (b : ByteArray) : (n i : Nat) → State → State
  | 0, _, s => s
  | n + 1, i, s => compressAll b n (i + blockSize) (compress b i s)

/-- The `n` low bytes of `v`, most significant first. -/
def bigEndian (n v : Nat) : List UInt8 := (Bytes.ofNat n v).reverse

/-- A message followed by a set bit, zeros, and its length in bits, a whole number of blocks. -/
def pad (b : ByteArray) : ByteArray :=
  let gap := (blockSize - (b.size + 9) % blockSize) % blockSize
  (b.push 0x80 ++ Bytes.zeros gap) ++ Bytes.ofList (bigEndian 8 (8 * b.size))

/-- The bytes of a chaining value. -/
def State.toBytes (s : State) : ByteArray :=
  Bytes.ofList ([s.a, s.b, s.c, s.d, s.e, s.f, s.g, s.h].flatMap fun w => bigEndian 4 w.toNat)

/-- The SHA-256 digest of a byte array. -/
def ofBytes (b : ByteArray) : ByteArray :=
  let padded := pad b
  (compressAll padded (padded.size / blockSize) 0 State.initial).toBytes

end HeapImage.Digest
