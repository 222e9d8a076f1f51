import EpochConsensus.Octets

/-! # The SHA-2 hash functions

SHA-256 and SHA-512 are one construction over words of two sizes: pad the input to whole blocks,
expand each block into one word per round, and fold the rounds into eight registers.  A `Family`
holds what differs, and `Family.hash` is the construction.

Rounds consume a window of sixteen upcoming schedule words: each round takes the first word and
appends the word sixteen places later, so the whole schedule is never stored.
-/
namespace EpochConsensus.Sha2

/-- The eight working registers. -/
structure Registers (α : Type) where
  a : α
  b : α
  c : α
  d : α
  e : α
  f : α
  g : α
  h : α

namespace Registers

variable {α : Type}

def toList (r : Registers α) : List α := [r.a, r.b, r.c, r.d, r.e, r.f, r.g, r.h]

/-- Register by register. -/
def zipWith (op : α → α → α) (r s : Registers α) : Registers α :=
  ⟨op r.a s.a, op r.b s.b, op r.c s.c, op r.d s.d, op r.e s.e, op r.f s.f, op r.g s.g, op r.h s.h⟩

end Registers

/-- What distinguishes one hash function of the family: the word size, the number of rounds with
their constants, and the four mixing functions. -/
structure Family (α : Type) where
  wordSize : Nat
  initial : Registers α
  constants : List α
  add : α → α → α
  bigSigma0 : α → α
  bigSigma1 : α → α
  smallSigma0 : α → α
  smallSigma1 : α → α
  choose : α → α → α → α
  majority : α → α → α → α
  ofNat : Nat → α
  toNat : α → Nat

namespace Family

variable {α : Type} (fam : Family α)

/-- A block is sixteen words. -/
def blockSize : Nat := 16 * fam.wordSize

/-- A number in `n` bytes, most significant first. -/
def bigEndian (n v : Nat) : Bytes := (littleEndian n v).reverse

/-- The input, a one bit, zeros up to a whole number of blocks, and the input's length in bits
in the last two words. -/
def pad (input : Bytes) : Bytes :=
  let tail := 1 + 2 * fam.wordSize
  let filled := (input.length + tail) % fam.blockSize
  let zeros := if filled = 0 then 0 else fam.blockSize - filled
  input ++ 0x80 :: (List.replicate zeros 0 ++ bigEndian (2 * fam.wordSize) (8 * input.length))

/-- The first `count` words of a block, each most significant byte first. -/
def words : (count : Nat) → Bytes → List α
  | 0, _ => []
  | count + 1, bytes =>
    fam.ofNat (ofLittleEndian (bytes.take fam.wordSize).reverse) ::
      words count (bytes.drop fam.wordSize)

/-- The schedule word sixteen places after `w`, from the fifteen words between them. -/
def nextWord (w : α) (between : List α) : α :=
  fam.add (fam.add (fam.smallSigma1 (between.getD 13 w)) (between.getD 8 w))
    (fam.add (fam.smallSigma0 (between.getD 0 w)) w)

/-- One round with constant `k` and schedule word `w`. -/
def round (r : Registers α) (k w : α) : Registers α :=
  let t₁ := fam.add (fam.add r.h (fam.bigSigma1 r.e))
    (fam.add (fam.choose r.e r.f r.g) (fam.add k w))
  let t₂ := fam.add (fam.bigSigma0 r.a) (fam.majority r.a r.b r.c)
  ⟨fam.add t₁ t₂, r.a, r.b, r.c, fam.add r.d t₁, r.e, r.f, r.g⟩

/-- One round for each constant, along the expanding schedule. -/
def rounds : List α → List α → Registers α → Registers α
  | k :: ks, w :: ws, r => rounds ks (ws ++ [fam.nextWord w ws]) (fam.round r k w)
  | _, _, r => r

/-- The registers after one block. -/
def compress (r : Registers α) (block : Bytes) : Registers α :=
  r.zipWith fam.add (fam.rounds fam.constants (fam.words 16 block) r)

/-- The registers after the first `count` blocks of `bytes`. -/
def absorb : (count : Nat) → Bytes → Registers α → Registers α
  | 0, _, r => r
  | count + 1, bytes, r =>
    absorb count (bytes.drop fam.blockSize) (fam.compress r (bytes.take fam.blockSize))

/-- The digest: the registers after every block, most significant byte first. -/
def hash (input : Bytes) : Bytes :=
  let padded := fam.pad input
  (fam.absorb (padded.length / fam.blockSize) padded fam.initial).toList.flatMap
    fun w => bigEndian fam.wordSize (fam.toNat w)

theorem length_hash (input : Bytes) : (fam.hash input).length = 8 * fam.wordSize := by
  simp [hash, Registers.toList, bigEndian]
  omega

end Family

/-! ### The two functions -/

/-- The first sixty-four bits of the fractional parts of the cube roots of the first eighty
primes. -/
def cubeRoots : List UInt64 := [
  0x428a2f98d728ae22, 0x7137449123ef65cd, 0xb5c0fbcfec4d3b2f, 0xe9b5dba58189dbbc,
  0x3956c25bf348b538, 0x59f111f1b605d019, 0x923f82a4af194f9b, 0xab1c5ed5da6d8118,
  0xd807aa98a3030242, 0x12835b0145706fbe, 0x243185be4ee4b28c, 0x550c7dc3d5ffb4e2,
  0x72be5d74f27b896f, 0x80deb1fe3b1696b1, 0x9bdc06a725c71235, 0xc19bf174cf692694,
  0xe49b69c19ef14ad2, 0xefbe4786384f25e3, 0x0fc19dc68b8cd5b5, 0x240ca1cc77ac9c65,
  0x2de92c6f592b0275, 0x4a7484aa6ea6e483, 0x5cb0a9dcbd41fbd4, 0x76f988da831153b5,
  0x983e5152ee66dfab, 0xa831c66d2db43210, 0xb00327c898fb213f, 0xbf597fc7beef0ee4,
  0xc6e00bf33da88fc2, 0xd5a79147930aa725, 0x06ca6351e003826f, 0x142929670a0e6e70,
  0x27b70a8546d22ffc, 0x2e1b21385c26c926, 0x4d2c6dfc5ac42aed, 0x53380d139d95b3df,
  0x650a73548baf63de, 0x766a0abb3c77b2a8, 0x81c2c92e47edaee6, 0x92722c851482353b,
  0xa2bfe8a14cf10364, 0xa81a664bbc423001, 0xc24b8b70d0f89791, 0xc76c51a30654be30,
  0xd192e819d6ef5218, 0xd69906245565a910, 0xf40e35855771202a, 0x106aa07032bbd1b8,
  0x19a4c116b8d2d0c8, 0x1e376c085141ab53, 0x2748774cdf8eeb99, 0x34b0bcb5e19b48a8,
  0x391c0cb3c5c95a63, 0x4ed8aa4ae3418acb, 0x5b9cca4f7763e373, 0x682e6ff3d6b2b8a3,
  0x748f82ee5defb2fc, 0x78a5636f43172f60, 0x84c87814a1f0ab72, 0x8cc702081a6439ec,
  0x90befffa23631e28, 0xa4506cebde82bde9, 0xbef9a3f7b2c67915, 0xc67178f2e372532b,
  0xca273eceea26619c, 0xd186b8c721c0c207, 0xeada7dd6cde0eb1e, 0xf57d4f7fee6ed178,
  0x06f067aa72176fba, 0x0a637dc5a2c898a6, 0x113f9804bef90dae, 0x1b710b35131c471b,
  0x28db77f523047d84, 0x32caab7b40c72493, 0x3c9ebe0a15c9bebc, 0x431d67c49c100d4c,
  0x4cc5d4becb3e42b6, 0x597f299cfc657e2a, 0x5fcb6fab3ad6faec, 0x6c44198c4a475817]

/-- The first sixty-four bits of the fractional parts of the square roots of the first eight
primes. -/
def squareRoots : Registers UInt64 :=
  ⟨0x6a09e667f3bcc908, 0xbb67ae8584caa73b, 0x3c6ef372fe94f82b, 0xa54ff53a5f1d36f1,
    0x510e527fade682d1, 0x9b05688c2b3e6c1f, 0x1f83d9abfb41bd6b, 0x5be0cd19137e2179⟩

/-- The upper half of a long word. -/
def upper (w : UInt64) : UInt32 := (w >>> 32).toUInt32

def rotate32 (w n : UInt32) : UInt32 := (w >>> n) ||| (w <<< (32 - n))

def rotate64 (w n : UInt64) : UInt64 := (w >>> n) ||| (w <<< (64 - n))

/-- SHA-256: sixty-four rounds on 32-bit words; its constants are the upper halves of the long
ones. -/
def short : Family UInt32 where
  wordSize := 4
  initial := ⟨upper squareRoots.a, upper squareRoots.b, upper squareRoots.c, upper squareRoots.d,
    upper squareRoots.e, upper squareRoots.f, upper squareRoots.g, upper squareRoots.h⟩
  constants := (cubeRoots.take 64).map upper
  add := (· + ·)
  bigSigma0 := fun w => rotate32 w 2 ^^^ rotate32 w 13 ^^^ rotate32 w 22
  bigSigma1 := fun w => rotate32 w 6 ^^^ rotate32 w 11 ^^^ rotate32 w 25
  smallSigma0 := fun w => rotate32 w 7 ^^^ rotate32 w 18 ^^^ (w >>> 3)
  smallSigma1 := fun w => rotate32 w 17 ^^^ rotate32 w 19 ^^^ (w >>> 10)
  choose := fun x y z => (x &&& y) ^^^ (~~~x &&& z)
  majority := fun x y z => (x &&& y) ^^^ (x &&& z) ^^^ (y &&& z)
  ofNat := UInt32.ofNat
  toNat := UInt32.toNat

/-- SHA-512: eighty rounds on 64-bit words. -/
def long : Family UInt64 where
  wordSize := 8
  initial := squareRoots
  constants := cubeRoots
  add := (· + ·)
  bigSigma0 := fun w => rotate64 w 28 ^^^ rotate64 w 34 ^^^ rotate64 w 39
  bigSigma1 := fun w => rotate64 w 14 ^^^ rotate64 w 18 ^^^ rotate64 w 41
  smallSigma0 := fun w => rotate64 w 1 ^^^ rotate64 w 8 ^^^ (w >>> 7)
  smallSigma1 := fun w => rotate64 w 19 ^^^ rotate64 w 61 ^^^ (w >>> 6)
  choose := fun x y z => (x &&& y) ^^^ (~~~x &&& z)
  majority := fun x y z => (x &&& y) ^^^ (x &&& z) ^^^ (y &&& z)
  ofNat := UInt64.ofNat
  toNat := UInt64.toNat

/-- The 32-byte digest of `input`. -/
def sha256 (input : Bytes) : Octets 32 := ⟨short.hash input, short.length_hash input⟩

/-- The 64-byte digest of `input`. -/
def sha512 (input : Bytes) : Octets 64 := ⟨long.hash input, long.length_hash input⟩

end EpochConsensus.Sha2
