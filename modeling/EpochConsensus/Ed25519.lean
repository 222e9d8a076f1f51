import EpochConsensus.Certificate
import EpochConsensus.Ed25519.Curve

/-! # Ed25519 signatures

Signing is deterministic: the nonce is a hash of half of the secret and the message.  A signature
is a point `R` and a number `s` below the group order; it verifies when `s` times the base point
less `k` times the public key is written exactly as `R`, where `k` is a hash of `R`, the public key
as it was given, and the message.  Public keys of small order and keys that are not written in the
shortest way count as keys.
-/
namespace EpochConsensus.Ed25519

/-- The hash of some bytes as a number modulo the group order. -/
def hashToScalar (bytes : Bytes) : Nat := ofLittleEndian (Sha2.sha512 bytes).toList % order

/-! ### Signing -/

/-- A secret key, with what is computed from it once. -/
structure SigningKey where
  scalar : Nat
  nonce : Bytes
  publicKey : Octets 32

namespace SigningKey

/-- The number in 32 bytes, made a multiple of eight between `2 ^ 254` and `2 ^ 255`. -/
def clamp (bytes : Bytes) : Nat := ofLittleEndian bytes % (1 <<< 254) / 8 * 8 + (1 <<< 254)

def ofSeed (seed : Octets 32) : SigningKey :=
  let digest := (Sha2.sha512 seed.toList).toList
  let scalar := clamp (digest.take 32)
  { scalar, nonce := digest.drop 32, publicKey := .fit 32 (Point.base.times scalar).compress }

/-- The signature on some bytes. -/
def sign (key : SigningKey) (bytes : Bytes) : Signature :=
  let r := hashToScalar (key.nonce ++ bytes)
  let point := (Point.base.times r).compress
  let k := hashToScalar (point ++ (key.publicKey.toList ++ bytes))
  ⟨.fit 64 (point ++ littleEndian 32 ((r + k * key.scalar) % order))⟩

end SigningKey

/-! ### Verifying -/

/-- A public key: the bytes it was given as, and the point they stand for. -/
structure PublicKey where
  bytes : Octets 32
  point : Point

namespace PublicKey

/-- The key that some bytes stand for. -/
def ofBytes? (bytes : Octets 32) : Option PublicKey :=
  (Point.decompress? bytes.toList).map fun point => ⟨bytes, point⟩

/-- Whether a signature on some bytes is this key's. -/
def verify (key : PublicKey) (bytes : Bytes) (signature : Signature) : Bool :=
  let point := signature.bytes.toList.take 32
  let s := ofLittleEndian (signature.bytes.toList.drop 32)
  let k := hashToScalar (point ++ (key.bytes.toList ++ bytes))
  s < order && (Point.combine k key.point.neg s Point.base).compress == point

/-- The table of public keys by process, unless some bytes stand for no key. -/
def table (keys : List (Octets 32)) : Except Rejection (List PublicKey) :=
  keys.zipIdx.mapM fun (bytes, i) =>
    match ofBytes? bytes with
    | some key => .ok key
    | none => .error (.badKey (UInt16.ofNat i))

end PublicKey

end EpochConsensus.Ed25519
