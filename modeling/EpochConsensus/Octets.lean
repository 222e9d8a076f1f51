/-! # Octets

Byte strings, byte strings of a fixed length, and numbers written with the least significant
byte first.  Reading back a written number gives it modulo the width
(`ofLittleEndian_littleEndian`), the number that `n` bytes hold is below `byteRange n`
(`ofLittleEndian_lt`), and these bytes are the only ones that it is written as
(`littleEndian_ofLittleEndian`).
-/
namespace EpochConsensus

/-- A byte string. -/
abbrev Bytes := List UInt8

/-- A byte string of exactly `n` bytes. -/
structure Octets (n : Nat) where
  toList : Bytes
  length_toList : toList.length = n

namespace Octets

/-- The byte string, when it has `n` bytes. -/
def ofList? (n : Nat) (bytes : Bytes) : Option (Octets n) :=
  if h : bytes.length = n then some ⟨bytes, h⟩ else none

/-- One byte, `n` times. -/
def fill (n : Nat) (byte : UInt8) : Octets n :=
  ⟨List.replicate n byte, List.length_replicate⟩

/-- The first `n` bytes of `bytes`, with zeros after its end. -/
def fit (n : Nat) (bytes : Bytes) : Octets n :=
  ⟨bytes.take n ++ List.replicate (n - bytes.length) 0, by simp; omega⟩

@[simp] theorem ofList?_toList {n : Nat} (o : Octets n) : ofList? n o.toList = some o := by
  simp [ofList?, o.length_toList]

theorem ext {n : Nat} {a b : Octets n} (h : a.toList = b.toList) : a = b := by
  cases a; cases b; cases h; rfl

/-- Whether two byte strings are equal, decided at the first byte in which they differ. -/
def agree : Bytes → Bytes → Bool
  | [], [] => true
  | a :: as, b :: bs => a == b && agree as bs
  | [], _ :: _ | _ :: _, [] => false

theorem agree_iff {as bs : Bytes} : agree as bs = true ↔ as = bs := by
  fun_induction agree as bs <;> simp_all

/-- Byte strings of one length are compared byte by byte. -/
instance {n : Nat} : DecidableEq (Octets n) := fun a b =>
  decidable_of_iff (agree a.toList b.toList = true)
    ⟨fun h => ext (agree_iff.mp h), fun h => agree_iff.mpr (congrArg toList h)⟩

end Octets

/-! ### Numbers -/

/-- The low `n` bytes of a number, least significant first. -/
def littleEndian : (n : Nat) → Nat → Bytes
  | 0, _ => []
  | n + 1, v => UInt8.ofNat v :: littleEndian n (v / 256)

/-- The number whose bytes these are, least significant first. -/
def ofLittleEndian : Bytes → Nat
  | [] => 0
  | b :: bs => b.toNat + 256 * ofLittleEndian bs

@[simp] theorem length_littleEndian (n v : Nat) : (littleEndian n v).length = n := by
  induction n generalizing v with
  | zero => rfl
  | succ n ih => simp [littleEndian, ih]

/-- How many numbers fit into `n` bytes. -/
def byteRange : (n : Nat) → Nat
  | 0 => 1
  | n + 1 => 256 * byteRange n

theorem ofLittleEndian_littleEndian (n v : Nat) :
    ofLittleEndian (littleEndian n v) = v % byteRange n := by
  induction n generalizing v with
  | zero => simp [littleEndian, ofLittleEndian, byteRange, Nat.mod_one]
  | succ n ih =>
    rw [littleEndian, ofLittleEndian, ih, byteRange, Nat.mod_mul]
    simp

theorem ofLittleEndian_lt (bs : Bytes) : ofLittleEndian bs < byteRange bs.length := by
  induction bs with
  | nil => decide
  | cons b bs ih =>
    have hb := b.toNat_lt
    rw [ofLittleEndian, List.length_cons, byteRange]
    omega

/-- Writing the number that some bytes hold gives the bytes back. -/
theorem littleEndian_ofLittleEndian (bs : Bytes) :
    littleEndian bs.length (ofLittleEndian bs) = bs := by
  induction bs with
  | nil => rfl
  | cons b bs ih =>
    have hb := b.toNat_lt
    have hlow : UInt8.ofNat (b.toNat + 256 * ofLittleEndian bs) = b := by
      refine UInt8.toNat_inj.mp ?_
      rw [UInt8.toNat_ofNat']
      omega
    have hhigh : (b.toNat + 256 * ofLittleEndian bs) / 256 = ofLittleEndian bs := by omega
    rw [List.length_cons, ofLittleEndian, littleEndian, hlow, hhigh, ih]

/-- Numbers that fit into the bytes are equal when their bytes are. -/
theorem eq_of_littleEndian_eq {n a b : Nat} (ha : a < byteRange n) (hb : b < byteRange n)
    (h : littleEndian n a = littleEndian n b) : a = b := by
  have hmod : a % byteRange n = b % byteRange n := by
    rw [← ofLittleEndian_littleEndian, ← ofLittleEndian_littleEndian, h]
  rwa [Nat.mod_eq_of_lt ha, Nat.mod_eq_of_lt hb] at hmod

/-! ### Hexadecimal text -/

/-- The lowercase digit of a number below sixteen. -/
def hexDigit (n : UInt8) : Char :=
  Char.ofNat (if n < 10 then 48 + n.toNat else 87 + n.toNat)

/-- Two lowercase digits for each byte. -/
def hex (bytes : Bytes) : String :=
  String.ofList (bytes.flatMap fun b : UInt8 => [hexDigit (b >>> 4), hexDigit (b &&& 15)])

end EpochConsensus
