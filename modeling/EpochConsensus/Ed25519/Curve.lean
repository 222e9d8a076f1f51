import EpochConsensus.Octets

/-! # The curve of Ed25519

Points of the twisted Edwards curve `y² - x² = 1 + d x² y²` over the integers modulo
`2 ^ 255 - 19`, in coordinates `x = X / Z`, `y = Y / Z`, `x y = T / Z`.  Addition is complete: one
formula serves all pairs of points.  A point is written as its `y` in 32 bytes with the parity of
`x` in the last bit (`compress`), and read back from any bytes for which there is an `x`
(`decompress?`).
-/
namespace EpochConsensus.Ed25519

/-! ### The field -/

/-- The modulus of the field. -/
def modulus : Nat := (1 <<< 255) - 19

namespace Field

def add (a b : Nat) : Nat := (a + b) % modulus

def sub (a b : Nat) : Nat := (a + modulus - b) % modulus

def mul (a b : Nat) : Nat := (a * b) % modulus

def neg (a : Nat) : Nat := sub 0 a

/-- The lowest `width` binary digits of a number, most significant first. -/
def bits (width n : Nat) : List Bool := (List.range width).reverse.map n.testBit

/-- Powers, for exponents below `2 ^ 256`. -/
def pow (a n : Nat) : Nat :=
  (bits 256 n).foldl (fun r b => if b then mul (mul r r) a else mul r r) 1

/-- The inverse of a number other than zero. -/
def inv (a : Nat) : Nat := pow a (modulus - 2)

/-- A square root of minus one. -/
def rootOfMinusOne : Nat := pow 2 ((modulus - 1) / 4)

/-- The even square root of `u / v`, if there is one. -/
def sqrtRatio? (u v : Nat) : Option Nat :=
  let v3 := mul (mul v v) v
  let v7 := mul (mul v3 v3) v
  let r := mul (mul u v3) (pow (mul u v7) ((modulus - 5) / 8))
  let square := mul v (mul r r)
  let root :=
    if square = u then some r
    else if square = neg u then some (mul r rootOfMinusOne)
    else none
  root.map fun r => if r % 2 = 0 then r else neg r

end Field

/-! ### Points -/

/-- A point of the curve. -/
structure Point where
  x : Nat
  y : Nat
  z : Nat
  t : Nat

namespace Point

/-- The constant of the curve. -/
def d : Nat := Field.neg (Field.mul 121665 (Field.inv 121666))

/-- Twice the constant of the curve. -/
def twiceD : Nat := Field.add d d

/-- The neutral element. -/
def zero : Point := ⟨0, 1, 1, 0⟩

def neg (p : Point) : Point := ⟨Field.neg p.x, p.y, p.z, Field.neg p.t⟩

def add (p q : Point) : Point :=
  let a := Field.mul (Field.sub p.y p.x) (Field.sub q.y q.x)
  let b := Field.mul (Field.add p.y p.x) (Field.add q.y q.x)
  let c := Field.mul (Field.mul p.t twiceD) q.t
  let e := Field.mul (Field.add p.z p.z) q.z
  let f := Field.sub b a
  let g := Field.sub e c
  let h := Field.add e c
  let i := Field.add b a
  ⟨Field.mul f g, Field.mul h i, Field.mul g h, Field.mul f i⟩

/-- The sum of a point with itself. -/
def double (p : Point) : Point :=
  let a := Field.mul p.x p.x
  let b := Field.mul p.y p.y
  let c := Field.mul 2 (Field.mul p.z p.z)
  let s := Field.add p.x p.y
  let h := Field.add a b
  let e := Field.sub h (Field.mul s s)
  let g := Field.sub a b
  let f := Field.add c g
  ⟨Field.mul e f, Field.mul g h, Field.mul f g, Field.mul e h⟩

/-- `m` times `p` plus `n` times `q`, for multiples below `2 ^ 256`. -/
def combine (m : Nat) (p : Point) (n : Nat) (q : Point) : Point :=
  let both := p.add q
  ((Field.bits 256 m).zip (Field.bits 256 n)).foldl (fun r bit =>
    match bit with
    | (false, false) => r.double
    | (true, false) => r.double.add p
    | (false, true) => r.double.add q
    | (true, true) => r.double.add both) zero

/-- A multiple of a point, for multiples below `2 ^ 256`. -/
def times (n : Nat) (p : Point) : Point :=
  (Field.bits 256 n).foldl (fun r bit => if bit then r.double.add p else r.double) zero

/-- The 32 bytes of a point. -/
def compress (p : Point) : Bytes :=
  let zi := Field.inv p.z
  let x := Field.mul p.x zi
  let y := Field.mul p.y zi
  littleEndian 32 (y + x % 2 * (1 <<< 255))

/-- The point that some bytes stand for.  The number in the lower bits is taken modulo the field's
modulus, and a zero `x` may carry either parity. -/
def decompress? (bytes : Bytes) : Option Point :=
  let n := ofLittleEndian bytes
  let y := n % (1 <<< 255) % modulus
  let yy := Field.mul y y
  (Field.sqrtRatio? (Field.sub yy 1) (Field.add (Field.mul d yy) 1)).map fun root =>
    let x := if n / (1 <<< 255) = 1 then Field.neg root else root
    ⟨x, y, 1, Field.mul x y⟩

/-- The base point: `y` is four fifths and `x` is even. -/
def base : Point :=
  (decompress? (littleEndian 32 (Field.mul 4 (Field.inv 5)))).getD zero

end Point

/-- The order of the base point. -/
def order : Nat := (1 <<< 252) + 27742317777372353535851937790883648493

end EpochConsensus.Ed25519
