/-!
# Binary64 numbers and the rationals

A finite binary64 number is a significand below `2^53` times a power of two, so it has an
exact rational value. This module goes both ways:

* `Binary64.quantity` — the exact value of a float: a rational, an infinity, or nothing for
  a NaN.
* `Binary64.ofRat?` — the float nearest to a rational, a tie going to the even significand;
  `none` when the rational rounds to no finite float.
* `Quantity.lt`, `Quantity.eq` — the order of exact values, in which an undefined quantity
  is neither below, above nor equal to anything.
-/

namespace MiniLisp

/-- What a number amounts to: a rational, one of the two infinities, or nothing. -/
inductive Quantity where
  | finite (q : Rat)
  | posInf
  | negInf
  | undefined
deriving DecidableEq

namespace Quantity

/-- Strict order; an undefined quantity is not below anything, nor above it. -/
def lt : Quantity → Quantity → Bool
  | finite p, finite q => p < q
  | finite _, posInf => true
  | negInf, finite _ => true
  | negInf, posInf => true
  | _, _ => false

/-- Equality of value; an undefined quantity does not equal even itself. -/
def eq : Quantity → Quantity → Bool
  | finite p, finite q => p == q
  | posInf, posInf => true
  | negInf, negInf => true
  | _, _ => false

end Quantity

namespace Binary64

/-! ## The fields of a word -/

/-- The `n`-th power of two. -/
def twoPow (n : Nat) : Nat := Nat.pow 2 n

/-- The place of a normal significand's leading one, just above the fraction. -/
def leadingOne : Nat := twoPow 52

/-- The place of the sign. -/
def signBit : Nat := twoPow 63

/-- The sign bit. -/
def negative (x : Float) : Bool := signBit ≤ x.toBits.toNat

/-- The biased exponent, eleven bits; all ones in an infinity and in a NaN. -/
def biased (x : Float) : Nat := x.toBits.toNat / leadingOne % 2048

/-- The fraction, the low fifty-two bits. -/
def fraction (x : Float) : Nat := x.toBits.toNat % leadingOne

/-- The integer significand: the fraction, with the leading one of a normal number. -/
def significand (x : Float) : Nat :=
  if biased x = 0 then fraction x else leadingOne + fraction x

/-- The power of two that the significand counts. -/
def exponent (x : Float) : Int := (max (biased x) 1 : Nat) - (1075 : Int)

/-! ## From floats to rationals -/

/-- The rational `m * 2^e`. -/
def scale (m : Int) (e : Int) : Rat :=
  if 0 ≤ e then ((m * twoPow e.toNat : Int) : Rat) else mkRat m (twoPow (-e).toNat)

/-- The exact value of a float. -/
def quantity (x : Float) : Quantity :=
  if biased x = 2047 then
    if fraction x ≠ 0 then .undefined else if negative x then .negInf else .posInf
  else
    .finite (scale (if negative x then -(significand x : Int) else significand x) (exponent x))

/-! ## From rationals to floats -/

/-- The quotient `n / d` rounded to the nearest integer, a tie going to the even one. -/
def roundDiv (n d : Nat) : Nat :=
  let q := n / d
  let r := n % d
  if 2 * r < d then q else if d < 2 * r then q + 1 else q + q % 2

/-- The largest `t` with `2^t ≤ n / d`, for positive `n` and `d`. -/
def binaryOrder (n d : Nat) : Int :=
  let t : Int := (n.log2 : Int) - d.log2
  if d * twoPow t.toNat ≤ n * twoPow (-t).toNat then t else t - 1

/-- The exponent of the last place of `n / d`: a significand has fifty-three bits, and no
    place is below `2^-1074`. -/
def lastPlace (n d : Nat) : Int := max (binaryOrder n d - 52) (-1074)

/-- The word of the nonnegative float nearest to `n / d`, without regard to overflow. A
    significand that rounds up to `2^53` carries into the exponent by the addition. -/
def nearestWord (n d : Nat) : Nat :=
  if n = 0 then 0
  else
    let e := lastPlace n d
    (e + 1074).toNat * leadingOne + roundDiv (n * twoPow (-e).toNat) (d * twoPow e.toNat)

/-- The float nearest to a rational, or `none` when that would be an infinity. -/
def ofRat? (q : Rat) : Option Float :=
  let word := nearestWord q.num.natAbs q.den
  if word < 2047 * leadingOne then
    some (Float.ofBits (UInt64.ofNat (if q.num < 0 then signBit + word else word)))
  else
    none

end Binary64

end MiniLisp
