import MiniLisp.Number.Binary64

/-!
# Numbers

A number is an integer, a fraction or a binary64 float. Integers and fractions compute
exactly; as soon as a float takes part, the other operand is rounded to a float and the
operation is the one of binary64. Comparison never rounds: every number but a NaN has an
exact value, and numbers of any two kinds compare by these.

* `Number.quantity` — the exact value.
* `Number.add`, `Number.sub`, `Number.mul`, `Number.div` — the arithmetic, with the ways in
  which it can fail.
* `Number.lt`, `Number.eq` — the order and equality of exact values.
-/

namespace MiniLisp

/-- An exact integer, an exact fraction in lowest terms, or a binary64 float. A fraction may
    have denominator one: it is then still a fraction. -/
inductive Number where
  | int (n : Int)
  | frac (q : Rat)
  | float (x : Float)

/-- The ways in which arithmetic can fail. -/
inductive ArithError where
  /-- An exact operand is too large to be rounded to a float. -/
  | overflow
  /-- The divisor is zero. -/
  | divisionByZero
  /-- The divisor is not zero, but is rounded to the float zero. -/
  | vanishingDivisor
deriving DecidableEq, Repr

namespace Number

/-- The exact value of a number. -/
def quantity : Number → Quantity
  | int n => .finite n
  | frac q => .finite q
  | float x => Binary64.quantity x

/-- Whether the exact value of the first number is below that of the second. -/
def lt (a b : Number) : Bool := a.quantity.lt b.quantity

/-- Whether two numbers have the same exact value. -/
def eq (a b : Number) : Bool := a.quantity.eq b.quantity

/-- A number of equal or nearest value among the floats. -/
def toFloat : Number → Except ArithError Float
  | int n => (Binary64.ofRat? n).elim (throw .overflow) pure
  | frac q => (Binary64.ofRat? q).elim (throw .overflow) pure
  | float x => pure x

/-- An operation given by what it does to two integers, two rationals and two floats. The
    result is an integer only for two integers, and a float as soon as one operand is. -/
def combine (onInts : Int → Int → Int) (onRats : Rat → Rat → Rat)
    (onFloats : Float → Float → Float) : Number → Number → Except ArithError Number
  | int m, int n => pure (int (onInts m n))
  | int m, frac q => pure (frac (onRats m q))
  | frac p, int n => pure (frac (onRats p n))
  | frac p, frac q => pure (frac (onRats p q))
  | a, b => do
    let x ← a.toFloat
    let y ← b.toFloat
    pure (float (onFloats x y))

/-- The sum of two numbers. -/
def add : Number → Number → Except ArithError Number := combine (· + ·) (· + ·) (· + ·)

/-- The difference of two numbers. -/
def sub : Number → Number → Except ArithError Number := combine (· - ·) (· - ·) (· - ·)

/-- The product of two numbers. -/
def mul : Number → Number → Except ArithError Number := combine (· * ·) (· * ·) (· * ·)

/-- A rational as the quotient of two integers: an integer when it is one. -/
def ofRat (q : Rat) : Number := if q.den = 1 then int q.num else frac q

/-- The quotient by a divisor that is not zero. -/
def quotient : Number → Number → Except ArithError Number
  | int m, int n => pure (ofRat (m / n))
  | int m, frac q => pure (frac (m / q))
  | frac p, int n => pure (frac (p / n))
  | frac p, frac q => pure (frac (p / q))
  | a, b => do
    let x ← a.toFloat
    let y ← b.toFloat
    if (Binary64.quantity y).eq (.finite 0) then throw .vanishingDivisor
    pure (float (x / y))

/-- The quotient of two numbers (`divide`). A divisor of value zero is refused whatever its kind. -/
def div (a b : Number) : Except ArithError Number :=
  if b.eq (int 0) then throw .divisionByZero else quotient a b

end Number

end MiniLisp
