import MiniLisp.Number.Basic
import MiniLisp.Number.Shortest

/-!
# The text of numbers

Integers are written in decimal; where the length of a text is limited, an integer of more
than 4300 digits has none. Floats are written by their shortest decimal, laid out as
`FloatLayout.standard` says.

* `decimalText` — the text of an integer of any length.
* `integerText?` — the text of an integer that is not too long.
* `floatText` — the text of a float.
-/

namespace MiniLisp

/-- How the shortest decimal of a float is laid out. -/
structure FloatLayout where
  /-- The least power of ten of the leading digit that is written without an exponent. -/
  least : Int
  /-- The greatest power of ten of the leading digit that is written without an exponent. -/
  greatest : Int
  /-- The least number of digits in an exponent. -/
  exponentWidth : Nat

/-- Positional from `0.0001` up to sixteen digits before the point; a written exponent has
    at least two digits. -/
def FloatLayout.standard : FloatLayout := ⟨-4, 15, 2⟩

/-- The decimal digits of a natural number, most significant first. -/
def decimalDigits (n : Nat) : List Char := Nat.toDigits 10 n

/-- The first integer with more digits than can be written. -/
def digitBound : Nat := tenPow 4300

/-- The text of an integer: its digits, after a minus sign if need be. -/
def decimalText (n : Int) : String := (if n < 0 then "-" else "") ++ Nat.repr n.natAbs

/-- The text of an integer, or `none` when it has more than 4300 digits. -/
def integerText? (n : Int) : Option String :=
  if n.natAbs < digitBound then some (decimalText n) else none

namespace FloatLayout

/-- Digits with a point after the first `k`, for `k` at least one: zeros fill up to the
    point, and one follows it when nothing else does. -/
def pointAfter (k : Nat) (digits : List Char) : List Char :=
  let whole := digits.take k
  let rest := digits.drop k
  whole ++ List.replicate (k - whole.length) '0' ++ '.' :: (if rest.isEmpty then ['0'] else rest)

/-- Digits all below one, after a point and `k` zeros. -/
def pointBefore (k : Nat) (digits : List Char) : List Char :=
  '0' :: '.' :: List.replicate k '0' ++ digits

/-- Digits with a point after the first, if there are more, and the power of ten of the
    first one. -/
def scientific (layout : FloatLayout) (e : Int) (digits : List Char) : List Char :=
  let mantissa := match digits with
    | d :: r :: rest => d :: '.' :: r :: rest
    | short => short
  let size := decimalDigits e.natAbs
  mantissa ++ 'e' :: (if e < 0 then '-' else '+') ::
    List.replicate (layout.exponentWidth - size.length) '0' ++ size

/-- A decimal in the given layout. -/
def write (layout : FloatLayout) (d : Decimal) : List Char :=
  let digits := decimalDigits d.digits
  let e := d.exponent + digits.length - 1
  if e < layout.least ∨ layout.greatest < e then layout.scientific e digits
  else if e < 0 then pointBefore (-e - 1).toNat digits
  else pointAfter (e.toNat + 1) digits

end FloatLayout

/-- The text of a float. -/
def floatText (x : Float) : String :=
  let sign := if Binary64.negative x then "-" else ""
  match Binary64.quantity x with
  | .undefined => "nan"
  | .posInf => "inf"
  | .negInf => "-inf"
  | .finite q =>
    if q = 0 then sign ++ "0.0"
    else sign ++ String.ofList (FloatLayout.standard.write (Decimal.shortest x))

end MiniLisp
