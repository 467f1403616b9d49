import Lox.Number.Shortest

/-!
# How numbers are written

A number is written with the fewest digits that read back to it, always positionally: no exponent,
no trailing `.0`. Zero keeps its sign, a value that is not a number has none.
-/

set_option autoImplicit false

namespace Lox.Number

/-- A decimal in positional notation. -/
def Decimal.positional (d : Decimal) : String :=
  let digits := Nat.toDigits 10 d.digits
  if 0 ≤ d.exponent then
    (String.ofList digits).pushn '0' d.exponent.toNat
  else
    let places := (-d.exponent).toNat
    let whole := digits.length - places
    if places < digits.length then
      String.ofList (digits.take whole) ++ "." ++ String.ofList (digits.drop whole)
    else
      "0.".pushn '0' (places - digits.length) ++ String.ofList digits

/-- The text of a number. -/
def text (x : Float) : String :=
  if x.isNaN then "NaN"
  else
    let bits := x.toBits
    let magnitude := bits &&& 0x7FFFFFFFFFFFFFFF
    let body :=
      if magnitude = 0x7FF0000000000000 then "inf"
      else if magnitude = 0 then "0"
      else (Binary.ofBits magnitude).shortest.positional
    if bits >>> 63 = 1 then "-" ++ body else body

/-- The natural number that a row of digits denotes. Any other character counts as its distance
from `0`. -/
def natOfDigits (cs : List Char) : Nat :=
  cs.foldl (fun n c => n * 10 + (c.toNat - '0'.toNat)) 0

/-- The number that the literal `whole` or `whole.fraction` denotes: the double closest to it. -/
def ofLiteral (whole fraction : List Char) : Float :=
  Float.ofScientific (natOfDigits (whole ++ fraction)) true fraction.length

end Lox.Number
