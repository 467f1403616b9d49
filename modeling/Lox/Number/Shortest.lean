/-!
# The shortest decimal of a double

A positive finite double stands for all reals that round to it. Among them `Binary.shortest` picks
a decimal with the fewest digits, and of those the one closest to the double; when two are equally
close, the larger. Everything is exact arithmetic on naturals.
-/

set_option autoImplicit false

namespace Lox.Number

/-- The positive value `mantissa * 2 ^ exponent` of a double. -/
structure Binary where
  mantissa : Nat
  exponent : Int
  /-- The gap to the double below is half the gap to the double above. -/
  narrowBelow : Bool

/-- The decimal `digits * 10 ^ exponent`. -/
structure Decimal where
  digits : Nat
  exponent : Int
deriving DecidableEq

/-- The magnitude of a finite double, from its bits. -/
def Binary.ofBits (bits : UInt64) : Binary :=
  let field := ((bits >>> 52) &&& 0x7FF).toNat
  let fraction := (bits &&& 0xFFFFFFFFFFFFF).toNat
  if field = 0 then
    { mantissa := fraction, exponent := -1074, narrowBelow := false }
  else
    { mantissa := Nat.pow 2 52 + fraction, exponent := (field : Int) - 1075,
      narrowBelow := fraction == 0 && field > 1 }

/-- The grid of multiples of `10 ^ exponent`, seen from the double: a quarter unit of its mantissa
is `quarter / step` grid steps. -/
structure Grid where
  quarter : Nat
  step : Nat

/-- The grid of `10 ^ e` for the double `x`. -/
def Binary.grid (x : Binary) (e : Int) : Grid :=
  { quarter := Nat.pow 2 (x.exponent - 2).toNat * Nat.pow 10 (-e).toNat
    step := Nat.pow 2 (2 - x.exponent).toNat * Nat.pow 10 e.toNat }

/-- Whether `d` grid steps round to the double: they lie between the midpoints to its two
neighbours, and may be a midpoint exactly when the mantissa is even. -/
def Binary.holds (x : Binary) (g : Grid) (d : Nat) : Bool :=
  let below := 4 * x.mantissa - if x.narrowBelow then 1 else 2
  let above := 4 * x.mantissa + 2
  let lo := below * g.quarter
  let hi := above * g.quarter
  let v := d * g.step
  if x.mantissa % 2 = 0 then lo ≤ v && v ≤ hi else lo < v && v < hi

/-- The point of the grid of `10 ^ e` that stands for the double, if one does: of its two
neighbours on the grid the closer one, and the upper one when they are equally close. -/
def Binary.onGrid? (x : Binary) (e : Int) : Option Decimal :=
  let g := x.grid e
  let value := 4 * x.mantissa * g.quarter
  let down := value / g.step
  let up := down + 1
  match x.holds g down, x.holds g up with
  | true, true => some ⟨if 2 * value < (down + up) * g.step then down else up, e⟩
  | true, false => some ⟨down, e⟩
  | false, true => some ⟨up, e⟩
  | false, false => none

/-- Whether the double is below `10 ^ k`. -/
def Binary.below (x : Binary) (k : Int) : Bool :=
  x.mantissa * Nat.pow 2 x.exponent.toNat * Nat.pow 10 (-k).toNat <
    Nat.pow 10 k.toNat * Nat.pow 2 (-x.exponent).toNat

/-- The least `k` with the double below `10 ^ k`. The binary logarithm gives it up to two. -/
def Binary.scale (x : Binary) : Int :=
  let bits := (Nat.log2 x.mantissa : Int) + 1 + x.exponent
  let k := (bits * 30103).fdiv 100000
  if x.below k then k else if x.below (k + 1) then k + 1 else k + 2

/-- Moves factors of ten from the digits to the exponent, at most `fuel` of them. -/
def Decimal.stripZeros : Nat → Decimal → Decimal
  | 0, d => d
  | fuel + 1, d =>
    if d.digits ≠ 0 ∧ d.digits % 10 = 0 then stripZeros fuel ⟨d.digits / 10, d.exponent + 1⟩ else d

/-- Tries grids of `count`, `count + 1`, … digits, `fuel` of them. The exact value of the double
stands in when none has a point for it. -/
def Binary.search (x : Binary) (k : Int) : Nat → Nat → Decimal
  | 0, _ =>
    ⟨x.mantissa * Nat.pow 2 x.exponent.toNat * Nat.pow 5 (-x.exponent).toNat, min x.exponent 0⟩
  | fuel + 1, count =>
    match x.onGrid? (k - count) with
    | some d => d
    | none => search x k fuel (count + 1)

/-- The closest of the shortest decimals that round to a positive double. Seventeen digits always
suffice. -/
def Binary.shortest (x : Binary) : Decimal :=
  (x.search x.scale 17 1).stripZeros 20

end Lox.Number
