import Lox.Toml.Node
import Lox.Toml.Text

/-!
# Numbers, dates and truth values of TOML

Each reader checks all that the format asks of a number or a date: digits grouped by underscores, no
leading zeros, integers of 64 bits, months with as many days as they have.
-/

set_option autoImplicit false

namespace Lox.Toml

open Reader

/-- Whether every underscore stands between two digits. -/
def isGrouped : List Char → Bool
  | [] => false
  | '_' :: _ => false
  | [_] => true
  | _ :: '_' :: rest => isGrouped rest
  | _ :: rest => isGrouped rest

/-- Reads digits, which underscores may group. -/
def digits (p : Char → Bool) : Reader (List Char) := do
  let run ← many fun c => p c || c == '_'
  guard (isGrouped run)
  return run.filter (· != '_')

/-- Reads digits without a leading zero. -/
def wholeDigits : Reader (List Char) := do
  let run ← many fun c => isDecimal c || c == '_'
  guard (isGrouped run && (run.head? != some '0' || run.length = 1))
  return run.filter (· != '_')

/-- Reads a sign and tells whether it is a minus. -/
def sign : Reader Bool :=
  (do char '-'; return true) <|> (do char '+'; return false) <|> pure false

/-- The least magnitude that no double is close to. -/
def overflowLimit : Nat := Nat.pow 2 1024 - Nat.pow 2 970

/-- Whether a decimal fraction is too large for a double. Only fractions of about the same length as the
limit are compared with it. -/
def overflows (digits : List Char) (exponent : Int) : Bool :=
  let digits := digits.dropWhile (· == '0')
  let length := digits.length + exponent
  if digits.isEmpty || length < 300 then false
  else if 320 < length then true
  else
    overflowLimit * Nat.pow 10 (-exponent).toNat ≤ Number.natOfDigits digits * Nat.pow 10 exponent.toNat

/-- The size of an exponent that is far beyond what a double reaches. -/
def maxExponent : Nat := Nat.pow 2 16

/-- The number that the digits of an exponent stand for. Once it is as large as any that counts, further
digits do not change it. -/
def exponentOf (digits : List Char) : Nat :=
  digits.foldl (fun n c => if n < maxExponent then n * 10 + (c.toNat - '0'.toNat) else n) 0

/-- Reads the exponent of a number. -/
def exponent : Reader Int := do
  char 'e' <|> char 'E'
  let negative ← sign
  let n := exponentOf (← digits isDecimal)
  return if negative then -n else n

/-- Reads a number with a fraction, an exponent or both. Only above is it bounded. -/
def float : Reader Node := do
  let negative ← sign
  let whole ← wholeDigits
  let (fraction, exponent) ←
    (do return ([], ← exponent))
    <|> (do
      char '.'
      let fraction ← digits isDecimal
      let exponent ← exponent <|> pure 0
      return (fraction, exponent))
  guard (negative || !overflows (whole ++ fraction) (exponent - fraction.length))
  return .number

/-- Reads a number that is none or has no bound. -/
def specialFloat : Reader Node := do
  let _ ← sign
  literal ['i', 'n', 'f'] <|> literal ['n', 'a', 'n']
  return .number

/-- Whether digits without a leading zero stand for a number that fits in 64 bits with its sign. -/
def fitsInteger (negative : Bool) (digits : List Char) : Bool :=
  digits.length ≤ 19 &&
    Number.natOfDigits digits ≤ (if negative then Nat.pow 2 63 else Nat.pow 2 63 - 1)

/-- Reads a whole number of 64 bits. -/
def integer : Reader Node :=
  (do
    literal ['0', 'x']
    guard (natOfHex (← digits isHexadecimal) < Nat.pow 2 63)
    return .number)
  <|> (do
    literal ['0', 'o']
    let run ← digits fun c => '0' ≤ c && c ≤ '7'
    guard (run.foldl (fun n c => n * 8 + (c.toNat - '0'.toNat)) 0 < Nat.pow 2 63)
    return .number)
  <|> (do
    literal ['0', 'b']
    let run ← digits fun c => c == '0' || c == '1'
    guard (run.foldl (fun n c => n * 2 + (c.toNat - '0'.toNat)) 0 < Nat.pow 2 63)
    return .number)
  <|> (do
    let negative ← sign
    let run ← wholeDigits
    guard (fitsInteger negative run)
    return .number)

/-- Reads a number of exactly so many digits, from `low` to `high`. -/
def fixed (width low high : Nat) : Reader Nat := do
  let n := Number.natOfDigits (← exactly isDecimal width)
  guard (low ≤ n && n ≤ high)
  return n

/-- The number of days of a month. -/
def daysIn (year month : Nat) : Nat :=
  if month = 2 then
    if year % 4 = 0 && (year % 100 != 0 || year % 400 = 0) then 29 else 28
  else if month = 4 || month = 6 || month = 9 || month = 11 then 30
  else 31

/-- Reads a day of the calendar. -/
def day : Reader Unit := do
  let year ← fixed 4 0 9999
  char '-'
  let month ← fixed 2 1 12
  char '-'
  let _ ← fixed 2 1 (daysIn year month)

/-- Reads a time of the day, which may fall on a leap second. -/
def time : Reader Unit := do
  let _ ← fixed 2 0 23
  char ':'
  let _ ← fixed 2 0 59
  char ':'
  let _ ← fixed 2 0 60
  (do
    char '.'
    let fraction ← many isDecimal
    guard !fraction.isEmpty)
    <|> pure ()

/-- Reads the distance of a time zone. -/
def zone : Reader Unit :=
  char 'Z' <|> char 'z' <|> (do
    char '+' <|> char '-'
    let _ ← fixed 2 0 23
    char ':'
    let _ ← fixed 2 0 59)

/-- Reads a day, a time or both. -/
def date : Reader Node := do
  (do
    day
    (do
      char 'T' <|> char 't' <|> char ' '
      time
      zone <|> pure ())
      <|> pure ())
    <|> time
  return .date

/-- Reads a value that holds no others. -/
def scalar (fuel : Nat) : Reader Node :=
  (do return .string (← anyString fuel))
  <|> (do literal ['t', 'r', 'u', 'e']; return .bool true)
  <|> (do literal ['f', 'a', 'l', 's', 'e']; return .bool false)
  <|> date <|> float <|> specialFloat <|> integer

end Lox.Toml
