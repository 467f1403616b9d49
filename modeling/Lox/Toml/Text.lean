import Lox.Number.Notation
import Lox.Toml.Reader

/-!
# Strings and keys of TOML

Strings come in four kinds, told apart by their marks: in double quotes with escapes or in single
quotes without, on one line or over several.
-/

set_option autoImplicit false

namespace Lox.Toml

open Reader

/-- The number that a hexadecimal digit stands for. -/
def hexDigit? (c : Char) : Option Nat :=
  if '0' ≤ c && c ≤ '9' then some (c.toNat - '0'.toNat)
  else if 'a' ≤ c && c ≤ 'f' then some (c.toNat - 'a'.toNat + 10)
  else if 'A' ≤ c && c ≤ 'F' then some (c.toNat - 'A'.toNat + 10)
  else none

/-- Whether a character is a decimal digit. -/
def isDecimal (c : Char) : Bool := '0' ≤ c && c ≤ '9'

/-- Whether a character is a hexadecimal digit. -/
def isHexadecimal (c : Char) : Bool := (hexDigit? c).isSome

/-- The number that hexadecimal digits stand for. -/
def natOfHex (digits : List Char) : Nat :=
  digits.foldl (fun n c => n * 16 + (hexDigit? c).getD 0) 0

/-- Reads a character given by so many hexadecimal digits. -/
def codePoint (digits : Nat) : Reader Char := do
  let n := natOfHex (← exactly isHexadecimal digits)
  if n.isValidChar then return Char.ofNat n else failure

/-- Reads what follows a backslash. -/
def escaped : Reader Char := do
  match ← satisfying fun _ => true with
  | 'b' => return '\x08'
  | 't' => return '\t'
  | 'n' => return '\n'
  | 'f' => return '\x0c'
  | 'r' => return '\r'
  | '"' => return '"'
  | '\\' => return '\\'
  | 'u' => codePoint 4
  | 'U' => codePoint 8
  | _ => failure

/-- A kind of string. -/
structure Quote where
  /-- The character around it: one on each side, or three when it spans lines. -/
  mark : Char
  /-- Whether a backslash begins an escape. -/
  escapes : Bool
  spansLines : Bool

namespace Quote

/-- Reads the mark at the end of a string. Of the marks at the end of a string over several lines, up
to two before the last three are a part of it: their number is returned. -/
def close (q : Quote) : Reader Nat :=
  if q.spansLines then do
    literal [q.mark, q.mark, q.mark]
    (do literal [q.mark, q.mark]; return 2) <|> (do char q.mark; return 1) <|> pure 0
  else do
    char q.mark
    return 0

/-- Reads one piece of a string that does not end here. A backslash at the end of a line hides all
blanks and line ends up to the next piece. -/
def piece (q : Quote) : Reader (List Char) :=
  (do
    guard q.escapes
    char '\\'
    (do
      guard q.spansLines
      blanks
      newline
      modify afterBlankLines
      return [])
      <|> (do return [← escaped]))
  <|> (do
    guard q.spansLines
    newline
    return ['\n'])
  <|> (do
    let c ← satisfying fun c =>
      isPlain c && (c != q.mark || q.spansLines) && (c != '\\' || !q.escapes)
    return [c])

/-- Reads the rest of a string of at most `fuel` pieces. -/
def body (q : Quote) : Nat → Reader (List Char)
  | 0 => failure
  | fuel + 1 =>
    (do return List.replicate (← q.close) q.mark)
    <|> (do
      let first ← q.piece
      let more ← body q fuel
      return first ++ more)

/-- Reads a string of one kind. -/
def string (q : Quote) (fuel : Nat) : Reader String := do
  if q.spansLines then
    literal [q.mark, q.mark, q.mark]
    newline <|> pure ()
  else char q.mark
  return String.ofList (← q.body fuel)

end Quote

/-- The kind of string in double quotes. -/
def Quote.double (spansLines : Bool) : Quote := { mark := '"', escapes := true, spansLines }

/-- The kind of string in single quotes. -/
def Quote.single (spansLines : Bool) : Quote := { mark := '\x27', escapes := false, spansLines }

/-- Reads a string on one line. -/
def lineString (fuel : Nat) : Reader String :=
  (Quote.double false).string fuel <|> (Quote.single false).string fuel

/-- Reads a string of any kind. -/
def anyString (fuel : Nat) : Reader String :=
  (Quote.double true).string fuel <|> (Quote.single true).string fuel <|> lineString fuel

/-- Whether a character may stand in a key without quotes. -/
def isBare (c : Char) : Bool :=
  isDecimal c || ('a' ≤ c && c ≤ 'z') || ('A' ≤ c && c ≤ 'Z') || c == '-' || c == '_'

/-- Reads one part of a key, with the blanks around it. -/
def keyPart (fuel : Nat) : Reader String := do
  blanks
  let part ← lineString fuel <|> (do
    let name ← many isBare
    guard !name.isEmpty
    return String.ofList name)
  blanks
  return part

/-- A key has fewer parts than this, and values are nested in fewer others. -/
def maxDepth : Nat := 80

/-- Reads the parts of a key after the first, which are fewer than `room`. -/
def moreParts (fuel : Nat) : Nat → Reader (List String)
  | 0 => failure
  | room + 1 =>
    (do
      char '.'
      let part ← keyPart fuel
      let more ← moreParts fuel room
      return part :: more)
    <|> pure []

/-- A key: all parts but the last, and the last. -/
structure Key where
  path : List String
  name : String

/-- Reads a key. -/
def Key.read (fuel : Nat) : Reader Key := do
  let first ← keyPart fuel
  let more ← moreParts fuel (maxDepth - 1)
  return ⟨(first :: more).dropLast, more.getLast?.getD first⟩

end Lox.Toml
