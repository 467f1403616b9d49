/-!
# Bytes as text

Cutting bytes into lines, and reading them as UTF-8. Where bytes are no UTF-8, every longest piece that could start a character
becomes one replacement character.
-/

set_option autoImplicit false

namespace Lox.Text

/-- The character that stands for bytes that are no UTF-8. -/
def replacement : Char := '�'

/-- What the first byte of a character of two or more bytes says: how many bytes follow, the bits it
holds itself, and the least and greatest byte that may come next. -/
def leadByte? (byte : UInt8) : Option (Nat × Nat × UInt8 × UInt8) :=
  if byte < 0xC2 then none
  else if byte < 0xE0 then some (1, byte.toNat - 0xC0, 0x80, 0xBF)
  else if byte < 0xF0 then
    let low := if byte = 0xE0 then 0xA0 else 0x80
    let high := if byte = 0xED then 0x9F else 0xBF
    some (2, byte.toNat - 0xE0, low, high)
  else if byte < 0xF5 then
    let low := if byte = 0xF0 then 0x90 else 0x80
    let high := if byte = 0xF4 then 0x8F else 0xBF
    some (3, byte.toNat - 0xF0, low, high)
  else none

/-- Reads `count` more bytes of a character whose bits so far are `bits`, the first of them from `low`
to `high`. Returns the code point, or none where a byte does not fit, and the bytes not read. -/
def restOfChar : Nat → Nat → UInt8 → UInt8 → List UInt8 → Option Nat × List UInt8
  | 0, bits, _, _, bytes => (some bits, bytes)
  | _ + 1, _, _, _, [] => (none, [])
  | count + 1, bits, low, high, byte :: bytes =>
    if low ≤ byte && byte ≤ high then
      restOfChar count (bits * 64 + (byte.toNat - 0x80)) 0x80 0xBF bytes
    else (none, byte :: bytes)

/-- Appends the characters of some bytes to a text, at most `fuel` of them. -/
def appendChars : Nat → List UInt8 → String → String
  | 0, _, text => text
  | _ + 1, [], text => text
  | fuel + 1, byte :: bytes, text =>
    if byte < 0x80 then appendChars fuel bytes (text.push (Char.ofNat byte.toNat))
    else
      match leadByte? byte with
      | none => appendChars fuel bytes (text.push replacement)
      | some (count, bits, low, high) =>
        match restOfChar count bits low high bytes with
        | (some point, bytes) => appendChars fuel bytes (text.push (Char.ofNat point))
        | (none, bytes) => appendChars fuel bytes (text.push replacement)

/-- The text that some bytes stand for, with replacement characters where they are no UTF-8. -/
def ofBytes (bytes : ByteArray) : String :=
  match String.fromUTF8? bytes with
  | some text => text
  | none => appendChars bytes.size bytes.toList ""

/-- A line without the carriage return at its end. -/
def withoutReturn (line : ByteArray) : ByteArray :=
  if line.data.back? = some 13 then line.extract 0 (line.size - 1) else line

/-- The lines of some bytes, without their ends: a line feed, with a carriage return before it or not.
The last line may have no end; then it is not empty. -/
def lines (bytes : ByteArray) : List ByteArray :=
  let (last, done) := bytes.foldl (fun (current, done) byte =>
    if byte = 10 then (.empty, withoutReturn current :: done) else (current.push byte, done))
    (ByteArray.empty, [])
  (if last.isEmpty then done else last :: done).reverse

end Lox.Text
