/-!
# Reading TOML

A reader takes a thing off the front of the characters that are left, or fails. The readers here are
for what stands between the things: blanks, line ends and comments.
-/

set_option autoImplicit false

namespace Lox.Toml

/-- Reads a thing off the front of some characters. -/
abbrev Reader := StateT (List Char) Option

namespace Reader

/-- Reads one character of a class. -/
def satisfying (p : Char → Bool) : Reader Char
  | c :: rest => if p c then some (c, rest) else none
  | [] => none

/-- Reads one given character. -/
def char (c : Char) : Reader Unit := do
  let _ ← satisfying (· == c)

/-- Reads given characters in a row. -/
def literal : List Char → Reader Unit
  | [] => pure ()
  | c :: more => do
    char c
    literal more

/-- Reads as many characters of a class as there are. -/
def many (p : Char → Bool) : Reader (List Char) := fun cs => some (cs.takeWhile p, cs.dropWhile p)

/-- Reads exactly `count` characters of a class. -/
def exactly (p : Char → Bool) : Nat → Reader (List Char)
  | 0 => pure []
  | count + 1 => do
    let c ← satisfying p
    let more ← exactly p count
    return c :: more

/-- Succeeds at the end of the text. -/
def atEnd : Reader Unit
  | [] => some ((), [])
  | _ :: _ => none

/-- Whether a character may stand in comments and in strings: no control character but the tab. -/
def isPlain (c : Char) : Bool := c == '\t' || (' ' ≤ c && c != '\x7f')

/-- Reads blanks within a line. -/
def blanks : Reader Unit := do
  let _ ← many fun c => c == ' ' || c == '\t'

/-- Reads the end of a line: a line feed, with a carriage return before it or not. -/
def newline : Reader Unit := char '\n' <|> literal ['\r', '\n']

/-- Reads a comment up to the end of its line. -/
def comment : Reader Unit := do
  char '#'
  let _ ← many isPlain

/-- Reads what may follow a thing on its line, and the end of the line. -/
def lineRest : Reader Unit := do
  blanks
  comment <|> pure ()
  newline <|> atEnd

/-- What is left after blanks and line ends. -/
def afterBlankLines : List Char → List Char
  | '\r' :: '\n' :: rest => afterBlankLines rest
  | c :: rest => if c == ' ' || c == '\t' || c == '\n' then afterBlankLines rest else c :: rest
  | [] => []

/-- What is left after blanks, line ends and comments. A comment that holds a character it may not
hold ends there. -/
def afterGap (inComment : Bool) : List Char → List Char
  | [] => []
  | '\n' :: rest => afterGap false rest
  | '\r' :: '\n' :: rest => afterGap false rest
  | c :: rest =>
    if inComment then
      if isPlain c then afterGap true rest else c :: rest
    else if c == ' ' || c == '\t' then afterGap false rest
    else if c == '#' then afterGap true rest
    else c :: rest

/-- Reads blanks, line ends and comments. -/
def gap : Reader Unit := modify (afterGap false)

end Reader

end Lox.Toml
