import Lox.Token

/-!
# The scanner

`Scanner.next` skips blanks and comments and takes the longest token that the rules allow;
`Scanner.tokens` repeats it up to the end. At the end the scanner stays there, so asking for more
tokens gives the same end token again.
-/

set_option autoImplicit false

namespace Lox

/-- What is left of a source text, and the line on which it starts. -/
structure Scanner where
  rest : List Char
  line : Nat
deriving DecidableEq, Repr

namespace Scanner

/-- A scanner at the start of a source text. -/
def ofSource (source : String) : Scanner :=
  { rest := source.toList, line := 1 }

/-- Whether a character may start an identifier: an ASCII letter or an underscore. -/
def isWordStart (c : Char) : Bool := c.isAlpha || c == '_'

/-- Whether a character may continue an identifier. -/
def isWordPart (c : Char) : Bool := isWordStart c || c.isDigit

/-- Drops blanks, newlines and comments in front of `rest`. A comment runs from two slashes to just
before the next newline; `comment` says whether one is open. -/
def skipGap (comment : Bool) : List Char → Nat → Scanner
  | [], line => ⟨[], line⟩
  | '\n' :: rest, line => skipGap false rest (line + 1)
  | c :: rest, line =>
    if comment then skipGap true rest line
    else if c == ' ' || c == '\t' || c == '\r' then skipGap false rest line
    else if c == '/' && rest.head? == some '/' then skipGap true rest line
    else ⟨c :: rest, line⟩

/-- The fraction that continues a row of digits: a dot and the digits after it, of which there must
be one. -/
def fraction (rest : List Char) : List Char :=
  match rest with
  | '.' :: digits =>
    match digits.takeWhile Char.isDigit with
    | [] => []
    | taken => '.' :: taken
  | _ => []

/-- The kind and the number of characters of the token at the start of a text that is not empty and
does not start with a gap. -/
def classify (c : Char) (rest : List Char) : Token.Kind × Nat :=
  let orEqual (plain withEqual : Token.Kind) : Token.Kind × Nat :=
    if rest.head? == some '=' then (withEqual, 2) else (plain, 1)
  match c with
  | '(' => (.leftParen, 1)
  | ')' => (.rightParen, 1)
  | '{' => (.leftBrace, 1)
  | '}' => (.rightBrace, 1)
  | ',' => (.comma, 1)
  | '.' => (.dot, 1)
  | ';' => (.semicolon, 1)
  | '-' => (.minus, 1)
  | '+' => (.plus, 1)
  | '/' => (.slash, 1)
  | '*' => (.star, 1)
  | '!' => orEqual .bang .bangEqual
  | '=' => orEqual .equal .equalEqual
  | '>' => orEqual .greater .greaterEqual
  | '<' => orEqual .less .lessEqual
  | '"' =>
    let body := rest.takeWhile (· != '"')
    match rest.drop body.length with
    | [] => (.error .unterminatedString, body.length + 1)
    | _ :: _ => (.string, body.length + 2)
  | c =>
    if c.isDigit then
      let whole := rest.takeWhile Char.isDigit
      (.number, 1 + whole.length + (fraction (rest.drop whole.length)).length)
    else if isWordStart c then
      let word := rest.takeWhile isWordPart
      (Token.Kind.ofWord (String.ofList (c :: word)), 1 + word.length)
    else (.error .unexpectedCharacter, 1)

/-- The next token, and the scanner behind it. -/
def next (s : Scanner) : Token × Scanner :=
  match skipGap false s.rest s.line with
  | ⟨[], line⟩ => (⟨.eof, "", line⟩, ⟨[], line⟩)
  | ⟨c :: rest, line⟩ =>
    let (kind, size) := classify c rest
    let taken := (c :: rest).take size
    let line := line + taken.count '\n'
    let lexeme := match kind with
      | .error cause => cause.message
      | _ => String.ofList taken
    (⟨kind, lexeme, line⟩, ⟨(c :: rest).drop size, line⟩)

/-- The next `count` tokens. -/
def take : Nat → Scanner → List Token
  | 0, _ => []
  | count + 1, s =>
    let (token, s) := s.next
    token :: take count s

/-- Collects tokens behind `found` up to and including the first end token, at most `fuel` of them,
and returns the scanner behind them. -/
def collect : Nat → Array Token → Scanner → Array Token × Scanner
  | 0, found, s => (found, s)
  | fuel + 1, found, s =>
    let (token, s) := s.next
    match token.kind with
    | .eof => (found.push token, s)
    | _ => collect fuel (found.push token) s

/-- All tokens up to and including the first end token, and the scanner behind them. Every other
token takes at least one character, so there are no more of them than characters. -/
def run (s : Scanner) : Array Token × Scanner :=
  collect (s.rest.length + 1) #[] s

/-- All tokens of a source text; the last one is the end token. -/
def tokens (source : String) : List Token :=
  (ofSource source).run.1.toList

end Scanner

end Lox
