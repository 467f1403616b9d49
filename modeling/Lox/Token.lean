/-!
# Tokens

The words of the language: punctuation, literals, identifiers and the sixteen keywords. A stretch of
source text that is no token becomes an error token, so the scanner never stops early; after the
last token comes an end token.
-/

set_option autoImplicit false

namespace Lox

/-- Why a stretch of source text is no token. -/
inductive ScanError where
  /-- A character that starts no token. -/
  | unexpectedCharacter
  /-- A quote without a partner. -/
  | unterminatedString
deriving DecidableEq, Repr

/-- The text of a scanning error. -/
def ScanError.message : ScanError → String
  | unexpectedCharacter => "Unexpected character."
  | unterminatedString => "Unterminated string."

namespace Token

/-- The kinds of tokens. -/
inductive Kind where
  | leftParen | rightParen | leftBrace | rightBrace
  | comma | dot | semicolon | minus | plus | slash | star
  | bang | bangEqual | equal | equalEqual
  | greater | greaterEqual | less | lessEqual
  | identifier | string | number
  | kwAnd | kwClass | kwElse | kwFalse | kwFor | kwFun | kwIf | kwNil | kwOr | kwPrint | kwReturn
  | kwSuper | kwThis | kwTrue | kwVar | kwWhile
  | error (cause : ScanError)
  | eof
deriving DecidableEq, Repr

/-- What is left of a word behind the letters that leave only one keyword: the keyword, if the word goes
on as it does. -/
def Kind.confirm (rest : List Char) (expected : String) (keyword : Kind) : Kind :=
  if rest = expected.toList then keyword else .identifier

/-- The kind of a word: a keyword, or an identifier. Its first letter, or its first two, leave at most one
of the sixteen keywords. -/
def Kind.ofWord (word : String) : Kind :=
  match word.toList with
  | 'a' :: rest => confirm rest "nd" .kwAnd
  | 'c' :: rest => confirm rest "lass" .kwClass
  | 'e' :: rest => confirm rest "lse" .kwElse
  | 'f' :: 'a' :: rest => confirm rest "lse" .kwFalse
  | 'f' :: 'o' :: rest => confirm rest "r" .kwFor
  | 'f' :: 'u' :: rest => confirm rest "n" .kwFun
  | 'i' :: rest => confirm rest "f" .kwIf
  | 'n' :: rest => confirm rest "il" .kwNil
  | 'o' :: rest => confirm rest "r" .kwOr
  | 'p' :: rest => confirm rest "rint" .kwPrint
  | 'r' :: rest => confirm rest "eturn" .kwReturn
  | 's' :: rest => confirm rest "uper" .kwSuper
  | 't' :: 'h' :: rest => confirm rest "is" .kwThis
  | 't' :: 'r' :: rest => confirm rest "ue" .kwTrue
  | 'v' :: rest => confirm rest "ar" .kwVar
  | 'w' :: rest => confirm rest "hile" .kwWhile
  | _ => .identifier

end Token

/-- A token with its source text and the line on which it ends. The text of an error token is the
error's message, the text of the end token is empty. -/
structure Token where
  kind : Token.Kind
  lexeme : String
  line : Nat
deriving DecidableEq, Repr

end Lox
