/-!
# Columns of text

Listings are laid out in columns: numbers flush right, names flush left.
-/

set_option autoImplicit false

namespace Lox.Text

/-- Widens a text to at least `width` characters with copies of `fill` on its left. -/
def padLeft (fill : Char) (width : Nat) (text : String) : String :=
  "".pushn fill (width - text.length) ++ text

/-- Widens a text to at least `width` characters with blanks on its right. -/
def padRight (width : Nat) (text : String) : String :=
  text.pushn ' ' (width - text.length)

end Lox.Text
