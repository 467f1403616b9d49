/-!
# Output

What a program printed, as bytes. Output may be limited: then it takes as many bytes as fit and
fails.
-/

set_option autoImplicit false

namespace Lox

/-- How much more an output takes. -/
inductive Room where
  | unlimited
  /-- So many bytes; after that, writing fails for this reason. -/
  | limited (bytes : Nat) (reason : String)
deriving DecidableEq, Repr

/-- The bytes printed so far, and the room left. -/
structure Output where
  written : ByteArray := .empty
  room : Room := .unlimited

namespace Output

/-- Writes bytes as far as they fit; the reason when they do not. -/
def write (o : Output) (bytes : ByteArray) : Option String × Output :=
  match o.room with
  | .unlimited => (none, { o with written := o.written ++ bytes })
  | .limited room reason =>
    if bytes.size ≤ room then
      (none, { written := o.written ++ bytes, room := .limited (room - bytes.size) reason })
    else
      (some reason,
        { written := o.written ++ bytes.extract 0 room, room := .limited 0 reason })

/-- Writes a text and a newline as far as they fit; the reason when they do not. -/
def printLine (o : Output) (text : String) : Option String × Output :=
  o.write (text ++ "\n").toUTF8

/-- Takes out the bytes printed so far. -/
def take (o : Output) : ByteArray × Output :=
  (o.written, { o with written := .empty })

end Output

end Lox
