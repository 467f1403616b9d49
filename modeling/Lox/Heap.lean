import Lox.Table
import Lox.Text.Hash

/-!
# The heap

The heap hands out identities and keeps every object it made, newest first. It makes one string
object per text: interning a text again gives the object it has. An identity may also be reserved
for an object that the heap does not list.
-/

set_option autoImplicit false

namespace Lox

/-- The objects made so far, newest first, their number, and the table of the strings among them. -/
structure Heap where
  nextId : Nat := 0
  objects : List Obj := []
  objectCount : Nat := 0
  strings : Table Unit := {}

namespace Heap

/-- The number of texts interned. -/
def stringCount (h : Heap) : Nat := h.strings.entries.length

/-- Takes an identity for an object that the heap does not list. -/
def reserve (h : Heap) : Nat × Heap :=
  (h.nextId, { h with nextId := h.nextId + 1 })

/-- Lists an object that has the next identity. -/
def allocate (h : Heap) (o : Obj) : Heap :=
  { h with nextId := h.nextId + 1, objects := o :: h.objects, objectCount := h.objectCount + 1 }

/-- The string object of a text, if it has one. -/
def lookup? (h : Heap) (text : String) : Option Str :=
  h.strings.findText? text (Text.hash text)

/-- The string object of a text; makes it when there is none. -/
def intern (h : Heap) (text : String) : Str × Heap :=
  let hash := Text.hash text
  match h.strings.findText? text hash with
  | some s => (s, h)
  | none =>
    let s : Str := { id := h.nextId, text, hash }
    let h := h.allocate (.string s)
    (s, { h with strings := (h.strings.set (.string s) ()).2 })

/-- Makes a function object. -/
def allocFunction (h : Heap) (arity : Nat) (chunk : Chunk Value) (name : Option Str) : Fn × Heap :=
  let f : Fn := { id := h.nextId, arity, chunk, name }
  (f, h.allocate (.function f))

/-- Makes a native function object. -/
def allocNative (h : Heap) (name : String) (arity entry : Nat) : Native × Heap :=
  let n : Native := { id := h.nextId, name, arity, entry }
  (n, h.allocate (.native n))

end Heap

end Lox
