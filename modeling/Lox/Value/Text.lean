import Lox.Number.Notation
import Lox.Text.Quoted
import Lox.Value

/-!
# Texts of values

What `print` writes for a value, the name of its type as error messages give it, and a longer form
that tells the types apart.
-/

set_option autoImplicit false

namespace Lox

/-- The name of a function, or `script` for a script. -/
def Function.displayName {α : Type} (f : Function α) : String :=
  match f.name with
  | some name => name.text
  | none => "script"

namespace Object

variable {α : Type}

/-- The name of an object's type. -/
def typeName : Object α → String
  | string _ => "string"
  | function _ => "function"
  | native _ => "native"

/-- The printed text of an object. -/
def text : Object α → String
  | string s => s.text
  | function f =>
    match f.name with
    | some name => "<fn " ++ name.text ++ ">"
    | none => "<script>"
  | native _ => "<native fn>"

/-- The long form of an object. -/
def inspect : Object α → String
  | string s => "String(" ++ Text.quoted s.text ++ ")"
  | function f => "Function(" ++ f.displayName ++ ")"
  | native n => "Native(" ++ n.name ++ ")"

end Object

namespace Value

/-- The name of a value's type. -/
def typeName : Value → String
  | nil => "nil"
  | bool _ => "bool"
  | number _ => "number"
  | object o => o.typeName

/-- The printed text of a value. -/
def text : Value → String
  | nil => "nil"
  | bool b => if b then "true" else "false"
  | number x => Number.text x
  | object o => o.text

/-- The long form of a value. -/
def inspect : Value → String
  | nil => "Nil"
  | bool b => "Bool(" ++ text (bool b) ++ ")"
  | number x => "Number(" ++ Number.text x ++ ")"
  | object o => "Obj(" ++ o.inspect ++ ")"

end Value

end Lox
