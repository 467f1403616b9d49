import Lox.Compiler.Emission

/-!
# Scopes and variables

Inside a scope a name declares a local, outside it declares a global. A local cannot be read in its
own initializer, and a scope has no two locals of one name.
-/

set_option autoImplicit false

namespace Lox.Parser

/-- The number of local slots of a function, that of the function itself included. -/
def maxLocals : Nat := 256

/-- Enters a scope. -/
def beginScope (p : Parser) : Parser :=
  { p with draft := { p.draft with scopeDepth := p.draft.scopeDepth + 1 } }

/-- Drops the locals that are deeper than the current scope, and writes a pop for each. -/
def dropLocals : List Local → Parser → Parser
  | [], p => { p with draft := { p.draft with locals := [] } }
  | l :: older, p =>
    if p.draft.scopeDepth < l.depth then dropLocals older (p.emit .pop)
    else { p with draft := { p.draft with locals := l :: older } }

/-- Leaves a scope. -/
def endScope (p : Parser) : Parser :=
  let locals := p.draft.locals
  dropLocals locals { p with draft := { p.draft with scopeDepth := p.draft.scopeDepth - 1 } }

/-- Adds a local that is not initialized yet. -/
def addLocal (p : Parser) (name : String) : Parser :=
  if p.draft.locals.length = maxLocals then p.error .tooManyLocals
  else
    let l : Local := { name, depth := p.draft.scopeDepth, initialized := false }
    { p with draft := { p.draft with locals := l :: p.draft.locals } }

/-- Declares the name read last, unless it is a global. -/
def declareVariable (p : Parser) : Parser :=
  if p.draft.scopeDepth = 0 then p
  else
    let name := p.previous.lexeme
    let p := if p.draft.declaredHere name then p.error .duplicateLocal else p
    p.addLocal name

/-- Reads the name of a variable and declares it; returns the index of the name of a global. -/
def variableName (p : Parser) (what : Expected) : Nat × Parser :=
  let p := (p.consume .identifier what).declareVariable
  if p.draft.scopeDepth = 0 then p.nameConstant p.previous.lexeme else (0, p)

/-- Marks the newest local as initialized. -/
def markInitialized (p : Parser) : Parser :=
  if p.draft.scopeDepth = 0 then p
  else
    match p.draft.locals with
    | [] => p
    | l :: older =>
      { p with draft := { p.draft with locals := { l with initialized := true } :: older } }

/-- Defines a declared variable as the value on top of the stack. -/
def defineVariable (p : Parser) (index : Nat) : Parser :=
  if p.draft.scopeDepth = 0 then p.emitWith .defineGlobal index else p.markInitialized

/-- A variable as instructions refer to it. -/
inductive Reference where
  | slot (n : Nat)
  | global (index : Nat)

/-- The instruction that reads a variable. -/
def emitGet (p : Parser) : Reference → Parser
  | .slot n => p.emitWith .getLocal n
  | .global index => p.emitWith .getGlobal index

/-- The instruction that assigns to a variable. -/
def emitSet (p : Parser) : Reference → Parser
  | .slot n => p.emitWith .setLocal n
  | .global index => p.emitWith .setGlobal index

/-- Finds out which variable a name refers to. -/
def resolve (p : Parser) (name : String) : Reference × Parser :=
  match Draft.resolve? name p.draft.locals with
  | some (n, l) => (.slot n, if l.initialized then p else p.error .ownInitializer)
  | none =>
    let (index, p) := p.nameConstant name
    (.global index, p)

end Lox.Parser
