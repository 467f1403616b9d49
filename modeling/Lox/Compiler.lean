import Lox.Bytecode.Listing
import Lox.Compiler.Statement

/-!
# The compiler

`compile` turns a source text into a script, a function without a name, or into the list of all
problems found. Either way the heap keeps what was made on it; the script itself is made only when
there is no problem.
-/

set_option autoImplicit false

namespace Lox

/-- Compiles declarations up to the end of the source, at most `fuel` of them. -/
def Parser.script (inner : Level) : Nat → Parser → Parser
  | 0, p => p
  | fuel + 1, p =>
    if p.check .eof then p.advance else script inner fuel (p.declaration inner)

/-- Ends the script, and makes its function unless there is a problem. -/
def Parser.conclude (p : Parser) : Except (List Diagnostic) Fn × Heap :=
  let (draft, p) := p.endFunction
  if p.diagnostics.isEmpty then
    let (f, heap) := p.heap.allocFunction draft.arity draft.chunk draft.name
    (.ok f, heap)
  else (.error p.diagnostics.toList, p.heap)

/-- Compiles a source text on a heap. -/
def compile (source : String) (heap : Heap) : Except (List Diagnostic) Fn × Heap :=
  let p := Parser.start (Scanner.tokens source) heap
  (Parser.script Level.outermost p.total p).conclude

/-- The problems of a source text. -/
def checkSource (source : String) : Except (List Diagnostic) Unit :=
  (compile source {}).1.map fun _ => ()

/-- The listing of a source text. -/
def listSource (source : String) : Except (List Diagnostic) String :=
  (compile source {}).1.map Function.tree

end Lox
