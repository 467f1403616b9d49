import Lox.Bytecode.Instruction
import Lox.Text.Pad
import Lox.Value.Text

/-!
# Listings

A listing shows a chunk one instruction a line: offset, source line or a bar when it is that of the
byte before, name, operand. A constant operand is shown with the constant's text, a jump with its
target. The tree of a function is its listing followed by the trees of the functions among its
constants.
-/

set_option autoImplicit false

namespace Lox

/-- The text of a number flush right in four columns. -/
def column (n : Nat) : String := Text.padLeft ' ' 4 (toString n)

namespace Chunk

/-- The columns in front of an instruction. -/
def margin (c : Chunk Value) (offset : Nat) : String :=
  let line := c.lineAt offset
  let lineColumn := if 0 < offset ∧ line = c.lineAt (offset - 1) then "   |" else column line
  Text.padLeft '0' 4 (toString offset) ++ " " ++ lineColumn ++ " "

/-- The name column of an opcode that has an operand. -/
def nameColumn (op : Opcode) : String := Text.padRight 16 op.name ++ " "

/-- The text of the constant with an index, or a stand-in when there is none. -/
def constantText (c : Chunk Value) (index : Nat) : String :=
  match c.constants[index]? with
  | some value => value.text
  | none => "<?>"

/-- The offset that a jump leads to from the offset behind it. Backwards it may lie before the start
of the code. -/
def target (i : Instruction) (next : Nat) : Int :=
  if i.op = .loop then (next : Int) - i.operand else next + i.operand

/-- An instruction at an offset, without the columns in front. -/
def instructionText (c : Chunk Value) (i : Instruction) (offset next : Nat) : String :=
  match i.op with
  | .constant | .getGlobal | .defineGlobal | .setGlobal =>
    nameColumn i.op ++ column i.operand ++ " '" ++ c.constantText i.operand ++ "'"
  | .getLocal | .setLocal | .call => nameColumn i.op ++ column i.operand
  | .jump | .jumpIfFalse | .loop =>
    nameColumn i.op ++ column offset ++ " -> " ++ toString (target i next)
  | op => op.name

/-- The line of a listing for an offset inside the code, and the offset of the next line. -/
def listingLine? (c : Chunk Value) (offset : Nat) : Option (String × Nat) :=
  match c.decode offset with
  | .outside => none
  | .unknown byte =>
    some (c.margin offset ++ "Unknown opcode " ++ toString byte.toNat, offset + 1)
  | .truncated op => some (c.margin offset ++ nameColumn op ++ "<truncated>", c.code.size)
  | .instruction i next => some (c.margin offset ++ c.instructionText i offset next, next)

/-- Appends the lines of a listing from an offset on, at most `fuel` of them. -/
def listFrom (c : Chunk Value) : Nat → Nat → String → String
  | 0, _, text => text
  | fuel + 1, offset, text =>
    match c.listingLine? offset with
    | none => text
    | some (line, next) => listFrom c fuel next (text ++ line ++ "\n")

/-- The listing of a chunk under a heading. A line takes at least one byte. -/
def listing (c : Chunk Value) (name : String) : String :=
  c.listFrom c.code.size 0 ("== " ++ name ++ " ==\n")

end Chunk

/-- A function among the constants of a function is smaller than it. -/
theorem Function.sizeOf_lt_of_mem_constants {f nested : Fn}
    (h : Value.object (.function nested) ∈ f.chunk.constants) : sizeOf nested < sizeOf f := by
  have hMem := Array.sizeOf_lt_of_mem h
  have hValue : sizeOf (Value.object (.function nested)) = 1 + (1 + sizeOf nested) := by simp
  have hChunk : sizeOf f.chunk
      = 1 + sizeOf f.chunk.code + sizeOf f.chunk.lines + sizeOf f.chunk.constants := rfl
  have hFunction : sizeOf f
      = 1 + sizeOf f.id + sizeOf f.arity + sizeOf f.chunk + sizeOf f.name := rfl
  omega

/-- The listing of a function, followed by those of the functions nested in it. -/
def Function.tree (f : Fn) : String :=
  f.chunk.constants.attach.foldl (fun text ⟨value, _hMem⟩ =>
    match _hValue : value with
    | .object (.function nested) => text ++ "\n" ++ nested.tree
    | _ => text)
    (f.chunk.listing (match f.name with | some name => name.text | none => "<script>"))
termination_by sizeOf f
decreasing_by exact Function.sizeOf_lt_of_mem_constants (_hValue ▸ _hMem)

/-- A stack, bottom first, as traces show it. -/
def stackText (stack : Array Value) : String :=
  stack.foldl (fun text value => text ++ "[ " ++ value.text ++ " ]") "          "

end Lox
