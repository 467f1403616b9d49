import Lox.Proofs.Compiler.Placeholder
import Lox.Proofs.Compiler.Tidy

/-!
# The checks of the compiler hold

On every source, well formed or not, all that the checked compiler asks for is so. Each of its steps is
sure: from a state in order it has the value that the plain step has, and the state that comes with it is in
order again (`Parser.Sure`).
-/

set_option autoImplicit false

namespace Lox

open Checked
open Lox.Parser (maxArguments maxConstants maxDistance maxLocals)

namespace Parser

/-- A checked step from a state in order has a value. The state that comes with it is in order, and comes
after the first one in some way. -/
structure Sure {α : Type} (bound : Nat) (R : Parser → Parser → Prop) (p : Parser) (x : Part α) (y : α)
    (q : Parser) : Prop where
  intro ::
  apply : p.Tidy bound → x = .some y ∧ q.Tidy bound ∧ R p q

section

variable {α β : Type} {bound : Nat} {R S T : Parser → Parser → Prop} {p q r : Parser} {x : Part α} {y : α}
  {f : α → Part β} {z : β}

theorem Leaves.sure (h : Leaves bound p q) (y : α) : Sure bound Keeps p (.some y) y q :=
  ⟨fun hp => ⟨rfl, h.apply hp⟩⟩

theorem Sure.mono (h : Sure bound R p x y q) (hS : R p q → S p q) : Sure bound S p x y q := by
  refine ⟨fun hp => ?_⟩
  obtain ⟨hEq, hq, hR⟩ := h.apply hp
  exact ⟨hEq, hq, hS hR⟩

/-- Checked steps one after the other. -/
theorem Sure.bind (h : Sure bound R p x y q) (hf : R p q → Sure bound S q (f y) z r)
    (hT : R p q → S q r → T p r) : Sure bound T p (x >>= f) z r := by
  refine ⟨fun hp => ?_⟩
  obtain ⟨rfl, hq, hR⟩ := h.apply hp
  obtain ⟨hEq, hr, hS⟩ := (hf hR).apply hq
  refine ⟨?_, hr, hT hR hS⟩
  rw [Part.bind_eq_bind, Part.bind_some, hEq]

theorem Sure.then (h : Sure bound Keeps p x y q) (hf : p.Keeps q → Sure bound Keeps q (f y) z r) :
    Sure bound Keeps p (x >>= f) z r := h.bind hf Keeps.trans

/-- A checked step behind a plain one. -/
theorem Leaves.before (h : Leaves bound p q) (hx : p.Keeps q → Sure bound S q x y r)
    (hT : p.Keeps q → S q r → T p r) : Sure bound T p x y r := by
  refine ⟨fun hp => ?_⟩
  obtain ⟨hq, hk⟩ := h.apply hp
  obtain ⟨hEq, hr, hS⟩ := (hx hk).apply hq
  exact ⟨hEq, hr, hT hk hS⟩

theorem Leaves.then (h : Leaves bound p q) (hx : p.Keeps q → Sure bound Keeps q x y r) :
    Sure bound Keeps p x y r := h.before hx Keeps.trans

/-! What comes out is seen from some state further back. -/

theorem Sure.toward {Q : Parser → Prop} (h : Sure bound R p x y q)
    (hf : R p q → Sure bound (fun _ => Q) q (f y) z r) : Sure bound (fun _ => Q) p (x >>= f) z r :=
  h.bind hf fun _ hQ => hQ

theorem Leaves.toward {Q : Parser → Prop} (h : Leaves bound p q)
    (hx : p.Keeps q → Sure bound (fun _ => Q) q x y r) : Sure bound (fun _ => Q) p x y r :=
  h.before hx fun _ hQ => hQ

theorem Sure.from {Q : Parser → Parser → Prop} (h : Sure bound (fun _ => Q p) p x y q) :
    Sure bound Q p x y q := h.mono id

end

/-! ## Emission -/

section

variable {bound : Nat} {p : Parser}

theorem sure_makeConstant (p : Parser) {v : Value} (hv : v.Lined bound) :
    Sure bound Keeps p (p.checkedMakeConstant v) (p.makeConstant v) (p.makeConstant v).2 := by
  refine ⟨fun hp => ⟨?_, (leaves_makeConstant p hv).apply hp⟩⟩
  rw [checkedMakeConstant, inByte_bind (makeConstant_lt p v)]
  rfl

theorem sure_emitConstant (p : Parser) {v : Value} (hv : v.Lined bound) :
    Sure bound Keeps p (p.checkedEmitConstant v) (p.emitConstant v) (p.emitConstant v) :=
  (sure_makeConstant p hv).then fun _ => (leaves_emitWith ..).sure _

theorem sure_nameConstant (p : Parser) (name : String) :
    Sure bound Keeps p (p.checkedNameConstant name) (p.nameConstant name) (p.nameConstant name).2 := by
  refine ⟨fun hp => ⟨?_, (leaves_nameConstant p name).apply hp⟩⟩
  rw [checkedNameConstant, inByte_bind (nameConstant_lt hp name)]
  rfl

theorem here_emitWith (p : Parser) (op : Opcode) (operand : Nat) :
    (p.emitWith op operand).here = p.here + (1 + op.operandSize) := by
  rw [here, emitWith, writeBytes, Draft.size_write, Instruction.length_encode]
  rfl

/-- The distance of a jump stands inside of the code. -/
theorem emitJump_fits (p : Parser) (op : Opcode) (hOp : op.operandSize = 2) :
    (p.emitJump op).1 + 2 = (p.emitJump op).2.here := by
  have hHere := here_emitWith p op maxDistance
  rw [hOp] at hHere
  simp only [emitJump]
  omega

theorem sure_emitJump (p : Parser) (op : Opcode) (hOp : op.operandSize = 2) :
    Sure bound Keeps p (p.checkedEmitJump op) (p.emitJump op) (p.emitJump op).2 := by
  have hFits : 2 ≤ (p.emitWith op maxDistance).here := by
    have hHere := here_emitWith p op maxDistance
    omega
  refine ⟨fun hp => ⟨?_, (leaves_emitWith p op maxDistance).apply hp⟩⟩
  rw [checkedEmitJump, difference_bind hFits]
  rfl

theorem sure_patchJump (p : Parser) {offset : Nat} (hOffset : offset + 2 ≤ p.here) :
    Sure bound Keeps p (p.checkedPatchJump offset) (p.patchJump offset) (p.patchJump offset) := by
  refine ⟨fun hp => ⟨?_, (leaves_patchJump p offset).apply hp⟩⟩
  have hFirst : offset < p.draft.chunk.code.size := by
    unfold here Draft.size at hOffset
    omega
  have hSecond (byte : UInt8) : offset + 1 < (p.draft.chunk.code.setIfInBounds offset byte).size := by
    unfold here Draft.size at hOffset
    rw [Array.size_setIfInBounds]
    omega
  rw [checkedPatchJump, difference_bind (by omega), difference_bind (by omega)]
  unfold patchJump
  dsimp only
  split
  · rw [overwrite_bind hFirst, overwrite_bind (hSecond _)]
    rfl
  · rfl

theorem sure_emitLoop (p : Parser) {start : Nat} (hStart : start ≤ p.here) :
    Sure bound Keeps p (p.checkedEmitLoop start) (p.emitLoop start) (p.emitLoop start) := by
  refine ⟨fun hp => ⟨?_, (leaves_emitLoop p start).apply hp⟩⟩
  have hDistance : p.here + 1 - start + 2 = p.here + 3 - start := by omega
  rw [checkedEmitLoop, difference_bind (by omega), hDistance]
  unfold emitLoop
  dsimp only
  split
  · rfl
  · rfl

/-! ## Variables -/

theorem Tidy.inOrder (hp : p.Tidy bound) : p.InOrder := hp.draft.sorted

theorem sure_variableName (p : Parser) (what : Expected) :
    Sure bound Names p (p.checkedVariableName what) (p.variableName what) (p.variableName what).2 := by
  refine (leaves_consume p .identifier what).before (fun _ => ?_) Names.after
  have hDeclare (q : Parser) :
      Sure bound Names q q.checkedDeclareVariable q.declareVariable q.declareVariable := by
    refine ⟨fun hq => ?_⟩
    obtain ⟨hTidy, hNames⟩ := leaves_declareVariable hq
    refine ⟨?_, hTidy, hNames⟩
    rw [checkedDeclareVariable, require_bind hTidy.inOrder]
    rfl
  refine (hDeclare _).bind (S := Keeps) (fun _ => ?_) Names.keeps
  unfold variableName
  dsimp only
  split
  · exact sure_nameConstant ..
  · exact (Leaves.refl _).sure _

theorem sure_resolve (p : Parser) (name : String) :
    Sure bound Keeps p (p.checkedResolve name) (p.resolve name) (p.resolve name).2 := by
  unfold checkedResolve resolve
  cases hFound : Draft.resolve? name p.draft.locals with
  | none => exact (sure_nameConstant p name).then fun _ => (Leaves.refl _).sure _
  | some found =>
    refine ⟨fun hp => ?_⟩
    have hSlot : found.1 < 256 := (Draft.resolve?_lt hFound).trans_le hp.draft.slots
    have hLeaves : Leaves bound p (if found.2.initialized then p else p.error .ownInitializer) :=
      .ite (.refl p) (leaves_error ..)
    refine ⟨?_, hLeaves.apply hp⟩
    dsimp only
    rw [inByte_bind hSlot]
    rfl

/-! ## Literals -/

/-- The text of a number token is a number literal. -/
theorem accepts_rule {accepts : String → Prop} (ha : AcceptsLiterals accepts) {cs : List Char}
    (h : Lexis.Rule .number cs) : accepts (String.ofList cs) := by
  cases h with
  | fixed hMem => exact absurd rfl (Lexis.fixed_kind _ hMem).2
  | whole hDigits =>
    exact ha.whole _ (List.cons_ne_nil _ _) fun d hd => Scanner.isDigit_iff.2 (hDigits d hd)
  | @fraction c c' cs cs' hDigits hPlaces =>
    exact ha.fraction (c :: cs) (c' :: cs') (List.cons_ne_nil _ _) (List.cons_ne_nil _ _)
      (fun d hd => Scanner.isDigit_iff.2 (hDigits d hd))
      (fun d hd => Scanner.isDigit_iff.2 (hPlaces d hd))

theorem sure_number {accepts : String → Prop} (ha : AcceptsLiterals accepts)
    (hKind : p.previous.kind = .number) : Sure bound Keeps p (checkedNumber accepts p) p.number p.number := by
  refine ⟨fun hp => ?_⟩
  have hRule := (hp.tokens _ (List.mem_cons_self ..)).literal (.inr hKind)
  rw [hKind] at hRule
  have hAccepts := accepts_rule ha hRule
  rw [String.ofList_toList] at hAccepts
  rw [checkedNumber, require_bind hAccepts]
  exact (sure_emitConstant p (Value.lined_number _ _)).apply hp

/-- A string token is its text between two quotes. -/
theorem string_rule {lexeme : String} (h : Lexis.Rule .string lexeme.toList) :
    lexeme = "\"" ++ (String.ofList (lexeme.toList.drop 1).dropLast ++ "\"") := by
  apply String.toList_inj.1
  generalize lexeme.toList = cs at h
  cases h with
  | fixed hMem => exact absurd rfl (Lexis.fixed_kind _ hMem).1
  | string => simp

theorem sure_string (hKind : p.previous.kind = .string) :
    Sure bound Keeps p p.checkedString p.string p.string := by
  refine ⟨fun hp => ?_⟩
  have hRule := (hp.tokens _ (List.mem_cons_self ..)).literal (.inl hKind)
  rw [hKind] at hRule
  have hLexeme := string_rule hRule
  unfold checkedString string
  dsimp only
  generalize String.ofList (p.previous.lexeme.toList.drop 1).dropLast = text at hLexeme ⊢
  have hSize : p.previous.lexeme.utf8ByteSize = 1 + text.utf8ByteSize + 1 := by
    rw [hLexeme, String.utf8ByteSize_append, String.utf8ByteSize_append, Nat.add_assoc]
    rfl
  have hText : slice p.previous.lexeme 1 (p.previous.lexeme.utf8ByteSize - 1) = .some text := by
    rw [hSize, Nat.add_sub_cancel, hLexeme]
    exact slice_middle "\"" text "\""
  rw [difference_bind (by omega), hText, Part.bind_eq_bind, Part.bind_some]
  exact ((leaves_intern p text).then fun _ => sure_emitConstant _ (Value.lined_string _ _)).apply hp

end

end Parser

/-! ## Expressions -/

theorem Token.Kind.leading?_literal {kind : Token.Kind} {rule : Leading} (h : kind.leading? = some rule) :
    (rule = .string → kind = .string) ∧ (rule = .number → kind = .number) := by
  constructor
  · rintro rfl
    cases kind <;> simp_all [leading?]
  · rintro rfl
    cases kind <;> simp_all [leading?]

/-- Checked constructs are sure to give what the constructs give. Statements are compiled only where all
locals are initialized. -/
structure Level.Checks (bound : Nat) (checked : CheckedLevel) (inner : Level) : Prop where
  statement : ∀ p : Parser, p.Settled →
    p.Sure bound Parser.Keeps (checked.statement p) (inner.statement p) (inner.statement p)
  operand : ∀ (layer : Precedence) (p : Parser),
    p.Sure bound Parser.Keeps (checked.operand layer p) (inner.operand layer p) (inner.operand layer p)
  function : ∀ p : Parser,
    p.Sure bound Parser.Keeps (checked.function p) (inner.function p) (inner.function p)

namespace Parser

section

variable {bound : Nat} {checked : CheckedLevel} {inner : Level} (hi : Level.Checks bound checked inner)

include hi

theorem sure_expression (p : Parser) :
    Sure bound Keeps p (checkedExpression checked p) (expression inner p) (expression inner p) :=
  hi.operand .assignment p

theorem sure_name (mayAssign : Bool) (p : Parser) :
    Sure bound Keeps p (checkedName checked mayAssign p) (name inner mayAssign p)
      (name inner mayAssign p) := by
  refine (sure_resolve p _).then fun _ => ?_
  unfold name
  generalize p.resolve p.previous.lexeme = resolved
  obtain ⟨ref, q⟩ := resolved
  dsimp only
  split
  · exact (leaves_advance q).then fun _ => (sure_expression hi _).then fun _ => (leaves_emitSet ..).sure _
  · exact (leaves_emitGet ..).sure _

theorem sure_grouping (p : Parser) :
    Sure bound Keeps p (checkedGrouping checked p) (grouping inner p) (grouping inner p) :=
  (sure_expression hi p).then fun _ => (leaves_consume ..).sure _

theorem sure_unary (p : Parser) :
    Sure bound Keeps p (checkedUnary checked p) (unary inner p) (unary inner p) := by
  refine (hi.operand .unary p).then fun _ => ?_
  unfold unary
  dsimp only
  generalize p.previous.kind = operator
  cases operator with
  | minus | bang => exact (leaves_emit ..).sure _
  | _ => exact (Leaves.refl _).sure _

theorem sure_arguments : ∀ (fuel count : Nat) (p : Parser),
    Sure bound Keeps p (checkedArguments checked fuel count p) (arguments inner fuel count p)
      (arguments inner fuel count p).2
  | 0, _, p => (Leaves.refl p).sure _
  | fuel + 1, count, p => by
    have hMany (q : Parser) :
        Leaves bound q (if count = maxArguments then q.error .tooManyArguments else q) :=
      .ite (leaves_error ..) (.refl q)
    refine (sure_expression hi p).then fun _ => (hMany _).then fun _ => ?_
    unfold arguments
    dsimp only
    generalize (if count = maxArguments then _ else _) = q
    split
    · exact (leaves_advance q).then fun _ => sure_arguments fuel _ _
    · exact (Leaves.refl q).sure _

theorem sure_call (p : Parser) :
    Sure bound Keeps p (checkedCall checked p) (call inner p) (call inner p) := by
  have hArguments : Sure bound Keeps p
      (if p.check .rightParen then pure (0, p) else checkedArguments checked p.total 0 p)
      (if p.check .rightParen then (0, p) else arguments inner p.total 0 p)
      (if p.check .rightParen then (0, p) else arguments inner p.total 0 p).2 := by
    split
    · exact (Leaves.refl p).sure _
    · exact sure_arguments hi ..
  refine hArguments.then fun _ => ?_
  unfold call
  generalize (if p.check .rightParen then _ else _) = read
  obtain ⟨count, q⟩ := read
  have hCount : min count maxArguments < 256 := Nat.lt_succ_of_le (Nat.min_le_right ..)
  dsimp only
  rw [inByte_bind hCount]
  exact ((leaves_consume ..).trans (leaves_emitWith ..)).sure _

theorem sure_binary (p : Parser) :
    Sure bound Keeps p (checkedBinary checked p) (binary inner p) (binary inner p) :=
  (hi.operand _ p).then fun _ => (leaves_emits ..).sure _

theorem sure_and (p : Parser) :
    Sure bound Keeps p (checkedAnd checked p) (Parser.and inner p) (Parser.and inner p) := by
  refine (sure_emitJump p .jumpIfFalse rfl).then fun _ => ?_
  refine (leaves_emit _ .pop).then fun hPop => (hi.operand .and _).then fun hRight => ?_
  refine sure_patchJump _ ?_
  have hFits := emitJump_fits p .jumpIfFalse rfl
  exact hFits.le.trans (hPop.trans hRight).here

theorem sure_or (p : Parser) :
    Sure bound Keeps p (checkedOr checked p) (Parser.or inner p) (Parser.or inner p) := by
  refine (sure_emitJump p .jumpIfFalse rfl).then fun _ => ?_
  refine (sure_emitJump _ .jump rfl).then fun hEnd => ?_
  refine (sure_patchJump _ ?_).then fun hElse => ?_
  · have hFits := emitJump_fits p .jumpIfFalse rfl
    exact hFits.le.trans hEnd.here
  refine (leaves_emit _ .pop).then fun hPop => (hi.operand .or _).then fun hRight => ?_
  refine sure_patchJump _ ?_
  have hFits := emitJump_fits (p.emitJump .jumpIfFalse).2 .jump rfl
  exact hFits.le.trans (hElse.trans (hPop.trans hRight)).here

theorem sure_trailing (p : Parser) (rule : Trailing) :
    Sure bound Keeps p (checkedTrailing checked p rule) (trailing inner p rule) (trailing inner p rule) := by
  cases rule with
  | call => exact sure_call hi p
  | binary => exact sure_binary hi p
  | and => exact sure_and hi p
  | or => exact sure_or hi p

theorem sure_operators (layer : Precedence) : ∀ (fuel : Nat) (p : Parser),
    Sure bound Keeps p (checkedOperators checked layer fuel p) (operators inner layer fuel p)
      (operators inner layer fuel p)
  | 0, p => (Leaves.refl p).sure _
  | fuel + 1, p => by
    unfold checkedOperators operators
    split
    · refine (leaves_advance p).then fun _ => ?_
      dsimp only
      generalize p.advance = q
      cases q.previous.kind.trailing? with
      | some rule => exact (sure_trailing hi q rule).then fun _ => sure_operators layer fuel _
      | none => exact ((Leaves.refl q).sure _).then fun _ => sure_operators layer fuel _
    · exact (Leaves.refl p).sure _

variable {accepts : String → Prop} (ha : AcceptsLiterals accepts)

include ha

theorem sure_leading (mayAssign : Bool) {p : Parser} {rule : Leading}
    (hRule : p.previous.kind.leading? = some rule) :
    Sure bound Keeps p (checkedLeading accepts checked mayAssign p rule) (leading inner mayAssign p rule)
      (leading inner mayAssign p rule) := by
  cases rule with
  | grouping => exact sure_grouping hi p
  | unary => exact sure_unary hi p
  | name => exact sure_name hi mayAssign p
  | string => exact sure_string ((Token.Kind.leading?_literal hRule).1 rfl)
  | number => exact sure_number ha ((Token.Kind.leading?_literal hRule).2 rfl)
  | literal => exact (leaves_literal p).sure _

theorem sure_operand (layer : Precedence) (p : Parser) :
    Sure bound Keeps p (checkedOperand accepts checked layer p) (operand inner layer p)
      (operand inner layer p) := by
  have hEnd (q : Parser) : Leaves bound q (if layer.rank ≤ Precedence.assignment.rank && q.check .equal
      then q.advance.error .invalidAssignmentTarget else q) :=
    .ite ((leaves_advance q).trans (leaves_error ..)) (.refl q)
  refine (leaves_advance p).then fun _ => ?_
  unfold checkedOperand operand
  dsimp only
  cases hRule : p.advance.previous.kind.leading? with
  | none => exact (leaves_error ..).sure _
  | some rule =>
    exact (sure_leading hi ha _ hRule).then fun _ => (sure_operators hi ..).then fun _ => (hEnd _).sure _

end

/-! ## Statements -/

section

variable {bound : Nat} {checked : CheckedLevel} {inner : Level} (hi : Level.Checks bound checked inner)

include hi

theorem sure_printStatement (p : Parser) :
    Sure bound Keeps p (checkedPrintStatement checked p) (printStatement inner p)
      (printStatement inner p) :=
  (sure_expression hi p).then fun _ => ((leaves_consume ..).trans (leaves_emit ..)).sure _

theorem sure_expressionStatement (p : Parser) :
    Sure bound Keeps p (checkedExpressionStatement checked p) (expressionStatement inner p)
      (expressionStatement inner p) :=
  (sure_expression hi p).then fun _ => ((leaves_consume ..).trans (leaves_emit ..)).sure _

theorem sure_returnStatement (p : Parser) :
    Sure bound Keeps p (checkedReturnStatement checked p) (returnStatement inner p)
      (returnStatement inner p) := by
  have hScript : Leaves bound p (if p.draft.isScript then p.error .returnFromScript else p) :=
    .ite (leaves_error ..) (.refl p)
  refine hScript.then fun _ => ?_
  unfold checkedReturnStatement returnStatement
  dsimp only
  generalize (if p.draft.isScript then _ else _) = q
  split
  · exact ((leaves_advance q).trans (leaves_emitReturn _)).sure _
  · exact (sure_expression hi q).then fun _ => ((leaves_consume ..).trans (leaves_emit ..)).sure _

theorem sure_varDeclaration {p : Parser} (hs : p.Settled) :
    Sure bound FillsOne p (checkedVarDeclaration checked p) (varDeclaration inner p)
      (varDeclaration inner p) := by
  refine .from ((sure_variableName p .variableName).toward fun hNames => ?_)
  unfold varDeclaration
  generalize p.variableName .variableName = named at hNames ⊢
  obtain ⟨index, q⟩ := named
  have hValue : Sure bound Keeps q
      (if q.check .equal then checkedExpression checked q.advance else pure (q.emit .pushNil))
      (if q.check .equal then expression inner q.advance else q.emit .pushNil)
      (if q.check .equal then expression inner q.advance else q.emit .pushNil) := by
    split
    · exact (leaves_advance q).then fun _ => sure_expression hi _
    · exact (leaves_emit ..).sure _
  refine hValue.toward fun hKeeps => ?_
  refine (leaves_consume _ .semicolon .semicolonAfterVariable).toward fun hRead => ?_
  exact ⟨fun hr => ⟨rfl, ((hNames.keeps hKeeps).keeps hRead).defineVariable hs hr index⟩⟩

theorem sure_funDeclaration {p : Parser} (hs : p.Settled) :
    Sure bound FillsOne p (checkedFunDeclaration checked p) (funDeclaration inner p)
      (funDeclaration inner p) := by
  refine .from ((sure_variableName p .functionName).toward fun hNames => ?_)
  unfold funDeclaration
  generalize p.variableName .functionName = named at hNames ⊢
  obtain ⟨index, q⟩ := named
  refine ⟨fun hq => ?_⟩
  obtain ⟨hMarked, hFills⟩ := hNames.markInitialized hs hq
  have hBody := (hi.function q.markInitialized).bind (S := Keeps) (T := Keeps)
    (f := fun r => pure (r.defineVariable index))
    (fun hKeeps => (leaves_defineVariable (hKeeps.settled (hFills.fills.settled hs)) index).sure _)
    Keeps.trans
  obtain ⟨hEq, hr, hKeeps⟩ := hBody.apply hMarked
  exact ⟨hEq, hr, hFills.keeps hKeeps⟩

theorem sure_declaration {p : Parser} (hs : p.Settled) :
    Sure bound FillsOne p (checkedDeclaration checked p) (declaration inner p) (declaration inner p) := by
  have hSkip (q : Parser) : Leaves bound q (if q.recovering then q.synchronize else q) :=
    .ite (leaves_synchronize q) (.refl q)
  have hOne : Sure bound FillsOne p
      (if p.check .kwFun then checkedFunDeclaration checked p.advance
        else if p.check .kwVar then checkedVarDeclaration checked p.advance
        else checked.statement p)
      (if p.check .kwFun then funDeclaration inner p.advance
        else if p.check .kwVar then varDeclaration inner p.advance
        else inner.statement p)
      (if p.check .kwFun then funDeclaration inner p.advance
        else if p.check .kwVar then varDeclaration inner p.advance
        else inner.statement p) := by
    split
    · exact (leaves_advance p).before (fun h => sure_funDeclaration hi (h.settled hs)) .after
    · split
      · exact (leaves_advance p).before (fun h => sure_varDeclaration hi (h.settled hs)) .after
      · exact (hi.statement p hs).mono Keeps.fillsOne
  refine .from (hOne.toward fun hFills => ?_)
  unfold declaration
  dsimp only
  generalize (if p.check .kwFun then _ else _) = q at hFills ⊢
  refine ⟨fun hq => ?_⟩
  obtain ⟨hTidy, hKeeps⟩ := (hSkip q).apply hq
  have hAll := hFills.keeps hKeeps
  refine ⟨?_, hTidy, hAll⟩
  rw [require_bind hAll.oneMore]
  rfl

theorem sure_declarations : ∀ (fuel : Nat) {p : Parser}, p.Settled →
    Sure bound Fills p (checkedDeclarations checked fuel p) (declarations inner fuel p)
      (declarations inner fuel p)
  | 0, p, _ => ((Leaves.refl p).sure _).mono Keeps.fills
  | fuel + 1, p, hs => by
    unfold checkedDeclarations declarations
    split
    · exact ((Leaves.refl p).sure _).mono Keeps.fills
    · exact (sure_declaration hi hs).bind (fun h => sure_declarations fuel (h.fills.settled hs))
        fun h h' => h.fills.trans h'

theorem sure_block {p : Parser} (hs : p.Settled) :
    Sure bound Fills p (checkedBlock checked p) (block inner p) (block inner p) :=
  (sure_declarations hi p.total hs).bind (fun _ => (leaves_consume ..).sure _) fun h h' => h.trans h'.fills

theorem sure_ifStatement {p : Parser} (hs : p.Settled) :
    Sure bound Keeps p (checkedIfStatement checked p) (ifStatement inner p) (ifStatement inner p) := by
  have hElse {q : Parser} (hs : q.Settled) : Sure bound Keeps q
      (if q.check .kwElse then checked.statement q.advance else pure q)
      (if q.check .kwElse then inner.statement q.advance else q)
      (if q.check .kwElse then inner.statement q.advance else q) := by
    split
    · exact (leaves_advance q).then fun h => hi.statement _ (h.settled hs)
    · exact (Leaves.refl q).sure _
  refine (leaves_consume p .leftParen .parenAfterIf).then fun h₁ => ?_
  refine (sure_expression hi _).then fun h₂ => ?_
  refine (leaves_consume _ .rightParen .parenAfterCondition).then fun h₃ => ?_
  refine (sure_emitJump _ .jumpIfFalse rfl).then fun h₄ => ?_
  refine (leaves_emit _ .pop).then fun h₅ => ?_
  have hBefore := (((h₁.trans h₂).trans h₃).trans h₄).trans h₅
  refine (hi.statement _ (hBefore.settled hs)).then fun h₆ => ?_
  refine (sure_emitJump _ .jump rfl).then fun h₇ => ?_
  refine (sure_patchJump _ ?_).then fun h₈ => ?_
  · exact (emitJump_fits _ _ rfl).le.trans ((h₅.trans h₆).trans h₇).here
  refine (leaves_emit _ .pop).then fun h₉ => ?_
  have hBetween := (((hBefore.trans h₆).trans h₇).trans h₈).trans h₉
  refine (hElse (hBetween.settled hs)).then fun h₁₀ => ?_
  refine sure_patchJump _ ?_
  exact (emitJump_fits _ _ rfl).le.trans ((h₈.trans h₉).trans h₁₀).here

theorem sure_whileStatement {p : Parser} (hs : p.Settled) :
    Sure bound Keeps p (checkedWhileStatement checked p) (whileStatement inner p)
      (whileStatement inner p) := by
  refine (leaves_consume p .leftParen .parenAfterWhile).then fun h₁ => ?_
  refine (sure_expression hi _).then fun h₂ => ?_
  refine (leaves_consume _ .rightParen .parenAfterCondition).then fun h₃ => ?_
  refine (sure_emitJump _ .jumpIfFalse rfl).then fun h₄ => ?_
  refine (leaves_emit _ .pop).then fun h₅ => ?_
  have hBefore := (((h₁.trans h₂).trans h₃).trans h₄).trans h₅
  refine (hi.statement _ (hBefore.settled hs)).then fun h₆ => ?_
  refine (sure_emitLoop _ (hBefore.trans h₆).here).then fun h₇ => ?_
  refine (sure_patchJump _ ?_).then fun _ => (leaves_emit ..).sure _
  exact (emitJump_fits _ _ rfl).le.trans ((h₅.trans h₆).trans h₇).here

omit hi in
theorem sure_endScope {p q : Parser} {x : Part Parser} (h : Sure bound Fills p.beginScope x q q) :
    Sure bound Keeps p (x >>= checkedEndScope) q.endScope q.endScope := by
  refine ⟨fun hp => ?_⟩
  obtain ⟨rfl, hq, hFills⟩ := h.apply hp.beginScope
  obtain ⟨hDepth, hTidy, hKeeps⟩ := hFills.endScope hp hq
  refine ⟨?_, hTidy, hKeeps⟩
  rw [Part.bind_eq_bind, Part.bind_some, checkedEndScope, difference_bind hDepth]
  exact require_bind hTidy.inOrder _

theorem sure_forInitializer {p : Parser} (hs : p.Settled) :
    Sure bound FillsOne p (checkedForInitializer checked p) (forInitializer inner p)
      (forInitializer inner p) := by
  unfold checkedForInitializer forInitializer
  split
  · exact ((leaves_advance p).sure _).mono Keeps.fillsOne
  · split
    · exact (leaves_advance p).before (fun h => sure_varDeclaration hi (h.settled hs)) .after
    · exact (sure_expressionStatement hi p).mono Keeps.fillsOne

theorem sure_forCondition (p : Parser) :
    Sure bound Keeps p (checkedForCondition checked p) (forCondition inner p) (forCondition inner p).2 := by
  unfold checkedForCondition forCondition
  split
  · exact (leaves_advance p).sure _
  · exact (sure_expression hi p).then fun _ =>
      (leaves_consume _ .semicolon .semicolonAfterCondition).then fun _ =>
      (sure_emitJump _ _ rfl).then fun _ => (leaves_emit ..).sure _

omit hi in
theorem forCondition_fits (p : Parser) {offset : Nat} (h : (forCondition inner p).1 = some offset) :
    offset + 2 ≤ (forCondition inner p).2.here := by
  unfold forCondition at h ⊢
  split at h
  · cases h
  · rename_i hCheck
    cases h
    rw [if_neg hCheck]
    exact (emitJump_fits _ _ rfl).le.trans ((Nat.le_add_right ..).trans (here_emitWith ..).ge)

theorem sure_forIncrement (p : Parser) {start : Nat} (hStart : start ≤ p.here) :
    Sure bound (fun p q => p.Keeps q ∧ (forIncrement inner start p).1 ≤ q.here) p
      (checkedForIncrement checked start p) (forIncrement inner start p) (forIncrement inner start p).2 := by
  unfold checkedForIncrement forIncrement
  split
  · rename_i hCheck
    refine ((leaves_advance p).sure _).mono fun h => ?_
    rw [if_pos hCheck]
    exact ⟨h, hStart.trans h.here⟩
  · rename_i hCheck
    refine (sure_emitJump p .jump rfl).bind (fun h₁ => ?_) fun h₁ h => ⟨h₁.trans h, ?_⟩
    · refine (sure_expression hi _).then fun h₂ => ?_
      refine ((leaves_emit _ .pop).trans (leaves_consume _ .rightParen .parenAfterClauses)).then fun h₃ => ?_
      refine (sure_emitLoop _ (hStart.trans ((h₁.trans h₂).trans h₃).here)).then fun h₄ => ?_
      refine (sure_patchJump _ ?_).then fun _ => (Leaves.refl _).sure _
      exact (emitJump_fits _ _ rfl).le.trans ((h₂.trans h₃).trans h₄).here
    · rw [if_neg hCheck]
      exact h.here

/-- A `for` without its scope. -/
def forLoop (inner : Level) (p : Parser) : Parser :=
  let q := forInitializer inner (p.consume .leftParen .parenAfterFor)
  let tested := forCondition inner q
  let stepped := forIncrement inner q.here tested.2
  leaveLoop tested.1 ((inner.statement stepped.2).emitLoop stepped.1)

omit hi in
theorem forStatement_eq_endScope (p : Parser) :
    forStatement inner p = (forLoop inner p.beginScope).endScope := by
  rw [forStatement_eq]
  rfl

theorem sure_forLoop {p : Parser} (hs : p.Settled) :
    Sure bound Fills p (checkedForLoop checked p) (forLoop inner p) (forLoop inner p) := by
  refine (leaves_consume p .leftParen .parenAfterFor).before (fun h₁ => ?_) fun h h' => h.fills.trans h'
  replace hs := h₁.settled hs
  refine (sure_forInitializer hi hs).bind (S := Keeps) (fun h₂ => ?_) fun h h' => h.fills.trans h'.fills
  replace hs := h₂.fills.settled hs
  unfold forLoop
  generalize forInitializer inner (p.consume .leftParen .parenAfterFor) = q at hs
  refine (sure_forCondition hi q).then fun h₃ => ?_
  have hExit : ∀ offset, (forCondition inner q).1 = some offset →
      offset + 2 ≤ (forCondition inner q).2.here := fun _ => forCondition_fits q
  dsimp only
  generalize forCondition inner q = tested at h₃ hExit
  obtain ⟨exitJump, q₁⟩ := tested
  refine (sure_forIncrement hi q₁ h₃.here).bind (fun h₄ => ?_) fun h h' => h.1.trans h'
  generalize forIncrement inner q.here q₁ = stepped at h₄
  obtain ⟨start, q₂⟩ := stepped
  refine (hi.statement q₂ ((h₃.trans h₄.1).settled hs)).then fun h₅ => ?_
  refine (sure_emitLoop _ (h₄.2.trans h₅.here)).then fun h₆ => ?_
  cases exitJump with
  | none => exact (Leaves.refl _).sure _
  | some offset =>
    refine (sure_patchJump _ ?_).then fun _ => (leaves_emit ..).sure _
    exact (hExit offset rfl).trans ((h₄.1.trans h₅).trans h₆).here

theorem sure_forStatement {p : Parser} (hs : p.Settled) :
    Sure bound Keeps p (checkedForStatement checked p) (forStatement inner p) (forStatement inner p) := by
  rw [forStatement_eq_endScope]
  exact sure_endScope (sure_forLoop hi hs)

theorem sure_statement {p : Parser} (hs : p.Settled) :
    Sure bound Keeps p (checkedStatement checked p) (statement inner p) (statement inner p) := by
  have hRead {x : Part Parser} {q : Parser} (h : p.advance.Settled → Sure bound Keeps p.advance x q q) :
      Sure bound Keeps p x q q :=
    (leaves_advance p).then fun hk => h (hk.settled hs)
  unfold checkedStatement statement
  generalize p.current.kind = kind
  cases kind with
  | kwPrint => exact hRead fun _ => sure_printStatement hi _
  | kwFor => exact hRead fun hs => sure_forStatement hi hs
  | kwIf => exact hRead fun hs => sure_ifStatement hi hs
  | kwReturn => exact hRead fun _ => sure_returnStatement hi _
  | kwWhile => exact hRead fun hs => sure_whileStatement hi hs
  | leftBrace => exact hRead fun hs => sure_endScope (sure_block hi hs)
  | _ => exact sure_expressionStatement hi p

/-! ## Functions -/

omit hi in
theorem sure_readParameter {p : Parser} (hs : p.Settled) :
    Sure bound FillsOne p p.checkedReadParameter p.readParameter p.readParameter := by
  have hLimit : Leaves bound p
      (if maxArguments < p.draft.arity then p.errorAtCurrent .tooManyParameters else p) :=
    .ite (leaves_errorAtCurrent ..) (.refl p)
  refine hLimit.before (fun hk => ?_) .after
  unfold checkedReadParameter readParameter
  dsimp only
  generalize (if maxArguments < p.draft.arity then _ else _) = q at hk ⊢
  refine .from ((sure_variableName q .parameterName).toward fun hNames => ?_)
  exact ⟨fun hr => ⟨rfl, hNames.defineVariable (hk.settled hs) hr _⟩⟩

omit hi in
theorem sure_parameters : ∀ (fuel : Nat) {p : Parser}, p.Settled →
    Sure bound Fills p (checkedParameters fuel p) (parameters fuel p) (parameters fuel p)
  | 0, p, _ => ((Leaves.refl p).sure _).mono Keeps.fills
  | fuel + 1, p, hs => by
    have hCount : Leaves bound p p.countParameter :=
      leaves_redraft (fun hp => { hp.draft with }) rfl rfl (Nat.le_refl _)
    refine hCount.before (fun hk => ?_) fun h h' => h.fills.trans h'
    replace hs := hk.settled hs
    refine (sure_readParameter hs).bind (fun hOne => ?_) fun h h' => h.fills.trans h'
    rw [parameters_succ]
    dsimp only
    split
    · exact (leaves_advance _).before
        (fun h => sure_parameters fuel (h.settled (hOne.fills.settled hs)))
        fun h h' => h.fills.trans h'
    · exact ((Leaves.refl _).sure _).mono Keeps.fills

omit hi in
theorem sure_closeFunction {p q : Parser} {name : Str} (hp : p.Tidy bound)
    (h : (p.beginFunction name).beginScope.Fills q) :
    Sure bound (fun _ => p.Keeps) q q.checkedCloseFunction q.closeFunction q.closeFunction := by
  refine ⟨fun hq => ?_⟩
  obtain ⟨hTidy, hKeeps, hLined⟩ := h.endFunction hp hq
  unfold checkedCloseFunction closeFunction
  generalize q.endFunction = ended at hTidy hKeeps hLined
  obtain ⟨draft, r⟩ := ended
  let made := r.heap.allocFunction draft.arity draft.chunk draft.name
  have hValue : Value.Lined bound (.object (.function made.1)) := by
    intro f hf
    cases hf
    exact hLined _ rfl
  have hMade := (leaves_aside r r.total r.recovering r.tooDeep r.diagnostics made.2).then fun _ =>
    sure_emitConstant _ hValue
  obtain ⟨hEq, hDone, hLast⟩ := hMade.apply hTidy
  exact ⟨hEq, hDone, hKeeps.trans hLast⟩

theorem sure_function (p : Parser) :
    Sure bound Keeps p (checkedFunction checked p) (function inner p) (function inner p) := by
  have hParameters {q : Parser} (hs : q.Settled) : Sure bound Fills q
      (if q.check .rightParen then pure q else checkedParameters q.total q)
      (if q.check .rightParen then q else parameters q.total q)
      (if q.check .rightParen then q else parameters q.total q) := by
    split
    · exact ((Leaves.refl q).sure _).mono Keeps.fills
    · exact sure_parameters q.total hs
  refine (leaves_intern p p.previous.lexeme).then fun _ => ?_
  rw [function_eq]
  unfold checkedFunction
  generalize p.intern p.previous.lexeme = interned
  obtain ⟨name, p⟩ := interned
  have hs := settled_beginFunction p name
  refine ⟨fun hp => Sure.apply (R := fun _ => p.Keeps) ?_ (hp.beginFunction name)⟩
  refine (leaves_consume _ .leftParen .parenAfterFunctionName).toward fun h₁ => ?_
  replace h₁ := h₁.fills
  refine (hParameters (h₁.settled hs)).toward fun h₂ => ?_
  refine ((leaves_consume _ .rightParen .parenAfterParameters).trans
    (leaves_consume _ .leftBrace .braceBeforeBody)).toward fun h₃ => ?_
  have hBefore := (h₁.trans h₂).trans h₃.fills
  refine (sure_block hi (hBefore.settled hs)).toward fun h₄ => ?_
  exact sure_closeFunction hp (hBefore.trans h₄)

theorem sure_script : ∀ (fuel : Nat) {p : Parser}, p.Settled →
    Sure bound Fills p (checkedScript checked fuel p) (script inner fuel p) (script inner fuel p)
  | 0, p, _ => ((Leaves.refl p).sure _).mono Keeps.fills
  | fuel + 1, p, hs => by
    unfold checkedScript script
    split
    · exact ((leaves_advance p).sure _).mono Keeps.fills
    · exact (sure_declaration hi hs).bind (fun h => sure_script fuel (h.fills.settled hs))
        fun h h' => h.fills.trans h'

end

/-! ## Levels -/

/-- A construct that leaves the scope as it found it is one level deeper inside, and back behind it. -/
theorem sure_nested {bound : Nat} {p : Parser} {checked : Parser → Part Parser}
    {construct : Parser → Parser}
    (h : ∀ depth, Sure bound Keeps { p with depth } (checked { p with depth })
      (construct { p with depth }) (construct { p with depth })) :
    Sure bound Keeps p (keeping (checkedNested checked) p) (nested construct p) (nested construct p) := by
  have hNested : Sure bound Keeps p (checkedNested checked p) (nested construct p) (nested construct p) := by
    unfold checkedNested nested
    by_cases hRoom : p.depth < maxNesting
    · rw [dif_pos hRoom, dif_pos hRoom]
      refine ⟨fun hp => ?_⟩
      let deeper : Fin (maxNesting + 1) := ⟨p.depth + 1, Nat.succ_lt_succ hRoom⟩
      obtain ⟨hEq, hTidy, hKeeps⟩ := (h deeper).apply ⟨hp.tokens, hp.forward, hp.draft⟩
      have hDepth := congrArg Fin.val hKeeps.depth
      refine ⟨?_, ⟨hTidy.tokens, hTidy.forward, hTidy.draft⟩, { hKeeps with depth := ?_ }⟩
      · rw [hEq, Part.bind_eq_bind, Part.bind_some, require_bind (by rw [hDepth]; exact Nat.succ_pos _)]
        rfl
      · apply Fin.ext
        dsimp only
        rw [hDepth]
        rfl
    · rw [dif_neg hRoom, dif_neg hRoom]
      exact (leaves_giveUp p).sure _
  refine ⟨fun hp => ?_⟩
  obtain ⟨hEq, hTidy, hKeeps⟩ := hNested.apply hp
  refine ⟨?_, hTidy, hKeeps⟩
  rw [keeping, require_bind hp.inOrder, hEq, Part.bind_eq_bind, Part.bind_some, require_bind hKeeps.sameScope]
  rfl

end Parser

namespace Level

variable {bound : Nat} {accepts : String → Prop}

theorem checks_counted (ha : Parser.AcceptsLiterals accepts) {checked : CheckedLevel} {inner : Level}
    (hi : Checks bound checked inner) : Checks bound (checked.counted accepts) inner.counted where
  statement := fun _ hs => Parser.sure_nested fun _ => Parser.sure_statement hi hs
  operand := fun layer _ => Parser.sure_nested fun _ => Parser.sure_operand hi ha layer _
  function := fun _ => Parser.sure_nested fun _ => Parser.sure_function hi _

theorem checks_stack (bound : Nat) (ha : Parser.AcceptsLiterals accepts) (height : Nat) :
    Checks bound (CheckedLevel.tooDeep.stack accepts height) (tooDeep.stack height) := by
  induction height with
  | zero =>
    exact ⟨fun p _ => (Parser.leaves_giveUp p).sure _, fun _ p => (Parser.leaves_giveUp p).sure _,
      fun p => (Parser.leaves_giveUp p).sure _⟩
  | succ height ih => exact checks_counted ha ih

end Level

/-! ## Sources -/

/-- The compiler starts in order. -/
theorem Parser.tidy_start (source : String) (heap : Heap) :
    (primed .first (Scanner.tokens source) heap).advance.Tidy (Lexis.line source.toList) ∧
      (primed .first (Scanner.tokens source) heap).advance.Settled := by
  have hSplits : Lexis.Splits [] source.toList (Scanner.tokens source) :=
    Scanner.splits_list (Scanner.ofSource source) rfl
  obtain ⟨hFit, hSorted⟩ := hSplits.fit
  have hNothing : Token.first.Fit (Lexis.line source.toList) :=
    ⟨Nat.le_refl 1, Nat.le_add_right .., fun h => by simp [Token.first] at h⟩
  have hFirst : ∀ t ∈ Scanner.tokens source, 1 ≤ t.line := fun t ht => (hFit t ht).1.first
  have hBefore : (primed .first (Scanner.tokens source) heap).Tidy (Lexis.line source.toList) := by
    refine ⟨?_, ?_, Draft.tidy_new ..⟩
    · exact List.forall_mem_cons.2 ⟨hNothing, List.forall_mem_cons.2 ⟨hNothing, fun t ht => (hFit t ht).1⟩⟩
    · exact .cons (List.forall_mem_cons.2 ⟨Nat.le_refl 1, hFirst⟩) (.cons hFirst hSorted)
  obtain ⟨hTidy, hKeeps⟩ := (Parser.leaves_advance (primed .first (Scanner.tokens source) heap)).apply hBefore
  exact ⟨hTidy, hKeeps.settled (List.forall_mem_singleton.2 rfl)⟩

/-- The checked compiler never runs into a check that fails: on every source and every heap it gives what
the compiler gives, where number literals are accepted. -/
theorem checkedCompile_eq_some {accepts : String → Prop} (h : Parser.AcceptsLiterals accepts)
    (source : String) (heap : Heap) :
    checkedCompile accepts source heap = .some (compile source heap) := by
  obtain ⟨hTidy, hSettled⟩ := Parser.tidy_start source heap
  have hLevels := Level.checks_stack (Lexis.line source.toList) h (Parser.maxNesting + 1)
  obtain ⟨hEq, -⟩ := (Parser.sure_script hLevels (Scanner.tokens source).length hSettled).apply hTidy
  rw [checkedCompile_primed .first, compile_primed .first]
  unfold CheckedLevel.outermost
  rw [hEq]
  exact Part.bind_some ..

theorem checkedCompile_eq_some_malformed :
    let accepts (text : String) : Prop := ∀ c ∈ text.toList, c.isDigit = true ∨ c = '.'
    let source := r#"fun f(a { for (var b = 1.5 { return "s" + ; ) } var"#
    Parser.AcceptsLiterals accepts ∧ (compile source {}).1.isOk = false ∧
      checkedCompile accepts source {} = .some (compile source {}) := by
  intro accepts source
  have hAccepts : Parser.AcceptsLiterals accepts := by
    refine ⟨fun digits _ hDigits c hc => ?_, fun digits places _ _ hDigits hPlaces c hc => ?_⟩
    · rw [String.toList_ofList] at hc
      exact .inl (hDigits c hc)
    · rw [String.toList_ofList, List.mem_append, List.mem_cons] at hc
      rcases hc with hc | rfl | hc
      · exact .inl (hDigits c hc)
      · exact .inr rfl
      · exact .inl (hPlaces c hc)
  refine ⟨hAccepts, ?_, checkedCompile_eq_some hAccepts source {}⟩
  decide +kernel

end Lox
