import Lox.Proofs.Compiler.Placeholder

/-!
# The course of the compiler

All that the compiler does is made of a few moves: it reads a token, reports a problem, stops being quiet
after one, gives up, or makes something of what it has read. `Parser.Course` is any number of moves, and
every function of the compiler is one (`Level.course_stack`, `Parser.course_script`). What each move keeps
holds of every state in which the compiler is.

A problem may be reported at the token read last only if one was read since problems are reported again:
otherwise this token lies in front of what was skipped. The course keeps track of that.
-/

set_option autoImplicit false

namespace Lox

namespace Parser

/-- `p` comes after `p₀` in some moves. With each state goes whether problems may be reported at the token
read last. -/
inductive Course (b₀ : Bool) (p₀ : Parser) : Bool → Parser → Prop
  | refl : Course b₀ p₀ b₀ p₀
  | advance {b : Bool} {p : Parser} : Course b₀ p₀ b p → Course b₀ p₀ true p.advance
  | errorAtCurrent {b : Bool} {p : Parser} {problem : Problem} : problem ≠ .nestingTooDeep →
      Course b₀ p₀ b p → Course b₀ p₀ true (p.errorAtCurrent problem)
  | error {p : Parser} {problem : Problem} : problem ≠ .nestingTooDeep →
      Course b₀ p₀ true p → Course b₀ p₀ true (p.error problem)
  | recover {b : Bool} {p : Parser} : Course b₀ p₀ b p → Course b₀ p₀ false { p with recovering := false }
  | giveUp {b : Bool} {p : Parser} : Course b₀ p₀ b p →
      Course b₀ p₀ true { p.errorAtCurrent .nestingTooDeep with tooDeep := true }
  | make {b : Bool} {p : Parser} (depth : Fin (maxNesting + 1)) (heap : Heap) (draft : Draft)
      (enclosing : List Draft) : Course b₀ p₀ b p → Course b₀ p₀ b { p with depth, heap, draft, enclosing }
  /-- What may be done may be left. -/
  | loosen {p : Parser} : Course b₀ p₀ true p → Course b₀ p₀ false p

namespace Course

variable {b b' b'' : Bool} {p p' p'' : Parser}

theorem trans (h : Course b p b' p') (h' : Course b' p' b'' p'') : Course b p b'' p'' := by
  induction h' with
  | refl => exact h
  | advance _ ih => exact ih.advance
  | errorAtCurrent hp _ ih => exact ih.errorAtCurrent hp
  | error hp _ ih => exact ih.error hp
  | recover _ ih => exact ih.recover
  | giveUp _ ih => exact ih.giveUp
  | make depth heap draft enclosing _ ih => exact ih.make depth heap draft enclosing
  | loosen _ ih => exact ih.loosen

theorem free : Course b p false p := by
  cases b with
  | false => exact .refl
  | true => exact .loosen .refl

/-- A choice between two ways onward. -/
theorem ite {c : Prop} [Decidable c] {q r : Parser} (hq : Course b p b' q) (hr : Course b p b' r) :
    Course b p b' (if c then q else r) := by
  split
  · exact hq
  · exact hr

end Course

variable {b : Bool}

/-! ## Tokens -/

theorem course_advance (p : Parser) : Course b p true p.advance := .advance .refl

theorem course_consume (p : Parser) (kind : Token.Kind) (what : Expected) :
    Course b p true (p.consume kind what) :=
  .ite (course_advance p) (.errorAtCurrent (by simp) .refl)

theorem course_skipStatement : ∀ (fuel : Nat) (p : Parser), Course false p false (skipStatement fuel p)
  | 0, _ => .refl
  | fuel + 1, p => .ite .refl ((course_advance p).loosen.trans (course_skipStatement fuel _))

theorem course_synchronize (p : Parser) : Course b p false p.synchronize :=
  (Course.recover .refl).trans (course_skipStatement ..)

theorem course_skipToEnd : ∀ (fuel : Nat) (p : Parser), Course true p true (skipToEnd fuel p)
  | 0, _ => .refl
  | fuel + 1, p => .ite .refl ((course_advance p).trans (course_skipToEnd fuel _))

theorem course_giveUp (p : Parser) : Course b p true p.giveUp :=
  (Course.giveUp .refl).trans (course_skipToEnd ..)

/-! ## Emission and variables -/

theorem course_made (p : Parser) (draft : Draft) (enclosing : List Draft) :
    Course b p b { p with draft, enclosing } := .make _ _ _ _ .refl

theorem course_heap (p : Parser) (heap : Heap) : Course b p b { p with heap } := .make _ _ _ _ .refl

theorem course_error (p : Parser) {problem : Problem} (h : problem ≠ .nestingTooDeep) :
    Course true p true (p.error problem) := .error h .refl

theorem course_emitWith (p : Parser) (op : Opcode) (operand : Nat) : Course b p b (p.emitWith op operand) :=
  course_made ..

theorem course_emit (p : Parser) (op : Opcode) : Course b p b (p.emit op) := course_emitWith ..

theorem course_emitReturn (p : Parser) : Course b p b p.emitReturn :=
  (course_emit p _).trans (course_emit ..)

theorem course_makeConstant (p : Parser) (v : Value) : Course true p true (p.makeConstant v).2 := by
  unfold makeConstant
  dsimp only
  split
  · exact course_made ..
  · exact course_error p (by simp)

theorem course_emitConstant (p : Parser) (v : Value) : Course true p true (p.emitConstant v) :=
  (course_makeConstant p v).trans (course_emitWith ..)

theorem course_intern (p : Parser) (text : String) : Course b p b (p.intern text).2 := course_heap ..

theorem course_nameConstant (p : Parser) (name : String) : Course true p true (p.nameConstant name).2 := by
  unfold nameConstant
  dsimp only
  split
  · exact course_intern ..
  · exact (course_intern ..).trans (course_makeConstant ..)

theorem course_emitJump (p : Parser) (op : Opcode) : Course b p b (p.emitJump op).2 := course_emitWith ..

theorem course_patchJump (p : Parser) (offset : Nat) : Course true p true (p.patchJump offset) :=
  .ite (course_made ..) (course_error p (by simp))

theorem course_emitLoop (p : Parser) (start : Nat) : Course true p true (p.emitLoop start) :=
  .ite (course_emitWith ..) ((course_made p _ p.enclosing).trans (course_error _ (by simp)))

theorem course_endFunction (p : Parser) : Course b p b p.endFunction.2 := by
  unfold endFunction
  dsimp only
  split
  · exact (course_emitReturn p).trans (course_made ..)
  · exact (course_emitReturn p).trans (course_made ..)

theorem course_closeFunction (p : Parser) : Course true p true p.closeFunction := by
  have h := course_endFunction (b := true) p
  unfold closeFunction
  generalize p.endFunction = ended at h ⊢
  obtain ⟨draft, q⟩ := ended
  exact h.trans ((course_heap q _).trans (course_emitConstant ..))

theorem course_dropLocals : ∀ (ls : List Local) (p : Parser), Course b p b (dropLocals ls p)
  | [], _ => course_made ..
  | _ :: ls, _ => .ite ((course_emit ..).trans (course_dropLocals ls _)) (course_made ..)

theorem course_endScope (p : Parser) : Course b p b p.endScope :=
  (course_made p { p.draft with scopeDepth := p.draft.scopeDepth - 1 } p.enclosing).trans
    (course_dropLocals ..)

theorem course_declareVariable (p : Parser) : Course true p true p.declareVariable := by
  have hTwice : Course true p true
      (if p.draft.declaredHere p.previous.lexeme then p.error .duplicateLocal else p) :=
    .ite (course_error p (by simp)) .refl
  have hAdd (p : Parser) (name : String) : Course true p true (p.addLocal name) :=
    .ite (course_error p (by simp)) (course_made ..)
  exact .ite .refl (hTwice.trans (hAdd ..))

theorem course_variableName (p : Parser) (what : Expected) : Course b p true (p.variableName what).2 := by
  have h : Course b p true (p.consume .identifier what).declareVariable :=
    (course_consume p .identifier what).trans (course_declareVariable _)
  unfold variableName
  dsimp only
  split
  · exact h.trans (course_nameConstant ..)
  · exact h

theorem course_markInitialized (p : Parser) : Course b p b p.markInitialized := by
  unfold markInitialized
  split
  · exact .refl
  · split
    · exact .refl
    · exact course_made ..

theorem course_defineVariable (p : Parser) (index : Nat) : Course b p b (p.defineVariable index) :=
  .ite (course_emitWith ..) (course_markInitialized p)

theorem course_emitGet (p : Parser) (ref : Reference) : Course b p b (p.emitGet ref) := by
  cases ref <;> exact course_emitWith ..

theorem course_emitSet (p : Parser) (ref : Reference) : Course b p b (p.emitSet ref) := by
  cases ref <;> exact course_emitWith ..

theorem course_resolve (p : Parser) (name : String) : Course true p true (p.resolve name).2 := by
  unfold resolve
  split
  · exact .ite .refl (course_error p (by simp))
  · exact course_nameConstant ..

end Parser

/-- The parsers of a level are courses. -/
structure Level.Course (inner : Level) : Prop where
  statement : ∀ (b : Bool) (p : Parser), Parser.Course b p true (inner.statement p)
  operand : ∀ (b : Bool) (layer : Precedence) (p : Parser), Parser.Course b p true (inner.operand layer p)
  function : ∀ (b : Bool) (p : Parser), Parser.Course b p true (inner.function p)

namespace Parser

section
variable {b : Bool} {inner : Level} (hi : inner.Course)
include hi

/-! ## Expressions -/

theorem course_expression (p : Parser) : Course b p true (expression inner p) := hi.operand ..

theorem course_name (mayAssign : Bool) (p : Parser) : Course true p true (name inner mayAssign p) :=
  (course_resolve p _).trans <|
    .ite ((course_advance _).trans ((course_expression hi _).trans (course_emitSet ..))) (course_emitGet ..)

theorem course_unary (p : Parser) : Course b p true (unary inner p) := by
  refine (hi.operand b .unary p).trans ?_
  unfold unary
  dsimp only
  split
  · exact course_emit ..
  · exact course_emit ..
  · exact .refl

omit hi in
theorem course_literal (p : Parser) : Course b p b p.literal := by
  unfold literal
  split
  · exact course_emit ..
  · exact course_emit ..
  · exact course_emit ..
  · exact .refl

theorem course_leading (mayAssign : Bool) (p : Parser) (rule : Leading) :
    Course true p true (leading inner mayAssign p rule) := by
  cases rule with
  | grouping => exact (course_expression hi p).trans (course_consume ..)
  | unary => exact course_unary hi p
  | name => exact course_name hi mayAssign p
  | string => exact (course_intern p _).trans (course_emitConstant ..)
  | number => exact course_emitConstant ..
  | literal => exact course_literal p

theorem course_arguments : ∀ (fuel count : Nat) (p : Parser),
    Course true p true (arguments inner fuel count p).2
  | 0, _, _ => .refl
  | fuel + 1, count, p => by
    have hOne : Course true p true (expression inner p) := course_expression hi p
    have hMany : Course true p true (if count = maxArguments then
        (expression inner p).error .tooManyArguments else expression inner p) :=
      .ite (hOne.trans (course_error _ (by simp))) hOne
    unfold arguments
    dsimp only
    generalize (if count = maxArguments then _ else _) = q at hMany ⊢
    split
    · exact hMany.trans ((course_advance _).trans (course_arguments fuel _ _))
    · exact hMany

theorem course_call (p : Parser) : Course true p true (call inner p) := by
  have h : Course true p true (if p.check .rightParen then (0, p) else arguments inner p.total 0 p).2 := by
    split
    · exact .refl
    · exact course_arguments hi ..
  exact h.trans ((course_consume ..).trans (course_emitWith ..))

omit hi in
theorem course_emits : ∀ (ops : List Opcode) (p : Parser), Course b p b (ops.foldl emit p)
  | [], _ => .refl
  | op :: ops, p => (course_emit p op).trans (course_emits ops _)

theorem course_and (p : Parser) : Course b p true (Parser.and inner p) :=
  (course_emitJump p _).trans <| (course_emit ..).trans <| (hi.operand ..).trans (course_patchJump ..)

theorem course_or (p : Parser) : Course true p true (Parser.or inner p) :=
  (course_emitJump p _).trans <| (course_emitJump ..).trans <| (course_patchJump ..).trans <|
    (course_emit ..).trans <| (hi.operand ..).trans (course_patchJump ..)

theorem course_trailing (p : Parser) (rule : Trailing) : Course true p true (trailing inner p rule) := by
  cases rule with
  | call => exact course_call hi p
  | binary => exact (hi.operand ..).trans (course_emits ..)
  | and => exact course_and hi p
  | or => exact course_or hi p

theorem course_operators (layer : Precedence) : ∀ (fuel : Nat) (p : Parser),
    Course true p true (operators inner layer fuel p)
  | 0, _ => .refl
  | fuel + 1, p => by
    unfold operators
    split
    · refine (course_advance p).trans (.trans ?_ (course_operators layer fuel _))
      split
      · exact course_trailing hi ..
      · exact .refl
    · exact .refl

theorem course_operand (layer : Precedence) (p : Parser) : Course b p true (operand inner layer p) := by
  unfold operand
  dsimp only
  split
  · exact (course_advance p).trans (course_error _ (by simp))
  · rename_i rule _
    have hEnd (p : Parser) : Course true p true
        (if layer.rank ≤ Precedence.assignment.rank && p.check .equal
          then p.advance.error .invalidAssignmentTarget else p) :=
      .ite ((course_advance p).trans (course_error _ (by simp))) .refl
    exact (course_advance p).trans <| (course_leading hi _ _ rule).trans <|
      (course_operators hi ..).trans (hEnd _)

/-! ## Statements -/

theorem course_expressionStatement (p : Parser) : Course b p true (expressionStatement inner p) :=
  (course_expression hi p).trans ((course_consume ..).trans (course_emit ..))

theorem course_printStatement (p : Parser) : Course b p true (printStatement inner p) :=
  (course_expression hi p).trans ((course_consume ..).trans (course_emit ..))

theorem course_returnStatement (p : Parser) : Course true p true (returnStatement inner p) := by
  have h : Course true p true (if p.draft.isScript then p.error .returnFromScript else p) :=
    .ite (course_error p (by simp)) .refl
  exact h.trans <| .ite ((course_advance _).trans (course_emitReturn _))
    ((course_expression hi _).trans ((course_consume ..).trans (course_emit ..)))

theorem course_varDeclaration (p : Parser) : Course b p true (varDeclaration inner p) := by
  refine (course_variableName p .variableName).trans (.trans ?_ ((course_consume (b := true) ..).trans
    (course_defineVariable ..)))
  exact .ite ((course_advance _).trans (course_expression hi _)) (course_emit ..)

theorem course_funDeclaration (p : Parser) : Course b p true (funDeclaration inner p) :=
  (course_variableName p .functionName).trans <| (course_markInitialized _).trans <|
    (hi.function ..).trans (course_defineVariable ..)

theorem course_declaration (p : Parser) : Course b p false (declaration inner p) := by
  have h : Course b p true (if p.check .kwFun then funDeclaration inner p.advance
      else if p.check .kwVar then varDeclaration inner p.advance else inner.statement p) :=
    .ite ((course_advance p).trans (course_funDeclaration hi _)) <|
      .ite ((course_advance p).trans (course_varDeclaration hi _)) (hi.statement b p)
  exact h.trans (.ite (course_synchronize _) .free)

theorem course_declarations : ∀ (fuel : Nat) (p : Parser),
    Course false p false (declarations inner fuel p)
  | 0, _ => .refl
  | fuel + 1, p => .ite .refl ((course_declaration hi p).trans (course_declarations fuel _))

theorem course_block (p : Parser) : Course b p true (block inner p) :=
  Course.free.trans ((course_declarations hi ..).trans (course_consume ..))

theorem course_ifStatement (p : Parser) : Course b p true (ifStatement inner p) := by
  have hElse (p : Parser) : Course true p true (if p.check .kwElse then inner.statement p.advance else p) :=
    .ite ((course_advance p).trans (hi.statement ..)) .refl
  exact (course_consume p ..).trans <| (course_expression hi _).trans <| (course_consume ..).trans <|
    (course_emitJump ..).trans <| (course_emit ..).trans <| (hi.statement ..).trans <|
    (course_emitJump ..).trans <| (course_patchJump ..).trans <| (course_emit ..).trans <|
    (hElse _).trans (course_patchJump ..)

theorem course_whileStatement (p : Parser) : Course b p true (whileStatement inner p) :=
  (course_consume p ..).trans <| (course_expression hi _).trans <| (course_consume ..).trans <|
    (course_emitJump ..).trans <| (course_emit ..).trans <| (hi.statement ..).trans <|
    (course_emitLoop ..).trans <| (course_patchJump ..).trans (course_emit ..)

theorem course_forInitializer (p : Parser) : Course b p true (forInitializer inner p) :=
  .ite (course_advance p) <| .ite ((course_advance p).trans (course_varDeclaration hi _))
    (course_expressionStatement hi p)

theorem course_forCondition (p : Parser) : Course b p true (forCondition inner p).2 := by
  unfold forCondition
  split
  · exact course_advance p
  · exact (course_expression hi p).trans <| (course_consume ..).trans <| (course_emitJump ..).trans
      (course_emit ..)

theorem course_forIncrement (start : Nat) (p : Parser) : Course b p true (forIncrement inner start p).2 := by
  unfold forIncrement
  split
  · exact course_advance p
  · exact (course_emitJump p _).trans <| (course_expression hi _).trans <| (course_emit ..).trans <|
      (course_consume ..).trans <| (course_emitLoop ..).trans (course_patchJump ..)

omit hi in
theorem course_leaveLoop (exitJump : Option Nat) (p : Parser) : Course true p true (leaveLoop exitJump p) := by
  cases exitJump with
  | some exitJump => exact (course_patchJump ..).trans (course_emit ..)
  | none => exact .refl

theorem course_forStatement (p : Parser) : Course b p true (forStatement inner p) := by
  rw [forStatement_eq]
  exact (course_made p { p.draft with scopeDepth := p.draft.scopeDepth + 1 } p.enclosing).trans <|
    (course_consume ..).trans <| (course_forInitializer hi _).trans <| (course_forCondition hi _).trans <|
    (course_forIncrement hi ..).trans <| (hi.statement ..).trans <| (course_emitLoop ..).trans <|
    (course_leaveLoop ..).trans (course_endScope _)

theorem course_statement (p : Parser) : Course b p true (statement inner p) := by
  have hBegin (p : Parser) : Course true p true p.beginScope := course_made ..
  have h : Course b p true p.advance := course_advance p
  unfold statement
  split
  · exact h.trans (course_printStatement hi _)
  · exact h.trans (course_forStatement hi _)
  · exact h.trans (course_ifStatement hi _)
  · exact h.trans (course_returnStatement hi _)
  · exact h.trans (course_whileStatement hi _)
  · exact h.trans <| (hBegin _).trans <| (course_block hi _).trans (course_endScope _)
  · exact course_expressionStatement hi p

omit hi in
theorem course_parameters : ∀ (fuel : Nat) (p : Parser), Course true p true (parameters fuel p)
  | 0, _ => .refl
  | fuel + 1, p => by
    have hCount : Course true p true p.countParameter := course_made ..
    have hLimit (p : Parser) : Course true p true
        (if maxArguments < p.draft.arity then p.errorAtCurrent .tooManyParameters else p) :=
      .ite (.errorAtCurrent (by simp) .refl) .refl
    have hRead (p : Parser) : Course true p true p.readParameter :=
      (hLimit p).trans ((course_variableName ..).trans (course_defineVariable ..))
    have hMore (p : Parser) : Course true p true (if p.check .comma then parameters fuel p.advance else p) :=
      .ite ((course_advance p).trans (course_parameters fuel _)) .refl
    rw [parameters_succ]
    exact hCount.trans ((hRead _).trans (hMore _))

theorem course_function (p : Parser) : Course b p true (function inner p) := by
  have hBegin (p : Parser) (name : Str) : Course b p b (p.beginFunction name).beginScope := course_made ..
  have hParameters (p : Parser) :
      Course true p true (if p.check .rightParen then p else parameters p.total p) :=
    .ite .refl (course_parameters ..)
  rw [function_eq]
  exact (course_intern p _).trans <| (hBegin ..).trans <| (course_consume ..).trans <|
    (hParameters _).trans <| (course_consume ..).trans <| (course_consume ..).trans <|
    (course_block hi _).trans (course_closeFunction _)

theorem course_script : ∀ (fuel : Nat) (p : Parser), Course false p false (script inner fuel p)
  | 0, _ => .refl
  | fuel + 1, p =>
    .ite (course_advance p).loosen ((course_declaration hi p).trans (course_script fuel _))

end

/-! ## Levels -/

theorem course_nested {b : Bool} {construct : Parser → Parser} (h : ∀ p, Course b p true (construct p))
    (p : Parser) : Course b p true (nested construct p) := by
  unfold nested
  split
  · exact (Course.make _ _ _ _ .refl).trans ((h _).trans (.make _ _ _ _ .refl))
  · exact course_giveUp p

end Parser

theorem Level.course_stack (height : Nat) : (tooDeep.stack height).Course := by
  induction height with
  | zero =>
    exact ⟨fun _ => Parser.course_giveUp, fun _ _ => Parser.course_giveUp, fun _ => Parser.course_giveUp⟩
  | succ height hi =>
    exact ⟨fun _ => Parser.course_nested (Parser.course_statement hi),
      fun _ layer => Parser.course_nested (Parser.course_operand hi layer),
      fun _ => Parser.course_nested (Parser.course_function hi)⟩

/-- The state of the compiler at the end of a source text. What stands in place of the placeholder does not
matter. -/
theorem Parser.course_compile (t : Token) (source : String) (heap : Heap) :
    ∃ p, Course false (primed t (Scanner.tokens source) heap) false p ∧
      compile source heap = p.conclude := by
  have hStart := course_advance (b := false) (primed t (Scanner.tokens source) heap)
  exact ⟨_, hStart.loosen.trans (course_script (Level.course_stack (maxNesting + 1)) _ _),
    compile_primed t source heap⟩

end Lox
