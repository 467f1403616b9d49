import Lox.Compiler
import Lox.Proofs.Heap
import Mathlib

/-!
# Problems stay

No step of the compiler takes a problem back (`Leads`), and the compiler is quiet only after a problem
(`Sane`), so a problem is never lost: what compiles without one meets none on the way. Nor does a step
take an object from the heap.
-/

set_option autoImplicit false

namespace Lox

namespace Parser

/-- No problem was reported so far. -/
def Clean (p : Parser) : Prop := p.diagnostics = #[]

/-- The compiler is quiet only after a problem. -/
def Sane (p : Parser) : Prop := p.Clean → p.recovering = false ∧ p.tooDeep = false

/-- `p'` comes after `p`: it has all its problems and objects, and no more tokens to read. -/
structure Leads (p p' : Parser) : Prop where
  clean : p'.Clean → p.Clean
  sane : p.Sane → p'.Sane
  heap : p.heap.Grows p'.heap
  total : p'.total = p.total
  length_le : p'.rest.length ≤ p.rest.length

namespace Leads

variable {p p' p'' : Parser}

theorem refl (p : Parser) : p.Leads p := ⟨id, id, .refl _, rfl, le_rfl⟩

theorem trans (h : p.Leads p') (h' : p'.Leads p'') : p.Leads p'' :=
  ⟨h.clean ∘ h'.clean, h'.sane ∘ h.sane, h.heap.trans h'.heap, h'.total.trans h.total,
    h'.length_le.trans h.length_le⟩

theorem of_eq (hd : p'.diagnostics = p.diagnostics) (hr : p'.recovering = p.recovering)
    (ht : p'.tooDeep = p.tooDeep) (hg : p.heap.Grows p'.heap) (hn : p'.total = p.total)
    (hl : p'.rest.length ≤ p.rest.length) : p.Leads p' := by
  refine ⟨fun h => ?_, fun h hc => ?_, hg, hn, hl⟩
  · rw [Clean, ← hd]; exact h
  · rw [hr, ht]
    exact h (by rw [Clean, ← hd]; exact hc)

/-- A choice between two ways onward. -/
theorem ite {c : Prop} [Decidable c] {a b : Parser} (ha : p.Leads a) (hb : p.Leads b) :
    p.Leads (if c then a else b) := by
  split
  · exact ha
  · exact hb

end Leads

/-- `p'` comes after `p` and has the same tokens to read. -/
structure Writes (p p' : Parser) : Prop extends Leads p p' where
  current : p'.current = p.current
  rest : p'.rest = p.rest

namespace Writes

variable {p p' p'' : Parser}

theorem leads (h : p.Writes p') : p.Leads p' := h.toLeads

theorem refl (p : Parser) : p.Writes p := ⟨.refl p, rfl, rfl⟩

theorem trans (h : p.Writes p') (h' : p'.Writes p'') : p.Writes p'' :=
  ⟨h.leads.trans h'.leads, h'.current.trans h.current, h'.rest.trans h.rest⟩

theorem ite {c : Prop} [Decidable c] {a b : Parser} (ha : p.Writes a) (hb : p.Writes b) :
    p.Writes (if c then a else b) := by
  split
  · exact ha
  · exact hb

end Writes

/-- What is made so far may change. -/
theorem writes_made (p : Parser) (draft : Draft) (enclosing : List Draft) :
    p.Writes { p with draft, enclosing } := ⟨.of_eq rfl rfl rfl (.refl _) rfl le_rfl, rfl, rfl⟩

theorem writes_heap (p : Parser) {heap : Heap} (hg : p.heap.Grows heap) :
    p.Writes { p with heap } := ⟨.of_eq rfl rfl rfl hg rfl le_rfl, rfl, rfl⟩

/-! ## Reports and tokens -/

/-- A sane parser that reports a problem has one. -/
theorem not_clean_report {p : Parser} (hs : p.Sane) (t : Token) (problem : Problem) :
    ¬ (p.report t problem).Clean := by
  intro h
  unfold report at h
  split at h
  · rename_i hQuiet
    obtain ⟨hr, ht⟩ := hs h
    simp [hr, ht] at hQuiet
  · simp [Clean] at h

theorem writes_report (p : Parser) (t : Token) (problem : Problem) :
    p.Writes (p.report t problem) := by
  unfold report
  split
  · exact .refl p
  · exact ⟨⟨fun h => by simp [Clean] at h, fun _ h => by simp [Clean] at h, .refl _, rfl, le_rfl⟩, rfl,
      rfl⟩

theorem writes_error (p : Parser) (problem : Problem) : p.Writes (p.error problem) :=
  writes_report ..

theorem writes_errorAtCurrent (p : Parser) (problem : Problem) :
    p.Writes (p.errorAtCurrent problem) := writes_report ..

theorem leads_shift : ∀ (ts : List Token) (p : Parser), ts.length ≤ p.rest.length →
    p.Leads (shift ts p)
  | [], _, h => .of_eq rfl rfl rfl (.refl _) rfl h
  | t :: ts, p, h => by
    have hShorter := (Nat.le_succ _).trans h
    have hw (problem : Problem) := writes_report p t problem
    unfold shift
    split
    · exact (hw _).leads.trans (leads_shift ts _ ((hw _).rest ▸ hShorter))
    · exact .of_eq rfl rfl rfl (.refl _) rfl hShorter

theorem leads_advance (p : Parser) : p.Leads p.advance := by
  have h : p.Leads { p with previous := p.current } := .of_eq rfl rfl rfl (.refl _) rfl le_rfl
  exact h.trans (leads_shift _ _ le_rfl)

theorem leads_consume (p : Parser) (kind : Token.Kind) (what : Expected) :
    p.Leads (p.consume kind what) := .ite (leads_advance p) (writes_errorAtCurrent ..).leads

/-! ## Recovery -/

theorem leads_skipStatement : ∀ (fuel : Nat) (p : Parser), p.Leads (skipStatement fuel p)
  | 0, p => .refl p
  | fuel + 1, p => .ite (.refl p) ((leads_advance p).trans (leads_skipStatement fuel _))

theorem leads_synchronize (p : Parser) : p.Leads p.synchronize := by
  have h : p.Leads { p with recovering := false } :=
    ⟨id, fun h hc => ⟨rfl, (h hc).2⟩, .refl _, rfl, le_rfl⟩
  exact h.trans (leads_skipStatement ..)

theorem leads_skipToEnd : ∀ (fuel : Nat) (p : Parser), p.Leads (skipToEnd fuel p)
  | 0, p => .refl p
  | fuel + 1, p => .ite (.refl p) ((leads_advance p).trans (leads_skipToEnd fuel _))

theorem not_clean_giveUp {p : Parser} (hs : p.Sane) : ¬ p.giveUp.Clean := by
  intro h
  have hEnd : ({ p.errorAtCurrent .nestingTooDeep with tooDeep := true } : Parser).Clean :=
    (leads_skipToEnd ..).clean h
  exact not_clean_report hs p.current .nestingTooDeep hEnd

theorem leads_giveUp (p : Parser) : p.Leads p.giveUp := by
  have hEnd : Leads { p.errorAtCurrent .nestingTooDeep with tooDeep := true } p.giveUp :=
    leads_skipToEnd ..
  have hReport := writes_errorAtCurrent p .nestingTooDeep
  exact ⟨fun h => hReport.clean (hEnd.clean h), fun hs h => absurd h (not_clean_giveUp hs),
    hReport.heap.trans hEnd.heap, hEnd.total.trans hReport.total,
    hEnd.length_le.trans hReport.length_le⟩

/-! ## Emission and variables -/

theorem writes_writeBytes (p : Parser) (bytes : List UInt8) : p.Writes (p.writeBytes bytes) :=
  writes_made ..

theorem writes_emitWith (p : Parser) (op : Opcode) (operand : Nat) :
    p.Writes (p.emitWith op operand) := writes_writeBytes ..

theorem writes_emit (p : Parser) (op : Opcode) : p.Writes (p.emit op) := writes_emitWith ..

theorem writes_emitReturn (p : Parser) : p.Writes p.emitReturn :=
  (writes_emit p _).trans (writes_emit ..)

theorem writes_makeConstant (p : Parser) (v : Value) : p.Writes (p.makeConstant v).2 := by
  unfold makeConstant
  dsimp only
  split
  · exact writes_made ..
  · exact writes_error ..

theorem writes_emitConstant (p : Parser) (v : Value) : p.Writes (p.emitConstant v) :=
  (writes_makeConstant p v).trans (writes_emitWith ..)

theorem writes_intern (p : Parser) (text : String) : p.Writes (p.intern text).2 :=
  writes_heap p (p.heap.grows_intern text)

theorem writes_nameConstant (p : Parser) (name : String) : p.Writes (p.nameConstant name).2 := by
  unfold nameConstant
  dsimp only
  split
  · exact writes_intern ..
  · exact (writes_intern ..).trans (writes_makeConstant ..)

theorem writes_emitJump (p : Parser) (op : Opcode) : p.Writes (p.emitJump op).2 := writes_emitWith ..

theorem writes_patchJump (p : Parser) (offset : Nat) : p.Writes (p.patchJump offset) :=
  .ite (writes_made ..) (writes_error ..)

theorem writes_emitLoop (p : Parser) (start : Nat) : p.Writes (p.emitLoop start) :=
  .ite (writes_emitWith ..) ((writes_writeBytes ..).trans (writes_error ..))

theorem writes_endFunction (p : Parser) : p.Writes p.endFunction.2 := by
  unfold endFunction
  dsimp only
  split
  · exact (writes_emitReturn p).trans (writes_made ..)
  · exact (writes_emitReturn p).trans (writes_made ..)

/-- Finishes the current function and makes it a constant of the function around it. -/
def closeFunction (p : Parser) : Parser :=
  let (draft, p) := p.endFunction
  let (f, heap) := p.heap.allocFunction draft.arity draft.chunk draft.name
  { p with heap }.emitConstant (.object (.function f))

theorem writes_closeFunction (p : Parser) : p.Writes p.closeFunction := by
  have hw := writes_endFunction p
  unfold closeFunction
  generalize p.endFunction = ended at hw ⊢
  obtain ⟨draft, q⟩ := ended
  dsimp only
  have hGrows := q.heap.grows_allocFunction draft.arity draft.chunk draft.name
  exact hw.trans ((writes_heap q hGrows).trans (writes_emitConstant ..))

theorem writes_dropLocals : ∀ (ls : List Local) (p : Parser), p.Writes (dropLocals ls p)
  | [], _ => writes_made ..
  | _ :: ls, _ => .ite ((writes_emit ..).trans (writes_dropLocals ls _)) (writes_made ..)

theorem writes_endScope (p : Parser) : p.Writes p.endScope := by
  have h : p.Writes { p with draft := { p.draft with scopeDepth := p.draft.scopeDepth - 1 } } :=
    writes_made ..
  exact h.trans (writes_dropLocals ..)

theorem writes_addLocal (p : Parser) (name : String) : p.Writes (p.addLocal name) :=
  .ite (writes_error ..) (writes_made ..)

theorem writes_declareVariable (p : Parser) : p.Writes p.declareVariable :=
  .ite (.refl p) (.trans (.ite (writes_error ..) (.refl p)) (writes_addLocal ..))

theorem leads_variableName (p : Parser) (what : Expected) : p.Leads (p.variableName what).2 := by
  have h := (leads_consume p .identifier what).trans (writes_declareVariable _).leads
  unfold variableName
  dsimp only
  split
  · exact h.trans (writes_nameConstant ..).leads
  · exact h

theorem writes_markInitialized (p : Parser) : p.Writes p.markInitialized := by
  unfold markInitialized
  split
  · exact .refl p
  · split
    · exact .refl p
    · exact writes_made ..

theorem writes_defineVariable (p : Parser) (index : Nat) : p.Writes (p.defineVariable index) :=
  .ite (writes_emitWith ..) (writes_markInitialized p)

theorem writes_emitGet (p : Parser) (ref : Reference) : p.Writes (p.emitGet ref) := by
  cases ref <;> exact writes_emitWith ..

theorem writes_emitSet (p : Parser) (ref : Reference) : p.Writes (p.emitSet ref) := by
  cases ref <;> exact writes_emitWith ..

theorem writes_resolve (p : Parser) (name : String) : p.Writes (p.resolve name).2 := by
  unfold resolve
  split
  · exact .ite (.refl p) (writes_error ..)
  · exact writes_nameConstant ..

end Parser

/-- The parsers of a level keep all problems. -/
structure Level.Leads (inner : Level) : Prop where
  statement : ∀ p : Parser, p.Leads (inner.statement p)
  operand : ∀ (layer : Precedence) (p : Parser), p.Leads (inner.operand layer p)
  function : ∀ p : Parser, p.Leads (inner.function p)

namespace Parser

section
variable {inner : Level} (hi : inner.Leads)
include hi

/-! ## Expressions -/

theorem leads_expression (p : Parser) : p.Leads (expression inner p) := hi.operand ..

theorem leads_name (mayAssign : Bool) (p : Parser) : p.Leads (name inner mayAssign p) :=
  (writes_resolve p _).leads.trans <|
    .ite ((leads_advance _).trans ((leads_expression hi _).trans (writes_emitSet ..).leads))
      (writes_emitGet ..).leads

theorem leads_grouping (p : Parser) : p.Leads (grouping inner p) :=
  (leads_expression hi p).trans (leads_consume ..)

omit hi in
theorem writes_unary (p : Parser) : (inner.operand .unary p).Writes (unary inner p) := by
  unfold unary
  dsimp only
  split
  · exact writes_emit ..
  · exact writes_emit ..
  · exact .refl _

theorem leads_unary (p : Parser) : p.Leads (unary inner p) :=
  (hi.operand ..).trans (writes_unary p).leads

omit hi in
theorem writes_number (p : Parser) : p.Writes p.number := writes_emitConstant ..

omit hi in
theorem writes_string (p : Parser) : p.Writes p.string :=
  (writes_intern p _).trans (writes_emitConstant ..)

omit hi in
theorem writes_literal (p : Parser) : p.Writes p.literal := by
  unfold literal
  split
  · exact writes_emit ..
  · exact writes_emit ..
  · exact writes_emit ..
  · exact .refl p

theorem leads_leading (mayAssign : Bool) (p : Parser) (rule : Leading) :
    p.Leads (leading inner mayAssign p rule) := by
  cases rule with
  | grouping => exact leads_grouping hi p
  | unary => exact leads_unary hi p
  | name => exact leads_name hi mayAssign p
  | string => exact (writes_string p).leads
  | number => exact (writes_number p).leads
  | literal => exact (writes_literal p).leads

theorem leads_arguments : ∀ (fuel count : Nat) (p : Parser),
    p.Leads (arguments inner fuel count p).2
  | 0, _, p => .refl p
  | fuel + 1, count, p => by
    have hOne := leads_expression hi p
    have hMany : p.Leads (if count = maxArguments then
        (expression inner p).error .tooManyArguments else expression inner p) :=
      .ite (hOne.trans (writes_error ..).leads) hOne
    unfold arguments
    dsimp only
    generalize (if count = maxArguments then _ else _) = q at hMany ⊢
    split
    · exact hMany.trans ((leads_advance _).trans (leads_arguments fuel _ _))
    · exact hMany

theorem leads_call (p : Parser) : p.Leads (call inner p) := by
  have h : p.Leads (if p.check .rightParen then (0, p) else arguments inner p.total 0 p).2 := by
    split
    · exact .refl p
    · exact leads_arguments hi ..
  exact h.trans ((leads_consume ..).trans (writes_emitWith ..).leads)

omit hi in
theorem writes_emits : ∀ (ops : List Opcode) (p : Parser), p.Writes (ops.foldl emit p)
  | [], p => .refl p
  | op :: ops, p => (writes_emit p op).trans (writes_emits ops _)

theorem leads_binary (p : Parser) : p.Leads (binary inner p) :=
  (hi.operand ..).trans (writes_emits ..).leads

theorem leads_and (p : Parser) : p.Leads (Parser.and inner p) :=
  (writes_emitJump p _).leads.trans <| (writes_emit ..).leads.trans <|
    (hi.operand ..).trans (writes_patchJump ..).leads

theorem leads_or (p : Parser) : p.Leads (Parser.or inner p) :=
  (writes_emitJump p _).leads.trans <| (writes_emitJump ..).leads.trans <|
    (writes_patchJump ..).leads.trans <| (writes_emit ..).leads.trans <|
    (hi.operand ..).trans (writes_patchJump ..).leads

theorem leads_trailing (p : Parser) (rule : Trailing) : p.Leads (trailing inner p rule) := by
  cases rule with
  | call => exact leads_call hi p
  | binary => exact leads_binary hi p
  | and => exact leads_and hi p
  | or => exact leads_or hi p

theorem leads_operators (layer : Precedence) : ∀ (fuel : Nat) (p : Parser),
    p.Leads (operators inner layer fuel p)
  | 0, p => .refl p
  | fuel + 1, p => by
    unfold operators
    split
    · refine (leads_advance p).trans (.trans ?_ (leads_operators layer fuel _))
      split
      · exact leads_trailing hi ..
      · exact .refl _
    · exact .refl p

theorem leads_operand (layer : Precedence) (p : Parser) : p.Leads (operand inner layer p) := by
  unfold operand
  dsimp only
  split
  · exact (leads_advance p).trans (writes_error ..).leads
  · rename_i rule _
    have hEnd (p : Parser) : p.Leads (if layer.rank ≤ Precedence.assignment.rank && p.check .equal
        then p.advance.error .invalidAssignmentTarget else p) :=
      .ite ((leads_advance p).trans (writes_error ..).leads) (.refl p)
    exact (leads_advance p).trans <| (leads_leading hi _ _ rule).trans <|
      (leads_operators hi ..).trans (hEnd _)

/-! ## Statements -/

theorem leads_printStatement (p : Parser) : p.Leads (printStatement inner p) :=
  (leads_expression hi p).trans ((leads_consume ..).trans (writes_emit ..).leads)

theorem leads_expressionStatement (p : Parser) : p.Leads (expressionStatement inner p) :=
  (leads_expression hi p).trans ((leads_consume ..).trans (writes_emit ..).leads)

theorem leads_returnStatement (p : Parser) : p.Leads (returnStatement inner p) := by
  have h : p.Leads (if p.draft.isScript then p.error .returnFromScript else p) :=
    .ite (writes_error ..).leads (.refl p)
  exact h.trans <| .ite ((leads_advance _).trans (writes_emitReturn _).leads)
    ((leads_expression hi _).trans ((leads_consume ..).trans (writes_emit ..).leads))

theorem leads_varDeclaration (p : Parser) : p.Leads (varDeclaration inner p) := by
  refine (leads_variableName p .variableName).trans (.trans ?_ ((leads_consume ..).trans
    (writes_defineVariable ..).leads))
  exact .ite ((leads_advance _).trans (leads_expression hi _)) (writes_emit ..).leads

theorem leads_funDeclaration (p : Parser) : p.Leads (funDeclaration inner p) :=
  (leads_variableName p .functionName).trans <| (writes_markInitialized _).leads.trans <|
    (hi.function _).trans (writes_defineVariable ..).leads

theorem leads_declaration (p : Parser) : p.Leads (declaration inner p) := by
  have h : p.Leads (if p.check .kwFun then funDeclaration inner p.advance
      else if p.check .kwVar then varDeclaration inner p.advance else inner.statement p) :=
    .ite ((leads_advance p).trans (leads_funDeclaration hi _)) <|
      .ite ((leads_advance p).trans (leads_varDeclaration hi _)) (hi.statement p)
  exact h.trans (.ite (leads_synchronize _) (.refl _))

theorem leads_declarations : ∀ (fuel : Nat) (p : Parser), p.Leads (declarations inner fuel p)
  | 0, p => .refl p
  | fuel + 1, p => .ite (.refl p) ((leads_declaration hi p).trans (leads_declarations fuel _))

theorem leads_block (p : Parser) : p.Leads (block inner p) :=
  (leads_declarations hi ..).trans (leads_consume ..)

theorem leads_ifStatement (p : Parser) : p.Leads (ifStatement inner p) := by
  have hElse (p : Parser) : p.Leads (if p.check .kwElse then inner.statement p.advance else p) :=
    .ite ((leads_advance p).trans (hi.statement _)) (.refl p)
  exact (leads_consume p ..).trans <| (leads_expression hi _).trans <| (leads_consume ..).trans <|
    (writes_emitJump ..).leads.trans <| (writes_emit ..).leads.trans <| (hi.statement _).trans <|
    (writes_emitJump ..).leads.trans <| (writes_patchJump ..).leads.trans <| (writes_emit ..).leads.trans <|
    (hElse _).trans (writes_patchJump ..).leads

theorem leads_whileStatement (p : Parser) : p.Leads (whileStatement inner p) :=
  (leads_consume p ..).trans <| (leads_expression hi _).trans <| (leads_consume ..).trans <|
    (writes_emitJump ..).leads.trans <| (writes_emit ..).leads.trans <| (hi.statement _).trans <|
    (writes_emitLoop ..).leads.trans <| (writes_patchJump ..).leads.trans (writes_emit ..).leads

theorem leads_forInitializer (p : Parser) : p.Leads (forInitializer inner p) :=
  .ite (leads_advance p) <| .ite ((leads_advance p).trans (leads_varDeclaration hi _))
    (leads_expressionStatement hi p)

theorem leads_forCondition (p : Parser) : p.Leads (forCondition inner p).2 := by
  unfold forCondition
  split
  · exact leads_advance p
  · exact (leads_expression hi p).trans <| (leads_consume ..).trans <| (writes_emitJump ..).leads.trans
      (writes_emit ..).leads

theorem leads_forIncrement (start : Nat) (p : Parser) :
    p.Leads (forIncrement inner start p).2 := by
  unfold forIncrement
  split
  · exact leads_advance p
  · exact (writes_emitJump p _).leads.trans <| (leads_expression hi _).trans <|
      (writes_emit ..).leads.trans <| (leads_consume ..).trans <| (writes_emitLoop ..).leads.trans (writes_patchJump ..).leads

/-- The end of a loop: the jump out of it leads here. -/
def leaveLoop (exitJump : Option Nat) (p : Parser) : Parser :=
  match exitJump with
  | some exitJump => (p.patchJump exitJump).emit .pop
  | none => p

omit hi in
theorem writes_leaveLoop (exitJump : Option Nat) (p : Parser) : p.Writes (leaveLoop exitJump p) := by
  cases exitJump with
  | some exitJump => exact (writes_patchJump ..).trans (writes_emit ..)
  | none => exact .refl p

omit hi in
theorem forStatement_eq (p : Parser) : forStatement inner p =
    let q := forInitializer inner (p.beginScope.consume .leftParen .parenAfterFor)
    let tested := forCondition inner q
    let stepped := forIncrement inner q.here tested.2
    (leaveLoop tested.1 ((inner.statement stepped.2).emitLoop stepped.1)).endScope := rfl

theorem leads_forStatement (p : Parser) : p.Leads (forStatement inner p) := by
  have hBegin : p.Leads p.beginScope := .of_eq rfl rfl rfl (.refl _) rfl le_rfl
  rw [forStatement_eq]
  exact hBegin.trans <| (leads_consume ..).trans <| (leads_forInitializer hi _).trans <|
    (leads_forCondition hi _).trans <| (leads_forIncrement hi ..).trans <| (hi.statement _).trans <|
    (writes_emitLoop ..).leads.trans <| (writes_leaveLoop ..).leads.trans (writes_endScope _).leads

theorem leads_statement (p : Parser) : p.Leads (statement inner p) := by
  have hBegin : ∀ p : Parser, p.Leads p.beginScope := fun _ => .of_eq rfl rfl rfl (.refl _) rfl le_rfl
  have h := leads_advance p
  unfold statement
  split
  · exact h.trans (leads_printStatement hi _)
  · exact h.trans (leads_forStatement hi _)
  · exact h.trans (leads_ifStatement hi _)
  · exact h.trans (leads_returnStatement hi _)
  · exact h.trans (leads_whileStatement hi _)
  · exact h.trans <| (hBegin _).trans <| (leads_block hi _).trans (writes_endScope _).leads
  · exact leads_expressionStatement hi p

/-- Counts a parameter. -/
def countParameter (p : Parser) : Parser :=
  { p with draft := { p.draft with arity := p.draft.arity + 1 } }

/-- Reads a parameter that was counted. -/
def readParameter (p : Parser) : Parser :=
  let p := if maxArguments < p.draft.arity then p.errorAtCurrent .tooManyParameters else p
  (p.variableName .parameterName).2.defineVariable (p.variableName .parameterName).1

omit hi in
theorem leads_readParameter (p : Parser) : p.Leads p.readParameter := by
  have hLimit : p.Leads
      (if maxArguments < p.draft.arity then p.errorAtCurrent .tooManyParameters else p) :=
    .ite (writes_errorAtCurrent ..).leads (.refl p)
  exact hLimit.trans ((leads_variableName ..).trans (writes_defineVariable ..).leads)

omit hi in
theorem parameters_succ (fuel : Nat) (p : Parser) : parameters (fuel + 1) p =
    let q := p.countParameter.readParameter
    if q.check .comma then parameters fuel q.advance else q := rfl

omit hi in
theorem leads_parameters : ∀ (fuel : Nat) (p : Parser), p.Leads (parameters fuel p)
  | 0, p => .refl p
  | fuel + 1, p => by
    have hCount : p.Leads p.countParameter := .of_eq rfl rfl rfl (.refl _) rfl le_rfl
    have hMore (p : Parser) : p.Leads (if p.check .comma then parameters fuel p.advance else p) :=
      .ite ((leads_advance p).trans (leads_parameters fuel _)) (.refl p)
    rw [parameters_succ]
    exact hCount.trans ((leads_readParameter _).trans (hMore _))

omit hi in
theorem function_eq (p : Parser) : function inner p =
    let q := ((p.intern p.previous.lexeme).2.beginFunction (p.intern p.previous.lexeme).1).beginScope
    let q := q.consume .leftParen .parenAfterFunctionName
    let q := if q.check .rightParen then q else parameters q.total q
    let q := (q.consume .rightParen .parenAfterParameters).consume .leftBrace .braceBeforeBody
    (block inner q).closeFunction := by
  unfold function closeFunction
  dsimp only

theorem leads_function (p : Parser) : p.Leads (function inner p) := by
  have hBegin (p : Parser) (name : Str) : p.Writes (p.beginFunction name).beginScope :=
    writes_made ..
  have hParameters (p : Parser) :
      p.Leads (if p.check .rightParen then p else parameters p.total p) :=
    .ite (.refl p) (leads_parameters ..)
  rw [function_eq]
  exact (writes_intern p _).leads.trans <| (hBegin ..).leads.trans <| (leads_consume ..).trans <|
    (hParameters _).trans <| (leads_consume ..).trans <| (leads_consume ..).trans <|
    (leads_block hi _).trans (writes_closeFunction _).leads

theorem leads_script : ∀ (fuel : Nat) (p : Parser), p.Leads (script inner fuel p)
  | 0, p => .refl p
  | fuel + 1, p =>
    .ite (leads_advance p) ((leads_declaration hi p).trans (leads_script fuel _))

end

end Parser

/-! ## Levels without a counter -/

namespace Level

/-- The constructs around those of a level. -/
def around (inner : Level) : Level where
  statement := Parser.statement inner
  operand := Parser.operand inner
  function := Parser.function inner

/-- The constructs that may hold so many levels of constructs. They leave the counter alone; the counter
stops the nesting at the same place (`Level.tracks_stack`). -/
def ofDepth : Nat → Level
  | 0 => tooDeep
  | depth + 1 => around (ofDepth depth)

end Level

theorem Level.leads_ofDepth (depth : Nat) : (Level.ofDepth depth).Leads := by
  induction depth with
  | zero => exact ⟨Parser.leads_giveUp, fun _ => Parser.leads_giveUp, Parser.leads_giveUp⟩
  | succ depth hi =>
    rw [Level.ofDepth, Level.around]
    refine ⟨Parser.leads_statement hi, Parser.leads_operand hi, fun p => ?_⟩
    dsimp only
    exact Parser.leads_function hi p

end Lox
