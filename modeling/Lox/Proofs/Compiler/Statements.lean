import Lox.Proofs.Compiler.Expressions

/-!
# Code of statements

From tokens that derive a statement or a declaration, the compiler writes its code where it is legal
and not nested too deep, and reports a problem where it is not.
-/

set_option autoImplicit false

namespace Lox

open Lox.Parser (maxArguments maxConstants maxDistance maxLocals)

/-! ## Variables -/

/-- The declaration of a variable is legal, its constants fit, and it takes at most so many levels. -/
def Variable.Good (n : Nat) (sc : Scope) (k : List Const) (x : Variable) : Prop :=
  x.Legal sc k ∧ (x.pool sc k).length ≤ maxConstants ∧ Expr.nesting? x.value ≤ n

/-- The view behind the declaration of a variable. -/
abbrev Variable.after (x : Variable) (v : View) (rest : List Token) (t : Token) : View :=
  (v.wrote rest t (x.code v.scope v.pool) (x.pool v.scope v.pool)).rescope (v.scope.declare x.name)

/-- What the compiler does behind `var`. -/
def Variable.Runs (x : Variable) (ts rest : List Token) : Prop :=
  ∃ t : Token, t.line = x.line ∧ ∀ (n : Nat) (w : World) (v : View) (p : Parser), Shows w v p →
    v.toks = ts → Gives (x.Good n v.scope v.pool) w (x.after v rest t)
      (Parser.varDeclaration (Level.ofDepth n) p)

namespace Variable

variable {rest : List Token}

theorem good_plain {n : Nat} {sc : Scope} {k : List Const} {name : String} {nameLine line : Nat} :
    sc.MayDeclare name ∧ (sc.pool k name).length ≤ maxConstants ↔
      (⟨name, nameLine, none, line⟩ : Variable).Good n sc k :=
  ⟨fun h => ⟨⟨h.1, trivial⟩, h.2, Nat.zero_le n⟩, fun h => ⟨h.1.1, h.2.1⟩⟩

theorem good_set {n : Nat} {sc : Scope} {k : List Const} {name : String} {nameLine line : Nat}
    {e : Expr} :
    (sc.MayDeclare name ∧ (sc.pool k name).length ≤ maxConstants) ∧
        e.Good n (sc.declaring name).locals (sc.pool k name) ↔
      (⟨name, nameLine, some e, line⟩ : Variable).Good n sc k := by
  have hLength := (e.prefix_pool (sc.declaring name).locals (sc.pool k name)).length_le
  constructor
  · rintro ⟨⟨hd, -⟩, hl, hk, hn⟩
    exact ⟨⟨hd, hl⟩, hk, hn⟩
  · rintro ⟨⟨hd, hl⟩, hk, hn⟩
    exact ⟨⟨hd, hLength.trans hk⟩, hl, hk, hn⟩

/-- What follows the name leads on. -/
theorem leads_value (n index : Nat) (q : Parser) : q.Leads
    (((if q.check .equal then Parser.expression (Level.ofDepth n) q.advance
      else q.emit .pushNil).consume .semicolon .semicolonAfterVariable).defineVariable index) :=
  have hValue : q.Leads (if q.check .equal then Parser.expression (Level.ofDepth n) q.advance
      else q.emit .pushNil) :=
    .ite ((Parser.leads_advance q).trans (Parser.leads_expression (Level.leads_ofDepth n) _))
      (Parser.writes_emit ..).leads
  hValue.trans ((Parser.leads_consume ..).trans (Parser.writes_defineVariable ..).leads)

theorem runs_plain {name semicolon : Token} (hn : name.kind = .identifier)
    (hs : semicolon.kind = .semicolon) :
    (⟨name.lexeme, name.line, none, semicolon.line⟩ : Variable).Runs
      (name :: semicolon :: rest) rest := by
  refine ⟨semicolon, rfl, fun n w v p h ht => ?_⟩
  have hName := h.variableName .variableName ht hn
  have hIndex := h.variableName_index .variableName ht hn
  unfold Parser.varDeclaration
  generalize p.variableName .variableName = named at hName hIndex ⊢
  obtain ⟨index, q⟩ := named
  dsimp only at hName hIndex ⊢
  refine (hName.next (leads_value n index q) fun w' hs' => ?_).congr good_plain
  have hCheck : q.check .equal = false := by rw [hs'.check rfl, hs]; rfl
  rw [hCheck, if_neg Bool.false_ne_true]
  have hEnd := ((hs'.emit .pushNil).consume .semicolonAfterVariable rfl hs rfl).defineVariable
    (.inl rfl) fun h0 => hIndex h0 hs'.fits
  exact hEnd.view (by ext1 <;> simp [Variable.code, Variable.pool])

theorem runs_set {name equals semicolon : Token} {ts : List Token} {e : Expr}
    (hn : name.kind = .identifier) (hq : equals.kind = .equal)
    (he : e.Runs .assignment ts (semicolon :: rest)) (hs : semicolon.kind = .semicolon) :
    (⟨name.lexeme, name.line, some e, semicolon.line⟩ : Variable).Runs
      (name :: equals :: ts) rest := by
  obtain ⟨last, -, hr⟩ := he
  refine ⟨semicolon, rfl, fun n w v p h ht => ?_⟩
  have hName := h.variableName .variableName ht hn
  have hIndex := h.variableName_index .variableName ht hn
  unfold Parser.varDeclaration
  generalize p.variableName .variableName = named at hName hIndex ⊢
  obtain ⟨index, q⟩ := named
  dsimp only at hName hIndex ⊢
  refine (hName.bind (leads_value n index q) fun w' _ hs' => ?_).congr good_set
  have hCheck : q.check .equal = true := by rw [hs'.check rfl, decide_eq_true hq]
  rw [hCheck, if_pos rfl]
  have hg := hr.operand (n := n) (hs'.advance rfl (.of_kind hq rfl)) rfl (by decide)
    (Precedence.stops_of_kind hs (by decide) (by decide))
  refine hg.next ((Parser.leads_consume ..).trans (Parser.writes_defineVariable ..).leads)
    fun w'' hs'' => ?_
  have hEnd := (hs''.consume .semicolonAfterVariable rfl hs rfl).defineVariable
    (.inl rfl) fun h0 => hIndex h0 hs'.fits
  exact hEnd.view (by ext1 <;> simp [Variable.code, Variable.pool])

end Variable

theorem Variable.Derives.runs {x : Variable} {ts rest : List Token} :
    x.Derives ts rest → x.Runs ts rest
  | .plain hn hs => Variable.runs_plain hn hs
  | .set hn hq he hs => Variable.runs_set hn hq he.runs hs

/-! ## Expressions as statements -/

namespace Expr

variable {rest : List Token}

/-- The run of a whole expression and of the token behind it. -/
theorem RunsTo.closed {e : Expr} {last closing : Token} {ts : List Token} {kind : Token.Kind}
    (hr : e.RunsTo .assignment last ts (closing :: rest)) (hc : closing.kind = kind)
    (hStop : kind.precedence = .none) (hEqual : kind ≠ .equal) (hPlain : kind.plain = true)
    (what : Expected) {n : Nat} {w : World} {v : View} {p : Parser} (h : Shows w v p)
    (ht : v.toks = ts) :
    Gives (e.Good n v.scope.locals v.pool) w (e.after v rest closing)
      ((Parser.expression (Level.ofDepth n) p).consume kind what) := by
  have hStops : Precedence.assignment.Stops (closing :: rest) :=
    Precedence.stops_of_kind hc (hStop ▸ by decide) hEqual
  exact (hr.operand h ht (by decide) hStops).next (Parser.leads_consume ..) fun w' hs =>
    hs.consume what rfl hc hPlain

/-- The run of an expression in parentheses. -/
theorem RunsTo.parenthesized {e : Expr} {opening last closing : Token} {ts : List Token}
    (hr : e.RunsTo .assignment last ts (closing :: rest)) (ho : opening.kind = .leftParen)
    (hc : closing.kind = .rightParen) (what what' : Expected) {n : Nat} {w : World} {v : View}
    {p : Parser} (h : Shows w v p) (ht : v.toks = opening :: ts) :
    Gives (e.Good n v.scope.locals v.pool) w (e.after v rest closing)
      ((Parser.expression (Level.ofDepth n) (p.consume .leftParen what)).consume .rightParen
        what') := by
  have hg := hr.closed hc rfl (by decide) rfl what' (n := n) (h.consume what ht ho rfl) rfl
  exact hg

/-- The run of an expression whose value is dropped. -/
theorem RunsTo.dropped {e : Expr} {last semicolon : Token} {ts : List Token}
    (hr : e.RunsTo .assignment last ts (semicolon :: rest)) (hs : semicolon.kind = .semicolon)
    {n : Nat} {w : World} {v : View} {p : Parser} (h : Shows w v p) (ht : v.toks = ts) :
    Gives (e.Good n v.scope.locals v.pool) w
      ((e.after v rest semicolon).emit (.op .pop semicolon.line))
      (Parser.expressionStatement (Level.ofDepth n) p) :=
  (hr.closed hs rfl (by decide) rfl _ h ht).next (Parser.writes_emit ..).leads fun _ hs' =>
    hs'.emit .pop

end Expr

namespace Initializer

/-- A first clause is legal, its constants fit, and it takes at most so many levels. -/
def Good (n : Nat) (sc : Scope) (k : List Const) (first : Initializer) : Prop :=
  first.Legal sc k ∧ (first.pool sc k).length ≤ maxConstants ∧ first.nesting ≤ n

/-- The view behind a first clause. -/
abbrev after (first : Initializer) (v : View) (rest : List Token) (t : Token) : View :=
  (v.wrote rest t (first.code v.scope v.pool) (first.pool v.scope v.pool)).rescope
    (first.scope v.scope)

/-- What the compiler does at a first clause. -/
def Runs (first : Initializer) (ts rest : List Token) : Prop :=
  ∃ t : Token, ∀ (n : Nat) (w : World) (v : View) (p : Parser), Shows w v p → v.toks = ts →
    Gives (first.Good n v.scope v.pool) w (first.after v rest t)
      (Parser.forInitializer (Level.ofDepth n) p)

theorem Derives.runs {first : Initializer} {ts rest : List Token} (hd : first.Derives ts rest) :
    first.Runs ts rest := by
  cases hd with
  | @none semicolon _ hs =>
    refine ⟨semicolon, fun n w v p h ht => ?_⟩
    rw [Parser.forInitializer, h.check ht, decide_eq_true hs, if_pos rfl]
    refine ((h.advance ht (.of_kind hs rfl)).view ?_).gives.congr
      (iff_of_true trivial ⟨trivial, h.fits, Nat.zero_le n⟩)
    ext1 <;> simp [code, pool, scope]
  | @var t ts _ x hk hx =>
    obtain ⟨last, -, hr⟩ := hx.runs
    refine ⟨last, fun n w v p h ht => ?_⟩
    rw [Parser.forInitializer, h.check ht, h.check ht, hk, if_neg (by decide), if_pos (by decide)]
    have hg := hr n w _ p.advance (h.advance ht (.of_kind hk rfl)) rfl
    exact hg
  | @expression semicolon ts _ e he hs =>
    obtain ⟨t, ts', rfl, hStart⟩ := he.leading
    obtain ⟨last, -, hr⟩ := he.runs
    refine ⟨semicolon, fun n w v p h ht => ?_⟩
    rw [Parser.forInitializer, h.check_of_leading ht hStart rfl, h.check_of_leading ht hStart rfl,
      if_neg Bool.false_ne_true, if_neg Bool.false_ne_true]
    exact (hr.dropped (n := n) hs h ht).view (by ext1 <;> simp [code, pool, scope])

end Initializer

/-! ## Statements -/

namespace Stmt

/-- A statement is legal, its constants fit, and it takes at most so many levels. -/
def Good (n : Nat) (inFunction : Bool) (sc : Scope) (k : List Const) (s : Stmt) : Prop :=
  s.Legal inFunction sc k ∧ (s.pool sc k).length ≤ maxConstants ∧ s.nesting ≤ n

/-- The view behind a statement whose last token is `t`. -/
abbrev after (s : Stmt) (v : View) (rest : List Token) (t : Token) : View :=
  v.wrote rest t (s.code v.scope v.pool) (s.pool v.scope v.pool)

/-- What the compiler does at a statement. -/
def Runs (s : Stmt) (ts rest : List Token) : Prop :=
  ∃ t : Token, t.line = s.endLine ∧ ∀ (n : Nat) (w : World) (v : View) (p : Parser), Shows w v p →
    v.toks = ts → Gives (s.Good n v.name.isSome v.scope v.pool) w (s.after v rest t)
      ((Level.ofDepth n).statement p)

variable {rest : List Token}

/-- A statement takes a level. -/
theorem runs_of {s : Stmt} {t : Token} {ts : List Token} (hLine : t.line = s.endLine)
    (hOne : 1 ≤ s.nesting)
    (hr : ∀ (n : Nat) (w : World) (v : View) (p : Parser), Shows w v p → v.toks = ts →
      Gives (s.Good (n + 1) v.name.isSome v.scope v.pool) w (s.after v rest t)
        (Parser.statement (Level.ofDepth n) p)) : s.Runs ts rest := by
  refine ⟨t, hLine, fun n w v p h ht => ?_⟩
  cases n with
  | zero =>
    refine .of_not (fun hg => ?_) (Parser.not_clean_giveUp h.sane)
    have hLevels := hg.2.2
    omega
  | succ n => exact hr n w v p h ht

theorem statement_of_leading {inner : Level} {p : Parser} (h : p.current.kind.leading?.isSome) :
    Parser.statement inner p = Parser.expressionStatement inner p := by
  unfold Parser.statement
  split <;> first | rfl | (rename_i hk; rw [hk] at h; cases h)

/-- A statement of one expression. -/
theorem good_one {n : Nat} {inFunction : Bool} {sc : Scope} {k : List Const} {s : Stmt} {e : Expr}
    (hLegal : s.Legal inFunction sc k ↔ e.Legal sc.locals k)
    (hPool : s.pool sc k = e.pool sc.locals k) (hNesting : s.nesting = 1 + e.nesting) :
    e.Good n sc.locals k ↔ s.Good (n + 1) inFunction sc k := by
  rw [Expr.Good, Good, hLegal, hPool, hNesting]
  exact and_congr_right' (and_congr_right' (by omega))

theorem runs_expression {semicolon : Token} {ts : List Token} {e : Expr}
    (he : e.DerivesWhole ts (semicolon :: rest)) (hs : semicolon.kind = .semicolon) :
    (Stmt.expression e semicolon.line).Runs ts rest := by
  obtain ⟨t, ts', rfl, hStart⟩ := he.leading
  obtain ⟨last, -, hr⟩ := he.runs
  refine runs_of (t := semicolon) rfl (Nat.le_add_right ..) fun n w v p h ht => ?_
  rw [statement_of_leading ((h.current ht).symm ▸ hStart)]
  refine ((hr.dropped (n := n) hs h ht).view ?_).congr (good_one Iff.rfl rfl rfl)
  ext1 <;> simp [code, pool]

theorem runs_print {t semicolon : Token} {ts : List Token} {e : Expr} (hk : t.kind = .kwPrint)
    (he : e.Runs .assignment ts (semicolon :: rest)) (hs : semicolon.kind = .semicolon) :
    (Stmt.print e semicolon.line).Runs (t :: ts) rest := by
  obtain ⟨last, -, hr⟩ := he
  refine runs_of (t := semicolon) rfl (Nat.le_add_right ..) fun n w v p h ht => ?_
  have hStart := h.advance ht (.of_kind hk rfl)
  have hg := hr.closed hs rfl (by decide) rfl .semicolonAfterValue (n := n) hStart rfl
  have hPrint := hg.next (Parser.writes_emit _ .print).leads fun _ hs' => hs'.emit .print
  rw [Parser.statement, h.current ht, hk]
  refine (hPrint.view ?_).congr (good_one Iff.rfl rfl rfl)
  ext1 <;> simp [code, pool]

theorem runs_ret {t : Token} {ts : List Token} {value : Option Expr} {line : Nat}
    (hk : t.kind = .kwReturn) (hd : Expr.DerivesOptional .semicolon value line ts rest) :
    (Stmt.ret value line).Runs (t :: ts) rest := by
  -- Outside of a function a problem is reported before the value is read.
  have hScript {n : Nat} {w : World} {v v' : View} {p : Parser} (h : Shows w v p)
      (ht : v.toks = t :: ts) (hName : v.name.isSome = false) :
      Gives ((Stmt.ret value line).Good (n + 1) v.name.isSome v.scope v.pool) w v'
        (Parser.returnStatement (Level.ofDepth n) p.advance) := by
    have hs := h.advance ht (.of_kind hk rfl)
    have hIs : p.advance.draft.isScript = true := by
      rw [Draft.isScript, hs.name]
      simpa using hName
    refine .of_not (fun hg => ?_) fun hc => ?_
    · have hIn := hg.1.1
      rw [hName] at hIn
      cases hIn
    · rw [Parser.returnStatement, if_pos hIs] at hc
      refine hs.not_clean_error .returnFromScript (Parser.Leads.clean ?_ hc)
      exact .ite ((Parser.leads_advance _).trans (Parser.writes_emitReturn _).leads)
        ((Parser.leads_expression (Level.leads_ofDepth n) _).trans ((Parser.leads_consume ..).trans
          (Parser.writes_emit ..).leads))
  have hFunction {w : World} {v : View} {p : Parser} (h : Shows w v p)
      (hName : ¬ v.name.isSome = false) : ¬ p.draft.isScript = true := by
    rw [Draft.isScript, h.name]
    simpa using hName
  cases hd with
  | @none semicolon _ hs =>
    refine runs_of (t := semicolon) rfl (Nat.le_add_right ..) fun n w v p h ht => ?_
    rw [Parser.statement, h.current ht, hk]
    by_cases hName : v.name.isSome = false
    · exact hScript h ht hName
    have hStart := h.advance ht (.of_kind hk rfl)
    rw [Parser.returnStatement, if_neg (hFunction hStart hName), hStart.check rfl,
      decide_eq_true hs, if_pos rfl]
    refine ((hStart.advance rfl (.of_kind hs rfl)).emitReturn.view ?_).gives.congr ?_
    · ext1 <;> simp [code, pool, Expr.pool?]
    · exact iff_of_true trivial ⟨⟨Bool.of_not_eq_false hName, trivial⟩, h.fits, Nat.le_add_left ..⟩
  | @some semicolon _ _ e he hs =>
    obtain ⟨first, ts', rfl, hFirst⟩ := he.leading
    obtain ⟨last, -, hr⟩ := he.runs
    refine runs_of (t := semicolon) rfl (Nat.le_add_right ..) fun n w v p h ht => ?_
    rw [Parser.statement, h.current ht, hk]
    by_cases hName : v.name.isSome = false
    · exact hScript h ht hName
    have hStart := h.advance ht (.of_kind hk rfl)
    rw [Parser.returnStatement, if_neg (hFunction hStart hName), hStart.check_of_leading rfl hFirst rfl,
      if_neg Bool.false_ne_true]
    have hg := hr.closed hs rfl (by decide) rfl .semicolonAfterReturn (n := n) hStart rfl
    have hRet := hg.next (Parser.writes_emit _ .ret).leads fun _ hs' => hs'.emit .ret
    refine (hRet.view ?_).congr (good_one (and_iff_right (Bool.of_not_eq_false hName)) rfl rfl)
    ext1 <;> simp [code, pool, Expr.pool?]

end Stmt

/-! ## Branches -/

namespace Parser

/-- The end of an `if`, behind its first branch. -/
def otherwise (inner : Level) (thenJump : Nat) (p : Parser) : Parser :=
  let q := ((p.emitJump .jump).2.patchJump thenJump).emit .pop
  (if q.check .kwElse then inner.statement q.advance else q).patchJump (p.emitJump .jump).1

theorem leads_otherwise {inner : Level} (hi : inner.Leads) (thenJump : Nat) (p : Parser) :
    p.Leads (otherwise inner thenJump p) := by
  have hElse (q : Parser) : q.Leads (if q.check .kwElse then inner.statement q.advance else q) :=
    .ite ((leads_advance q).trans (hi.statement _)) (.refl q)
  exact (writes_emitJump ..).leads.trans <| (writes_patchJump ..).leads.trans <|
    (writes_emit ..).leads.trans <| (hElse _).trans (writes_patchJump ..).leads

theorem ifStatement_eq (inner : Level) (p : Parser) : ifStatement inner p =
    let q := (expression inner (p.consume .leftParen .parenAfterIf)).consume .rightParen
      .parenAfterCondition
    otherwise inner (q.emitJump .jumpIfFalse).1
      (inner.statement ((q.emitJump .jumpIfFalse).2.emit .pop)) := rfl

end Parser

/-- The jump over the first branch leads to where the second one starts. -/
theorem Shows.otherwise {w : World} {v : View} {p : Parser} (h : Shows w v p) (c : Code)
    (line : Nat) (B : Code) {thenJump : Nat}
    (hCode : v.code = c ++ .one .jumpIfFalse maxDistance line ++ (.op .pop line ++ B))
    (hThen : thenJump = c.size + 1) :
    Gives (B.size + 4 ≤ maxDistance) w
        (v.recode (c ++ .one .jumpIfFalse (B.size + 4) line ++ .op .pop line ++ B ++
          .one .jump maxDistance v.last.line ++ .op .pop v.last.line))
        (((p.emitJump .jump).2.patchJump thenJump).emit .pop) ∧
      (p.emitJump .jump).1 = c.size + B.size + 5 := by
  obtain ⟨hs, hElse⟩ := h.emitJump .jump rfl
  have hSize : (Code.op .pop line ++ B ++ .one .jump maxDistance v.last.line).size = B.size + 4 := by
    simp [Opcode.operandSize]
    omega
  have hPatch := hs.patchJump c .jumpIfFalse line (.op .pop line ++ B ++
    .one .jump maxDistance v.last.line) (by simp [hCode]) rfl hThen
  rw [hSize] at hPatch
  refine ⟨?_, ?_⟩
  · have hg := hPatch.next (Parser.writes_emit _ .pop).leads fun _ hs' => hs'.emit .pop
    exact hg.view (by ext1 <;> simp)
  · rw [hElse, hCode]
    simp [Opcode.operandSize]
    omega

namespace Stmt

variable {rest : List Token}

theorem good_ifThen {n : Nat} {inFunction : Bool} {sc : Scope} {k : List Const} {condition : Expr}
    {line : Nat} {body : Stmt} :
    condition.Good n sc.locals k ∧ body.Good n inFunction sc (condition.pool sc.locals k) ∧
        (body.code sc (condition.pool sc.locals k)).size + 4 ≤ maxDistance ↔
      (Stmt.ifThen condition line body).Good (n + 1) inFunction sc k := by
  have hLength := (body.prefix_pool sc (condition.pool sc.locals k)).length_le
  rw [Expr.Good, Good, Good, Legal, pool, nesting]
  constructor
  · rintro ⟨⟨hc, -, hn⟩, ⟨hb, hk, hn'⟩, hFits⟩
    exact ⟨⟨hc, hb, hFits⟩, hk, by omega⟩
  · rintro ⟨⟨hc, hb, hFits⟩, hk, hn⟩
    exact ⟨⟨hc, by omega, by omega⟩, ⟨hb, hk, by omega⟩, hFits⟩

theorem good_ifElse {n : Nat} {inFunction : Bool} {sc : Scope} {k : List Const} {condition : Expr}
    {line : Nat} {body other : Stmt} :
    condition.Good n sc.locals k ∧ body.Good n inFunction sc (condition.pool sc.locals k) ∧
        (body.code sc (condition.pool sc.locals k)).size + 4 ≤ maxDistance ∧
        other.Good n inFunction sc (body.pool sc (condition.pool sc.locals k)) ∧
        1 + (other.code sc (body.pool sc (condition.pool sc.locals k))).size ≤ maxDistance ↔
      (Stmt.ifElse condition line body other).Good (n + 1) inFunction sc k := by
  have hLength := (body.prefix_pool sc (condition.pool sc.locals k)).length_le
  have hLength' := (other.prefix_pool sc (body.pool sc (condition.pool sc.locals k))).length_le
  rw [Expr.Good, Good, Good, Good, Legal, pool, nesting]
  constructor
  · rintro ⟨⟨hc, -, hn⟩, ⟨hb, -, hn'⟩, hFits, ⟨ho, hk, hn''⟩, hFits'⟩
    exact ⟨⟨hc, hb, ho, hFits, hFits'⟩, hk, by omega⟩
  · rintro ⟨⟨hc, hb, ho, hFits, hFits'⟩, hk, hn⟩
    exact ⟨⟨hc, by omega, by omega⟩, ⟨hb, by omega, by omega⟩, hFits, ⟨ho, hk, by omega⟩, hFits'⟩

/-- The code of an `if` up to the end of its first branch. -/
def branchCode (condition : Expr) (line : Nat) (body : Stmt) (sc : Scope) (k : List Const) : Code :=
  let B := body.code sc (condition.pool sc.locals k)
  condition.code sc.locals k ++ .one .jumpIfFalse (B.size + 4) line ++ .op .pop line ++ B

/-- The run of an `if`, when it is known what happens behind its first branch: there a jump over the second
one has been written, and the value of the condition is dropped. -/
theorem gives_if {t opening closing lastCondition last : Token} {ts ts' : List Token} {condition : Expr}
    {body : Stmt} (hk : t.kind = .kwIf) (ho : opening.kind = .leftParen)
    (hCondition : condition.RunsTo .assignment lastCondition ts (closing :: ts'))
    (hc : closing.kind = .rightParen)
    (hBody : ∀ (n : Nat) (w : World) (v : View) (p : Parser), Shows w v p → v.toks = ts' →
      Gives (body.Good n v.name.isSome v.scope v.pool) w (body.after v rest last)
        ((Level.ofDepth n).statement p))
    {n : Nat} {w : World} {v v' : View} {p : Parser} {P : Prop} (h : Shows w v p)
    (ht : v.toks = t :: opening :: ts)
    (hOther : ∀ (w' : World) (q : Parser),
      Shows w' (v.wrote rest last (branchCode condition closing.line body v.scope v.pool ++
        .one .jump maxDistance last.line ++ .op .pop last.line)
        (body.pool v.scope (condition.pool v.scope.locals v.pool))) q →
      Gives P w' v' ((if q.check .kwElse then (Level.ofDepth n).statement q.advance else q).patchJump
        ((v.code ++ branchCode condition closing.line body v.scope v.pool).size + 1))) :
    Gives (condition.Good n v.scope.locals v.pool ∧
      body.Good n v.name.isSome v.scope (condition.pool v.scope.locals v.pool) ∧
      (body.code v.scope (condition.pool v.scope.locals v.pool)).size + 4 ≤ maxDistance ∧ P) w v'
      (Parser.statement (Level.ofDepth n) p) := by
  rw [Parser.statement, h.current ht, hk]
  have hStart := h.advance ht (.of_kind hk rfl)
  have hg := hCondition.parenthesized ho hc .parenAfterIf .parenAfterCondition (n := n) hStart rfl
  rw [Parser.ifStatement_eq]
  dsimp only
  generalize Parser.consume (Parser.expression _ _) _ _ = q at hg ⊢
  have hLeads := Parser.leads_otherwise (Level.leads_ofDepth n)
  refine hg.bind ?_ fun w₁ _ hs₁ => ?_
  · exact (Parser.writes_emitJump ..).leads.trans <| (Parser.writes_emit ..).leads.trans <|
      ((Level.leads_ofDepth n).statement _).trans (hLeads ..)
  obtain ⟨hs₂, hThen⟩ := hs₁.emitJump .jumpIfFalse rfl
  have hgb := hBody n w₁ _ _ (hs₂.emit .pop) rfl
  generalize (Level.ofDepth n).statement _ = q₁ at hgb ⊢
  refine hgb.bind (hLeads ..) fun w₂ _ hs₃ => ?_
  obtain ⟨hJump, hOffset⟩ := hs₃.otherwise (v.code ++ condition.code v.scope.locals v.pool) closing.line
    (body.code v.scope (condition.pool v.scope.locals v.pool)) (by simp) hThen
  have hEnd (q : Parser) : q.Leads (if q.check .kwElse then
      (Level.ofDepth n).statement q.advance else q) :=
    .ite ((Parser.leads_advance q).trans ((Level.leads_ofDepth n).statement _)) (.refl q)
  unfold Parser.otherwise
  dsimp only
  generalize ((q₁.emitJump .jump).2.patchJump _).emit .pop = q₂ at hJump ⊢
  refine hJump.bind ((hEnd q₂).trans (Parser.writes_patchJump ..).leads) fun w₃ _ hs₄ => ?_
  have hSize : (v.code ++ condition.code v.scope.locals v.pool).size +
      (body.code v.scope (condition.pool v.scope.locals v.pool)).size + 5 =
      (v.code ++ branchCode condition closing.line body v.scope v.pool).size + 1 := by
    simp [branchCode, Opcode.operandSize]
    omega
  rw [hOffset, hSize]
  exact hOther w₃ q₂ (hs₄.view (by ext1 <;> simp [branchCode]))

theorem runs_ifThen {t opening closing : Token} {ts ts' : List Token} {condition : Expr}
    {body : Stmt} (hk : t.kind = .kwIf) (ho : opening.kind = .leftParen)
    (hCondition : condition.Runs .assignment ts (closing :: ts')) (hc : closing.kind = .rightParen)
    (hBody : body.Runs ts' rest)
    (hElse : ∀ t ∈ rest.head?, t.kind ≠ .kwElse) :
    (Stmt.ifThen condition closing.line body).Runs (t :: opening :: ts) rest := by
  obtain ⟨lastCondition, -, hrc⟩ := hCondition
  obtain ⟨last, hLine, hrb⟩ := hBody
  refine runs_of (t := last) hLine (Nat.le_add_right ..) fun n w v p h ht => ?_
  refine (gives_if hk ho hrc hc hrb h ht (P := True) fun w' q hs => ?_).congr
    ((and_congr_right' (and_congr_right' (and_iff_left trivial))).trans good_ifThen)
  have hToks : rest = q.current :: q.rest := hs.toks.symm
  have hCheck : q.check .kwElse = false := decide_eq_false (hElse _ (by simp [hToks]))
  rw [hCheck, if_neg Bool.false_ne_true]
  have hPatch := hs.patchJump (v.code ++ branchCode condition closing.line body v.scope v.pool) .jump last.line
    (.op .pop last.line) (by simp) rfl rfl
  refine (hPatch.view ?_).congr (iff_of_true (by simp [Opcode.operandSize, maxDistance]) trivial)
  ext1 <;> simp [branchCode, code, pool, hLine, Opcode.operandSize]

theorem runs_ifElse {t opening closing else_ : Token} {ts ts' ts'' : List Token}
    {condition : Expr} {body other : Stmt} (hk : t.kind = .kwIf) (ho : opening.kind = .leftParen)
    (hCondition : condition.Runs .assignment ts (closing :: ts')) (hc : closing.kind = .rightParen)
    (hBody : body.Runs ts' (else_ :: ts''))
    (hElse : else_.kind = .kwElse) (hOther : other.Runs ts'' rest) :
    (Stmt.ifElse condition closing.line body other).Runs (t :: opening :: ts) rest := by
  obtain ⟨lastCondition, -, hrc⟩ := hCondition
  obtain ⟨lastBody, hLineBody, hrb⟩ := hBody
  obtain ⟨last, hLine, hro⟩ := hOther
  refine runs_of (t := last) hLine (Nat.le_add_right ..) fun n w v p h ht => ?_
  refine (gives_if hk ho hrc hc hrb h ht fun w' q hs => ?_).congr good_ifElse
  set O := other.code v.scope (body.pool v.scope (condition.pool v.scope.locals v.pool)) with hO
  have hCheck : q.check .kwElse = true := by rw [hs.check rfl, decide_eq_true hElse]
  rw [hCheck, if_pos rfl]
  have hgo := hro n w' _ _ (hs.advance rfl (.of_kind hElse rfl)) rfl
  refine hgo.bind (Parser.writes_patchJump ..).leads fun w₁ _ hs₁ => ?_
  have hPatch := hs₁.patchJump (v.code ++ branchCode condition closing.line body v.scope v.pool) .jump
    lastBody.line (.op .pop lastBody.line ++ O) (by simp [hO]) rfl rfl
  have hSize : (Code.op .pop lastBody.line ++ O).size = 1 + O.size := by simp [Opcode.operandSize]
  rw [hSize] at hPatch
  exact hPatch.view (by ext1 <;> simp [branchCode, code, pool, hO, hLineBody])

/-! ## Loops -/

theorem good_whileLoop {n : Nat} {inFunction : Bool} {sc : Scope} {k : List Const}
    {condition : Expr} {line : Nat} {body : Stmt} :
    condition.Good n sc.locals k ∧ body.Good n inFunction sc (condition.pool sc.locals k) ∧
        (condition.code sc.locals k).size + (body.code sc (condition.pool sc.locals k)).size + 7 ≤
          maxDistance ↔
      (Stmt.whileLoop condition line body).Good (n + 1) inFunction sc k := by
  have hLength := (body.prefix_pool sc (condition.pool sc.locals k)).length_le
  rw [Expr.Good, Good, Good, Legal, pool, nesting]
  constructor
  · rintro ⟨⟨hc, -, hn⟩, ⟨hb, hk, hn'⟩, hFits⟩
    exact ⟨⟨hc, hb, hFits⟩, hk, by omega⟩
  · rintro ⟨⟨hc, hb, hFits⟩, hk, hn⟩
    exact ⟨⟨hc, by omega, by omega⟩, ⟨hb, hk, by omega⟩, hFits⟩

theorem runs_whileLoop {t opening closing : Token} {ts ts' : List Token} {condition : Expr}
    {body : Stmt} (hk : t.kind = .kwWhile) (ho : opening.kind = .leftParen)
    (hCondition : condition.Runs .assignment ts (closing :: ts')) (hc : closing.kind = .rightParen)
    (hBody : body.Runs ts' rest) :
    (Stmt.whileLoop condition closing.line body).Runs (t :: opening :: ts) rest := by
  obtain ⟨lastCondition, -, hrc⟩ := hCondition
  obtain ⟨last, hLine, hrb⟩ := hBody
  refine runs_of (t := last) hLine (Nat.le_add_right ..) fun n w v p h ht => ?_
  rw [Parser.statement, h.current ht, hk]
  have hStart := h.advance ht (.of_kind hk rfl)
  have hHere := hStart.here
  have hg := hrc.parenthesized ho hc .parenAfterWhile .parenAfterCondition (n := n) hStart rfl
  unfold Parser.whileStatement
  dsimp only
  generalize Parser.consume (Parser.expression _ _) _ _ = q, p.advance.here = start at hg hHere ⊢
  have hLeads (p : Parser) (exitJump : Nat) :
      p.Leads (((p.emitLoop start).patchJump exitJump).emit .pop) :=
    (Parser.writes_emitLoop ..).leads.trans <| (Parser.writes_patchJump ..).leads.trans
      (Parser.writes_emit ..).leads
  refine (hg.bind ?_ fun w₁ _ hs₁ => ?_).congr good_whileLoop
  · exact (Parser.writes_emitJump ..).leads.trans <| (Parser.writes_emit ..).leads.trans <|
      ((Level.leads_ofDepth n).statement _).trans (hLeads ..)
  obtain ⟨hs₂, hExit⟩ := hs₁.emitJump .jumpIfFalse rfl
  have hgb := hrb n w₁ _ _ (hs₂.emit .pop) rfl
  generalize (Level.ofDepth n).statement _ = q₁ at hgb ⊢
  refine hgb.bind (hLeads ..) fun w₂ _ hs₃ => ?_
  set C := condition.code v.scope.locals v.pool with hC
  set B := body.code v.scope (condition.pool v.scope.locals v.pool) with hB
  have hLoop := hs₃.emitLoop v.code (C ++ .one .jumpIfFalse maxDistance closing.line ++
    .op .pop closing.line ++ B) (by simp [hC, hB]) hHere
  have hSize : (C ++ Code.one .jumpIfFalse maxDistance closing.line ++ .op .pop closing.line ++
      B).size + 3 = C.size + B.size + 7 := by
    simp [Opcode.operandSize]
    omega
  rw [hSize] at hLoop
  have hBoth : C.size + B.size + 7 ≤ maxDistance ∧ B.size + 4 ≤ maxDistance ↔
      C.size + B.size + 7 ≤ maxDistance := and_iff_left_of_imp fun hFits => by omega
  refine (hLoop.bind ((Parser.writes_patchJump ..).leads.trans (Parser.writes_emit ..).leads)
    fun w₃ _ hs₄ => ?_).congr hBoth
  have hPatch := hs₄.patchJump (v.code ++ C) .jumpIfFalse closing.line (.op .pop closing.line ++ B ++
    .one .loop (C.size + B.size + 7) last.line) (by simp [hC, hB]) rfl hExit
  have hSize' : (Code.op .pop closing.line ++ B ++
      .one .loop (C.size + B.size + 7) last.line).size = B.size + 4 := by
    simp [Opcode.operandSize]
    omega
  rw [hSize'] at hPatch
  have hPop := hPatch.next (Parser.writes_emit _ .pop).leads fun _ hs₅ => hs₅.emit .pop
  exact hPop.view (by ext1 <;> simp [code, pool, hB, hC, hLine])

end Stmt

/-- An expression that may be missing is legal, its constants fit, and it takes at most so many
levels. -/
def Expr.Good? (n : Nat) (ls : List Local) (k : List Const) (e : Option Expr) : Prop :=
  Expr.Legal? ls k e ∧ (Expr.pool? ls k e).length ≤ maxConstants ∧ Expr.nesting? e ≤ n

/-- The second clause of a `for` is compiled to a test whose jump is still open. -/
theorem Expr.DerivesOptional.runs_condition {condition : Option Expr} {line : Nat}
    {ts rest : List Token} (hd : Expr.DerivesOptional .semicolon condition line ts rest) :
    ∃ t : Token, t.line = line ∧ ∀ (n : Nat) (w : World) (v : View) (p : Parser), Shows w v p →
      v.toks = ts → Gives (Expr.Good? n v.scope.locals v.pool condition) w
        (v.wrote rest t (Stmt.testCode (maxDistance - 1) line
          (condition.map fun e => e.code v.scope.locals v.pool))
          (Expr.pool? v.scope.locals v.pool condition))
        (Parser.forCondition (Level.ofDepth n) p).2 ∧
      ((Parser.forCondition (Level.ofDepth n) p).2.Clean →
        (Parser.forCondition (Level.ofDepth n) p).1 = condition.map fun e =>
          v.code.size + (e.code v.scope.locals v.pool).size + 1) := by
  cases hd with
  | @none semicolon _ hs =>
    refine ⟨semicolon, rfl, fun n w v p h ht => ?_⟩
    rw [Parser.forCondition, h.check ht, decide_eq_true hs, if_pos rfl]
    refine ⟨?_, fun _ => rfl⟩
    refine ((h.advance ht (.of_kind hs rfl)).view ?_).gives.congr
      (iff_of_true trivial ⟨trivial, h.fits, Nat.zero_le n⟩)
    ext1 <;> simp [Stmt.testCode, Expr.pool?]
  | @some semicolon _ _ e he hs =>
    obtain ⟨first, ts', rfl, hFirst⟩ := he.leading
    obtain ⟨last, -, hr⟩ := he.runs
    refine ⟨semicolon, rfl, fun n w v p h ht => ?_⟩
    have hg := hr.closed hs rfl (by decide) rfl .semicolonAfterCondition (n := n) h ht
    rw [Parser.forCondition, h.check_of_leading ht hFirst rfl, if_neg Bool.false_ne_true]
    dsimp only
    generalize (Parser.expression _ p).consume _ _ = q at hg ⊢
    have hw : q.Writes ((q.emitJump .jumpIfFalse).2.emit .pop) :=
      (Parser.writes_emitJump ..).trans (Parser.writes_emit ..)
    constructor
    · refine (hg.next hw.leads fun w' hs' => (hs'.emitJump .jumpIfFalse rfl).1.emit .pop).view ?_
      ext1 <;> simp [Stmt.testCode, Expr.pool?, maxDistance]
    · intro hc
      obtain ⟨-, w', -, hs'⟩ := hg.of_clean (hw.clean hc)
      rw [(hs'.emitJump .jumpIfFalse rfl).2]
      simp

/-- The third clause of a `for` is compiled to the code of the step. -/
theorem Expr.DerivesOptional.runs_increment {increment : Option Expr} {line : Nat}
    {ts rest : List Token} (hd : Expr.DerivesOptional .rightParen increment line ts rest) :
    ∃ t : Token, t.line = line ∧ ∀ (n : Nat) (w : World) (v : View) (p : Parser) (c test : Code),
      Shows w v p → v.toks = ts → v.code = c ++ test →
      Gives (Expr.Good? n v.scope.locals v.pool increment ∧ ∀ e ∈ increment,
          test.size + (e.code v.scope.locals v.pool).size + 7 ≤ maxDistance) w
        (v.wrote rest t (Stmt.stepCode test.size v.last.line line
          (increment.map fun e => (e.code v.scope.locals v.pool, e.endLine)))
          (Expr.pool? v.scope.locals v.pool increment))
        (Parser.forIncrement (Level.ofDepth n) c.size p).2 ∧
      (Parser.forIncrement (Level.ofDepth n) c.size p).1 =
        if increment.isSome then v.code.size + 3 else c.size := by
  cases hd with
  | @none closing _ hc =>
    refine ⟨closing, rfl, fun n w v p c test h ht _ => ?_⟩
    rw [Parser.forIncrement, h.check ht, decide_eq_true hc, if_pos rfl]
    refine ⟨?_, rfl⟩
    refine ((h.advance ht (.of_kind hc rfl)).view ?_).gives.congr
      (iff_of_true trivial ⟨⟨trivial, h.fits, Nat.zero_le n⟩, nofun⟩)
    ext1 <;> simp [Stmt.stepCode, Expr.pool?]
  | @some closing _ _ e he hc =>
    obtain ⟨first, ts', rfl, hFirst⟩ := he.leading
    obtain ⟨last, hLast, hr⟩ := he.runs
    refine ⟨closing, rfl, fun n w v p c test h ht hCode => ?_⟩
    rw [Parser.forIncrement, h.check_of_leading ht hFirst rfl, if_neg Bool.false_ne_true]
    dsimp only
    obtain ⟨hs, hJump⟩ := h.emitJump .jump rfl
    refine ⟨?_, ?_⟩
    · have hg : Gives _ _ _ (Parser.expression (Level.ofDepth n) (p.emitJump .jump).2) :=
        hr.operand hs ht (by decide) (Precedence.stops_of_kind hc (by decide) (by decide))
      generalize Parser.expression _ _ = q at hg ⊢
      have hLeads : q.Leads ((((q.emit .pop).consume .rightParen .parenAfterClauses).emitLoop c.size
          ).patchJump (p.emitJump .jump).1) :=
        (Parser.writes_emit ..).leads.trans <| (Parser.leads_consume ..).trans <|
          (Parser.writes_emitLoop ..).leads.trans (Parser.writes_patchJump ..).leads
      set E := e.code v.scope.locals v.pool with hE
      have hGood : (e.Good n v.scope.locals v.pool ∧ test.size + E.size + 7 ≤ maxDistance ∧
          E.size + 4 ≤ maxDistance) ↔ Expr.Good? n v.scope.locals v.pool (.some e) ∧
          ∀ e' ∈ Option.some e, test.size + (e'.code v.scope.locals v.pool).size + 7 ≤ maxDistance := by
        refine and_congr_right' ⟨fun hFits e' he' => ?_, fun hFits => ?_⟩
        · cases he'
          exact hFits.1
        · have hLoop := hFits e rfl
          rw [← hE] at hLoop
          exact ⟨hLoop, by omega⟩
      refine (hg.bind hLeads fun w' _ hs₁ => ?_).congr hGood
      have hs₂ := (hs₁.emit .pop).consume .parenAfterClauses rfl hc rfl
      have hLoop := hs₂.emitLoop c (test ++ .one .jump maxDistance v.last.line ++ E ++
        .op .pop last.line) (by simp [hE, hCode]) rfl
      have hSize : (test ++ Code.one .jump maxDistance v.last.line ++ E ++
          .op .pop last.line).size + 3 = test.size + E.size + 7 := by
        simp [Opcode.operandSize]
        omega
      rw [hSize] at hLoop
      refine hLoop.bind (Parser.writes_patchJump ..).leads fun w'' _ hs₃ => ?_
      have hPatch := hs₃.patchJump v.code .jump v.last.line (E ++ .op .pop last.line ++
        .one .loop (test.size + E.size + 7) closing.line) (by simp [hE]) rfl hJump
      have hSize' : (E ++ Code.op .pop last.line ++
          .one .loop (test.size + E.size + 7) closing.line).size = E.size + 4 := by
        simp [Opcode.operandSize]
      rw [hSize'] at hPatch
      exact hPatch.view (by ext1 <;> simp [Stmt.stepCode, Expr.pool?, hE, hLast])
    · rw [hs.here]
      simp [Opcode.operandSize]

namespace Shows

variable {w : World} {v : View} {p : Parser}

/-- The end of the body of a loop leads back to the step, or else to the test. -/
theorem loopBack (h : Shows w v p) (c : Code) (rest line line' : Nat) (condition : Option Code)
    (increment : Option (Code × Nat)) (B : Code) {start : Nat}
    (hCode : v.code = c ++ Stmt.testCode rest line condition ++
      Stmt.stepCode (Stmt.testSize condition) line line' increment ++ B)
    (hStart : start = if increment.isSome then
      (c ++ Stmt.testCode rest line condition).size + 3 else c.size) :
    Gives (Stmt.backDistance (Stmt.testSize condition) B.size increment ≤ maxDistance) w
      (v.emit (.one .loop (Stmt.backDistance (Stmt.testSize condition) B.size increment)
        v.last.line)) (p.emitLoop start) := by
  cases increment with
  | none =>
    have hLoop := h.emitLoop c (Stmt.testCode rest line condition ++ B)
      (by simp [hCode, Stmt.stepCode]) hStart
    rw [Code.size_append, Stmt.size_testCode] at hLoop
    exact hLoop
  | some step =>
    obtain ⟨C, line''⟩ := step
    have hLoop := h.emitLoop (c ++ Stmt.testCode rest line condition ++
        .one .jump (C.size + 4) line) (C ++ .op .pop line'' ++
        .one .loop (Stmt.testSize condition + C.size + 7) line' ++ B)
      (by simp [hCode, Stmt.stepCode]) (hStart.trans (by simp [Opcode.operandSize, Nat.add_assoc]))
    have hSize : (C ++ Code.op .pop line'' ++
        .one .loop (Stmt.testSize condition + C.size + 7) line' ++ B).size + 3 =
        C.size + B.size + 7 := by
      simp [Opcode.operandSize]
      omega
    rw [hSize] at hLoop
    exact hLoop

/-- The jump out of a loop leads behind it. -/
theorem leaveLoop (h : Shows w v p) (c : Code) (line : Nat) (condition : Option Code) (X : Code)
    {exitJump : Option Nat}
    (hCode : v.code = c ++ Stmt.testCode (maxDistance - 1) line condition ++ X)
    (hExit : exitJump = condition.map fun C => c.size + C.size + 1) :
    Gives (condition.isSome → X.size + 1 ≤ maxDistance) w
      (v.recode (c ++ Stmt.testCode X.size line condition ++ X ++
        if condition.isSome then Code.op .pop v.last.line else []))
      (Parser.leaveLoop exitJump p) := by
  cases condition with
  | none =>
    rw [hExit]
    refine (h.view ?_).gives.congr (iff_of_true trivial nofun)
    ext1 <;> simp [Stmt.testCode, hCode]
  | some C =>
    have hPatch := h.patchJump (c ++ C) .jumpIfFalse line (.op .pop line ++ X)
      (by simp [hCode, Stmt.testCode, maxDistance]) rfl
      (show c.size + C.size + 1 = (c ++ C).size + 1 by simp)
    have hSize : (Code.op .pop line ++ X).size = X.size + 1 := by
      simp [Opcode.operandSize]
      omega
    rw [hSize] at hPatch
    have hPop := hPatch.next (Parser.writes_emit _ .pop).leads fun _ hs => hs.emit .pop
    rw [hExit]
    exact (hPop.view (by ext1 <;> simp [Stmt.testCode])).congr (by simp)

end Shows

theorem Initializer.scope_enter (first : Initializer) (sc : Scope) :
    ∃ inner, (first.scope sc.enter).locals = inner ++ sc.locals ∧
      (first.scope sc.enter).depth = sc.depth + 1 ∧ (∀ l ∈ inner, sc.depth < l.depth) ∧
      inner.length = first.localCount := by
  cases first with
  | none => exact ⟨[], rfl, rfl, nofun, rfl⟩
  | var x => exact ⟨[⟨x.name, sc.depth + 1, true⟩], rfl, rfl, by simp, rfl⟩
  | expression e line => exact ⟨[], rfl, rfl, nofun, rfl⟩

namespace Stmt

variable {rest : List Token}

theorem good_forLoop {n : Nat} {inFunction : Bool} {sc : Scope} {k : List Const}
    {first : Initializer} {condition increment : Option Expr} {semicolonLine parenLine : Nat}
    {body : Stmt} {inner : Scope} {k₁ k₂ k₃ : List Const} (hInner : inner = first.scope sc.enter)
    (hk₁ : k₁ = first.pool sc.enter k) (hk₂ : k₂ = Expr.pool? inner.locals k₁ condition)
    (hk₃ : k₃ = Expr.pool? inner.locals k₂ increment) {test : Option Code}
    {step : Option (Code × Nat)} {B : Code}
    (hTest : test = condition.map fun e => e.code inner.locals k₁)
    (hStep : step = increment.map fun e => (e.code inner.locals k₂, e.endLine))
    (hB : B = body.code inner k₃) :
    first.Good n sc.enter k ∧ Expr.Good? n inner.locals k₁ condition ∧
        (Expr.Good? n inner.locals k₂ increment ∧
          ∀ e ∈ increment, testSize test + (e.code inner.locals k₂).size + 7 ≤ maxDistance) ∧
        body.Good n inFunction inner k₃ ∧ backDistance (testSize test) B.size step ≤ maxDistance ∧
        (test.isSome → (stepCode (testSize test) 0 0 step).size + B.size + 4 ≤ maxDistance) ↔
      (Stmt.forLoop first condition semicolonLine increment parenLine body).Good (n + 1)
        inFunction sc k := by
  have hFirst := (first.prefix_pool sc.enter k).length_le
  have hLength₂ := (Expr.prefix_pool? inner.locals k₁ condition).length_le
  have hLength₃ := (Expr.prefix_pool? inner.locals k₂ increment).length_le
  have hLength := (body.prefix_pool inner k₃).length_le
  rw [← hk₂] at hLength₂
  rw [← hk₃] at hLength₃
  have hLegal : (Stmt.forLoop first condition semicolonLine increment parenLine body).Legal
      inFunction sc k ↔ first.Legal sc.enter k ∧ Expr.Legal? inner.locals k₁ condition ∧
        Expr.Legal? inner.locals k₂ increment ∧ body.Legal inFunction inner k₃ ∧
        LoopFits test step B := by
    rw [Legal, hTest, hStep, hB, hk₃, hk₂, hk₁, hInner]
  have hPool : (Stmt.forLoop first condition semicolonLine increment parenLine body).pool sc k =
      body.pool inner k₃ := by rw [pool, hk₃, hk₂, hk₁, hInner]
  have hFits : (∀ e ∈ increment, testSize test + (e.code inner.locals k₂).size + 7 ≤ maxDistance) ↔
      ∀ c line, step = some (c, line) → testSize test + c.size + 7 ≤ maxDistance := by
    rw [hStep]
    cases increment with
    | none => simp
    | some e => simp
  rw [Initializer.Good, Expr.Good?, Expr.Good?, Good, Good, hLegal, hPool, nesting, hFits, ← hk₁,
    ← hk₂, ← hk₃]
  constructor
  · rintro ⟨⟨hf, -, hn₁⟩, ⟨hc, -, hn₂⟩, ⟨⟨hi, -, hn₃⟩, hs⟩, ⟨hb, hk, hn₄⟩, hBack, hExit⟩
    exact ⟨⟨hf, hc, hi, hb, hExit, hs, hBack⟩, hk, by omega⟩
  · rintro ⟨⟨hf, hc, hi, hb, hExit, hs, hBack⟩, hk, hn⟩
    exact ⟨⟨hf, by omega, by omega⟩, ⟨hc, by omega, by omega⟩, ⟨⟨hi, by omega, by omega⟩, hs⟩,
      ⟨hb, hk, by omega⟩, hBack, hExit⟩

theorem runs_forLoop {t opening : Token} {ts ts₁ ts₂ ts₃ : List Token} {first : Initializer}
    {condition increment : Option Expr} {semicolonLine parenLine : Nat} {body : Stmt}
    (hk : t.kind = .kwFor) (ho : opening.kind = .leftParen) (hFirst : first.Runs ts ts₁)
    (hCondition : Expr.DerivesOptional .semicolon condition semicolonLine ts₁ ts₂)
    (hIncrement : Expr.DerivesOptional .rightParen increment parenLine ts₂ ts₃)
    (hBody : body.Runs ts₃ rest) :
    (Stmt.forLoop first condition semicolonLine increment parenLine body).Runs
      (t :: opening :: ts) rest := by
  obtain ⟨lastFirst, hrf⟩ := hFirst
  obtain ⟨semicolon, rfl, hrc⟩ := hCondition.runs_condition
  obtain ⟨paren, rfl, hri⟩ := hIncrement.runs_increment
  obtain ⟨last, hLine, hrb⟩ := hBody
  have hi := Level.leads_ofDepth
  refine runs_of (t := last) hLine (Nat.le_add_right ..) fun n w v p h ht => ?_
  rw [Parser.statement, h.current ht, hk]
  dsimp only
  rw [Parser.forStatement_eq]
  dsimp only
  have hStart := (h.advance ht (.of_kind hk rfl)).beginScope.consume .parenAfterFor rfl ho rfl
  have hgf := hrf n w _ _ hStart rfl
  generalize Parser.forInitializer _ _ = q₁ at hgf ⊢
  have hEnd (p : Parser) (start : Nat) (exitJump : Option Nat) :
      p.Leads (Parser.leaveLoop exitJump (p.emitLoop start)).endScope :=
    ((Parser.writes_emitLoop ..).trans ((Parser.writes_leaveLoop ..).trans
      (Parser.writes_endScope _))).leads
  set inner := first.scope v.scope.enter with hInner
  set k₁ := first.pool v.scope.enter v.pool with hk₁
  set k₂ := Expr.pool? inner.locals k₁ condition with hk₂
  set k₃ := Expr.pool? inner.locals k₂ increment with hk₃
  set test := condition.map fun e => e.code inner.locals k₁ with hTest
  set step := increment.map fun e => (e.code inner.locals k₂, e.endLine) with hStep
  set B := body.code inner k₃ with hB
  set F := first.code v.scope.enter v.pool with hF
  refine (hgf.bind ?_ fun w₁ _ hs₁ => ?_).congr (good_forLoop hInner hk₁ hk₂ hk₃ hTest hStep hB)
  · exact (Parser.leads_forCondition (hi n) _).trans <| (Parser.leads_forIncrement (hi n) ..).trans <|
      ((hi n).statement _).trans (hEnd ..)
  obtain ⟨hgc, hExit⟩ := hrc n w₁ _ q₁ hs₁ rfl
  have hHere : q₁.here = (v.code ++ F).size := hs₁.here
  rw [hHere]
  generalize Parser.forCondition _ q₁ = tested at hgc hExit ⊢
  obtain ⟨exitJump, q₂⟩ := tested
  dsimp only at hgc hExit ⊢
  refine hgc.bind ?_ fun w₂ _ hs₂ => ?_
  · exact (Parser.leads_forIncrement (hi n) ..).trans <| ((hi n).statement _).trans (hEnd ..)
  obtain ⟨hgi, hBack⟩ := hri n w₂ _ q₂ (v.code ++ F)
    (testCode (maxDistance - 1) semicolon.line test) hs₂ rfl rfl
  generalize Parser.forIncrement _ _ q₂ = stepped at hgi hBack ⊢
  obtain ⟨start, q₃⟩ := stepped
  dsimp only at hgi hBack ⊢
  rw [size_testCode] at hgi
  refine hgi.bind (((hi n).statement _).trans (hEnd ..)) fun w₃ _ hs₃ => ?_
  have hgb := hrb n w₃ _ q₃ hs₃ rfl
  generalize (Level.ofDepth n).statement q₃ = q₄ at hgb ⊢
  refine hgb.bind (hEnd ..) fun w₄ _ hs₄ => ?_
  have hLoop := hs₄.loopBack (v.code ++ F) (maxDistance - 1) semicolon.line paren.line test step B
    rfl (hBack.trans (by rw [hStep, Option.isSome_map]; rfl))
  have hLeave (p : Parser) : p.Leads (Parser.leaveLoop exitJump p).endScope :=
    ((Parser.writes_leaveLoop ..).trans (Parser.writes_endScope _)).leads
  refine hLoop.bind (hLeave _) fun w₅ _ hs₅ => ?_
  have hExit' : exitJump = test.map fun C => (v.code ++ F).size + C.size + 1 := by
    rw [hExit hs₂.clean, hTest, Option.map_map]
    rfl
  have hgl := hs₅.leaveLoop (v.code ++ F) semicolon.line test
    (stepCode (testSize test) semicolon.line paren.line step ++ B ++
      .one .loop (backDistance (testSize test) B.size step) last.line) (by simp; rfl) hExit'
  obtain ⟨locals, hLocals, hDepth, hDeeper, hCount⟩ := first.scope_enter v.scope
  have hSize : (stepCode (testSize test) semicolon.line paren.line step ++ B ++
      Code.one .loop (backDistance (testSize test) B.size step) last.line).size + 1 =
      (stepCode (testSize test) 0 0 step).size + B.size + 4 := by
    rw [size_stepCode _ 0 0 semicolon.line paren.line]
    simp [Opcode.operandSize]
    omega
  rw [hSize] at hgl
  refine hgl.next (Parser.writes_endScope _).leads fun w₆ hs₆ => ?_
  refine (hs₆.endScope h.scope hLocals hDepth hDeeper).view ?_
  have hCode : (Stmt.forLoop first condition semicolon.line increment paren.line body).code
      v.scope v.pool = F ++ loopCode test semicolon.line step paren.line B body.endLine ++
        drops first.localCount body.endLine := by rw [code]
  rw [hCount]
  ext1 <;> simp [hCode, pool, loopCode, hLine, Opcode.operandSize, Nat.add_assoc]

/-! ## Blocks -/

/-- Some declarations are legal, their constants fit, and they take at most so many levels. -/
def GoodList (n : Nat) (inFunction : Bool) (sc : Scope) (k : List Const) (ss : List Stmt) : Prop :=
  LegalList inFunction sc k ss ∧ (poolOfAll sc k ss).length ≤ maxConstants ∧ nestingOfAll ss ≤ n

/-- The view behind some declarations whose last token is `t`. -/
abbrev afterAll (ss : List Stmt) (v : View) (rest : List Token) (t : Token) : View :=
  (v.wrote rest t (codeOfAll v.scope v.pool ss) (poolOfAll v.scope v.pool ss)).rescope
    (scopeOfAll v.scope ss)

/-- What the compiler does at a declaration. -/
def RunsDeclaration (s : Stmt) (ts rest : List Token) : Prop :=
  ∃ t : Token, ∀ (n : Nat) (w : World) (v : View) (p : Parser), Shows w v p → v.toks = ts →
    Gives (s.Good n v.name.isSome v.scope v.pool) w ((s.after v rest t).rescope (s.scope v.scope))
      (Parser.declaration (Level.ofDepth n) p)

/-- A loop over declarations. -/
def Loops (inner : Level) (loop : Nat → Parser → Parser) : Prop :=
  ∀ fuel p, p.check .rightBrace = false → p.check .eof = false →
    loop (fuel + 1) p = loop fuel (Parser.declaration inner p)

/-- A loop over declarations leads past some of them, from the last token before them to the last one
of them. -/
def RunsList (ss : List Stmt) (ts rest : List Token) : Prop :=
  ∃ last : Token → Token, ∀ (n : Nat) (loop : Nat → Parser → Parser), Loops (Level.ofDepth n) loop →
    ∀ (fuel : Nat) (w : World) (v : View) (p : Parser), Shows w v p → v.toks = ts →
      ts.length ≤ fuel → ∃ fuel' q, loop fuel p = loop fuel' q ∧ (q.Clean → rest.length ≤ fuel') ∧
        Gives (GoodList n v.name.isSome v.scope v.pool ss) w (afterAll ss v rest (last v.last)) q

theorem runsList_nil : RunsList [] rest rest := by
  refine ⟨id, fun n loop _ fuel w v p h ht hFuel => ⟨fuel, p, rfl, fun _ => hFuel, ?_⟩⟩
  refine (h.view ?_).gives.congr (iff_of_true trivial ⟨trivial, h.fits, Nat.zero_le n⟩)
  ext1 <;> simp [ht, codeOfAll, poolOfAll, scopeOfAll]

theorem goodList_cons {n : Nat} {inFunction : Bool} {sc : Scope} {k : List Const} {s : Stmt}
    {ss : List Stmt} : s.Good n inFunction sc k ∧ GoodList n inFunction (s.scope sc) (s.pool sc k) ss ↔
      GoodList n inFunction sc k (s :: ss) := by
  have hLength := (prefix_poolOfAll ss (s.scope sc) (s.pool sc k)).length_le
  rw [Good, GoodList, GoodList, LegalList, poolOfAll, nestingOfAll]
  constructor
  · rintro ⟨⟨hl, -, hn⟩, hls, hk, hns⟩
    exact ⟨⟨hl, hls⟩, hk, by omega⟩
  · rintro ⟨⟨hl, hls⟩, hk, hn⟩
    exact ⟨⟨hl, by omega, by omega⟩, hls, hk, by omega⟩

theorem runsList_cons {ts ts' : List Token} {s : Stmt} {ss : List Stmt}
    (hs : s.RunsDeclaration ts ts') (hShorter : ts'.length < ts.length)
    (hFirst : ∃ t ts'', ts = t :: ts'' ∧ t.kind ≠ .rightBrace ∧ t.kind ≠ .eof)
    (hss : RunsList ss ts' rest) : RunsList (s :: ss) ts rest := by
  obtain ⟨t, hr⟩ := hs
  obtain ⟨last, hrs⟩ := hss
  obtain ⟨first, ts'', rfl, hBrace, hEnd⟩ := hFirst
  refine ⟨fun _ => last t, fun n loop hLoop fuel w v p h ht hFuel => ?_⟩
  obtain ⟨fuel, rfl⟩ : ∃ fuel', fuel = fuel' + 1 := ⟨fuel - 1, by omega⟩
  have hNext : loop (fuel + 1) p = loop fuel (Parser.declaration (Level.ofDepth n) p) :=
    hLoop fuel p (by rw [h.check ht, decide_eq_false hBrace]) (by rw [h.check ht, decide_eq_false hEnd])
  rcases hr n w v p h ht with ⟨hok, w', he, hs'⟩ | ⟨hok, hNot⟩
  · obtain ⟨fuel', q, hEq, hLeft, hg⟩ := hrs n loop hLoop fuel w' _ _ hs' rfl (by omega)
    refine ⟨fuel', q, hNext.trans hEq, hLeft, .of_extends he ((hg.view ?_).congr ?_)⟩
    · ext1 <;> simp [codeOfAll, poolOfAll, scopeOfAll]
    · rw [← goodList_cons]
      exact (and_iff_right hok).symm
  · exact ⟨fuel, _, hNext, fun hc => absurd hc hNot,
      .of_not (fun hg => hok (goodList_cons.2 hg).1) hNot⟩

/-- Declarations in a scope add locals to it. -/
theorem scopeOfAll_locals (ss : List Stmt) (sc : Scope) (h : sc.depth ≠ 0) :
    ∃ inner, (scopeOfAll sc ss).locals = inner ++ sc.locals ∧
      (scopeOfAll sc ss).depth = sc.depth ∧ (∀ l ∈ inner, l.depth = sc.depth) ∧
      inner.length = ss.countP declares := by
  induction ss generalizing sc with
  | nil => exact ⟨[], rfl, rfl, nofun, rfl⟩
  | cons s ss ih =>
    have hOne (name : String) (hs : s.scope sc = sc.declare name) (hd : s.declares = true) :
        ∃ inner, (scopeOfAll sc (s :: ss)).locals = inner ++ sc.locals ∧
          (scopeOfAll sc (s :: ss)).depth = sc.depth ∧ (∀ l ∈ inner, l.depth = sc.depth) ∧
          inner.length = (s :: ss).countP declares := by
      have hScope : scopeOfAll sc (s :: ss) = scopeOfAll (sc.add name true) ss := by
        rw [scopeOfAll, List.foldl_cons, hs, Scope.declare, if_neg h]
        rfl
      obtain ⟨inner, hLocals, hDepth, hAll, hCount⟩ := ih (sc.add name true) h
      refine ⟨inner ++ [⟨name, sc.depth, true⟩], ?_, hScope ▸ hDepth, ?_, ?_⟩
      · rw [hScope, hLocals]
        simp [Scope.add]
      · intro l hl
        rcases List.mem_append.1 hl with hl | hl
        · exact hAll l hl
        · rw [List.mem_singleton.1 hl]
      · rw [List.countP_cons_of_pos hd, List.length_append, hCount]
        rfl
    have hNone (hs : s.scope sc = sc) (hd : s.declares = false) :
        ∃ inner, (scopeOfAll sc (s :: ss)).locals = inner ++ sc.locals ∧
          (scopeOfAll sc (s :: ss)).depth = sc.depth ∧ (∀ l ∈ inner, l.depth = sc.depth) ∧
          inner.length = (s :: ss).countP declares := by
      rw [scopeOfAll, List.foldl_cons, hs, List.countP_cons_of_neg (by simp [hd])]
      exact ih sc h
    cases s with
    | var x => exact hOne x.name rfl rfl
    | function _ name _ _ _ => exact hOne name rfl rfl
    | _ => exact hNone rfl rfl

theorem loops_declarations (inner : Level) : Loops inner (Parser.declarations inner) := by
  intro fuel p hBrace hEnd
  rw [Parser.declarations, hBrace, hEnd, Bool.or_false, if_neg Bool.false_ne_true]

/-- The declarations up to a closing brace. -/
theorem RunsList.declarations {ts : List Token} {closing : Token} {ss : List Stmt}
    (hss : RunsList ss ts (closing :: rest)) (hc : closing.kind = .rightBrace) :
    ∃ last : Token → Token, ∀ (n : Nat) (w : World) (v : View) (p : Parser), Shows w v p →
      v.toks = ts → Gives (GoodList n v.name.isSome v.scope v.pool ss) w
        (afterAll ss v (closing :: rest) (last v.last))
        (Parser.declarations (Level.ofDepth n) p.total p) := by
  obtain ⟨last, hr⟩ := hss
  refine ⟨last, fun n w v p h ht => ?_⟩
  obtain ⟨fuel, q, hEq, -, hg⟩ := hr n _ (loops_declarations _) p.total w v p h ht
    (ht ▸ h.total.symm ▸ h.fuel)
  rw [hEq]
  refine hg.next (Parser.leads_declarations (Level.leads_ofDepth n) fuel q) fun w' hs => ?_
  have hCheck : q.check .rightBrace = true := by rw [hs.check rfl, decide_eq_true hc]
  cases fuel with
  | zero => exact hs
  | succ fuel =>
    rw [Parser.declarations, hCheck, Bool.true_or, if_pos rfl]
    exact hs

theorem runs_block {opening closing : Token} {ts : List Token} {body : List Stmt}
    (ho : opening.kind = .leftBrace) (hBody : RunsList body ts (closing :: rest))
    (hc : closing.kind = .rightBrace) :
    (Stmt.block body closing.line).Runs (opening :: ts) rest := by
  obtain ⟨last, hr⟩ := hBody.declarations hc
  refine runs_of (t := closing) rfl (Nat.le_add_right ..) fun n w v p h ht => ?_
  rw [Parser.statement, h.current ht, ho]
  dsimp only
  have hg := hr n w _ _ (h.advance ht (.of_kind ho rfl)).beginScope rfl
  unfold Parser.block
  generalize Parser.declarations _ _ _ = q at hg ⊢
  have hGood : GoodList n v.name.isSome v.scope.enter v.pool body ↔
      (Stmt.block body closing.line).Good (n + 1) v.name.isSome v.scope v.pool := by
    rw [GoodList, Good, Legal, pool, nesting]
    exact and_congr_right' (and_congr_right' (by omega))
  refine (hg.next ((Parser.leads_consume ..).trans (Parser.writes_endScope _).leads)
    fun w' hs => ?_).congr hGood
  obtain ⟨inner, hLocals, hDepth, hAll, hCount⟩ :=
    scopeOfAll_locals body v.scope.enter (Nat.succ_ne_zero _)
  refine ((hs.consume .braceAfterBlock rfl hc rfl).endScope h.scope hLocals hDepth
    fun l hl => ?_).view ?_
  · rw [hAll l hl]
    exact Nat.lt_succ_self _
  · rw [hCount]
    ext1 <;> simp [code, pool]

/-! ## Declarations -/

end Stmt

/-- A declaration without a problem ends where what it reads ends. -/
theorem Gives.declaration {inner : Level} {ok : Prop} {w : World} {v : View} {p : Parser}
    (hp : Gives ok w v (if p.check .kwFun then Parser.funDeclaration inner p.advance
      else if p.check .kwVar then Parser.varDeclaration inner p.advance else inner.statement p)) :
    Gives ok w v (Parser.declaration inner p) := by
  unfold Parser.declaration
  dsimp only
  generalize (if p.check .kwFun then _ else _) = q at hp ⊢
  refine hp.next (.ite (Parser.leads_synchronize q) (.refl q)) fun w' hs => ?_
  rw [hs.recovering, if_neg Bool.false_ne_true]
  exact hs

namespace Stmt

variable {rest : List Token}

theorem runsDeclaration_statement {s : Stmt} {ts : List Token} (hs : s.Runs ts rest)
    (hScope : ∀ sc, s.scope sc = sc)
    (hFirst : ∃ t ts', ts = t :: ts' ∧ t.kind ≠ .kwFun ∧ t.kind ≠ .kwVar) :
    s.RunsDeclaration ts rest := by
  obtain ⟨last, -, hr⟩ := hs
  obtain ⟨t, ts', rfl, hFun, hVar⟩ := hFirst
  refine ⟨last, fun n w v p h ht => ?_⟩
  refine Gives.declaration ?_
  rw [h.check ht, h.check ht, decide_eq_false hFun, decide_eq_false hVar,
    if_neg Bool.false_ne_true, if_neg Bool.false_ne_true]
  refine (hr n w v p h ht).view ?_
  ext1 <;> simp [hScope]

theorem runsDeclaration_var {t : Token} {ts : List Token} {x : Variable} (hk : t.kind = .kwVar)
    (hx : x.Runs ts rest) : (Stmt.var x).RunsDeclaration (t :: ts) rest := by
  obtain ⟨last, -, hr⟩ := hx
  refine ⟨last, fun n w v p h ht => ?_⟩
  have hg := hr n w _ p.advance (h.advance ht (.of_kind hk rfl)) rfl
  refine Gives.declaration ?_
  rw [h.check ht, h.check ht, hk, if_neg (by decide), if_pos (by decide)]
  exact hg

end Stmt

end Lox
