import Lox.Proofs.Compiler.Statements

/-!
# Code of functions

The parameters and the body of a function are compiled to a function of their own, which becomes a
constant of the function around it. With that the compiler writes the code of every derived statement
(`Stmt.Derives.runs`).
-/

set_option autoImplicit false

namespace Lox

open Lox.Parser (maxArguments maxConstants maxDistance maxLocals)

/-! ## Parameters -/

namespace Scope

theorem declare_function (ps : List String) (name : String) :
    (function ps).declare name = function (ps ++ [name]) := by
  simp [function, declare, add]

theorem pool_function (ps : List String) (k : List Const) (name : String) :
    (function ps).pool k name = k := rfl

theorem define_function (ps : List String) (k : List Const) (name : String) (line : Nat) :
    (function ps).define k name line = [] := rfl

/-- A parameter may be declared when it is new; there are more slots than parameters. -/
theorem mayDeclare_function {ps : List String} {name : String} (h : ps.length < maxArguments) :
    (function ps).MayDeclare name ↔ name ∉ ps := by
  have hRoom : (function ps).locals.length < maxLocals := by
    simp only [function, List.length_append, List.length_reverse, List.length_map,
      List.length_singleton, maxLocals]
    simp only [maxArguments] at h
    omega
  constructor
  · rintro (h0 | ⟨hNew, -⟩)
    · cases h0
    · intro hMem
      exact hNew ⟨name, 1, true⟩ (by simpa [function] using hMem) rfl rfl
  · intro hNew
    refine .inr ⟨fun l hl hDepth hName => ?_, hRoom⟩
    simp only [function, List.mem_append, List.mem_reverse, List.mem_map, List.mem_singleton] at hl
    rcases hl with ⟨p, hp, rfl⟩ | rfl
    · exact hNew (hName ▸ hp)
    · cases hDepth

end Scope

namespace Shows

variable {w : World} {v : View} {p : Parser}

theorem countParameter (h : Shows w v p) : Shows w (v.takes (v.arity + 1)) p.countParameter :=
  { h with arity := congrArg (· + 1) h.arity }

/-- One parameter more. -/
theorem readParameter (h : Shows w v p) {t : Token} {ts : List Token} {ps : List String}
    (ht : v.toks = t :: ts) (hk : t.kind = .identifier) (hScope : v.scope = .function ps)
    (hArity : v.arity = ps.length + 1) (hNodup : ps.Nodup) :
    Gives ((ps ++ [t.lexeme]).Nodup ∧ ps.length + 1 ≤ maxArguments) w
      ((v.read ts t).rescope (.function (ps ++ [t.lexeme]))) p.readParameter := by
  unfold Parser.readParameter
  rw [h.arity, hArity]
  by_cases hMany : maxArguments < ps.length + 1
  · rw [if_pos hMany]
    refine .of_not (fun hok => by omega) fun hc => ?_
    refine Parser.not_clean_report h.sane p.current .tooManyParameters ?_
    exact ((Parser.leads_variableName ..).trans (Parser.writes_defineVariable ..).leads).clean hc
  · rw [if_neg hMany]
    have hName := h.variableName .parameterName ht hk
    have hGood : (v.scope.MayDeclare t.lexeme ∧
        (v.scope.pool v.pool t.lexeme).length ≤ maxConstants) ↔
        (ps ++ [t.lexeme]).Nodup ∧ ps.length + 1 ≤ maxArguments := by
      rw [hScope, Scope.mayDeclare_function (by omega), Scope.pool_function, ← List.concat_eq_append,
        List.nodup_concat, and_iff_left hNodup]
      exact and_congr_right' (iff_of_true h.fits (by omega))
    refine (hName.next (Parser.writes_defineVariable ..).leads fun w' hs' => ?_).congr hGood
    have hIndex : v.scope.depth = 0 →
        (p.variableName .parameterName).1 = Const.nameIndex v.pool t.lexeme :=
      fun h0 => absurd (hScope ▸ h0) (by simp [Scope.function])
    refine (hs'.defineVariable (.inl rfl) hIndex).view ?_
    ext1 <;> simp [hScope, Scope.declare_function, Scope.pool_function, Scope.define_function]

end Shows

namespace Routine

variable {rest : List Token}

/-- How the compiler reads names behind the parameters `ps`. -/
def RunsNames (names : List String) (ts rest : List Token) : Prop :=
  ∃ t : Token, ∀ (fuel : Nat) (w : World) (v : View) (p : Parser) (ps : List String), Shows w v p →
    v.toks = ts → ts.length ≤ fuel → (∀ t ∈ rest.head?, t.kind ≠ .comma) →
    v.scope = .function ps → v.arity = ps.length → ps.Nodup →
    Gives ((ps ++ names).Nodup ∧ (ps ++ names).length ≤ maxArguments) w
      (((v.read rest t).rescope (.function (ps ++ names))).takes (ps ++ names).length)
      (Parser.parameters fuel p)

theorem leads_moreParameters (fuel : Nat) (q : Parser) :
    q.Leads (if q.check .comma then Parser.parameters fuel q.advance else q) :=
  .ite ((Parser.leads_advance q).trans (Parser.leads_parameters fuel _)) (.refl q)

theorem runsNames_last {name : Token} (hn : name.kind = .identifier) :
    RunsNames [name.lexeme] (name :: rest) rest := by
  refine ⟨name, fun fuel w v p ps h ht hFuel hComma hScope hArity hNodup => ?_⟩
  obtain ⟨fuel, rfl⟩ : ∃ fuel', fuel = fuel' + 1 := ⟨fuel - 1, by
    rw [List.length_cons] at hFuel
    omega⟩
  have hg := h.countParameter.readParameter ht hn hScope (congrArg (· + 1) hArity) hNodup
  rw [Parser.parameters_succ]
  dsimp only
  generalize p.countParameter.readParameter = q at hg ⊢
  rw [List.length_append, List.length_singleton]
  refine hg.next (leads_moreParameters fuel q) fun w' hs => ?_
  have hToks : rest = q.current :: q.rest := hs.toks.symm
  have hCheck : q.check .comma = false := decide_eq_false (hComma _ (by simp [hToks]))
  rw [hCheck, if_neg Bool.false_ne_true]
  exact hs.view (by ext1 <;> simp [hArity])

theorem runsNames_more {name comma : Token} {ts : List Token} {names : List String}
    (hn : name.kind = .identifier) (hc : comma.kind = .comma) (hs : RunsNames names ts rest) :
    RunsNames (name.lexeme :: names) (name :: comma :: ts) rest := by
  obtain ⟨t, hr⟩ := hs
  refine ⟨t, fun fuel w v p ps h ht hFuel hComma hScope hArity hNodup => ?_⟩
  obtain ⟨fuel, rfl⟩ : ∃ fuel', fuel = fuel' + 1 := ⟨fuel - 1, by
    rw [List.length_cons] at hFuel
    omega⟩
  have hg := h.countParameter.readParameter ht hn hScope (congrArg (· + 1) hArity) hNodup
  rw [Parser.parameters_succ]
  dsimp only
  generalize p.countParameter.readParameter = q at hg ⊢
  have hList : ps ++ name.lexeme :: names = ps ++ [name.lexeme] ++ names := by simp
  rw [hList]
  rcases hg with ⟨hok, w', he, hs⟩ | ⟨hok, hNot⟩
  · have hCheck : q.check .comma = true := by rw [hs.check rfl, decide_eq_true hc]
    have hNames := hr fuel w' _ q.advance (ps ++ [name.lexeme]) (hs.advance rfl (.of_kind hc rfl))
      rfl (by simp only [List.length_cons] at hFuel; omega) hComma rfl (by simp [hArity]) hok.1
    rw [hCheck, if_pos rfl]
    exact .of_extends he (hNames.view (by ext1 <;> simp))
  · refine .of_not (fun hg => hok ⟨(List.nodup_append.1 hg.1).1, ?_⟩) fun hClean =>
      hNot ((leads_moreParameters fuel q).clean hClean)
    have hLength := hg.2
    simp only [List.length_append, List.length_singleton] at hLength
    omega

theorem DerivesNames.runs {names : List String} {ts rest : List Token} :
    DerivesNames names ts rest → RunsNames names ts rest
  | .last hn => runsNames_last hn
  | .more hn hc hs => runsNames_more hn hc hs.runs

/-- The parameters between their parentheses. -/
theorem DerivesParameters.runs {names : List String} {ts rest : List Token}
    (hd : DerivesParameters names ts rest) :
    ∃ t : Token, ∀ (w : World) (v : View) (p : Parser), Shows w v p → v.toks = ts →
      v.scope = .function [] → v.arity = 0 →
      Gives (names.Nodup ∧ names.length ≤ maxArguments) w
        (((v.read rest t).rescope (.function names)).takes names.length)
        ((if p.check .rightParen then p else Parser.parameters p.total p).consume .rightParen
          .parenAfterParameters) := by
  cases hd with
  | @none closing _ hc =>
    refine ⟨closing, fun w v p h ht hScope hArity => ?_⟩
    rw [h.check ht, decide_eq_true hc, if_pos rfl]
    refine ((h.consume .parenAfterParameters ht hc rfl).view ?_).gives.congr
      (iff_of_true trivial ⟨List.nodup_nil, Nat.zero_le _⟩)
    ext1 <;> simp [hScope, hArity]
  | @some closing _ _ _ hs hc =>
    obtain ⟨last, hr⟩ := hs.runs
    obtain ⟨first, ts', rfl, hFirst⟩ : ∃ t ts', ts = t :: ts' ∧ t.kind = .identifier := by
      cases hs with
      | last hn => exact ⟨_, _, rfl, hn⟩
      | more hn _ _ => exact ⟨_, _, rfl, hn⟩
    refine ⟨closing, fun w v p h ht hScope hArity => ?_⟩
    have hCheck : p.check .rightParen = false := by rw [h.check ht, hFirst]; rfl
    rw [hCheck, if_neg Bool.false_ne_true]
    have hg := hr p.total w v p [] h ht (ht ▸ h.total.symm ▸ h.fuel) (by simp [hc]) hScope hArity
      List.nodup_nil
    refine hg.next (Parser.leads_consume ..) fun w' hs' => ?_
    exact (hs'.consume .parenAfterParameters rfl hc rfl).view (by ext1 <;> simp)

end Routine

/-! ## Functions -/

namespace Stmt

variable {rest : List Token}

/-- The run of a function whose name was read last: it becomes a constant. -/
theorem runs_function {name opening brace closing : Token} {ts ts' : List Token}
    {parameters : List String} {body : List Stmt} (ho : opening.kind = .leftParen)
    (hParameters : Routine.DerivesParameters parameters ts (brace :: ts'))
    (hb : brace.kind = .leftBrace) (hBody : RunsList body ts' (closing :: rest))
    (hc : closing.kind = .rightBrace) (n : Nat) {w : World} {v : View} {p : Parser}
    (h : Shows w v p) (ht : v.toks = opening :: ts) (hLast : v.last = name) :
    Gives ((parameters.Nodup ∧ parameters.length ≤ maxArguments) ∧
        GoodList n true (.function parameters) [] body ∧ v.pool.length + 1 ≤ maxConstants) w
      (((v.read rest closing).repool
        (v.pool ++ [.function ⟨rest.length, some name.lexeme, parameters, body, closing.line⟩])).emit
        (.one .constant v.pool.length closing.line))
      (Parser.function (Level.ofDepth n) p) := by
  obtain ⟨paren, hrp⟩ := hParameters.runs
  obtain ⟨last, hrb⟩ := hBody.declarations hc
  have hi := Level.leads_ofDepth n
  have hPrevious : p.previous = name := h.last.trans hLast
  rw [Parser.function_eq, hPrevious]
  dsimp only
  obtain ⟨w₁, he₁, hs₁, hMem, hText⟩ := h.intern name.lexeme
  generalize p.intern name.lexeme = interned at hs₁ hMem hText ⊢
  obtain ⟨str, p₁⟩ := interned
  dsimp only at hs₁ hText ⊢
  have hs₂ := (hs₁.beginFunction hMem).consume .parenAfterFunctionName ht ho rfl
  have hgp := hrp w₁ _ _ hs₂ rfl rfl rfl
  generalize Parser.consume _ .rightParen .parenAfterParameters = p₂ at hgp ⊢
  refine .of_extends he₁ (hgp.bind ?_ fun w₂ he₂ hs₃ => ?_)
  · exact (Parser.leads_consume ..).trans ((Parser.leads_block hi _).trans
      (Parser.writes_closeFunction _).leads)
  have hgb := hrb n w₂ _ _ (hs₃.consume .braceBeforeBody rfl hb rfl) rfl
  unfold Parser.block
  generalize Parser.declarations _ _ _ = p₃ at hgb ⊢
  refine hgb.bind ((Parser.leads_consume ..).trans (Parser.writes_closeFunction _).leads)
    fun w₃ he₃ hs₄ => ?_
  -- Until its closing brace is read, all functions made have more tokens behind them.
  have hNew : ∀ m ∈ w₃.made, rest.length < m.1 := hs₄.world.places
  refine (hs₄.consume .braceAfterBlock rfl hc rfl).closeFunction hs₁ (he₂.trans he₃) rfl rfl rfl hNew
    rfl (congrArg some hText) ?_ rfl
  simp [Routine.code, Routine.scope]

theorem good_function {n place : Nat} {inFunction : Bool} {sc : Scope} {k : List Const}
    {name : String} {parameters : List String} {body : List Stmt} {line : Nat} :
    (sc.MayDeclare name ∧ (sc.pool k name).length ≤ maxConstants) ∧
        (parameters.Nodup ∧ parameters.length ≤ maxArguments) ∧
        GoodList n true (.function parameters) [] body ∧
        (sc.pool k name).length + 1 ≤ maxConstants ↔
      (Stmt.function place name parameters body line).Good (n + 1) inFunction sc k := by
  rw [GoodList, Good, Legal, pool, nesting, List.length_append, List.length_singleton]
  constructor
  · rintro ⟨⟨hd, -⟩, ⟨hNodup, hCount⟩, ⟨hb, hk, hn⟩, hk'⟩
    exact ⟨⟨hd, hCount, hNodup, hb, hk⟩, hk', by omega⟩
  · rintro ⟨⟨hd, hCount, hNodup, hb, hk⟩, hk', hn⟩
    exact ⟨⟨hd, by omega⟩, ⟨hNodup, hCount⟩, ⟨hb, hk, by omega⟩, hk'⟩

theorem runsDeclaration_function {t name opening closing brace : Token} {ts ts' : List Token}
    {parameters : List String} {body : List Stmt} (hk : t.kind = .kwFun)
    (hn : name.kind = .identifier) (ho : opening.kind = .leftParen)
    (hParameters : Routine.DerivesParameters parameters ts (brace :: ts'))
    (hb : brace.kind = .leftBrace) (hBody : RunsList body ts' (closing :: rest))
    (hc : closing.kind = .rightBrace) :
    (Stmt.function rest.length name.lexeme parameters body closing.line).RunsDeclaration
      (t :: name :: opening :: ts) rest := by
  refine ⟨closing, fun n w v p h ht => ?_⟩
  have hStart := h.advance ht (.of_kind hk rfl)
  have hName := hStart.variableName .functionName rfl hn
  have hIndex := hStart.variableName_index .functionName rfl hn
  have hSane := (Parser.leads_variableName p.advance .functionName).sane hStart.sane
  refine Gives.declaration ?_
  rw [h.check ht, decide_eq_true hk, if_pos rfl]
  unfold Parser.funDeclaration
  generalize p.advance.variableName .functionName = named at hName hIndex hSane ⊢
  obtain ⟨index, q⟩ := named
  dsimp only at hName hIndex hSane ⊢
  have hLeads : q.Leads (((Level.ofDepth n).function q.markInitialized).defineVariable index) :=
    (Parser.writes_markInitialized q).leads.trans (((Level.leads_ofDepth n).function _).trans
      (Parser.writes_defineVariable ..).leads)
  cases n with
  | zero =>
    refine .of_not (fun hg => ?_) fun hClean => ?_
    · have hLevels := hg.2.2
      rw [nesting] at hLevels
      omega
    · have hSane' := (Parser.writes_markInitialized q).sane hSane
      exact Parser.not_clean_giveUp hSane' ((Parser.writes_defineVariable ..).clean hClean)
  | succ n =>
    refine (hName.bind hLeads fun w₁ _ hs₁ => ?_).congr good_function
    have hg := runs_function ho hParameters hb hBody hc n (hs₁.markInitialized (.inl rfl)) rfl rfl
    refine hg.next (Parser.writes_defineVariable ..).leads fun w₂ hs₂ => ?_
    have hIndex' : v.scope.depth = 0 → index = Const.nameIndex v.pool name.lexeme :=
      fun h0 => hIndex h0 hs₁.fits
    refine (hs₂.defineVariable (.inr rfl) hIndex').view ?_
    ext1 <;> simp [code, pool, scope]

end Stmt

/-! ## All statements -/

namespace Stmt

variable {s : Stmt} {ts rest : List Token}

theorem Derives.scope_eq (hd : s.Derives ts rest) (sc : Scope) : s.scope sc = sc := by
  cases hd <;> rfl

/-- What a statement starts with tells it from a declaration, and from the end of a block. -/
theorem Derives.first (hd : s.Derives ts rest) :
    ∃ t ts', ts = t :: ts' ∧ (t.kind ≠ .kwFun ∧ t.kind ≠ .kwVar) ∧
      t.kind ≠ .rightBrace ∧ t.kind ≠ .eof := by
  cases hd with
  | expression he _ =>
    obtain ⟨t, ts', rfl, hStart⟩ := he.leading
    refine ⟨t, ts', rfl, ⟨?_, ?_⟩, ?_, ?_⟩ <;>
    · intro hk
      rw [hk] at hStart
      cases hStart
  | print hk | block hk | ifThen hk | ifElse hk | whileLoop hk | forLoop hk | ret hk =>
    exact ⟨_, _, rfl, by simp [hk], by simp [hk]⟩

theorem DerivesDeclaration.first (hd : s.DerivesDeclaration ts rest) :
    ∃ t ts', ts = t :: ts' ∧ t.kind ≠ .rightBrace ∧ t.kind ≠ .eof := by
  cases hd with
  | statement hs =>
    obtain ⟨t, ts', hEq, -, hFirst⟩ := hs.first
    exact ⟨t, ts', hEq, hFirst⟩
  | var hk | function hk => exact ⟨_, _, rfl, by simp [hk]⟩

end Stmt

mutual

/-- The compiler writes the code of every derived statement. -/
theorem Stmt.Derives.runs {s : Stmt} {ts rest : List Token} : s.Derives ts rest → s.Runs ts rest
  | .expression he hs => Stmt.runs_expression he hs
  | .print hk he hs => Stmt.runs_print hk he.runs hs
  | .block ho hs hc => Stmt.runs_block ho hs.runs hc
  | .ifThen hk ho hCondition hc hs hElse => Stmt.runs_ifThen hk ho hCondition.runs hc hs.runs hElse
  | .ifElse hk ho hCondition hc hs hElse hs' =>
    Stmt.runs_ifElse hk ho hCondition.runs hc hs.runs hElse hs'.runs
  | .whileLoop hk ho hCondition hc hs => Stmt.runs_whileLoop hk ho hCondition.runs hc hs.runs
  | .forLoop hk ho hFirst hCondition hIncrement hs =>
    Stmt.runs_forLoop hk ho hFirst.runs hCondition hIncrement hs.runs
  | .ret hk hValue => Stmt.runs_ret hk hValue

theorem Stmt.DerivesDeclaration.runs {s : Stmt} {ts rest : List Token} :
    s.DerivesDeclaration ts rest → s.RunsDeclaration ts rest
  | .statement hs =>
    have ⟨t, ts', hEq, hFirst, _⟩ := hs.first
    Stmt.runsDeclaration_statement hs.runs hs.scope_eq ⟨t, ts', hEq, hFirst⟩
  | .var hk hx => Stmt.runsDeclaration_var hk hx.runs
  | .function hk hn ho hps hb hs hc =>
    Stmt.runsDeclaration_function hk hn ho hps hb hs.runs hc

theorem Stmt.DerivesList.runs {ss : List Stmt} {ts rest : List Token} :
    Stmt.DerivesList ss ts rest → Stmt.RunsList ss ts rest
  | .nil => Stmt.runsList_nil
  | .cons hs hss => Stmt.runsList_cons hs.runs hs.uses.length_lt hs.first hss.runs

end

end Lox
