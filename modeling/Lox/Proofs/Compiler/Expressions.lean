import Lox.Proofs.Compiler.View

/-!
# Code of expressions

From tokens that derive an expression, the compiler writes the code of the expression where it is
legal and not nested too deep, and reports a problem where it is not.

The code of a left operand is written before its operator is seen, so the statement is about the way
through `operand`: behind a derived expression the loop over the operators goes on from there
(`Expr.Runs`).
-/

set_option autoImplicit false

namespace Lox

open Lox.Parser (maxArguments maxConstants maxDistance)

/-- The view after some tokens were read, up to the token `t`, and some code was written. -/
@[simps]
def View.wrote (v : View) (rest : List Token) (t : Token) (code : Code) (pool : List Const) : View :=
  { v with toks := rest, last := t, code := v.code ++ code, pool := pool }

/-- What stands behind an expression does not belong to it. -/
def Precedence.Follows (asked layer : Precedence) (rest : List Token) : Prop :=
  ∃ t ts, rest = t :: ts ∧ layer.Fits t.kind ∧
    (asked.rank ≤ Precedence.assignment.rank → t.kind ≠ .equal)

namespace Parser

/-- The end of an operand: an equals sign must not stand behind it. -/
def finish (asked : Precedence) (p : Parser) : Parser :=
  if asked.rank ≤ Precedence.assignment.rank && p.check .equal then
    p.advance.error .invalidAssignmentTarget
  else p

theorem leads_finish (asked : Precedence) (p : Parser) : p.Leads (finish asked p) :=
  .ite ((leads_advance p).trans (writes_error ..).leads) (.refl p)

theorem operand_eq {inner : Level} {asked : Precedence} {p : Parser} {rule : Leading}
    (h : p.current.kind.leading? = some rule) : operand inner asked p =
      finish asked (operators inner asked
        (leading inner (asked.rank ≤ Precedence.assignment.rank) p.advance rule).total
        (leading inner (asked.rank ≤ Precedence.assignment.rank) p.advance rule)) := by
  unfold operand
  dsimp only
  rw [previous_advance, h]
  rfl

theorem operators_eq_self {inner : Level} {asked : Precedence} {p : Parser}
    (h : p.current.kind.precedence.rank < asked.rank) (fuel : Nat) :
    operators inner asked fuel p = p := by
  cases fuel with
  | zero => rfl
  | succ fuel => rw [operators, if_neg (Nat.not_le.2 h)]

theorem operators_eq_trailing {inner : Level} {asked : Precedence} {p : Parser} {rule : Trailing}
    (h : asked.rank ≤ p.current.kind.precedence.rank) (hRule : p.current.kind.trailing? = some rule)
    (fuel : Nat) : operators inner asked (fuel + 1) p =
      operators inner asked fuel (trailing inner p.advance rule) := by
  rw [operators, if_pos h]
  dsimp only
  rw [previous_advance, hRule]

end Parser

namespace Expr

/-- An expression is legal, its constants fit, and it takes at most so many levels. -/
def Good (n : Nat) (ls : List Local) (k : List Const) (e : Expr) : Prop :=
  e.Legal ls k ∧ (e.pool ls k).length ≤ maxConstants ∧ e.nesting ≤ n

/-- The same of some expressions. -/
def GoodList (n : Nat) (ls : List Local) (k : List Const) (es : List Expr) : Prop :=
  LegalList ls k es ∧ (poolOfAll ls k es).length ≤ maxConstants ∧ nestingOfAll es ≤ n

/-- The view behind an expression whose last token is `t`. -/
abbrev after (e : Expr) (v : View) (rest : List Token) (t : Token) : View :=
  v.wrote rest t (e.code v.scope.locals v.pool) (e.pool v.scope.locals v.pool)

/-- The way through an operand leads past an expression, whose last token is `t`, to the operators
behind it. -/
def RunsFrom (n : Nat) (asked : Precedence) (w : World) (v : View) (p : Parser)
    (rest : List Token) (t : Token) (e : Expr) : Prop :=
  ∃ (fuel : Nat) (q : Parser),
    Parser.operand (Level.ofDepth n) asked p =
      Parser.finish asked (Parser.operators (Level.ofDepth n) asked fuel q) ∧
    (q.Clean → rest.length ≤ fuel) ∧
    Gives (e.Good (n + 1) v.scope.locals v.pool) w (e.after v rest t) q

/-- The same wherever the expression stands. -/
def RunsTo (layer : Precedence) (t : Token) (e : Expr) (ts rest : List Token) : Prop :=
  ∀ (n : Nat) (asked : Precedence) (w : World) (v : View) (p : Parser), Shows w v p → v.toks = ts →
    asked ≠ .none → asked.rank ≤ layer.rank → asked.Follows layer rest →
    e.RunsFrom n asked w v p rest t

/-- The same for some last token on the line where the expression ends. -/
def Runs (layer : Precedence) (e : Expr) (ts rest : List Token) : Prop :=
  ∃ t : Token, t.line = e.endLine ∧ e.RunsTo layer t ts rest

end Expr

section
variable {n : Nat} {asked : Precedence} {w : World} {v : View} {p : Parser}

theorem Shows.current (h : Shows w v p) {t : Token} {ts : List Token} (ht : v.toks = t :: ts) :
    p.current = t := (List.cons.inj (h.toks.trans ht)).1

/-- The first token of an expression is none of those that stand where there is no expression. -/
theorem Shows.check_of_leading (h : Shows w v p) {t : Token} {ts : List Token} (ht : v.toks = t :: ts)
    (hStart : t.kind.leading?.isSome) {kind : Token.Kind} (hKind : kind.leading? = none) :
    p.check kind = false := by
  rw [h.check ht, decide_eq_false_iff_not]
  intro hk
  rw [hk, hKind] at hStart
  cases hStart

/-- What the first token starts is the whole expression. -/
theorem Expr.RunsFrom.of_leading {e : Expr} {t : Token} {ts rest : List Token} (rule : Leading)
    (h : Shows w v p) (ht : v.toks = t :: ts) (hRule : t.kind.leading? = some rule) {last : Token}
    (hg : Gives (e.Good (n + 1) v.scope.locals v.pool) w (e.after v rest last)
      (Parser.leading (Level.ofDepth n) (asked.rank ≤ Precedence.assignment.rank) p.advance rule)) :
    e.RunsFrom n asked w v p rest last := by
  have hEq : Parser.operand (Level.ofDepth n) asked p = _ :=
    Parser.operand_eq ((h.current ht).symm ▸ hRule)
  refine ⟨_, _, hEq, fun hc => ?_, hg⟩
  rcases hg with ⟨-, w', -, hs⟩ | ⟨-, hNot⟩
  · rw [hs.total]
    exact hs.fuel
  · exact absurd hc hNot

end

/-- A token that ends the operands of a layer. -/
def Precedence.Stops (layer : Precedence) (rest : List Token) : Prop :=
  ∃ t ts, rest = t :: ts ∧ t.kind.precedence.rank < layer.rank ∧
    (layer.rank ≤ Precedence.assignment.rank → t.kind ≠ .equal)

theorem Precedence.stops_of_kind {layer : Precedence} {t : Token} {ts : List Token}
    {kind : Token.Kind} (hKind : t.kind = kind) (h : kind.precedence.rank < layer.rank)
    (hEqual : kind ≠ .equal) : layer.Stops (t :: ts) :=
  ⟨t, ts, rfl, hKind ▸ h, fun _ => hKind ▸ hEqual⟩

namespace Expr

variable {t : Token} {rest : List Token}

theorem one_le_nesting (e : Expr) : 1 ≤ e.nesting := by
  cases e with
  | nil | bool | number | string | name => exact Nat.le_refl 1
  | assign | group | unary => exact Nat.le_add_right ..
  | binary _ left | and left | or left | call left =>
    exact (one_le_nesting left).trans (Nat.le_max_left ..)

/-- The run of a whole operand, one level deeper. -/
theorem RunsTo.operand {layer : Precedence} {e : Expr} {ts : List Token}
    (hr : e.RunsTo layer t ts rest) {n : Nat} {w : World} {v : View} {p : Parser} (h : Shows w v p)
    (ht : v.toks = ts) (hNone : layer ≠ .none) (hStops : layer.Stops rest) :
    Gives (e.Good n v.scope.locals v.pool) w (e.after v rest t)
      ((Level.ofDepth n).operand layer p) := by
  obtain ⟨next, ts', rfl, hRank, hEqual⟩ := hStops
  cases n with
  | zero =>
    refine .of_not (fun hg => ?_) (Parser.not_clean_giveUp h.sane)
    have hLevels := hg.2.2
    have hOne := e.one_le_nesting
    omega
  | succ n =>
    obtain ⟨fuel, q, hEq, -, hg⟩ :=
      hr n layer w v p h ht hNone le_rfl ⟨next, ts', rfl, Precedence.fits_of_lt hRank, hEqual⟩
    rw [Level.ofDepth, Level.around]
    dsimp only
    rw [hEq]
    refine hg.next ((Parser.leads_operators (Level.leads_ofDepth n) ..).trans
      (Parser.leads_finish ..)) fun w' hs => ?_
    have hCurrent : q.current = next := hs.current rfl
    rw [Parser.operators_eq_self (hCurrent.symm ▸ hRank), Parser.finish, hs.check rfl, if_neg]
    · exact hs
    · simpa using hEqual

/-! ## At the start of an expression -/

/-- A keyword that is a literal. -/
theorem runs_keyword {e : Expr} {op : Opcode} (ht : t.kind.leading? = some .literal)
    (hLiteral : ∀ p : Parser, p.previous = t → p.literal = p.emit op)
    (hCode : ∀ ls k, e.code ls k = .op op t.line) (hPool : ∀ ls k, e.pool ls k = k)
    (hLegal : ∀ ls k, e.Legal ls k) (hNesting : e.nesting = 1) (hLine : t.line = e.endLine) :
    e.Runs .primary (t :: rest) rest := by
  refine ⟨t, hLine, fun n asked w v p h hToks _ _ _ => ?_⟩
  have hPlain : t.Plain := by
    unfold Token.Plain
    cases hk : t.kind <;> first | rfl | (rw [hk] at ht; cases ht)
  have hs := h.advance hToks hPlain
  refine .of_leading .literal h hToks ht ?_
  rw [Parser.leading, hLiteral _ hs.last, after, hCode, hPool]
  refine (hs.emit op).gives.congr (iff_of_true trivial ⟨hLegal .., ?_, by omega⟩)
  rw [hPool]
  exact h.fits

theorem runs_nil (ht : t.kind = .kwNil) : (Expr.nil t.line).Runs .primary (t :: rest) rest :=
  runs_keyword (by rw [ht]; rfl) (fun p hp => by rw [Parser.literal, hp, ht]) (fun _ _ => rfl)
    (fun _ _ => rfl) (fun _ _ => trivial) rfl rfl

theorem runs_true (ht : t.kind = .kwTrue) :
    (Expr.bool true t.line).Runs .primary (t :: rest) rest :=
  runs_keyword (by rw [ht]; rfl) (fun p hp => by rw [Parser.literal, hp, ht]; rfl) (fun _ _ => rfl)
    (fun _ _ => rfl) (fun _ _ => trivial) rfl rfl

theorem runs_false (ht : t.kind = .kwFalse) :
    (Expr.bool false t.line).Runs .primary (t :: rest) rest :=
  runs_keyword (by rw [ht]; rfl) (fun p hp => by rw [Parser.literal, hp, ht]; rfl) (fun _ _ => rfl)
    (fun _ _ => rfl) (fun _ _ => trivial) rfl rfl

/-- A literal takes one constant. -/
theorem good_constant {n : Nat} {ls : List Local} {k : List Const} {e : Expr} {c : Const}
    (hLegal : e.Legal ls k) (hPool : e.pool ls k = k ++ [c]) (hNesting : e.nesting = 1) :
    k.length + 1 ≤ maxConstants ↔ e.Good (n + 1) ls k := by
  have hLength : (e.pool ls k).length = k.length + 1 := by rw [hPool]; simp
  exact ⟨fun hk => ⟨hLegal, hLength.symm ▸ hk, by omega⟩, fun hg => hLength ▸ hg.2.1⟩

theorem runs_number (ht : t.kind = .number) :
    (Expr.number t.numberValue t.line).Runs .primary (t :: rest) rest := by
  refine ⟨t, rfl, fun n asked w v p h hToks _ _ _ => ?_⟩
  have hs := h.advance hToks (.of_kind ht rfl)
  have hNumber : p.advance.number = p.advance.emitConstant (.number t.numberValue) := by
    rw [Parser.number, hs.last]
    rfl
  refine .of_leading .number h hToks (by rw [ht]; rfl) ?_
  rw [Parser.leading, hNumber]
  exact (hs.emitConstant (.number _)).congr (good_constant trivial rfl rfl)

theorem runs_string (ht : t.kind = .string) :
    (Expr.string t.quotedText t.line).Runs .primary (t :: rest) rest := by
  refine ⟨t, rfl, fun n asked w v p h hToks _ _ _ => ?_⟩
  have hs := h.advance hToks (.of_kind ht rfl)
  have hString : p.advance.string = (p.advance.intern t.quotedText).2.emitConstant
      (.object (.string (p.advance.intern t.quotedText).1)) := by
    rw [Parser.string, hs.last]
    rfl
  refine .of_leading .string h hToks (by rw [ht]; rfl) ?_
  rw [Parser.leading, hString]
  obtain ⟨w', he, hs', hMem, hText⟩ := hs.intern t.quotedText
  have hc := World.Represents.string hMem
  rw [hText] at hc
  exact .of_extends he ((hs'.emitConstant hc).congr (good_constant trivial rfl rfl))

theorem runs_name (ht : t.kind = .identifier) :
    (Expr.name t.lexeme t.line).Runs .primary (t :: rest) rest := by
  refine ⟨t, rfl, ?_⟩
  rintro n asked w v p h hToks - - ⟨next, ts, rfl, -, hEqual⟩
  have hs := h.advance hToks (.of_kind ht rfl)
  refine .of_leading .name h hToks (by rw [ht]; rfl) ?_
  have hResolve := hs.resolve t.lexeme
  have hRef := hs.resolve_reference t.lexeme
  have hPrevious : p.advance.previous = t := hs.last
  rw [Parser.leading, Parser.name, hPrevious]
  generalize p.advance.resolve t.lexeme = resolved at hResolve hRef ⊢
  obtain ⟨ref, q⟩ := resolved
  have hLeads : q.Leads (if decide (asked.rank ≤ Precedence.assignment.rank) && q.check .equal then
      (Parser.expression (Level.ofDepth n) q.advance).emitSet ref else q.emitGet ref) :=
    .ite ((Parser.leads_advance q).trans <|
      (Parser.leads_expression (Level.leads_ofDepth n) _).trans (Parser.writes_emitSet ..).leads)
      (Parser.writes_emitGet ..).leads
  refine (hResolve.next hLeads fun w' hs' => ?_).congr ?_
  · have hPlain : (decide (asked.rank ≤ Precedence.assignment.rank) && q.check .equal) = false := by
      rw [hs'.check rfl]
      simpa using hEqual
    rw [hPlain, if_neg Bool.false_ne_true]
    obtain rfl : ref = (Referent.of v.scope.locals v.pool t.lexeme).reference := hRef hs'.fits
    exact hs'.emitGet _
  · exact ⟨fun hok => ⟨hok.1, hok.2, Nat.succ_le_succ (Nat.zero_le n)⟩, fun hg => ⟨hg.1, hg.2.1⟩⟩

theorem runs_group {opening closing : Token} {ts : List Token} {e : Expr}
    (ho : opening.kind = .leftParen) (hc : closing.kind = .rightParen)
    (he : e.Runs .assignment ts (closing :: rest)) :
    (Expr.group e closing.line).Runs .primary (opening :: ts) rest := by
  obtain ⟨last, -, hr⟩ := he
  refine ⟨closing, rfl, fun n asked w v p h hToks _ _ _ => ?_⟩
  have hs := h.advance hToks (.of_kind ho rfl)
  have hg := hr.operand (n := n) hs rfl (by decide)
    (Precedence.stops_of_kind hc (by decide) (by decide))
  refine .of_leading .grouping h hToks (by rw [ho]; rfl) ?_
  refine (hg.next (Parser.leads_consume ..) fun w' hs' => ?_).congr ?_
  · exact hs'.consume _ rfl hc rfl
  · rw [Good, Good, Legal, pool, nesting]
    exact and_congr_right' (and_congr_right' (by omega))

theorem runs_unary {ts : List Token} {op : UnaryOperator} {e : Expr} (ht : t.kind = op.kind)
    (he : e.Runs .unary ts rest) : (Expr.unary op e).Runs .unary (t :: ts) rest := by
  obtain ⟨last, hLine, hr⟩ := he
  refine ⟨last, hLine, ?_⟩
  rintro n asked w v p h hToks - - ⟨next, ts', rfl, hFits, -⟩
  have hs := h.advance hToks (UnaryOperator.plain_of_kind ht)
  have hStops : Precedence.unary.Stops (next :: ts') := by
    refine ⟨next, ts', rfl, lt_of_le_of_ne hFits.1 ?_, fun h => absurd h (by decide)⟩
    unfold Token.Kind.precedence
    split <;> decide
  have hg := hr.operand (n := n) hs rfl (by decide) hStops
  have hUnary : Parser.unary (Level.ofDepth n) p.advance =
      ((Level.ofDepth n).operand .unary p.advance).emit op.opcode := by
    have hPrevious : p.advance.previous = t := hs.last
    rw [Parser.unary, hPrevious, ht]
    cases op <;> rfl
  refine .of_leading .unary h hToks (by rw [ht]; cases op <;> rfl) ?_
  rw [Parser.leading, hUnary]
  refine (hg.next (Parser.writes_emit ..).leads fun w' hs' => ?_).congr ?_
  · have hs'' := hs'.emit op.opcode
    rw [after, View.wrote, code, ← hLine, ← List.append_assoc]
    exact hs''
  · rw [Good, Good, Legal, pool, nesting]
    exact and_congr_right' (and_congr_right' (by omega))

theorem good_assign {n : Nat} {ls : List Local} {k : List Const} {name : String} {e : Expr} :
    (Scope.Usable ls name ∧ (Referent.pool ls k name).length ≤ maxConstants) ∧
      e.Good n ls (Referent.pool ls k name) ↔ (Expr.assign name e).Good (n + 1) ls k := by
  have hPool := (e.prefix_pool ls (Referent.pool ls k name)).length_le
  rw [Good, Good, Legal, pool, nesting]
  constructor
  · rintro ⟨⟨hu, -⟩, hl, hk, hn⟩
    exact ⟨⟨hu, hl⟩, hk, by omega⟩
  · rintro ⟨⟨hu, hl⟩, hk, hn⟩
    exact ⟨⟨hu, by omega⟩, hl, hk, by omega⟩

theorem runs_assign {name equals : Token} {ts : List Token} {e : Expr}
    (hn : name.kind = .identifier) (hq : equals.kind = .equal) (he : e.Runs .assignment ts rest) :
    (Expr.assign name.lexeme e).Runs .assignment (name :: equals :: ts) rest := by
  obtain ⟨last, hLine, hr⟩ := he
  refine ⟨last, hLine, ?_⟩
  rintro n asked w v p h hToks hNone hAsked ⟨next, ts', rfl, hFits, hEqual⟩
  have hs := h.advance hToks (.of_kind hn rfl)
  have hStops : Precedence.assignment.Stops (next :: ts') :=
    ⟨next, ts', rfl, hFits.2 (by decide), fun _ => hEqual hAsked⟩
  refine .of_leading .name h hToks (by rw [hn]; rfl) ?_
  have hResolve := hs.resolve name.lexeme
  have hRef := hs.resolve_reference name.lexeme
  have hPrevious : p.advance.previous = name := hs.last
  rw [Parser.leading, Parser.name, hPrevious, decide_eq_true hAsked]
  generalize p.advance.resolve name.lexeme = resolved at hResolve hRef ⊢
  obtain ⟨ref, q⟩ := resolved
  have hSet := Parser.writes_emitSet (Parser.expression (Level.ofDepth n) q.advance) ref
  have hLeads : q.Leads (if true && q.check .equal then
      (Parser.expression (Level.ofDepth n) q.advance).emitSet ref else q.emitGet ref) :=
    .ite ((Parser.leads_advance q).trans <|
      (Parser.leads_expression (Level.leads_ofDepth n) _).trans hSet.leads)
      (Parser.writes_emitGet ..).leads
  refine (hResolve.bind hLeads fun w' he hs' => ?_).congr (good_assign (n := n))
  have hCheck : q.check .equal = true := by rw [hs'.check rfl, decide_eq_true hq]
  have hg := hr.operand (n := n) (hs'.advance rfl (.of_kind hq rfl)) rfl (by decide) hStops
  obtain rfl : ref = (Referent.of v.scope.locals v.pool name.lexeme).reference := hRef hs'.fits
  rw [hCheck, Bool.and_self, if_pos rfl]
  refine hg.next hSet.leads fun w'' hs'' => ?_
  rw [after, View.wrote, code, ← hLine, ← List.append_assoc]
  exact hs''.emitSet _

/-! ## Behind an operand -/

/-- One more round of the loop over the operators: the operator `o` and its right operand. -/
theorem RunsFrom.trailing {n : Nat} {asked : Precedence} {w : World} {v : View} {p : Parser}
    {left e : Expr} {o last : Token} {ts : List Token} {rule : Trailing} {ok : Prop}
    (hl : left.RunsFrom n asked w v p (o :: ts) last) (hRule : o.kind.trailing? = some rule)
    (hAsked : asked.rank ≤ o.kind.precedence.rank)
    (hStep : ∀ w' q, Shows w' (left.after v ts o) q →
      Gives ok w' (e.after v rest t) (Parser.trailing (Level.ofDepth n) q rule))
    (hGood : left.Good (n + 1) v.scope.locals v.pool ∧ ok ↔ e.Good (n + 1) v.scope.locals v.pool) :
    e.RunsFrom n asked w v p rest t := by
  obtain ⟨fuel, q, hEq, hFuel, hg⟩ := hl
  rcases hg with ⟨hok, w', he, hs⟩ | ⟨hok, hc⟩
  · have hPlain : o.Plain := by
      unfold Token.Plain
      cases hk : o.kind <;> first | rfl | (rw [hk] at hRule; cases hRule)
    have hCurrent : q.current = o := hs.current rfl
    have hsq := hs.advance rfl hPlain
    have hNext := hStep w' q.advance hsq
    obtain ⟨fuel', rfl⟩ : ∃ fuel', fuel = fuel' + 1 := ⟨fuel - 1, by
      have := hFuel hs.clean
      simp only [List.length_cons] at this
      omega⟩
    refine ⟨fuel', _, ?_, fun hc => ?_, .of_extends he (hNext.congr ?_)⟩
    · rw [hEq, Parser.operators_eq_trailing (hCurrent.symm ▸ hAsked) (hCurrent.symm ▸ hRule)]
    · rcases hNext with ⟨-, w'', -, hs'⟩ | ⟨-, hNot⟩
      · have hShorter := (Parser.leads_trailing (Level.leads_ofDepth n) q.advance rule).length_le
        have hEnd := congrArg List.length hs'.toks
        have hStart := congrArg List.length hsq.toks
        have hRound := hFuel hs.clean
        simp only [Parser.toks, View.wrote_toks, View.read_toks, List.length_cons] at hEnd hStart hRound
        omega
      · exact absurd hc hNot
    · rw [← hGood]
      exact (and_iff_right hok).symm
  · exact ⟨fuel, q, hEq, fun h => absurd h hc, .of_not (fun hg => hok (hGood.2 hg).1) hc⟩

end Expr

theorem Shows.emits {w : World} {v : View} {p : Parser} (h : Shows w v p) (ops : List Opcode) :
    Shows w (v.emit (ops.flatMap fun o => Code.op o v.last.line)) (ops.foldl Parser.emit p) := by
  induction ops generalizing v p with
  | nil =>
    rw [List.flatMap_nil, View.emit_nil]
    exact h
  | cons o ops ih =>
    have hs := ih (h.emit o)
    rw [View.emit_emit] at hs
    exact hs

namespace Expr

variable {t : Token} {rest : List Token}

theorem good_binary {n : Nat} {ls : List Local} {k : List Const} {op : BinaryOperator}
    {left right : Expr} : left.Good (n + 1) ls k ∧ right.Good n ls (left.pool ls k) ↔
      (Expr.binary op left right).Good (n + 1) ls k := by
  have hPool := (right.prefix_pool ls (left.pool ls k)).length_le
  rw [Good, Good, Good, Legal, pool, nesting]
  constructor
  · rintro ⟨⟨hl, -, hn⟩, hr, hk, hn'⟩
    exact ⟨⟨hl, hr⟩, hk, by omega⟩
  · rintro ⟨⟨hl, hr⟩, hk, hn⟩
    exact ⟨⟨hl, by omega, by omega⟩, hr, hk, by omega⟩

theorem runs_binary {ts ts' : List Token} {op : BinaryOperator} {left right : Expr}
    (hl : left.Runs op.layer ts (t :: ts')) (ht : t.kind = op.kind)
    (hr : right.Runs op.layer.next ts' rest) :
    (Expr.binary op left right).Runs op.layer ts rest := by
  obtain ⟨lastLeft, -, hl⟩ := hl
  obtain ⟨last, hLine, hr⟩ := hr
  have hLayer : t.kind.precedence = op.layer := by rw [ht, op.precedence_kind]
  have hLeft : ¬ op.layer.rank ≤ Precedence.and.rank := by cases op <;> decide
  refine ⟨last, hLine, ?_⟩
  rintro n asked w v p h hToks hNone hAsked ⟨next, ts'', rfl, hFits, -⟩
  have hFollows : asked.Follows op.layer (t :: ts') := by
    refine ⟨t, ts', rfl, ⟨by rw [hLayer], fun h => absurd h hLeft⟩, fun _ => ?_⟩
    rw [ht]
    cases op <;> decide
  have hStops : op.layer.next.Stops (next :: ts'') := by
    have hNext : op.layer.next.rank = op.layer.rank + 1 := by cases op <;> rfl
    have hTight : ¬ op.layer.next.rank ≤ Precedence.assignment.rank := by cases op <;> decide
    exact ⟨next, ts'', rfl, hNext ▸ Nat.lt_succ_of_le hFits.1, fun h => absurd h hTight⟩
  have hRule : t.kind.trailing? = some .binary := by
    rw [ht]
    cases op <;> rfl
  refine (hl n asked w v p h hToks hNone hAsked hFollows).trailing hRule (hLayer ▸ hAsked)
    (fun w' q hs => ?_) good_binary
  have hg := hr.operand (n := n) hs rfl (by cases op <;> decide) hStops
  have hBinary : Parser.binary (Level.ofDepth n) q =
      op.opcodes.foldl Parser.emit ((Level.ofDepth n).operand op.layer.next q) := by
    have hKind : q.previous.kind = op.kind := hs.last.symm ▸ ht
    rw [Parser.binary, hKind, op.precedence_kind]
    cases op <;> rfl
  rw [Parser.trailing, hBinary]
  refine hg.next (Parser.writes_emits ..).leads fun w'' hs' => ?_
  have hs'' := hs'.emits op.opcodes
  rw [after, View.wrote, code, ← hLine, ← List.append_assoc, ← List.append_assoc]
  exact hs''

/-- A right operand that is skipped by a jump must not be too long. -/
theorem good_jump {n : Nat} {ls : List Local} {k : List Const} {e left right : Expr} {fits : Prop}
    (hLegal : e.Legal ls k ↔ left.Legal ls k ∧ right.Legal ls (left.pool ls k) ∧ fits)
    (hPool : e.pool ls k = right.pool ls (left.pool ls k))
    (hNesting : e.nesting = max left.nesting (1 + right.nesting)) :
    left.Good (n + 1) ls k ∧ right.Good n ls (left.pool ls k) ∧ fits ↔ e.Good (n + 1) ls k := by
  have hLength := (right.prefix_pool ls (left.pool ls k)).length_le
  rw [Good, Good, Good, hLegal, hPool, hNesting]
  constructor
  · rintro ⟨⟨hl, -, hn⟩, ⟨hr, hk, hn'⟩, hf⟩
    exact ⟨⟨hl, hr, hf⟩, hk, by omega⟩
  · rintro ⟨⟨hl, hr, hf⟩, hk, hn⟩
    exact ⟨⟨hl, by omega, by omega⟩, ⟨hr, hk, by omega⟩, hf⟩

theorem runs_and {ts ts' : List Token} {left right : Expr}
    (hl : left.Runs .equality ts (t :: ts')) (ht : t.kind = .kwAnd)
    (hr : right.Runs .and ts' rest) : (Expr.and left right t.line).Runs .and ts rest := by
  obtain ⟨lastLeft, -, hl⟩ := hl
  obtain ⟨last, hLine, hr⟩ := hr
  refine ⟨last, hLine, ?_⟩
  rintro n asked w v p h hToks hNone hAsked ⟨next, ts'', rfl, hFits, -⟩
  have hFollows : asked.Follows .equality (t :: ts') :=
    ⟨t, ts', rfl, ht ▸ ⟨by decide, by decide⟩, fun _ => ht ▸ by decide⟩
  have hStops : Precedence.and.Stops (next :: ts'') :=
    ⟨next, ts'', rfl, hFits.2 le_rfl, fun h => absurd h (by decide)⟩
  refine (hl n asked w v p h hToks hNone (hAsked.trans (by decide)) hFollows).trailing (by rw [ht]; rfl)
    (by rw [ht]; exact hAsked) (fun w' q hs => ?_) (good_jump Iff.rfl rfl rfl)
  obtain ⟨hs₁, hOffset⟩ := hs.emitJump .jumpIfFalse rfl
  have hg := hr.operand (n := n) (hs₁.emit .pop) rfl (by decide) hStops
  refine hg.bind (Parser.writes_patchJump ..).leads fun w'' _ hs₂ => ?_
  set R := right.code v.scope.locals (left.pool v.scope.locals v.pool) with hR
  have hSize : (Code.op .pop t.line ++ R).size = 1 + R.size := by simp [Opcode.operandSize]
  have hPatch := hs₂.patchJump (v.code ++ left.code v.scope.locals v.pool) .jumpIfFalse t.line
    (.op .pop t.line ++ R) (by simp [hR]) rfl hOffset
  rw [hSize] at hPatch
  exact hPatch.view (by ext1 <;> simp [code, pool, hR])

theorem runs_or {ts ts' : List Token} {left right : Expr}
    (hl : left.Runs .and ts (t :: ts')) (ht : t.kind = .kwOr)
    (hr : right.Runs .or ts' rest) : (Expr.or left right t.line).Runs .or ts rest := by
  obtain ⟨lastLeft, -, hl⟩ := hl
  obtain ⟨last, hLine, hr⟩ := hr
  refine ⟨last, hLine, ?_⟩
  rintro n asked w v p h hToks hNone hAsked ⟨next, ts'', rfl, hFits, -⟩
  have hFollows : asked.Follows .and (t :: ts') :=
    ⟨t, ts', rfl, ht ▸ ⟨by decide, by decide⟩, fun _ => ht ▸ by decide⟩
  have hStops : Precedence.or.Stops (next :: ts'') :=
    ⟨next, ts'', rfl, hFits.2 (by decide), fun h => absurd h (by decide)⟩
  refine (hl n asked w v p h hToks hNone (hAsked.trans (by decide)) hFollows).trailing (by rw [ht]; rfl)
    (by rw [ht]; exact hAsked) (fun w' q hs => ?_) (good_jump Iff.rfl rfl rfl)
  obtain ⟨hs₁, hElse⟩ := hs.emitJump .jumpIfFalse rfl
  obtain ⟨hs₂, hEnd⟩ := hs₁.emitJump .jump rfl
  obtain ⟨w₂, he₂, hs₃⟩ := (hs₂.patchJump (v.code ++ left.code v.scope.locals v.pool) .jumpIfFalse
    t.line (.one .jump maxDistance t.line) (by simp) rfl hElse).shows
    (by simp [Opcode.operandSize, maxDistance])
  have hg := hr.operand (n := n) (hs₃.emit .pop) rfl (by decide) hStops
  refine .of_extends he₂ (hg.bind (Parser.writes_patchJump ..).leads fun w'' _ hs₄ => ?_)
  set R := right.code v.scope.locals (left.pool v.scope.locals v.pool) with hR
  have hSize : (Code.op .pop t.line ++ R).size = 1 + R.size := by simp [Opcode.operandSize]
  have hPatch := hs₄.patchJump (v.code ++ left.code v.scope.locals v.pool ++ .one .jumpIfFalse 3 t.line)
    .jump t.line (.op .pop t.line ++ R) (by simp [hR, Opcode.operandSize]) rfl
    (hEnd.trans (by simp [Opcode.operandSize]))
  rw [hSize] at hPatch
  exact hPatch.view (by ext1 <;> simp [code, pool, hR])

/-! ## Calls -/

/-- How the compiler reads arguments: those read before are counted. -/
def RunsList (es : List Expr) (ts rest : List Token) : Prop :=
  ∃ t : Token, ∀ (n count fuel : Nat) (w : World) (v : View) (p : Parser), Shows w v p →
    v.toks = ts → ts.length ≤ fuel → count ≤ maxArguments →
    Precedence.assignment.Stops rest → (∀ t ∈ rest.head?, t.kind ≠ .comma) →
    Gives (GoodList n v.scope.locals v.pool es ∧ count + es.length ≤ maxArguments) w
      (v.wrote rest t (codeOfAll v.scope.locals v.pool es) (poolOfAll v.scope.locals v.pool es))
      (Parser.arguments (Level.ofDepth n) fuel count p).2 ∧
    ((Parser.arguments (Level.ofDepth n) fuel count p).2.Clean →
      (Parser.arguments (Level.ofDepth n) fuel count p).1 = count + es.length)

theorem goodList_cons {n : Nat} {ls : List Local} {k : List Const} {e : Expr} {es : List Expr} :
    e.Good n ls k ∧ GoodList n ls (e.pool ls k) es ↔ GoodList n ls k (e :: es) := by
  have hLength := (prefix_poolOfAll ls es (e.pool ls k)).length_le
  rw [Good, GoodList, GoodList, LegalList, poolOfAll, nestingOfAll]
  constructor
  · rintro ⟨⟨hl, -, hn⟩, hls, hk, hns⟩
    exact ⟨⟨hl, hls⟩, hk, by omega⟩
  · rintro ⟨⟨hl, hls⟩, hk, hn⟩
    exact ⟨⟨hl, by omega, by omega⟩, hls, hk, by omega⟩

theorem goodList_nil {n : Nat} {ls : List Local} {k : List Const} (hk : k.length ≤ maxConstants) :
    GoodList n ls k [] := ⟨trivial, hk, Nat.zero_le n⟩

/-- One argument more. -/
theorem RunsTo.argument {e : Expr} {ts : List Token} (hr : e.RunsTo .assignment t ts rest)
    {n count : Nat} {w : World} {v : View} {p : Parser} (h : Shows w v p) (ht : v.toks = ts)
    (hCount : count ≤ maxArguments) (hStops : Precedence.assignment.Stops rest) :
    Gives (e.Good n v.scope.locals v.pool ∧ count + 1 ≤ maxArguments) w (e.after v rest t)
      (if count = maxArguments then
        (Parser.expression (Level.ofDepth n) p).error .tooManyArguments
      else Parser.expression (Level.ofDepth n) p) := by
  refine (hr.operand h ht (by decide) hStops).bind
    (Parser.Writes.ite (Parser.writes_error ..) (.refl _)).leads fun w' _ hs => ?_
  split
  · exact .of_not (by omega) (hs.not_clean_error _)
  · exact hs.gives.congr (iff_of_true trivial (by omega))

theorem runsList_last {ts : List Token} {e : Expr} (he : e.Runs .assignment ts rest) :
    RunsList [e] ts rest := by
  obtain ⟨last, -, hr⟩ := he
  refine ⟨last, ?_⟩
  rintro n count fuel w v p h ht hFuel hCount hStops hComma
  obtain ⟨fuel, rfl⟩ : ∃ fuel', fuel = fuel' + 1 := ⟨fuel - 1, by
    have hOne := congrArg List.length (h.toks.trans ht)
    simp only [Parser.toks, List.length_cons] at hOne
    omega⟩
  have hg := hr.argument (n := n) h ht hCount hStops
  obtain ⟨next, ts', rfl, -, -⟩ := hStops
  unfold Parser.arguments
  dsimp only
  generalize (if count = maxArguments then _ else _) = q at hg ⊢
  have hLeads : q.Leads (if q.check .comma then
      Parser.arguments (Level.ofDepth n) fuel (count + 1) q.advance else (count + 1, q)).2 := by
    split
    · exact (Parser.leads_advance q).trans (Parser.leads_arguments (Level.leads_ofDepth n) ..)
    · exact .refl q
  rcases hg with ⟨hok, w', he, hs⟩ | ⟨hok, hc⟩
  · have hCheck : q.check .comma = false := by
      rw [hs.check rfl]
      simpa using hComma
    rw [hCheck, if_neg Bool.false_ne_true]
    refine ⟨.inl ⟨⟨goodList_cons.1 ⟨hok.1, goodList_nil hs.fits⟩, hok.2⟩, w', he, ?_⟩, fun _ => rfl⟩
    rw [codeOfAll, codeOfAll, poolOfAll, poolOfAll, List.append_nil]
    exact hs
  · have hNot : ¬ _ := fun h => hc (hLeads.clean h)
    exact ⟨.of_not (fun hg => hok ⟨(goodList_cons.2 hg.1).1, hg.2⟩) hNot, fun h => absurd h hNot⟩

theorem runsList_more {comma : Token} {ts ts' : List Token} {e : Expr} {es : List Expr}
    (he : e.Runs .assignment ts (comma :: ts')) (hc : comma.kind = .comma)
    (hes : RunsList es ts' rest) (hShorter : ts'.length < ts.length) :
    RunsList (e :: es) ts rest := by
  obtain ⟨lastFirst, -, hr⟩ := he
  obtain ⟨last, hrs⟩ := hes
  refine ⟨last, ?_⟩
  rintro n count fuel w v p h ht hFuel hCount hStops hComma
  obtain ⟨fuel, rfl⟩ : ∃ fuel', fuel = fuel' + 1 := ⟨fuel - 1, by omega⟩
  have hg := hr.argument (n := n) h ht hCount
    (Precedence.stops_of_kind hc (by decide) (by decide))
  unfold Parser.arguments
  dsimp only
  generalize (if count = maxArguments then _ else _) = q at hg ⊢
  have hLeads : q.Leads (if q.check .comma then
      Parser.arguments (Level.ofDepth n) fuel (count + 1) q.advance else (count + 1, q)).2 := by
    split
    · exact (Parser.leads_advance q).trans (Parser.leads_arguments (Level.leads_ofDepth n) ..)
    · exact .refl q
  have hList : GoodList n v.scope.locals v.pool (e :: es) ∧ count + (e :: es).length ≤ maxArguments ↔
      (e.Good n v.scope.locals v.pool ∧ count + 1 ≤ maxArguments) ∧
        GoodList n v.scope.locals (e.pool v.scope.locals v.pool) es ∧
        count + 1 + es.length ≤ maxArguments := by
    rw [← goodList_cons, List.length_cons]
    constructor
    · rintro ⟨⟨hg, hgs⟩, hn⟩
      exact ⟨⟨hg, by omega⟩, hgs, by omega⟩
    · rintro ⟨⟨hg, -⟩, hgs, hn⟩
      exact ⟨⟨hg, hgs⟩, by omega⟩
  rcases hg with ⟨hok, w', he, hs⟩ | ⟨hok, hNot⟩
  · have hCheck : q.check .comma = true := by rw [hs.check rfl, decide_eq_true hc]
    rw [hCheck, if_pos rfl]
    obtain ⟨hgs, hCount'⟩ := hrs n (count + 1) fuel w' _ q.advance
      (hs.advance rfl (.of_kind hc rfl)) rfl (by omega) hok.2 hStops hComma
    refine ⟨.of_extends he ((hgs.view ?_).congr ?_), fun hClean => ?_⟩
    · ext1 <;> simp [codeOfAll, poolOfAll]
    · rw [hList]
      exact (and_iff_right hok).symm
    · rw [hCount' hClean, List.length_cons]
      omega
  · have hNot' : ¬ _ := fun h => hNot (hLeads.clean h)
    exact ⟨.of_not (fun hg => hok (hList.1 hg).1) hNot', fun h => absurd h hNot'⟩

theorem good_call {n : Nat} {ls : List Local} {k : List Const} {callee : Expr} {es : List Expr}
    {line : Nat} : callee.Good (n + 1) ls k ∧ GoodList n ls (callee.pool ls k) es ∧
      es.length ≤ maxArguments ↔ (Expr.call callee es line).Good (n + 1) ls k := by
  have hLength := (prefix_poolOfAll ls es (callee.pool ls k)).length_le
  rw [Good, Good, GoodList, Legal, pool, nesting]
  constructor
  · rintro ⟨⟨hl, -, hn⟩, ⟨hls, hk, hns⟩, hCount⟩
    exact ⟨⟨hl, hls, hCount⟩, hk, by omega⟩
  · rintro ⟨⟨hl, hls, hCount⟩, hk, hn⟩
    exact ⟨⟨hl, by omega, by omega⟩, ⟨hls, hk, by omega⟩, hCount⟩

theorem follows_paren {asked : Precedence} {ts : List Token} (ht : t.kind = .leftParen) :
    asked.Follows .call (t :: ts) :=
  ⟨t, ts, rfl, Precedence.fits_call _, fun _ => ht ▸ by decide⟩

theorem runs_callNone {opening closing : Token} {ts : List Token} {callee : Expr}
    (hr : callee.Runs .call ts (opening :: closing :: rest)) (ho : opening.kind = .leftParen)
    (hc : closing.kind = .rightParen) :
    (Expr.call callee [] closing.line).Runs .call ts rest := by
  obtain ⟨last, -, hr⟩ := hr
  refine ⟨closing, rfl, ?_⟩
  rintro n asked w v p h hToks hNone hAsked -
  refine (hr n asked w v p h hToks hNone hAsked (follows_paren ho)).trailing (by rw [ho]; rfl)
    (by rw [ho]; exact hAsked) (fun w' q hs => ?_) good_call
  have hCheck : q.check .rightParen = true := by rw [hs.check rfl, decide_eq_true hc]
  rw [Parser.trailing, Parser.call, hCheck, if_pos rfl]
  have hs' := (hs.consume .parenAfterArguments rfl hc rfl).emitWith .call 0
  refine (hs'.gives.congr (iff_of_true trivial ⟨goodList_nil hs.fits, Nat.zero_le _⟩)).view ?_
  ext1 <;> simp [code, codeOfAll, pool, poolOfAll]

theorem runs_callSome {opening closing : Token} {ts ts' : List Token} {callee : Expr}
    {es : List Expr} (hr : callee.Runs .call ts (opening :: ts')) (ho : opening.kind = .leftParen)
    (hes : RunsList es ts' (closing :: rest)) (hc : closing.kind = .rightParen)
    (hStart : ∃ t ts'', ts' = t :: ts'' ∧ t.kind.leading?.isSome) :
    (Expr.call callee es closing.line).Runs .call ts rest := by
  obtain ⟨last, -, hr⟩ := hr
  obtain ⟨lastArgument, hrs⟩ := hes
  obtain ⟨first, ts', rfl, hFirst⟩ := hStart
  refine ⟨closing, rfl, ?_⟩
  rintro n asked w v p h hToks hNone hAsked -
  refine (hr n asked w v p h hToks hNone hAsked (follows_paren ho)).trailing (by rw [ho]; rfl)
    (by rw [ho]; exact hAsked) (fun w' q hs => ?_) good_call
  rw [Parser.trailing, Parser.call, hs.check_of_leading rfl hFirst rfl, if_neg Bool.false_ne_true]
  obtain ⟨hg, hCount⟩ := hrs n 0 q.total w' _ q hs rfl (hs.total.symm ▸ hs.fuel) (Nat.zero_le _)
    (Precedence.stops_of_kind hc (by decide) (by decide)) (by simp [hc])
  generalize Parser.arguments (Level.ofDepth n) q.total 0 q = read at hg hCount ⊢
  obtain ⟨count, q'⟩ := read
  rcases hg with ⟨hok, w'', he, hs'⟩ | ⟨hok, hNot⟩
  · have hMin : min count maxArguments = es.length := by
      have hEq := hCount hs'.clean
      dsimp only at hEq
      omega
    have hs'' := (hs'.consume .parenAfterArguments rfl hc rfl).emitWith .call (min count maxArguments)
    rw [hMin] at hs''
    dsimp only
    rw [hMin]
    have hCall := Gives.of_ok (⟨hok.1, Nat.zero_add es.length ▸ hok.2⟩ : GoodList n _ _ es ∧
      es.length ≤ maxArguments) he hs''
    exact hCall.view (by ext1 <;> simp [code, pool])
  · refine .of_not (fun hg => hok ⟨hg.1, by omega⟩) fun hClean => hNot ?_
    exact (Parser.leads_consume ..).clean ((Parser.writes_emitWith ..).clean hClean)

/-- What binds tighter may stand where something looser is asked. -/
theorem runs_tighter {ts : List Token} {layer : Precedence} {e : Expr} (hPrimary : layer ≠ .primary)
    (hr : e.Runs layer.next ts rest) : e.Runs layer ts rest := by
  obtain ⟨last, hLine, hr⟩ := hr
  have hNext := Precedence.rank_next hPrimary
  refine ⟨last, hLine, ?_⟩
  rintro n asked w v p h hToks hNone hAsked ⟨next, ts', hRest, hFits, hEqual⟩
  exact hr n asked w v p h hToks hNone (by omega)
    ⟨next, ts', hRest, Precedence.fits_of_lt (by have := hFits.1; omega), hEqual⟩

end Expr

mutual

/-- The compiler writes the code of every derived expression. -/
theorem Expr.Derives.runs {layer : Precedence} {e : Expr} {ts rest : List Token} :
    e.Derives layer ts rest → e.Runs layer ts rest
  | .nil h => Expr.runs_nil h
  | .true h => Expr.runs_true h
  | .false h => Expr.runs_false h
  | .number h => Expr.runs_number h
  | .string h => Expr.runs_string h
  | .name h => Expr.runs_name h
  | .group ho h hc => Expr.runs_group ho hc h.runs
  | .callNone h ho hc => Expr.runs_callNone h.runs ho hc
  | .callSome h ho hs hc => Expr.runs_callSome h.runs ho hs.runs hc hs.leading
  | .unary hk h => Expr.runs_unary hk h.runs
  | .binary hl hk hr => Expr.runs_binary hl.runs hk hr.runs
  | .and hl hk hr => Expr.runs_and hl.runs hk hr.runs
  | .or hl hk hr => Expr.runs_or hl.runs hk hr.runs
  | .assign hn he h => Expr.runs_assign hn he h.runs
  | .tighter _ hPrimary h => Expr.runs_tighter hPrimary h.runs

theorem Expr.DerivesList.runs {es : List Expr} {ts rest : List Token} :
    Expr.DerivesList es ts rest → Expr.RunsList es ts rest
  | .last h => Expr.runsList_last h.runs
  | .more h hc hs => Expr.runsList_more h.runs hc hs.runs (Nat.lt_of_succ_lt h.uses.length_lt)

end

end Lox
