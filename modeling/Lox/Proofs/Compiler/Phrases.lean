import Lox.Proofs.Compiler.Problems
import Lox.Proofs.Syntax.Grammar

/-!
# What is accepted is derived

Where the compiler reports no problem, the tokens that it has read derive a tree of the grammar. The
loop over the operators behind an operand keeps an expression that is derived on some layer, and the
next token binds no tighter than that layer (`Precedence.Fits`).
-/

set_option autoImplicit false

namespace Lox

/-- Tokens of which the last one, and no other, is an end token. -/
inductive Token.Terminated : List Token → Prop
  | last {t : Token} : t.kind = .eof → Terminated [t]
  | cons {t : Token} {ts : List Token} : t.kind ≠ .eof → Terminated ts → Terminated (t :: ts)

namespace Parser

/-- The tokens that are still to be read. -/
def toks (p : Parser) : List Token := p.current :: p.rest

/-- The compiler can read on: its tokens are terminated and are no more than its loops have rounds. -/
structure Ready (p : Parser) : Prop where
  sane : p.Sane
  terminated : Token.Terminated p.toks
  fuel : p.toks.length ≤ p.total

namespace Writes

variable {p p' : Parser}

theorem toks (h : p.Writes p') : p'.toks = p.toks := by rw [Parser.toks, h.current, h.rest]; rfl

theorem ready (h : p.Writes p') (hr : p.Ready) : p'.Ready where
  sane := h.sane hr.sane
  terminated := h.toks ▸ hr.terminated
  fuel := by rw [h.toks, h.total]; exact hr.fuel

end Writes

/-! ## Tokens -/

/-- A token was read. -/
structure Reads (t : Token) (p p' : Parser) : Prop where
  toks : p.toks = t :: p'.toks
  previous : p'.previous = t
  ready : p'.Ready

theorem shift_eq_of_clean {t : Token} {ts : List Token} {p : Parser} (hs : p.Sane)
    (hl : ts.length ≤ p.rest.length) (hc : (shift (t :: ts) p).Clean) : shift (t :: ts) p = { p with current := t, rest := ts } := by
  have hw (problem : Problem) := writes_report p t problem
  unfold shift at hc ⊢
  split at hc
  · exact absurd ((leads_shift _ _ ((hw _).rest ▸ hl)).clean hc) (not_clean_report hs _ _)
  · rfl

variable {p : Parser}

theorem previous_shift : ∀ (ts : List Token) (p : Parser), (shift ts p).previous = p.previous
  | [], _ => rfl
  | t :: ts, p => by
    unfold shift
    split
    · rw [previous_shift ts, report]
      split <;> rfl
    · rfl

theorem previous_advance (p : Parser) : p.advance.previous = p.current := previous_shift ..

theorem reads_advance (hr : p.Ready) (ht : p.current.kind ≠ .eof) (hc : p.advance.Clean) :
    Reads p.current p p.advance := by
  have hRest : Token.Terminated p.rest := by
    have h : Token.Terminated (p.current :: p.rest) := hr.terminated
    generalize p.current = t, p.rest = ts at h ht
    cases h with
    | last h => exact absurd h ht
    | cons _ h => exact h
  have hTotal := (leads_advance p).total
  have hSane := (leads_advance p).sane hr.sane
  have hFuel := hr.fuel
  have hShift {t : Token} {ts : List Token} (h : p.rest = t :: ts) :
      p.advance = { p with previous := p.current, current := t, rest := ts } := by
    have hAdvance : p.advance = shift (t :: ts) { p with previous := p.current } :=
      congrArg (shift · { p with previous := p.current }) h
    have hSane : ({ p with previous := p.current } : Parser).Sane := hr.sane
    rw [hAdvance] at hc ⊢
    exact shift_eq_of_clean hSane (h ▸ Nat.le_succ _) hc
  have hNext : p.advance.toks = p.rest := by
    match h : p.rest, hRest with
    | t :: ts, _ => rw [hShift h]; rfl
  refine ⟨by rw [hNext]; rfl, previous_advance p, hSane, hNext ▸ hRest, ?_⟩
  rw [hNext, hTotal]
  simp only [toks, List.length_cons] at hFuel
  omega

theorem reads_of_check {kind : Token.Kind} (hr : p.Ready) (hk : kind ≠ .eof)
    (h : p.check kind = true) (hc : p.advance.Clean) :
    Reads p.current p p.advance ∧ p.current.kind = kind := by
  have hKind : p.current.kind = kind := of_decide_eq_true h
  exact ⟨reads_advance hr (hKind ▸ hk) hc, hKind⟩

theorem reads_consume {kind : Token.Kind} {what : Expected} (hr : p.Ready) (hk : kind ≠ .eof)
    (hc : (p.consume kind what).Clean) :
    ∃ t, Reads t p (p.consume kind what) ∧ t.kind = kind := by
  unfold consume at hc ⊢
  split at hc
  · rename_i h
    rw [if_pos h]
    exact ⟨p.current, reads_of_check hr hk h hc⟩
  · exact absurd hc (not_clean_report hr.sane _ _)

end Parser

/-! ## Layers -/

namespace Precedence

theorem rank_injective : Function.Injective rank := by
  intro a b h
  cases a <;> cases b <;> first | rfl | cases h

theorem rank_next {layer : Precedence} (h : layer ≠ .primary) :
    layer.next.rank = layer.rank + 1 := by
  cases layer <;> first | rfl | exact absurd rfl h

/-- A token behind an expression of a layer does not continue the right operand of its operator: it
binds no tighter, and less tightly where the layer groups to the right. -/
def Fits (layer : Precedence) (kind : Token.Kind) : Prop :=
  kind.precedence.rank ≤ layer.rank ∧
    (layer.rank ≤ Precedence.and.rank → kind.precedence.rank < layer.rank)

theorem fits_of_lt {layer : Precedence} {kind : Token.Kind}
    (h : kind.precedence.rank < layer.rank) : layer.Fits kind := ⟨Nat.le_of_lt h, fun _ => h⟩

/-- An operator that groups to the right takes a tighter left operand. -/
theorem Fits.lt {layer : Precedence} {kind : Token.Kind} (h : layer.Fits kind)
    (hk : kind.precedence.rank ≤ Precedence.and.rank) : kind.precedence.rank < layer.rank := by
  by_cases hl : layer.rank ≤ Precedence.and.rank
  · exact h.2 hl
  · omega

/-- No token binds tighter than a call. -/
theorem rank_precedence_le (kind : Token.Kind) : kind.precedence.rank ≤ Precedence.call.rank := by
  unfold Token.Kind.precedence
  split <;> decide

theorem fits_call (kind : Token.Kind) : Precedence.call.Fits kind :=
  ⟨rank_precedence_le kind, fun h => absurd h (by decide)⟩

theorem fits_primary (kind : Token.Kind) : Precedence.primary.Fits kind :=
  fits_of_lt (Nat.lt_succ_of_le (rank_precedence_le kind))

end Precedence

/-- An expression may stand where a looser one may. -/
theorem Expr.Derives.loosen {e : Expr} {ts rest : List Token} {layer looser : Precedence}
    (h : e.Derives layer ts rest) (hNone : looser ≠ .none) (hRank : looser.rank ≤ layer.rank) :
    e.Derives looser ts rest := by
  induction hd : layer.rank - looser.rank generalizing looser with
  | zero =>
    have hEq : looser = layer := Precedence.rank_injective (by omega)
    exact hEq ▸ h
  | succ d ih =>
    have hPrimary : looser ≠ .primary := by
      rintro rfl
      have hTop : layer.rank ≤ Precedence.primary.rank := by cases layer <;> decide
      omega
    have hNext := Precedence.rank_next hPrimary
    have hNone' : looser.next ≠ .none := by
      intro h0
      rw [h0] at hNext
      exact absurd hNext (Nat.succ_ne_zero _).symm
    exact .tighter hNone hPrimary (ih hNone' (by omega) (by omega))

namespace Token.Kind

theorem eq_of_leading? {kind : Token.Kind} {rule : Leading} (h : kind.leading? = some rule) :
    match rule with
    | .grouping => kind = .leftParen
    | .unary => ∃ op : UnaryOperator, kind = op.kind
    | .name => kind = .identifier
    | .string => kind = .string
    | .number => kind = .number
    | .literal => kind = .kwNil ∨ kind = .kwTrue ∨ kind = .kwFalse := by
  cases kind <;> cases h <;> simp
  · exact ⟨.negate, rfl⟩
  · exact ⟨.not, rfl⟩

theorem eq_of_trailing? {kind : Token.Kind} {rule : Trailing} (h : kind.trailing? = some rule) :
    match rule with
    | .call => kind = .leftParen
    | .binary => ∃ op : BinaryOperator, kind = op.kind
    | .and => kind = .kwAnd
    | .or => kind = .kwOr := by
  cases kind <;> cases h <;> simp
  · exact ⟨.subtract, rfl⟩
  · exact ⟨.add, rfl⟩
  · exact ⟨.divide, rfl⟩
  · exact ⟨.multiply, rfl⟩
  · exact ⟨.notEqual, rfl⟩
  · exact ⟨.equal, rfl⟩
  · exact ⟨.greater, rfl⟩
  · exact ⟨.greaterEqual, rfl⟩
  · exact ⟨.less, rfl⟩
  · exact ⟨.lessEqual, rfl⟩

/-- Only what has a meaning behind an operand binds there. -/
theorem trailing?_isSome {kind : Token.Kind} (h : 0 < kind.precedence.rank) :
    ∃ rule, kind.trailing? = some rule := by
  cases kind <;> first | exact ⟨_, rfl⟩ | exact absurd h (Nat.lt_irrefl 0)

end Token.Kind

theorem BinaryOperator.precedence_kind (op : BinaryOperator) : op.kind.precedence = op.layer := by
  cases op <;> rfl

/-- What a level accepts is derived, and an operand is read as far as it goes. -/
structure Level.Sound (inner : Level) : Prop where
  leads : inner.Leads
  statement : ∀ p : Parser, p.Ready → (inner.statement p).Clean →
    (∃ s : Stmt, s.Derives p.toks (inner.statement p).toks) ∧ (inner.statement p).Ready
  operand : ∀ (layer : Precedence) (p : Parser), layer ≠ .none →
    layer.rank ≤ Precedence.unary.rank → p.Ready → (inner.operand layer p).Clean →
    (∃ e : Expr, e.Derives layer p.toks (inner.operand layer p).toks) ∧
      (inner.operand layer p).current.kind.precedence.rank < layer.rank ∧
      (inner.operand layer p).Ready
  function : ∀ p : Parser, p.Ready → (inner.function p).Clean →
    (∃ (opening brace closing : Token) (parameters : List String) (body : List Stmt)
      (ts ts' : List Token), p.toks = opening :: ts ∧ opening.kind = .leftParen ∧
      Routine.DerivesParameters parameters ts (brace :: ts') ∧ brace.kind = .leftBrace ∧
      Stmt.DerivesList body ts' (closing :: (inner.function p).toks) ∧
      closing.kind = .rightBrace) ∧ (inner.function p).Ready

namespace Parser

/-- The tokens `ts` start with an expression of a layer that is at least as tight as asked, and the
compiler stands behind it. -/
def Phrase (asked : Precedence) (ts : List Token) (p : Parser) : Prop :=
  ∃ (e : Expr) (layer : Precedence), e.Derives layer ts p.toks ∧ asked.rank ≤ layer.rank ∧
    layer.Fits p.current.kind ∧ p.Ready

theorem Writes.phrase {asked : Precedence} {ts : List Token} {p p' : Parser} (h : p.Writes p')
    (hp : Phrase asked ts p) : Phrase asked ts p' := by
  obtain ⟨e, layer, hd, hAsked, hFits, hr⟩ := hp
  exact ⟨e, layer, h.toks ▸ hd, hAsked, h.current ▸ hFits, h.ready hr⟩

theorem Phrase.of_primary {asked : Precedence} {ts : List Token} {p : Parser} {e : Expr}
    (hAsked : asked.rank ≤ Precedence.unary.rank) (hd : e.Derives .primary ts p.toks)
    (hr : p.Ready) : Phrase asked ts p :=
  ⟨e, .primary, hd, hAsked.trans (by decide), Precedence.fits_primary _, hr⟩

section
variable {inner : Level} (hi : inner.Sound) {p : Parser}
include hi

theorem derives_expression (hr : p.Ready) (hc : (expression inner p).Clean) :
    (∃ e : Expr, e.DerivesWhole p.toks (expression inner p).toks) ∧
      (expression inner p).current.kind.precedence.rank < Precedence.assignment.rank ∧
      (expression inner p).Ready :=
  hi.operand .assignment p (by decide) (by decide) hr hc

/-! ## At the start of an expression -/

theorem phrase_name {asked : Precedence} {t : Token} (hr : p.Ready) (ht : t.kind = .identifier)
    (hAsked : asked.rank ≤ Precedence.unary.rank)
    (hc : (name inner (asked.rank ≤ Precedence.assignment.rank) p).Clean) :
    Phrase asked (t :: p.toks) (name inner (asked.rank ≤ Precedence.assignment.rank) p) := by
  have hw := writes_resolve p p.previous.lexeme
  unfold name at hc ⊢
  generalize p.resolve p.previous.lexeme = resolved at hw hc ⊢
  obtain ⟨ref, q⟩ := resolved
  dsimp only at hw hc ⊢
  split at hc
  · rename_i h
    rw [if_pos h]
    rw [Bool.and_eq_true, decide_eq_true_iff] at h
    refine (writes_emitSet _ ref).phrase ?_
    have hc₁ := (writes_emitSet _ ref).clean hc
    have hc₂ := (leads_expression hi.leads _).clean hc₁
    obtain ⟨hReads, hKind⟩ := reads_of_check (hw.ready hr) (by decide) h.2 hc₂
    obtain ⟨⟨e, hd⟩, hStop, hr'⟩ := derives_expression hi hReads.ready hc₁
    refine ⟨.assign t.lexeme e, .assignment, ?_, h.1, Precedence.fits_of_lt hStop, hr'⟩
    rw [← hw.toks, hReads.toks]
    exact .assign ht hKind hd
  · rename_i h
    rw [if_neg h]
    exact (hw.trans (writes_emitGet q ref)).phrase (.of_primary hAsked (.name ht) hr)

theorem phrase_leading {asked : Precedence} {t : Token} {rule : Leading} (hr : p.Ready)
    (ht : t.kind.leading? = some rule) (hAsked : asked.rank ≤ Precedence.unary.rank)
    (hc : (leading inner (asked.rank ≤ Precedence.assignment.rank) p rule).Clean) :
    Phrase asked (t :: p.toks) (leading inner (asked.rank ≤ Precedence.assignment.rank) p rule) := by
  have hKind := Token.Kind.eq_of_leading? ht
  cases rule with
  | grouping =>
    have hc₁ := (leads_consume ..).clean hc
    obtain ⟨⟨e, hd⟩, -, hr₁⟩ := derives_expression hi hr hc₁
    obtain ⟨closing, hReads, hClosing⟩ := reads_consume hr₁ (by decide) hc
    exact .of_primary hAsked (.group hKind (hReads.toks ▸ hd) hClosing) hReads.ready
  | unary =>
    obtain ⟨op, hOp⟩ := hKind
    have hw : (inner.operand .unary p).Writes (Parser.unary inner p) := writes_unary p
    obtain ⟨⟨e, hd⟩, hStop, hr₁⟩ :=
      hi.operand .unary p (by decide) (by decide) hr (hw.clean hc)
    exact hw.phrase ⟨_, _, .unary hOp hd, hAsked, Precedence.fits_of_lt hStop, hr₁⟩
  | name => exact phrase_name hi hr hKind hAsked hc
  | string => exact (writes_string p).phrase (.of_primary hAsked (.string hKind) hr)
  | number => exact (writes_number p).phrase (.of_primary hAsked (.number hKind) hr)
  | literal =>
    refine (writes_literal p).phrase ?_
    rcases hKind with hKind | hKind | hKind
    · exact .of_primary hAsked (.nil hKind) hr
    · exact .of_primary hAsked (.true hKind) hr
    · exact .of_primary hAsked (.false hKind) hr

/-! ## Behind an operand -/

theorem derives_arguments : ∀ (fuel count : Nat) (p : Parser), p.Ready → p.toks.length ≤ fuel →
    (arguments inner fuel count p).2.Clean →
    (∃ es, Expr.DerivesList es p.toks (arguments inner fuel count p).2.toks) ∧
      (arguments inner fuel count p).2.Ready
  | 0, _, p, _, hFuel, _ => absurd hFuel (Nat.not_succ_le_zero _)
  | fuel + 1, count, p, hr, hFuel, hc => by
    have hw : (expression inner p).Writes (if count = maxArguments then
        (expression inner p).error .tooManyArguments else expression inner p) :=
      .ite (writes_error ..) (.refl _)
    unfold arguments at hc ⊢
    dsimp only at hc ⊢
    generalize (if count = maxArguments then _ else _) = q at hw hc ⊢
    split at hc
    · rename_i h
      rw [if_pos h]
      have hc₂ := (leads_arguments hi.leads ..).clean hc
      have hc₁ := hw.clean ((leads_advance q).clean hc₂)
      obtain ⟨⟨e, hd⟩, -, hr₁⟩ := derives_expression hi hr hc₁
      obtain ⟨hReads, hKind⟩ := reads_of_check (hw.ready hr₁) (by decide) h hc₂
      rw [← hw.toks, hReads.toks] at hd
      have hLess := hd.uses.length_lt
      simp only [List.length_cons] at hLess
      obtain ⟨⟨es, hds⟩, hr₂⟩ :=
        derives_arguments fuel (count + 1) q.advance hReads.ready (by omega) hc
      exact ⟨⟨e :: es, .more hd hKind hds⟩, hr₂⟩
    · rename_i h
      rw [if_neg h]
      obtain ⟨⟨e, hd⟩, -, hr₁⟩ := derives_expression hi hr (hw.clean hc)
      exact ⟨⟨[e], .last (hw.toks ▸ hd)⟩, hw.ready hr₁⟩

theorem phrase_call {asked : Precedence} {t : Token} {e : Expr} {ts : List Token} (hr : p.Ready)
    (ht : t.kind = .leftParen) (hd : e.Derives .call ts (t :: p.toks))
    (hAsked : asked.rank ≤ Precedence.call.rank) (hc : (call inner p).Clean) :
    Phrase asked ts (call inner p) := by
  unfold call at hc ⊢
  by_cases h : p.check .rightParen = true
  · rw [if_pos h] at hc ⊢
    refine (writes_emitWith ..).phrase ?_
    have hc₁ := (writes_emitWith ..).clean hc
    obtain ⟨closing, hReads, hClosing⟩ := reads_consume hr (by decide) hc₁
    rw [hReads.toks] at hd
    exact ⟨_, .call, .callNone hd ht hClosing, hAsked, Precedence.fits_call _, hReads.ready⟩
  · rw [if_neg h] at hc ⊢
    refine (writes_emitWith ..).phrase ?_
    have hc₁ := (writes_emitWith ..).clean hc
    have hc₂ := (leads_consume ..).clean hc₁
    obtain ⟨⟨es, hds⟩, hr₁⟩ := derives_arguments hi p.total 0 p hr hr.fuel hc₂
    obtain ⟨closing, hReads, hClosing⟩ := reads_consume hr₁ (by decide) hc₁
    rw [hReads.toks] at hds
    exact ⟨_, .call, .callSome hd ht hds hClosing, hAsked, Precedence.fits_call _, hReads.ready⟩

/-- The operator token `t` stands behind an expression that it may take as its left operand. -/
theorem phrase_trailing {asked layer : Precedence} {t : Token} {rule : Trailing} {e : Expr}
    {ts : List Token} (hr : p.Ready) (hPrevious : p.previous = t)
    (ht : t.kind.trailing? = some rule) (hd : e.Derives layer ts (t :: p.toks))
    (hFits : layer.Fits t.kind) (hAsked : asked.rank ≤ t.kind.precedence.rank)
    (hc : (trailing inner p rule).Clean) : Phrase asked ts (trailing inner p rule) := by
  have hKind := Token.Kind.eq_of_trailing? ht
  cases rule with
  | call =>
    rw [hKind] at hFits hAsked
    exact phrase_call hi hr hKind (hd.loosen (by decide) hFits.1) hAsked hc
  | binary =>
    obtain ⟨op, hOp⟩ := hKind
    have hLayer : op.layer ≠ .none := by cases op <;> decide
    have hNext : op.layer.next ≠ .none := by cases op <;> decide
    have hRank : op.layer.next.rank ≤ Precedence.unary.rank := by cases op <;> decide
    have hStep : op.layer.next.rank = op.layer.rank + 1 := by cases op <;> rfl
    have hLeft : ¬ op.layer.rank ≤ Precedence.and.rank := by cases op <;> decide
    have hLess : p.previous.kind.precedence = op.layer := by
      rw [hPrevious, hOp, op.precedence_kind]
    rw [hOp, op.precedence_kind] at hAsked
    have hw : (inner.operand op.layer.next p).Writes (binary inner p) := by
      rw [← hLess]
      exact writes_emits ..
    obtain ⟨⟨right, hd'⟩, hStop, hr'⟩ :=
      hi.operand op.layer.next p hNext hRank hr (hw.clean hc)
    have hd := hd.loosen hLayer (by rw [← op.precedence_kind, ← hOp]; exact hFits.1)
    refine hw.phrase ⟨_, _, .binary hd hOp hd', hAsked, ⟨?_, fun h => absurd h hLeft⟩, hr'⟩
    omega
  | and =>
    rw [hKind] at hAsked hFits
    have hd : e.Derives .equality ts (t :: p.toks) :=
      hd.loosen (by decide) (hFits.lt (by decide))
    have hw := (writes_emitJump p .jumpIfFalse).trans (writes_emit _ .pop)
    obtain ⟨⟨right, hd'⟩, hStop, hr'⟩ :=
      hi.operand .and _ (by decide) (by decide) (hw.ready hr) ((writes_patchJump ..).clean hc)
    exact (writes_patchJump ..).phrase ⟨_, .and, .and hd hKind (hw.toks ▸ hd'), hAsked,
      Precedence.fits_of_lt hStop, hr'⟩
  | or =>
    rw [hKind] at hAsked hFits
    have hd : e.Derives .and ts (t :: p.toks) :=
      hd.loosen (by decide) (hFits.lt (by decide))
    have hw := (writes_emitJump p .jumpIfFalse).trans <| (writes_emitJump _ .jump).trans <|
      (writes_patchJump _ (p.emitJump .jumpIfFalse).1).trans (writes_emit _ .pop)
    obtain ⟨⟨right, hd'⟩, hStop, hr'⟩ :=
      hi.operand .or _ (by decide) (by decide) (hw.ready hr) ((writes_patchJump ..).clean hc)
    exact (writes_patchJump ..).phrase ⟨_, .or, .or hd hKind (hw.toks ▸ hd'), hAsked,
      Precedence.fits_of_lt hStop, hr'⟩

/-- The loop over the operators ends in front of one that binds less tightly than asked. -/
theorem phrase_operators {asked : Precedence} {ts : List Token} (hNone : asked ≠ .none) :
    ∀ (fuel : Nat) (p : Parser), p.toks.length ≤ fuel → Phrase asked ts p →
      (operators inner asked fuel p).Clean → Phrase asked ts (operators inner asked fuel p) ∧
        (operators inner asked fuel p).current.kind.precedence.rank < asked.rank
  | 0, p, hFuel, _, _ => absurd hFuel (Nat.not_succ_le_zero _)
  | fuel + 1, p, hFuel, ⟨e, layer, hd, hAsked, hFits, hr⟩, hc => by
    unfold operators at hc ⊢
    split at hc
    · rename_i h
      rw [if_pos h]
      have hPositive : 0 < asked.rank :=
        Nat.pos_of_ne_zero fun h0 => hNone (Precedence.rank_injective h0)
      obtain ⟨rule, hRule⟩ := Token.Kind.trailing?_isSome (Nat.lt_of_lt_of_le hPositive h)
      have hEnd : p.current.kind ≠ .eof := fun hEof => by rw [hEof] at hRule; cases hRule
      dsimp only at hc ⊢
      have hc₁ := (leads_operators hi.leads asked fuel _).clean hc
      have hc₂ : p.advance.Clean := by
        revert hc₁
        split
        · exact (leads_trailing hi.leads ..).clean
        · exact id
      have hReads := reads_advance hr hEnd hc₂
      simp only [hReads.previous, hRule] at hc hc₁ ⊢
      rw [hReads.toks] at hd
      have hPhrase := phrase_trailing hi hReads.ready hReads.previous hRule hd hFits h hc₁
      have hLess := (leads_trailing hi.leads p.advance rule).length_le
      rw [hReads.toks] at hFuel
      simp only [toks, List.length_cons] at hFuel
      refine phrase_operators hNone fuel _ ?_ hPhrase hc
      rw [toks, List.length_cons]
      omega
    · rename_i h
      rw [if_neg h]
      exact ⟨⟨e, layer, hd, hAsked, hFits, hr⟩, Nat.lt_of_not_le h⟩

theorem derives_operand {layer : Precedence} (hNone : layer ≠ .none)
    (hRank : layer.rank ≤ Precedence.unary.rank) (hr : p.Ready)
    (hc : (operand inner layer p).Clean) :
    (∃ e : Expr, e.Derives layer p.toks (operand inner layer p).toks) ∧
      (operand inner layer p).current.kind.precedence.rank < layer.rank ∧
      (operand inner layer p).Ready := by
  have hSane := (leads_advance p).sane hr.sane
  unfold operand at hc ⊢
  dsimp only at hc ⊢
  rw [previous_advance] at hc ⊢
  cases hRule : p.current.kind.leading? with
  | none =>
    rw [hRule] at hc
    exact absurd hc (not_clean_report hSane _ _)
  | some rule =>
    rw [hRule] at hc
    dsimp only at hc ⊢
    set q := leading inner (layer.rank ≤ Precedence.assignment.rank) p.advance rule with hq
    set o := operators inner layer q.total q with ho
    -- An equals sign behind the operand is a problem, so there is none.
    have hNoEqual : ¬ (decide (layer.rank ≤ Precedence.assignment.rank) && o.check .equal) := by
      intro h
      rw [if_pos h] at hc
      have hLeads := (leads_leading hi.leads (layer.rank ≤ Precedence.assignment.rank) p.advance
        rule).trans ((leads_operators hi.leads layer q.total q).trans (leads_advance o))
      exact not_clean_report (hLeads.sane hSane) _ _ hc
    rw [if_neg hNoEqual] at hc ⊢
    have hc₁ : q.Clean := (leads_operators hi.leads ..).clean hc
    have hc₂ : p.advance.Clean := (leads_leading hi.leads ..).clean hc₁
    have hEnd : p.current.kind ≠ .eof := fun h => by rw [h] at hRule; cases hRule
    have hReads := reads_advance hr hEnd hc₂
    have hPhrase : Phrase layer p.toks q := hReads.toks ▸
      phrase_leading hi hReads.ready hRule hRank hc₁
    have hFuel : q.toks.length ≤ q.total := by
      obtain ⟨_, _, _, _, _, hr⟩ := hPhrase
      exact hr.fuel
    obtain ⟨⟨e, tight, hd, hAsked, -, hr'⟩, hStop⟩ :=
      phrase_operators hi hNone q.total q hFuel hPhrase hc
    exact ⟨⟨e, hd.loosen hNone hAsked⟩, hStop, hr'⟩

/-! ## Declarations -/

theorem derives_closed {kind : Token.Kind} {what : Expected} (hk : kind ≠ .eof) (hr : p.Ready)
    (hc : ((expression inner p).consume kind what).Clean) :
    ∃ (e : Expr) (t : Token),
      e.DerivesWhole p.toks (t :: ((expression inner p).consume kind what).toks) ∧
      t.kind = kind ∧ ((expression inner p).consume kind what).Ready := by
  obtain ⟨⟨e, hd⟩, -, hr₁⟩ := derives_expression hi hr ((leads_consume ..).clean hc)
  obtain ⟨t, hReads, hKind⟩ := reads_consume hr₁ hk hc
  exact ⟨e, t, hReads.toks ▸ hd, hKind, hReads.ready⟩

omit hi in
theorem reads_variableName {what : Expected} (hr : p.Ready) (hc : (p.variableName what).2.Clean) :
    ∃ t, t.kind = .identifier ∧ p.toks = t :: (p.variableName what).2.toks ∧
      (p.variableName what).2.Ready := by
  have hw : (p.consume .identifier what).Writes (p.variableName what).2 := by
    unfold variableName
    dsimp only
    split
    · exact (writes_declareVariable _).trans (writes_nameConstant ..)
    · exact writes_declareVariable _
  obtain ⟨t, hReads, hKind⟩ := reads_consume hr (by decide) (hw.clean hc)
  exact ⟨t, hKind, hw.toks ▸ hReads.toks, hw.ready hReads.ready⟩

theorem derives_varDeclaration (hr : p.Ready) (hc : (varDeclaration inner p).Clean) :
    (∃ v : Variable, v.Derives p.toks (varDeclaration inner p).toks) ∧
      (varDeclaration inner p).Ready := by
  have hName := @reads_variableName p .variableName hr
  unfold varDeclaration at hc ⊢
  generalize p.variableName .variableName = named at hName hc ⊢
  obtain ⟨index, q⟩ := named
  dsimp only at hName hc ⊢
  have hw (p : Parser) := writes_defineVariable p index
  rw [(hw _).toks]
  have hc₁ := (hw _).clean hc
  have hc₂ := (leads_consume ..).clean hc₁
  split at hc₂
  · rename_i h
    rw [if_pos h] at hc₁ ⊢
    have hc₃ := (leads_expression hi.leads _).clean hc₂
    obtain ⟨t, hKind, hToks, hr₁⟩ := hName ((leads_advance q).clean hc₃)
    obtain ⟨hReads, hEqual⟩ := reads_of_check hr₁ (by decide) h hc₃
    obtain ⟨e, semicolon, hd, hSemicolon, hr₂⟩ := derives_closed hi (by decide) hReads.ready hc₁
    rw [hToks, hReads.toks]
    exact ⟨⟨_, .set hKind hEqual hd hSemicolon⟩, (hw _).ready hr₂⟩
  · rename_i h
    rw [if_neg h] at hc₁ ⊢
    have hPush := writes_emit q .pushNil
    obtain ⟨t, hKind, hToks, hr₁⟩ := hName (hPush.clean hc₂)
    obtain ⟨semicolon, hReads, hSemicolon⟩ := reads_consume (hPush.ready hr₁) (by decide) hc₁
    rw [hToks, ← hPush.toks, hReads.toks]
    exact ⟨⟨_, .plain hKind hSemicolon⟩, (hw _).ready hReads.ready⟩

theorem derives_funDeclaration {t : Token} (ht : t.kind = .kwFun) (hr : p.Ready)
    (hc : (funDeclaration inner p).Clean) :
    (∃ s : Stmt, s.DerivesDeclaration (t :: p.toks) (funDeclaration inner p).toks) ∧
      (funDeclaration inner p).Ready := by
  have hName := @reads_variableName p .functionName hr
  unfold funDeclaration at hc ⊢
  generalize p.variableName .functionName = named at hName hc ⊢
  obtain ⟨index, q⟩ := named
  dsimp only at hName hc ⊢
  have hMark := writes_markInitialized q
  have hw := writes_defineVariable (inner.function q.markInitialized) index
  have hc₁ := hw.clean hc
  obtain ⟨name, hKind, hToks, hr₁⟩ := hName (hMark.clean ((hi.leads.function _).clean hc₁))
  obtain ⟨⟨opening, brace, closing, parameters, body, ts, ts', hOpen, ho, hp, hb, hd, hcl⟩, hr₂⟩ :=
    hi.function _ (hMark.ready hr₁) hc₁
  rw [hToks, ← hMark.toks, hOpen, hw.toks]
  exact ⟨⟨_, .function ht hKind ho hp hb hd hcl⟩, hw.ready hr₂⟩

/-- Without a problem there is nothing to recover from. -/
theorem declaration_eq_of_clean (hs : p.Sane) (hc : (declaration inner p).Clean) :
    declaration inner p =
      if p.check .kwFun then funDeclaration inner p.advance
      else if p.check .kwVar then varDeclaration inner p.advance else inner.statement p := by
  have hLeads : p.Leads (if p.check .kwFun then funDeclaration inner p.advance
      else if p.check .kwVar then varDeclaration inner p.advance else inner.statement p) :=
    .ite ((leads_advance p).trans (leads_funDeclaration hi.leads _)) <|
      .ite ((leads_advance p).trans (leads_varDeclaration hi.leads _)) (hi.leads.statement p)
  unfold declaration at hc ⊢
  generalize (if p.check .kwFun then _ else _) = q at hLeads hc ⊢
  have hClean : q.Clean := Leads.clean (.ite (leads_synchronize q) (.refl q)) hc
  simp [(hLeads.sane hs hClean).1]

theorem derives_declaration (hr : p.Ready) (hc : (declaration inner p).Clean) :
    (∃ s : Stmt, s.DerivesDeclaration p.toks (declaration inner p).toks) ∧
      (declaration inner p).Ready := by
  have hEq := declaration_eq_of_clean hi hr.sane hc
  rw [hEq] at hc ⊢
  split at hc
  · rename_i h
    rw [if_pos h]
    obtain ⟨hReads, hKind⟩ := reads_of_check hr (by decide) h
      ((leads_funDeclaration hi.leads _).clean hc)
    rw [hReads.toks]
    exact derives_funDeclaration hi hKind hReads.ready hc
  · rename_i h
    rw [if_neg h]
    split at hc
    · rename_i h
      rw [if_pos h]
      obtain ⟨hReads, hKind⟩ := reads_of_check hr (by decide) h
        ((leads_varDeclaration hi.leads _).clean hc)
      obtain ⟨⟨v, hd⟩, hr₁⟩ := derives_varDeclaration hi hReads.ready hc
      rw [hReads.toks]
      exact ⟨⟨_, .var hKind hd⟩, hr₁⟩
    · rename_i h
      rw [if_neg h]
      obtain ⟨⟨s, hd⟩, hr₁⟩ := hi.statement p hr hc
      exact ⟨⟨s, .statement hd⟩, hr₁⟩

theorem derives_declarations : ∀ (fuel : Nat) (p : Parser), p.toks.length ≤ fuel → p.Ready →
    (declarations inner fuel p).Clean →
    (∃ ss, Stmt.DerivesList ss p.toks (declarations inner fuel p).toks) ∧
      (declarations inner fuel p).Ready
  | 0, p, hFuel, _, _ => absurd hFuel (Nat.not_succ_le_zero _)
  | fuel + 1, p, hFuel, hr, hc => by
    unfold declarations at hc ⊢
    split at hc
    · rename_i h
      rw [if_pos h]
      exact ⟨⟨[], .nil⟩, hr⟩
    · rename_i h
      rw [if_neg h]
      obtain ⟨⟨s, hd⟩, hr₁⟩ :=
        derives_declaration hi hr ((leads_declarations hi.leads ..).clean hc)
      have hLess := hd.uses.length_lt
      obtain ⟨⟨ss, hds⟩, hr₂⟩ := derives_declarations fuel _ (by omega) hr₁ hc
      exact ⟨⟨s :: ss, .cons hd hds⟩, hr₂⟩

theorem derives_block (hr : p.Ready) (hc : (block inner p).Clean) :
    ∃ (body : List Stmt) (t : Token), Stmt.DerivesList body p.toks (t :: (block inner p).toks) ∧
      t.kind = .rightBrace ∧ (block inner p).Ready := by
  obtain ⟨⟨body, hd⟩, hr₁⟩ :=
    derives_declarations hi p.total p hr.fuel hr ((leads_consume ..).clean hc)
  obtain ⟨t, hReads, hKind⟩ := reads_consume hr₁ (by decide) hc
  exact ⟨body, t, hReads.toks ▸ hd, hKind, hReads.ready⟩

/-! ## Statements -/

theorem derives_returnStatement (hr : p.Ready) (hc : (returnStatement inner p).Clean) :
    (∃ (value : Option Expr) (line : Nat),
      Expr.DerivesOptional .semicolon value line p.toks (returnStatement inner p).toks) ∧
      (returnStatement inner p).Ready := by
  have hw : p.Writes (if p.draft.isScript then p.error .returnFromScript else p) :=
    .ite (writes_error ..) (.refl p)
  unfold returnStatement at hc ⊢
  generalize (if p.draft.isScript then _ else _) = q at hw hc ⊢
  dsimp only at hc ⊢
  rw [← hw.toks]
  split at hc
  · rename_i h
    rw [if_pos h]
    have hEmit := writes_emitReturn q.advance
    obtain ⟨hReads, hKind⟩ := reads_of_check (hw.ready hr) (by decide) h (hEmit.clean hc)
    rw [hReads.toks, hEmit.toks]
    exact ⟨⟨none, _, .none hKind⟩, hEmit.ready hReads.ready⟩
  · rename_i h
    rw [if_neg h]
    have hEmit (p : Parser) := writes_emit p .ret
    obtain ⟨e, t, hd, hKind, hr₁⟩ :=
      derives_closed hi (by decide) (hw.ready hr) ((hEmit _).clean hc)
    rw [(hEmit _).toks]
    exact ⟨⟨some e, _, .some hd hKind⟩, (hEmit _).ready hr₁⟩

theorem derives_condition {what₁ what₂ : Expected} (hr : p.Ready)
    (hc : ((expression inner (p.consume .leftParen what₁)).consume .rightParen what₂).Clean) :
    ∃ (opening closing : Token) (ts : List Token) (condition : Expr), p.toks = opening :: ts ∧
      opening.kind = .leftParen ∧ condition.DerivesWhole ts
        (closing :: ((expression inner (p.consume .leftParen what₁)).consume .rightParen what₂).toks) ∧
      closing.kind = .rightParen ∧
      ((expression inner (p.consume .leftParen what₁)).consume .rightParen what₂).Ready := by
  have hc₁ := (leads_expression hi.leads _).clean ((leads_consume ..).clean hc)
  obtain ⟨opening, hReads, hKind⟩ := reads_consume hr (by decide) hc₁
  obtain ⟨e, closing, hd, hClosing, hr₁⟩ := derives_closed hi (by decide) hReads.ready hc
  exact ⟨opening, closing, _, e, hReads.toks, hKind, hd, hClosing, hr₁⟩

theorem derives_ifStatement {t : Token} (ht : t.kind = .kwIf) (hr : p.Ready)
    (hc : (ifStatement inner p).Clean) :
    (∃ s : Stmt, s.Derives (t :: p.toks) (ifStatement inner p).toks) ∧
      (ifStatement inner p).Ready := by
  have hCondition := @derives_condition _ hi p .parenAfterIf .parenAfterCondition hr
  unfold ifStatement at hc ⊢
  dsimp only at hc ⊢
  generalize (expression inner (p.consume .leftParen .parenAfterIf)).consume .rightParen
    .parenAfterCondition = q₁ at hCondition hc ⊢
  have hw₂ := (writes_emitJump q₁ .jumpIfFalse).trans (writes_emit _ .pop)
  generalize (q₁.emitJump .jumpIfFalse).1 = thenJump at hc ⊢
  generalize (q₁.emitJump .jumpIfFalse).2.emit .pop = q₂ at hw₂ hc ⊢
  have hw₃ := (writes_emitJump (inner.statement q₂) .jump).trans <|
    (writes_patchJump _ thenJump).trans (writes_emit _ .pop)
  generalize ((inner.statement q₂).emitJump .jump).1 = elseJump at hc ⊢
  generalize (((inner.statement q₂).emitJump .jump).2.patchJump thenJump).emit .pop = q₃
    at hw₃ hc ⊢
  have hw₄ (p : Parser) := writes_patchJump p elseJump
  have hc₄ := (hw₄ _).clean hc
  have hc₃ : q₃.Clean := by
    revert hc₄
    split
    · exact fun h => (leads_advance q₃).clean ((hi.leads.statement _).clean h)
    · exact id
  have hc₂ := hw₃.clean hc₃
  have hc₁ := hw₂.clean ((hi.leads.statement q₂).clean hc₂)
  obtain ⟨opening, closing, ts, condition, hToks, ho, hd, hcl, hr₁⟩ := hCondition hc₁
  obtain ⟨⟨body, hBody⟩, hr₂⟩ := hi.statement q₂ (hw₂.ready hr₁) hc₂
  rw [hw₂.toks, ← hw₃.toks] at hBody
  have hr₃ := hw₃.ready hr₂
  rw [(hw₄ _).toks, hToks]
  split at hc₄
  · rename_i h
    simp only [if_pos h] at hc ⊢
    obtain ⟨hReads, hKind⟩ := reads_of_check hr₃ (by decide) h ((hi.leads.statement _).clean hc₄)
    obtain ⟨⟨other, hOther⟩, hr₄⟩ := hi.statement _ hReads.ready hc₄
    rw [hReads.toks] at hBody
    exact ⟨⟨_, .ifElse ht ho hd hcl hBody hKind hOther⟩, (hw₄ _).ready hr₄⟩
  · rename_i h
    simp only [if_neg h] at hc ⊢
    refine ⟨⟨_, .ifThen ht ho hd hcl hBody fun t hMem => ?_⟩, (hw₄ _).ready hr₃⟩
    obtain rfl : q₃.current = t := by simpa [toks] using hMem
    simpa [check] using h

theorem derives_whileStatement {t : Token} (ht : t.kind = .kwWhile) (hr : p.Ready)
    (hc : (whileStatement inner p).Clean) :
    (∃ s : Stmt, s.Derives (t :: p.toks) (whileStatement inner p).toks) ∧
      (whileStatement inner p).Ready := by
  have hCondition := @derives_condition _ hi p .parenAfterWhile .parenAfterCondition hr
  unfold whileStatement at hc ⊢
  dsimp only at hc ⊢
  generalize (expression inner (p.consume .leftParen .parenAfterWhile)).consume .rightParen
    .parenAfterCondition = q₁ at hCondition hc ⊢
  have hw₂ := (writes_emitJump q₁ .jumpIfFalse).trans (writes_emit _ .pop)
  generalize (q₁.emitJump .jumpIfFalse).1 = exitJump at hc ⊢
  generalize (q₁.emitJump .jumpIfFalse).2.emit .pop = q₂ at hw₂ hc ⊢
  have hw₃ := (writes_emitLoop (inner.statement q₂) p.here).trans <|
    (writes_patchJump _ exitJump).trans (writes_emit _ .pop)
  have hc₂ := hw₃.clean hc
  obtain ⟨opening, closing, ts, condition, hToks, ho, hd, hcl, hr₁⟩ :=
    hCondition (hw₂.clean ((hi.leads.statement q₂).clean hc₂))
  obtain ⟨⟨body, hBody⟩, hr₂⟩ := hi.statement q₂ (hw₂.ready hr₁) hc₂
  rw [hw₂.toks] at hBody
  rw [hToks, hw₃.toks]
  exact ⟨⟨_, .whileLoop ht ho hd hcl hBody⟩, hw₃.ready hr₂⟩

theorem derives_forInitializer (hr : p.Ready) (hc : (forInitializer inner p).Clean) :
    (∃ first : Initializer, first.Derives p.toks (forInitializer inner p).toks) ∧
      (forInitializer inner p).Ready := by
  unfold forInitializer at hc ⊢
  split at hc
  · rename_i h
    rw [if_pos h]
    obtain ⟨hReads, hKind⟩ := reads_of_check hr (by decide) h hc
    rw [hReads.toks]
    exact ⟨⟨_, .none hKind⟩, hReads.ready⟩
  · rename_i h
    rw [if_neg h]
    split at hc
    · rename_i h
      rw [if_pos h]
      obtain ⟨hReads, hKind⟩ := reads_of_check hr (by decide) h
        ((leads_varDeclaration hi.leads _).clean hc)
      obtain ⟨⟨v, hd⟩, hr₁⟩ := derives_varDeclaration hi hReads.ready hc
      rw [hReads.toks]
      exact ⟨⟨_, .var hKind hd⟩, hr₁⟩
    · rename_i h
      rw [if_neg h]
      have hw (p : Parser) := writes_emit p .pop
      obtain ⟨e, t, hd, hKind, hr₁⟩ := derives_closed hi (by decide) hr ((hw _).clean hc)
      rw [expressionStatement, (hw _).toks]
      exact ⟨⟨_, .expression hd hKind⟩, (hw _).ready hr₁⟩

theorem derives_forCondition (hr : p.Ready) (hc : (forCondition inner p).2.Clean) :
    (∃ (condition : Option Expr) (line : Nat),
      Expr.DerivesOptional .semicolon condition line p.toks (forCondition inner p).2.toks) ∧
      (forCondition inner p).2.Ready := by
  unfold forCondition at hc ⊢
  split at hc
  · rename_i h
    rw [if_pos h]
    obtain ⟨hReads, hKind⟩ := reads_of_check hr (by decide) h hc
    rw [hReads.toks]
    exact ⟨⟨none, _, .none hKind⟩, hReads.ready⟩
  · rename_i h
    rw [if_neg h]
    have hw (p : Parser) := (writes_emitJump p .jumpIfFalse).trans (writes_emit _ .pop)
    obtain ⟨e, t, hd, hKind, hr₁⟩ := derives_closed hi (by decide) hr ((hw _).clean hc)
    dsimp only
    rw [(hw _).toks]
    exact ⟨⟨some e, t.line, .some hd hKind⟩, (hw _).ready hr₁⟩

theorem derives_forIncrement {start : Nat} (hr : p.Ready)
    (hc : (forIncrement inner start p).2.Clean) :
    (∃ (increment : Option Expr) (line : Nat), Expr.DerivesOptional .rightParen increment line p.toks
      (forIncrement inner start p).2.toks) ∧ (forIncrement inner start p).2.Ready := by
  unfold forIncrement at hc ⊢
  split at hc
  · rename_i h
    rw [if_pos h]
    obtain ⟨hReads, hKind⟩ := reads_of_check hr (by decide) h hc
    rw [hReads.toks]
    exact ⟨⟨none, _, .none hKind⟩, hReads.ready⟩
  · rename_i h
    rw [if_neg h]
    dsimp only at hc ⊢
    have hw₁ := writes_emitJump p .jump
    generalize (p.emitJump .jump).1 = bodyJump at hc ⊢
    generalize (p.emitJump .jump).2 = q at hw₁ hc ⊢
    have hw₂ := writes_emit (expression inner q) .pop
    have hw₃ := (writes_emitLoop (((expression inner q).emit .pop).consume .rightParen
      .parenAfterClauses) start).trans (writes_patchJump _ bodyJump)
    have hc₃ := hw₃.clean hc
    obtain ⟨⟨e, hd⟩, -, hr₁⟩ :=
      derives_expression hi (hw₁.ready hr) (hw₂.clean ((leads_consume ..).clean hc₃))
    obtain ⟨t, hReads, hKind⟩ := reads_consume (hw₂.ready hr₁) (by decide) hc₃
    rw [hw₁.toks, ← hw₂.toks, hReads.toks] at hd
    rw [hw₃.toks]
    exact ⟨⟨some e, t.line, .some hd hKind⟩, hw₃.ready hReads.ready⟩

theorem derives_forStatement {t : Token} (ht : t.kind = .kwFor) (hr : p.Ready)
    (hc : (forStatement inner p).Clean) :
    (∃ s : Stmt, s.Derives (t :: p.toks) (forStatement inner p).toks) ∧
      (forStatement inner p).Ready := by
  have hBegin : p.Writes p.beginScope := writes_made ..
  rw [forStatement_eq] at hc ⊢
  dsimp only at hc ⊢
  have hOpen := @reads_consume p.beginScope .leftParen .parenAfterFor (hBegin.ready hr) (by decide)
  generalize p.beginScope.consume .leftParen .parenAfterFor = q₁ at hOpen hc ⊢
  have hFirst := @derives_forInitializer _ hi q₁
  have hc₁ := (leads_forInitializer hi.leads q₁).clean
  generalize forInitializer inner q₁ = q₂ at hFirst hc₁ hc ⊢
  have hTest := @derives_forCondition _ hi q₂
  have hc₂ := (leads_forCondition hi.leads q₂).clean
  generalize forCondition inner q₂ = r₃ at hTest hc₂ hc ⊢
  obtain ⟨exitJump, q₃⟩ := r₃
  have hStep := @derives_forIncrement _ hi q₃ q₂.here
  have hc₃ := (leads_forIncrement hi.leads q₂.here q₃).clean
  generalize forIncrement inner q₂.here q₃ = r₄ at hStep hc₃ hc ⊢
  obtain ⟨start, q₄⟩ := r₄
  dsimp only at *
  have hEnd (last : Parser) (hw : (inner.statement q₄).Writes last) (hc : last.Clean) :
      (∃ s : Stmt, s.Derives (t :: p.toks) last.toks) ∧ last.Ready := by
    have hc₅ := hw.clean hc
    have hc₄ := (hi.leads.statement q₄).clean hc₅
    obtain ⟨opening, hReads, ho⟩ := hOpen (hc₁ (hc₂ (hc₃ hc₄)))
    obtain ⟨⟨first, hdFirst⟩, hr₂⟩ := hFirst hReads.ready (hc₂ (hc₃ hc₄))
    obtain ⟨⟨condition, semicolonLine, hdTest⟩, hr₃⟩ := hTest hr₂ (hc₃ hc₄)
    obtain ⟨⟨increment, parenLine, hdStep⟩, hr₄⟩ := hStep hr₃ hc₄
    obtain ⟨⟨body, hdBody⟩, hr₅⟩ := hi.statement q₄ hr₄ hc₅
    rw [← hBegin.toks, hReads.toks, hw.toks]
    exact ⟨⟨_, .forLoop ht ho hdFirst hdTest hdStep hdBody⟩, hw.ready hr₅⟩
  exact hEnd _ ((writes_emitLoop _ start).trans ((writes_leaveLoop exitJump _).trans (writes_endScope _))) hc

theorem derives_statement (hr : p.Ready) (hc : (statement inner p).Clean) :
    (∃ s : Stmt, s.Derives p.toks (statement inner p).toks) ∧ (statement inner p).Ready := by
  have hReads {kind : Token.Kind} (hk : kind ≠ .eof) (h : p.current.kind = kind)
      (hc : p.advance.Clean) : Reads p.current p p.advance := reads_advance hr (h ▸ hk) hc
  unfold statement at hc ⊢
  split at hc
  · rename_i hKind
    have hw (p : Parser) := writes_emit p .print
    have hc₁ := (leads_expression hi.leads _).clean ((leads_consume ..).clean ((hw _).clean hc))
    have hRead := hReads (by decide) hKind hc₁
    obtain ⟨e, t, hd, ht, hr₁⟩ := derives_closed hi (by decide) hRead.ready ((hw _).clean hc)
    rw [hRead.toks, printStatement, (hw _).toks]
    exact ⟨⟨_, .print hKind hd ht⟩, (hw _).ready hr₁⟩
  · rename_i hKind
    have hRead := hReads (by decide) hKind ((leads_forStatement hi.leads _).clean hc)
    rw [hRead.toks]
    exact derives_forStatement hi hKind hRead.ready hc
  · rename_i hKind
    have hRead := hReads (by decide) hKind ((leads_ifStatement hi.leads _).clean hc)
    rw [hRead.toks]
    exact derives_ifStatement hi hKind hRead.ready hc
  · rename_i hKind
    have hRead := hReads (by decide) hKind ((leads_returnStatement hi.leads _).clean hc)
    obtain ⟨⟨value, line, hd⟩, hr₁⟩ := derives_returnStatement hi hRead.ready hc
    rw [hRead.toks]
    exact ⟨⟨_, .ret hKind hd⟩, hr₁⟩
  · rename_i hKind
    have hRead := hReads (by decide) hKind ((leads_whileStatement hi.leads _).clean hc)
    rw [hRead.toks]
    exact derives_whileStatement hi hKind hRead.ready hc
  · rename_i hKind
    have hBegin : p.advance.Writes p.advance.beginScope := writes_made ..
    have hw := writes_endScope (block inner p.advance.beginScope)
    have hc₁ := hw.clean hc
    have hRead := hReads (by decide) hKind (hBegin.clean ((leads_block hi.leads _).clean hc₁))
    obtain ⟨body, t, hd, ht, hr₁⟩ := derives_block hi (hBegin.ready hRead.ready) hc₁
    rw [hRead.toks, hw.toks]
    exact ⟨⟨_, .block hKind (hBegin.toks ▸ hd) ht⟩, hw.ready hr₁⟩
  · have hw (p : Parser) := writes_emit p .pop
    obtain ⟨e, t, hd, ht, hr₁⟩ := derives_closed hi (by decide) hr ((hw _).clean hc)
    rw [expressionStatement, (hw _).toks]
    exact ⟨⟨_, .expression hd ht⟩, (hw _).ready hr₁⟩

omit hi in
theorem derives_parameters (fuel : Nat) (p : Parser) (hFuel : p.toks.length ≤ fuel) (hr : p.Ready)
    (hc : (parameters fuel p).Clean) :
    (∃ names, Routine.DerivesNames names p.toks (parameters fuel p).toks) ∧
      (parameters fuel p).Ready := by
  induction fuel generalizing p with
  | zero => exact absurd hFuel (Nat.not_succ_le_zero _)
  | succ fuel ih =>
    have hArity : p.Writes { p with draft := { p.draft with arity := p.draft.arity + 1 } } :=
      writes_made ..
    have hLimit (p : Parser) : p.Writes
        (if maxArguments < p.draft.arity then p.errorAtCurrent .tooManyParameters else p) :=
      .ite (writes_errorAtCurrent ..) (.refl p)
    have hw := hArity.trans (hLimit _)
    unfold parameters at hc ⊢
    dsimp only at hc hw ⊢
    generalize (if maxArguments < p.draft.arity + 1 then _ else _) = q at hw hc ⊢
    have hName := @reads_variableName q .parameterName (hw.ready hr)
    generalize q.variableName .parameterName = named at hName hc ⊢
    obtain ⟨index, q₁⟩ := named
    dsimp only at hName hc ⊢
    have hDefine := writes_defineVariable q₁ index
    generalize q₁.defineVariable index = q₂ at hDefine hc ⊢
    rw [hw.toks] at hName
    split at hc
    · rename_i h
      rw [if_pos h]
      have hc₂ := (leads_parameters ..).clean hc
      obtain ⟨t, hKind, hToks, hr₁⟩ := hName (hDefine.clean ((leads_advance q₂).clean hc₂))
      obtain ⟨hReads, hComma⟩ := reads_of_check (hDefine.ready hr₁) (by decide) h hc₂
      rw [← hDefine.toks, hReads.toks] at hToks
      rw [hToks, List.length_cons, List.length_cons] at hFuel
      obtain ⟨⟨names, hd⟩, hr₂⟩ := ih q₂.advance (by omega) hReads.ready hc
      rw [hToks]
      exact ⟨⟨_, .more hKind hComma hd⟩, hr₂⟩
    · rename_i h
      rw [if_neg h]
      obtain ⟨t, hKind, hToks, hr₁⟩ := hName (hDefine.clean hc)
      rw [hToks, hDefine.toks]
      exact ⟨⟨_, .last hKind⟩, hDefine.ready hr₁⟩

omit hi in
theorem derives_parameterList {what : Expected} (hr : p.Ready)
    (hc : ((if p.check .rightParen then p else parameters p.total p).consume .rightParen
      what).Clean) :
    ∃ names, Routine.DerivesParameters names p.toks
        ((if p.check .rightParen then p else parameters p.total p).consume .rightParen what).toks ∧
      ((if p.check .rightParen then p else parameters p.total p).consume .rightParen what).Ready := by
  split at hc
  · rename_i h
    rw [if_pos h]
    obtain ⟨t, hReads, hKind⟩ := reads_consume hr (by decide) hc
    rw [hReads.toks]
    exact ⟨[], .none hKind, hReads.ready⟩
  · rename_i h
    rw [if_neg h]
    obtain ⟨⟨names, hd⟩, hr₁⟩ :=
      derives_parameters p.total p hr.fuel hr ((leads_consume ..).clean hc)
    obtain ⟨t, hReads, hKind⟩ := reads_consume hr₁ (by decide) hc
    rw [hReads.toks] at hd
    exact ⟨names, .some hd hKind, hReads.ready⟩

theorem derives_function (hr : p.Ready) (hc : (function inner p).Clean) :
    (∃ (opening brace closing : Token) (parameters : List String) (body : List Stmt)
      (ts ts' : List Token), p.toks = opening :: ts ∧ opening.kind = .leftParen ∧
      Routine.DerivesParameters parameters ts (brace :: ts') ∧ brace.kind = .leftBrace ∧
      Stmt.DerivesList body ts' (closing :: (function inner p).toks) ∧
      closing.kind = .rightBrace) ∧ (function inner p).Ready := by
  have hBegin (p : Parser) (name : Str) : p.Writes (p.beginFunction name).beginScope :=
    writes_made ..
  have hw := (writes_intern p p.previous.lexeme).trans (hBegin _ (p.intern p.previous.lexeme).1)
  rw [function_eq] at hc ⊢
  dsimp only at hc ⊢
  generalize ((p.intern p.previous.lexeme).2.beginFunction _).beginScope = q₁ at hw hc ⊢
  have hOpen := @reads_consume q₁ .leftParen .parenAfterFunctionName (hw.ready hr) (by decide)
  generalize q₁.consume .leftParen .parenAfterFunctionName = q₂ at hOpen hc ⊢
  have hParameters := @derives_parameterList q₂ .parenAfterParameters
  have hLeads : q₂.Leads ((if q₂.check .rightParen then q₂ else parameters q₂.total q₂).consume
      .rightParen .parenAfterParameters) :=
    .trans (.ite (.refl q₂) (leads_parameters q₂.total q₂)) (leads_consume ..)
  generalize (if q₂.check .rightParen then q₂ else parameters q₂.total q₂).consume .rightParen
    .parenAfterParameters = q₃ at hParameters hLeads hc ⊢
  have hc₄ := (writes_closeFunction _).clean hc
  have hc₃ := (leads_block hi.leads _).clean hc₄
  have hc₂ := (leads_consume ..).clean hc₃
  obtain ⟨opening, hReads, ho⟩ := hOpen (hLeads.clean hc₂)
  obtain ⟨names, hNames, hr₃⟩ := hParameters hReads.ready hc₂
  obtain ⟨brace, hBrace, hb⟩ := reads_consume hr₃ (by decide) hc₃
  obtain ⟨body, closing, hd, hcl, hr₄⟩ := derives_block hi hBrace.ready hc₄
  rw [← hw.toks, (writes_closeFunction _).toks]
  rw [hBrace.toks] at hNames
  exact ⟨⟨opening, brace, closing, names, body, _, _, hReads.toks, ho, hNames, hb, hd, hcl⟩,
    (writes_closeFunction _).ready hr₄⟩

/-- A whole source that is accepted derives a script. -/
theorem derives_script : ∀ (fuel : Nat) (p : Parser), p.toks.length ≤ fuel → p.Ready →
    (script inner fuel p).Clean → ∃ r : Routine, r.DerivesScript p.toks
  | 0, p, hFuel, _, _ => absurd hFuel (Nat.not_succ_le_zero _)
  | fuel + 1, p, hFuel, hr, hc => by
    unfold script at hc
    split at hc
    · rename_i h
      have hKind : p.current.kind = .eof := of_decide_eq_true h
      have hRest : p.toks = [p.current] := by
        have hTerminated : Token.Terminated (p.current :: p.rest) := hr.terminated
        unfold toks
        generalize p.current = t, p.rest = ts at hTerminated hKind ⊢
        cases hTerminated with
        | last => rfl
        | cons h => exact absurd hKind h
      rw [hRest]
      exact ⟨_, .mk .nil hKind⟩
    · obtain ⟨⟨s, hd⟩, hr₁⟩ := derives_declaration hi hr ((leads_script hi.leads ..).clean hc)
      have hLess := hd.uses.length_lt
      obtain ⟨r, hScript⟩ := derives_script fuel _ (by omega) hr₁ hc
      obtain ⟨hds, hEof⟩ := hScript
      exact ⟨_, .mk (.cons hd hds) hEof⟩

end

end Parser

theorem Level.sound_ofDepth (depth : Nat) : (Level.ofDepth depth).Sound := by
  have hLeads := Level.leads_ofDepth depth
  induction depth with
  | zero =>
    exact ⟨hLeads, fun p hr hc => absurd hc (Parser.not_clean_giveUp hr.sane),
      fun _ p _ _ hr hc => absurd hc (Parser.not_clean_giveUp hr.sane),
      fun p hr hc => absurd hc (Parser.not_clean_giveUp hr.sane)⟩
  | succ depth ih =>
    have hi := ih (Level.leads_ofDepth depth)
    refine ⟨hLeads, ?_, ?_, ?_⟩
    all_goals rw [Level.ofDepth, Level.around]; dsimp only
    · exact fun p hr hc => Parser.derives_statement hi hr hc
    · exact fun _ p hNone hRank hr hc => Parser.derives_operand hi hNone hRank hr hc
    · exact fun p hr hc => Parser.derives_function hi hr hc

end Lox
