import Lox.Number.Notation
import Lox.Proofs.Syntax.Tree

/-!
# The grammar

`Expr.Derives layer e ts rest`: the tokens `ts` start with an expression of a layer whose tree is `e`,
and `rest` are the tokens behind it. The layers are those of `Precedence`, from the loosest to the
tightest; what binds more tightly may stand wherever a looser expression may (`tighter`).

    program     → declaration* EOF
    declaration → function | variable | statement
    function    → "fun" NAME "(" parameters? ")" "{" declaration* "}"
    variable    → "var" NAME ( "=" expression )? ";"
    statement   → expression ";" | "print" expression ";" | "{" declaration* "}"
                | "if" "(" expression ")" statement ( "else" statement )?
                | "while" "(" expression ")" statement
                | "for" "(" ( variable | expression? ";" ) expression? ";" expression? ")" statement
                | "return" expression? ";"
    assignment  → NAME "=" assignment | or
    or          → and "or" or | and
    and         → equality "and" and | equality
    equality    → equality ( "==" | "!=" ) comparison | comparison
    comparison  → comparison ( ">" | ">=" | "<" | "<=" ) term | term
    term        → term ( "+" | "-" ) factor | factor
    factor      → factor ( "*" | "/" ) unary | unary
    unary       → ( "!" | "-" ) unary | call
    call        → call "(" arguments? ")" | primary
    primary     → "nil" | "true" | "false" | NUMBER | STRING | NAME | "(" expression ")"

An `else` belongs to the nearest `if` that it can belong to, so an `if` without one is not followed by
one.
-/

set_option autoImplicit false

namespace Lox

/-- The number that a number token writes: digits, and perhaps a dot and more digits. -/
def Token.numberValue (t : Token) : Float :=
  let cs := t.lexeme.toList
  let whole := cs.takeWhile Char.isDigit
  Number.ofLiteral whole (cs.drop (whole.length + 1))

/-- The text that a string token writes: what stands between its quotes. -/
def Token.quotedText (t : Token) : String :=
  String.ofList (t.lexeme.toList.drop 1).dropLast

/-- The token of an operator in front of its operand. -/
def UnaryOperator.kind : UnaryOperator → Token.Kind
  | negate => .minus
  | not => .bang

/-- The token of an operator between its operands. -/
def BinaryOperator.kind : BinaryOperator → Token.Kind
  | equal => .equalEqual
  | notEqual => .bangEqual
  | greater => .greater
  | greaterEqual => .greaterEqual
  | less => .less
  | lessEqual => .lessEqual
  | add => .plus
  | subtract => .minus
  | multiply => .star
  | divide => .slash

/-- The layer of the expressions that an operator makes. -/
def BinaryOperator.layer : BinaryOperator → Precedence
  | equal | notEqual => .equality
  | greater | greaterEqual | less | lessEqual => .comparison
  | add | subtract => .term
  | multiply | divide => .factor

mutual

/-- Expressions of a layer. -/
inductive Expr.Derives : Precedence → Expr → List Token → List Token → Prop
  | nil {t : Token} {rest : List Token} :
      t.kind = .kwNil → Derives .primary (.nil t.line) (t :: rest) rest
  | true {t : Token} {rest : List Token} :
      t.kind = .kwTrue → Derives .primary (.bool true t.line) (t :: rest) rest
  | false {t : Token} {rest : List Token} :
      t.kind = .kwFalse → Derives .primary (.bool false t.line) (t :: rest) rest
  | number {t : Token} {rest : List Token} :
      t.kind = .number → Derives .primary (.number t.numberValue t.line) (t :: rest) rest
  | string {t : Token} {rest : List Token} :
      t.kind = .string → Derives .primary (.string t.quotedText t.line) (t :: rest) rest
  | name {t : Token} {rest : List Token} :
      t.kind = .identifier → Derives .primary (.name t.lexeme t.line) (t :: rest) rest
  | group {opening closing : Token} {ts rest : List Token} {e : Expr} :
      opening.kind = .leftParen → Derives .assignment e ts (closing :: rest) →
      closing.kind = .rightParen → Derives .primary (.group e closing.line) (opening :: ts) rest
  | callNone {opening closing : Token} {ts rest : List Token} {callee : Expr} :
      Derives .call callee ts (opening :: closing :: rest) →
      opening.kind = .leftParen → closing.kind = .rightParen →
      Derives .call (.call callee [] closing.line) ts rest
  | callSome {opening closing : Token} {ts ts' rest : List Token} {callee : Expr}
      {arguments : List Expr} :
      Derives .call callee ts (opening :: ts') →
      opening.kind = .leftParen → DerivesList arguments ts' (closing :: rest) →
      closing.kind = .rightParen → Derives .call (.call callee arguments closing.line) ts rest
  | unary {t : Token} {ts rest : List Token} {op : UnaryOperator} {e : Expr} :
      t.kind = op.kind → Derives .unary e ts rest →
      Derives .unary (.unary op e) (t :: ts) rest
  | binary {t : Token} {ts ts' rest : List Token} {op : BinaryOperator} {left right : Expr} :
      Derives op.layer left ts (t :: ts') →
      t.kind = op.kind → Derives op.layer.next right ts' rest →
      Derives op.layer (.binary op left right) ts rest
  | and {t : Token} {ts ts' rest : List Token} {left right : Expr} :
      Derives .equality left ts (t :: ts') → t.kind = .kwAnd →
      Derives .and right ts' rest → Derives .and (.and left right t.line) ts rest
  | or {t : Token} {ts ts' rest : List Token} {left right : Expr} :
      Derives .and left ts (t :: ts') → t.kind = .kwOr →
      Derives .or right ts' rest → Derives .or (.or left right t.line) ts rest
  | assign {name equals : Token} {ts rest : List Token} {e : Expr} :
      name.kind = .identifier → equals.kind = .equal →
      Derives .assignment e ts rest →
      Derives .assignment (.assign name.lexeme e) (name :: equals :: ts) rest
  | tighter {ts rest : List Token} {layer : Precedence} {e : Expr} :
      layer ≠ .none → layer ≠ .primary →
      Derives layer.next e ts rest → Derives layer e ts rest

/-- One or more expressions with commas between them. -/
inductive Expr.DerivesList : List Expr → List Token → List Token → Prop
  | last {ts rest : List Token} {e : Expr} :
      Expr.Derives .assignment e ts rest → DerivesList [e] ts rest
  | more {comma : Token} {ts ts' rest : List Token} {e : Expr} {es : List Expr} :
      Expr.Derives .assignment e ts (comma :: ts') →
      comma.kind = .comma → DerivesList es ts' rest → DerivesList (e :: es) ts rest

end

/-- An expression. -/
abbrev Expr.DerivesWhole (e : Expr) (ts rest : List Token) : Prop := e.Derives .assignment ts rest

/-- An expression that may be missing, and a token of a kind behind it. -/
inductive Expr.DerivesOptional (kind : Token.Kind) :
    Option Expr → Nat → List Token → List Token → Prop
  | none {closing : Token} {rest : List Token} :
      closing.kind = kind → DerivesOptional kind none closing.line (closing :: rest) rest
  | some {closing : Token} {ts rest : List Token} {e : Expr} :
      e.DerivesWhole ts (closing :: rest) → closing.kind = kind →
      DerivesOptional kind (some e) closing.line ts rest

/-- The declaration of a variable behind `var`. -/
inductive Variable.Derives : Variable → List Token → List Token → Prop
  | plain {name semicolon : Token} {rest : List Token} :
      name.kind = .identifier → semicolon.kind = .semicolon →
      Derives ⟨name.lexeme, name.line, none, semicolon.line⟩ (name :: semicolon :: rest) rest
  | set {name equals semicolon : Token} {ts rest : List Token} {e : Expr} :
      name.kind = .identifier → equals.kind = .equal →
      e.DerivesWhole ts (semicolon :: rest) → semicolon.kind = .semicolon →
      Derives ⟨name.lexeme, name.line, some e, semicolon.line⟩ (name :: equals :: ts) rest

/-- The first clause of a `for`. -/
inductive Initializer.Derives : Initializer → List Token → List Token → Prop
  | none {semicolon : Token} {rest : List Token} :
      semicolon.kind = .semicolon → Derives .none (semicolon :: rest) rest
  | var {t : Token} {ts rest : List Token} {v : Variable} :
      t.kind = .kwVar → v.Derives ts rest → Derives (.var v) (t :: ts) rest
  | expression {semicolon : Token} {ts rest : List Token} {e : Expr} :
      e.DerivesWhole ts (semicolon :: rest) →
      semicolon.kind = .semicolon → Derives (.expression e semicolon.line) ts rest

/-- One or more names with commas between them. -/
inductive Routine.DerivesNames : List String → List Token → List Token → Prop
  | last {name : Token} {rest : List Token} :
      name.kind = .identifier → DerivesNames [name.lexeme] (name :: rest) rest
  | more {name comma : Token} {ts rest : List Token} {names : List String} :
      name.kind = .identifier → comma.kind = .comma →
      DerivesNames names ts rest → DerivesNames (name.lexeme :: names) (name :: comma :: ts) rest

/-- The parameters of a function behind the opening parenthesis, up to the closing one. -/
inductive Routine.DerivesParameters : List String → List Token → List Token → Prop
  | none {closing : Token} {rest : List Token} :
      closing.kind = .rightParen → DerivesParameters [] (closing :: rest) rest
  | some {closing : Token} {ts rest : List Token} {names : List String} :
      DerivesNames names ts (closing :: rest) →
      closing.kind = .rightParen → DerivesParameters names ts rest

mutual

/-- Statements. -/
inductive Stmt.Derives : Stmt → List Token → List Token → Prop
  | expression {semicolon : Token} {ts rest : List Token} {e : Expr} :
      e.DerivesWhole ts (semicolon :: rest) →
      semicolon.kind = .semicolon → Derives (.expression e semicolon.line) ts rest
  | print {t semicolon : Token} {ts rest : List Token} {e : Expr} :
      t.kind = .kwPrint → e.DerivesWhole ts (semicolon :: rest) →
      semicolon.kind = .semicolon → Derives (.print e semicolon.line) (t :: ts) rest
  | block {opening closing : Token} {ts rest : List Token} {body : List Stmt} :
      opening.kind = .leftBrace → DerivesList body ts (closing :: rest) →
      closing.kind = .rightBrace → Derives (.block body closing.line) (opening :: ts) rest
  | ifThen {t opening closing : Token} {ts ts' rest : List Token} {condition : Expr} {body : Stmt} :
      t.kind = .kwIf → opening.kind = .leftParen →
      condition.DerivesWhole ts (closing :: ts') → closing.kind = .rightParen →
      Derives body ts' rest → (∀ t ∈ rest.head?, t.kind ≠ .kwElse) →
      Derives (.ifThen condition closing.line body) (t :: opening :: ts) rest
  | ifElse {t opening closing : Token} {ts ts' rest : List Token} {condition : Expr}
      {body other : Stmt} {else_ : Token} {ts'' : List Token} :
      t.kind = .kwIf → opening.kind = .leftParen →
      condition.DerivesWhole ts (closing :: ts') → closing.kind = .rightParen →
      Derives body ts' (else_ :: ts'') → else_.kind = .kwElse → Derives other ts'' rest →
      Derives (.ifElse condition closing.line body other) (t :: opening :: ts) rest
  | whileLoop {t opening closing : Token} {ts ts' rest : List Token} {condition : Expr}
      {body : Stmt} :
      t.kind = .kwWhile → opening.kind = .leftParen →
      condition.DerivesWhole ts (closing :: ts') → closing.kind = .rightParen →
      Derives body ts' rest →
      Derives (.whileLoop condition closing.line body) (t :: opening :: ts) rest
  | forLoop {t opening : Token} {ts rest : List Token} {first : Initializer}
      {condition increment : Option Expr} {body : Stmt}
      {semicolonLine parenLine : Nat} {ts₁ ts₂ ts₃ : List Token} :
      t.kind = .kwFor → opening.kind = .leftParen → first.Derives ts ts₁ →
      Expr.DerivesOptional .semicolon condition semicolonLine ts₁ ts₂ →
      Expr.DerivesOptional .rightParen increment parenLine ts₂ ts₃ → Derives body ts₃ rest →
      Derives (.forLoop first condition semicolonLine increment parenLine body)
        (t :: opening :: ts) rest
  | ret {t : Token} {ts rest : List Token} {value : Option Expr} {line : Nat} : t.kind = .kwReturn →
      Expr.DerivesOptional .semicolon value line ts rest → Derives (.ret value line) (t :: ts) rest

/-- Declarations, among them statements. -/
inductive Stmt.DerivesDeclaration : Stmt → List Token → List Token → Prop
  | statement {ts rest : List Token} {s : Stmt} : s.Derives ts rest → DerivesDeclaration s ts rest
  | var {t : Token} {ts rest : List Token} {v : Variable} : t.kind = .kwVar → v.Derives ts rest →
      DerivesDeclaration (.var v) (t :: ts) rest
  | function {t name opening closing : Token} {ts ts' rest : List Token}
      {parameters : List String} {body : List Stmt} {brace : Token} :
      t.kind = .kwFun → name.kind = .identifier → opening.kind = .leftParen →
      Routine.DerivesParameters parameters ts (brace :: ts') → brace.kind = .leftBrace →
      DerivesList body ts' (closing :: rest) → closing.kind = .rightBrace →
      DerivesDeclaration (.function rest.length name.lexeme parameters body closing.line)
        (t :: name :: opening :: ts) rest

/-- Any number of declarations. -/
inductive Stmt.DerivesList : List Stmt → List Token → List Token → Prop
  | nil {rest : List Token} : DerivesList [] rest rest
  | cons {ts ts' rest : List Token} {s : Stmt} {ss : List Stmt} :
      s.DerivesDeclaration ts ts' → DerivesList ss ts' rest →
      DerivesList (s :: ss) ts rest

end

/-- The script that all the tokens of a source text make. -/
inductive Routine.DerivesScript : Routine → List Token → Prop
  | mk {ts : List Token} {body : List Stmt} {last : Token} :
      Stmt.DerivesList body ts [last] → last.kind = .eof →
      DerivesScript (.script body last.line) ts

/-! ## Tokens used up -/

/-- Whether tokens of a kind can stand in a derivation: all but error tokens and the end token. -/
def Token.Kind.plain : Token.Kind → Bool
  | .error _ | .eof => false
  | _ => true

/-- A token that can stand in a derivation. -/
def Token.Plain (t : Token) : Prop := t.kind.plain = true

theorem Token.Plain.of_kind {t : Token} {kind : Token.Kind} (h : t.kind = kind)
    (hk : kind.plain = true) : t.Plain := by
  rw [Plain, h]
  exact hk

/-- The second list is what the first one is followed by behind one or more plain tokens. -/
def Token.Uses : List Token → List Token → Prop :=
  Relation.TransGen fun ts rest => ∃ t : Token, t.Plain ∧ ts = t :: rest

namespace Token.Uses

variable {ts ts' rest : List Token} {t : Token}

theorem one (ht : t.Plain) : Uses (t :: rest) rest := .single ⟨t, ht, rfl⟩

theorem cons (ht : t.Plain) (h : Uses ts rest) : Uses (t :: ts) rest := .head ⟨t, ht, rfl⟩ h

theorem snoc (h : Uses ts (t :: rest)) (ht : t.Plain) : Uses ts rest := .tail h ⟨t, ht, rfl⟩

theorem snoc_of_eq_or (h : ts = t :: rest ∨ Uses ts (t :: rest)) (ht : t.Plain) :
    Uses ts rest := by
  rcases h with rfl | h
  · exact .one ht
  · exact h.snoc ht

theorem trans (h : Uses ts ts') (h' : Uses ts' rest) : Uses ts rest := Relation.TransGen.trans h h'

theorem length_lt (h : Uses ts rest) : rest.length < ts.length := by
  induction h with
  | single h =>
    obtain ⟨t, -, rfl⟩ := h
    simp
  | tail _ h ih =>
    obtain ⟨t, -, rfl⟩ := h
    simp only [List.length_cons] at ih
    omega

theorem eq_append (h : Uses ts rest) : ∃ used, ts = used ++ rest ∧ ∀ t ∈ used, t.Plain := by
  induction h with
  | single h =>
    obtain ⟨t, ht, rfl⟩ := h
    exact ⟨[t], rfl, by simpa using ht⟩
  | tail _ h ih =>
    obtain ⟨t, ht, rfl⟩ := h
    obtain ⟨used, rfl, hUsed⟩ := ih
    refine ⟨used ++ [t], by simp, fun u hu => ?_⟩
    rcases List.mem_append.1 hu with hu | hu
    · exact hUsed u hu
    · exact List.mem_singleton.1 hu ▸ ht

end Token.Uses

theorem UnaryOperator.plain_of_kind {t : Token} {op : UnaryOperator} (h : t.kind = op.kind) :
    t.Plain := by
  cases op <;> exact .of_kind h rfl

theorem BinaryOperator.plain_of_kind {t : Token} {op : BinaryOperator} (h : t.kind = op.kind) :
    t.Plain := by
  cases op <;> exact .of_kind h rfl

mutual

theorem Expr.Derives.uses {layer : Precedence} {e : Expr} {ts rest : List Token} :
    e.Derives layer ts rest → Token.Uses ts rest
  | .nil h | .true h | .false h | .number h | .string h | .name h => .one (.of_kind h rfl)
  | .group ho h hc => .cons (.of_kind ho rfl) (h.uses.snoc (.of_kind hc rfl))
  | .callNone h ho hc => (h.uses.snoc (.of_kind ho rfl)).snoc (.of_kind hc rfl)
  | .callSome h ho hs hc =>
    (h.uses.snoc (.of_kind ho rfl)).trans (hs.uses.snoc (.of_kind hc rfl))
  | .unary hk h => .cons (UnaryOperator.plain_of_kind hk) h.uses
  | .binary hl hk hr => (hl.uses.snoc (BinaryOperator.plain_of_kind hk)).trans hr.uses
  | .and hl hk hr | .or hl hk hr => (hl.uses.snoc (.of_kind hk rfl)).trans hr.uses
  | .assign hn he h => .cons (.of_kind hn rfl) (.cons (.of_kind he rfl) h.uses)
  | .tighter _ _ h => h.uses

theorem Expr.DerivesList.uses {es : List Expr} {ts rest : List Token} :
    Expr.DerivesList es ts rest → Token.Uses ts rest
  | .last h => h.uses
  | .more h hc hs => (h.uses.snoc (.of_kind hc rfl)).trans hs.uses

end

/-- The first token of an expression is one that starts an expression. -/
theorem Expr.Derives.leading {layer : Precedence} {e : Expr} {ts rest : List Token} :
    e.Derives layer ts rest → ∃ t ts', ts = t :: ts' ∧ t.kind.leading?.isSome
  | .nil h | .true h | .false h | .number h | .string h | .name h => ⟨_, _, rfl, by rw [h]; rfl⟩
  | .group h _ _ | .assign h _ _ => ⟨_, _, rfl, by rw [h]; rfl⟩
  | .unary h _ => ⟨_, _, rfl, by rw [h]; cases ‹UnaryOperator› <;> rfl⟩
  | .callNone h _ _ | .callSome h _ _ _ | .binary h _ _ | .and h _ _ | .or h _ _ => h.leading
  | .tighter _ _ h => h.leading

theorem Expr.DerivesList.leading {es : List Expr} {ts rest : List Token} :
    Expr.DerivesList es ts rest → ∃ t ts', ts = t :: ts' ∧ t.kind.leading?.isSome
  | .last h | .more h _ _ => h.leading

theorem Expr.DerivesOptional.uses {kind : Token.Kind} {e : Option Expr} {line : Nat}
    {ts rest : List Token} (hk : kind.plain = true) :
    Expr.DerivesOptional kind e line ts rest → Token.Uses ts rest
  | .none hc => .one (.of_kind hc hk)
  | .some h hc => h.uses.snoc (.of_kind hc hk)

theorem Variable.Derives.uses {v : Variable} {ts rest : List Token} :
    v.Derives ts rest → Token.Uses ts rest
  | .plain hn hs => .cons (.of_kind hn rfl) (.one (.of_kind hs rfl))
  | .set hn he h hs =>
    .cons (.of_kind hn rfl) (.cons (.of_kind he rfl) (h.uses.snoc (.of_kind hs rfl)))

theorem Initializer.Derives.uses {first : Initializer} {ts rest : List Token} :
    first.Derives ts rest → Token.Uses ts rest
  | .none hs => .one (.of_kind hs rfl)
  | .var hk h => .cons (.of_kind hk rfl) h.uses
  | .expression h hs => h.uses.snoc (.of_kind hs rfl)

theorem Routine.DerivesNames.uses {names : List String} {ts rest : List Token} :
    Routine.DerivesNames names ts rest → Token.Uses ts rest
  | .last hn => .one (.of_kind hn rfl)
  | .more hn hc h => .cons (.of_kind hn rfl) (.cons (.of_kind hc rfl) h.uses)

theorem Routine.DerivesParameters.uses {names : List String} {ts rest : List Token} :
    Routine.DerivesParameters names ts rest → Token.Uses ts rest
  | .none hc => .one (.of_kind hc rfl)
  | .some h hc => h.uses.snoc (.of_kind hc rfl)

mutual

theorem Stmt.Derives.uses {s : Stmt} {ts rest : List Token} :
    s.Derives ts rest → Token.Uses ts rest
  | .expression h hs => h.uses.snoc (.of_kind hs rfl)
  | .print hk h hs => .cons (.of_kind hk rfl) (h.uses.snoc (.of_kind hs rfl))
  | .block ho h hc => .cons (.of_kind ho rfl) (.snoc_of_eq_or h.uses (.of_kind hc rfl))
  | .ifThen hk ho hc hp hb _ | .whileLoop hk ho hc hp hb =>
    .cons (.of_kind hk rfl) (.cons (.of_kind ho rfl)
      ((hc.uses.snoc (.of_kind hp rfl)).trans hb.uses))
  | .ifElse hk ho hc hp hb he h =>
    .cons (.of_kind hk rfl) (.cons (.of_kind ho rfl)
      ((hc.uses.snoc (.of_kind hp rfl)).trans ((hb.uses.snoc (.of_kind he rfl)).trans h.uses)))
  | .forLoop hk ho hf hc hi hb =>
    .cons (.of_kind hk rfl) (.cons (.of_kind ho rfl)
      (hf.uses.trans ((hc.uses rfl).trans ((hi.uses rfl).trans hb.uses))))
  | .ret hk h => .cons (.of_kind hk rfl) (h.uses rfl)

theorem Stmt.DerivesDeclaration.uses {s : Stmt} {ts rest : List Token} :
    s.DerivesDeclaration ts rest → Token.Uses ts rest
  | .statement h => h.uses
  | .var hk h => .cons (.of_kind hk rfl) h.uses
  | .function hk hn ho hp hb h hc =>
    .cons (.of_kind hk rfl) (.cons (.of_kind hn rfl) (.cons (.of_kind ho rfl)
      ((hp.uses.snoc (.of_kind hb rfl)).trans (.snoc_of_eq_or h.uses (.of_kind hc rfl)))))

theorem Stmt.DerivesList.uses {ss : List Stmt} {ts rest : List Token} :
    Stmt.DerivesList ss ts rest → ts = rest ∨ Token.Uses ts rest
  | .nil => .inl rfl
  | .cons h hs => .inr <| by
    rcases hs.uses with rfl | h'
    · exact h.uses
    · exact h.uses.trans h'

end

theorem Stmt.DerivesList.length_le {ss : List Stmt} {ts rest : List Token}
    (h : Stmt.DerivesList ss ts rest) : rest.length ≤ ts.length := by
  rcases h.uses with rfl | hUses
  · exact Nat.le_refl _
  · exact Nat.le_of_lt hUses.length_lt

end Lox
