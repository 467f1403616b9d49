import Lox.Proofs.Syntax.Grammar

/-!
# Trees of the grammar

What every tree that the grammar derives has: no name is empty, and the bodies of `if` and of loops are
no declarations.
-/

set_option autoImplicit false

namespace Lox

namespace Expr

mutual
/-- No name in an expression is empty. -/
def Proper : Expr → Prop
  | nil _ | bool _ _ | number _ _ | string _ _ => True
  | name n _ => n ≠ ""
  | assign n value => n ≠ "" ∧ value.Proper
  | group inner _ => inner.Proper
  | unary _ operand => operand.Proper
  | binary _ left right | and left right _ | or left right _ => left.Proper ∧ right.Proper
  | call callee arguments _ => callee.Proper ∧ ProperList arguments

/-- No name in some expressions is empty. -/
def ProperList : List Expr → Prop
  | [] => True
  | e :: es => e.Proper ∧ ProperList es
end

/-- No name is empty in an expression that may be missing. -/
def Proper? : Option Expr → Prop
  | none => True
  | some e => e.Proper

end Expr

/-- No name in the declaration of a variable is empty. -/
def Variable.Proper (v : Variable) : Prop := v.name ≠ "" ∧ Expr.Proper? v.value

/-- No name in a first clause is empty. -/
def Initializer.Proper : Initializer → Prop
  | none => True
  | var v => v.Proper
  | expression e _ => e.Proper

namespace Stmt

mutual
/-- No name in a statement is empty, and no declaration stands as the body of an `if` or a loop. -/
def Proper : Stmt → Prop
  | expression e _ | print e _ => e.Proper
  | var v => v.Proper
  | function _ name parameters body _ => name ≠ "" ∧ "" ∉ parameters ∧ ProperList body
  | block body _ => ProperList body
  | ifThen condition _ body => condition.Proper ∧ body.Proper ∧ body.declares = false
  | ifElse condition _ body other =>
    condition.Proper ∧ (body.Proper ∧ body.declares = false) ∧
      other.Proper ∧ other.declares = false
  | whileLoop condition _ body => condition.Proper ∧ body.Proper ∧ body.declares = false
  | forLoop first condition _ increment _ body =>
    first.Proper ∧ Expr.Proper? condition ∧ Expr.Proper? increment ∧
      body.Proper ∧ body.declares = false
  | ret value _ => Expr.Proper? value

/-- What `Proper` says, for some declarations. -/
def ProperList : List Stmt → Prop
  | [] => True
  | s :: ss => s.Proper ∧ ProperList ss
end

end Stmt

/-- What `Stmt.Proper` says, for a routine. A script has no parameters. -/
structure Routine.Proper (r : Routine) : Prop where
  script : r.name = none → r.parameters = []
  parameters : "" ∉ r.parameters
  body : Stmt.ProperList r.body

/-! ## Derivations -/

/-- The identifiers among some tokens are not empty. -/
def Token.Named (ts : List Token) : Prop := ∀ t ∈ ts, t.kind = .identifier → t.lexeme ≠ ""

namespace Token.Named

variable {t : Token} {ts rest : List Token}

theorem head (h : Named (t :: ts)) (ht : t.kind = .identifier) : t.lexeme ≠ "" :=
  h t List.mem_cons_self ht

theorem tail (h : Named (t :: ts)) : Named ts := fun u hu => h u (List.mem_cons_of_mem t hu)

theorem of_uses (h : Named ts) (hu : Uses ts rest) : Named rest := by
  obtain ⟨used, rfl, -⟩ := hu.eq_append
  exact fun u hu => h u (List.mem_append_right used hu)

end Token.Named

open Token (Named)

mutual

theorem Expr.Derives.proper {layer : Precedence} {e : Expr} {ts rest : List Token} :
    e.Derives layer ts rest → Named ts → e.Proper
  | .nil _, _ | .true _, _ | .false _, _ | .number _, _ | .string _, _ => trivial
  | .name hk, hn => hn.head hk
  | .group _ h _, hn => h.proper hn.tail
  | .callNone h _ _, hn => ⟨h.proper hn, trivial⟩
  | .callSome h _ hs _, hn => ⟨h.proper hn, hs.proper (hn.of_uses h.uses).tail⟩
  | .unary _ h, hn => h.proper hn.tail
  | .binary hl _ hr, hn | .and hl _ hr, hn | .or hl _ hr, hn =>
    ⟨hl.proper hn, hr.proper (hn.of_uses hl.uses).tail⟩
  | .assign hk _ h, hn => ⟨hn.head hk, h.proper hn.tail.tail⟩
  | .tighter _ _ h, hn => h.proper hn

theorem Expr.DerivesList.proper {es : List Expr} {ts rest : List Token} :
    Expr.DerivesList es ts rest → Named ts → Expr.ProperList es
  | .last h, hn => ⟨h.proper hn, trivial⟩
  | .more h _ hs, hn => ⟨h.proper hn, hs.proper (hn.of_uses h.uses).tail⟩

end

theorem Expr.DerivesOptional.proper {kind : Token.Kind} {e : Option Expr} {line : Nat}
    {ts rest : List Token} : Expr.DerivesOptional kind e line ts rest → Named ts → Expr.Proper? e
  | .none _, _ => trivial
  | .some h _, hn => h.proper hn

theorem Variable.Derives.proper {v : Variable} {ts rest : List Token} :
    v.Derives ts rest → Named ts → v.Proper
  | .plain hk _, hn => ⟨hn.head hk, trivial⟩
  | .set hk _ h _, hn => ⟨hn.head hk, h.proper hn.tail.tail⟩

theorem Initializer.Derives.proper {first : Initializer} {ts rest : List Token} :
    first.Derives ts rest → Named ts → first.Proper
  | .none _, _ => trivial
  | .var _ h, hn => h.proper hn.tail
  | .expression h _, hn => h.proper hn

theorem Routine.DerivesNames.proper {names : List String} {ts rest : List Token} :
    Routine.DerivesNames names ts rest → Named ts → "" ∉ names
  | .last hk, hn => by simpa using (hn.head hk).symm
  | .more hk _ h, hn => by simpa using ⟨hn.head hk, h.proper hn.tail.tail⟩

theorem Routine.DerivesParameters.proper {names : List String} {ts rest : List Token} :
    Routine.DerivesParameters names ts rest → Named ts → "" ∉ names
  | .none _, _ => List.not_mem_nil
  | .some h _, hn => h.proper hn

theorem Stmt.Derives.declares_eq_false {s : Stmt} {ts rest : List Token} (h : s.Derives ts rest) :
    s.declares = false := by
  cases h <;> rfl

mutual

theorem Stmt.Derives.proper {s : Stmt} {ts rest : List Token} :
    s.Derives ts rest → Named ts → s.Proper
  | .expression h _, hn => h.proper hn
  | .print _ h _, hn => h.proper hn.tail
  | .block _ h _, hn => h.proper hn.tail
  | .ifThen _ _ hc _ hb _, hn | .whileLoop _ _ hc _ hb, hn =>
    ⟨hc.proper hn.tail.tail, hb.proper (hn.tail.tail.of_uses hc.uses).tail, hb.declares_eq_false⟩
  | .ifElse _ _ hc _ hb _ ho, hn =>
    have hBody := (hn.tail.tail.of_uses hc.uses).tail
    ⟨hc.proper hn.tail.tail, ⟨hb.proper hBody, hb.declares_eq_false⟩,
      ho.proper (hBody.of_uses hb.uses).tail, ho.declares_eq_false⟩
  | .forLoop _ _ hf hc hi hb, hn =>
    have hTest := hn.tail.tail.of_uses hf.uses
    have hStep := hTest.of_uses (hc.uses rfl)
    ⟨hf.proper hn.tail.tail, hc.proper hTest, hi.proper hStep,
      hb.proper (hStep.of_uses (hi.uses rfl)), hb.declares_eq_false⟩
  | .ret _ h, hn => h.proper hn.tail

theorem Stmt.DerivesDeclaration.proper {s : Stmt} {ts rest : List Token} :
    s.DerivesDeclaration ts rest → Named ts → s.Proper
  | .statement h, hn => h.proper hn
  | .var _ h, hn => h.proper hn.tail
  | .function _ hk _ hp _ h _, hn =>
    have hParameters := hn.tail.tail.tail
    ⟨hn.tail.head hk, hp.proper hParameters, h.proper (hParameters.of_uses hp.uses).tail⟩

theorem Stmt.DerivesList.proper {ss : List Stmt} {ts rest : List Token} :
    Stmt.DerivesList ss ts rest → Named ts → Stmt.ProperList ss
  | .nil, _ => trivial
  | .cons h hs, hn => ⟨h.proper hn, hs.proper (hn.of_uses h.uses)⟩

end

theorem Routine.DerivesScript.proper {r : Routine} {ts : List Token} :
    r.DerivesScript ts → Named ts → r.Proper
  | .mk h _, hn => ⟨fun _ => rfl, List.not_mem_nil, h.proper hn⟩

end Lox
