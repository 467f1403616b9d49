import Lox.Proofs.Syntax.Legal
import Lox.Proofs.Syntax.Proper

/-!
# Functions among the constants

Only the declaration of a function adds a function to the constants: those among the constants of a
routine are the ones that its body declares (`Routine.routines_pool`). So they are legal where the
routine is (`Routine.Legal.nested`).
-/

set_option autoImplicit false

namespace Lox

/-! ## Declared functions -/

namespace Stmt

mutual
/-- The functions that a statement declares, without those that are declared in their bodies. -/
def functions : Stmt → List Routine
  | function place name parameters body line => [⟨place, some name, parameters, body, line⟩]
  | block body _ => functionsOfAll body
  | ifThen _ _ body | whileLoop _ _ body | forLoop _ _ _ _ _ body => body.functions
  | ifElse _ _ body other => body.functions ++ other.functions
  | expression _ _ | print _ _ | var _ | ret _ _ => []

/-- The functions that some declarations declare. -/
def functionsOfAll : List Stmt → List Routine
  | [] => []
  | s :: ss => s.functions ++ functionsOfAll ss
end

end Stmt

/-! ## Functions among the constants -/

/-- The function that a constant is. -/
def Const.routine? : Const → Option Routine
  | .function r => some r
  | _ => none

/-- The functions among some constants, in order. -/
def Const.routines (k : List Const) : List Routine := k.filterMap Const.routine?

theorem Const.routines_withName (k : List Const) (name : String) :
    routines (withName k name) = routines k := by
  unfold withName
  split
  · rfl
  · simp [routines, routine?]

theorem Referent.routines_pool (ls : List Local) (k : List Const) (name : String) :
    Const.routines (Referent.pool ls k name) = Const.routines k := by
  unfold Referent.pool
  split
  · rfl
  · exact Const.routines_withName k name

theorem Scope.routines_pool (sc : Scope) (k : List Const) (name : String) :
    Const.routines (sc.pool k name) = Const.routines k := by
  unfold Scope.pool
  split
  · exact Const.routines_withName k name
  · rfl

mutual

theorem Expr.routines_pool (ls : List Local) : ∀ (e : Expr) (k : List Const),
    Const.routines (e.pool ls k) = Const.routines k
  | .nil _, _ | .bool _ _, _ => rfl
  | .number _ _, _ | .string _ _, _ => by simp [Expr.pool, Const.routines, Const.routine?]
  | .name n _, k => Referent.routines_pool ls k n
  | .assign n value, k => (value.routines_pool ls _).trans (Referent.routines_pool ls k n)
  | .group inner _, k => inner.routines_pool ls k
  | .unary _ operand, k => operand.routines_pool ls k
  | .binary _ left right, k | .and left right _, k | .or left right _, k =>
    (right.routines_pool ls _).trans (left.routines_pool ls k)
  | .call callee arguments _, k =>
    (Expr.routines_poolOfAll ls arguments _).trans (callee.routines_pool ls k)

theorem Expr.routines_poolOfAll (ls : List Local) : ∀ (es : List Expr) (k : List Const),
    Const.routines (Expr.poolOfAll ls k es) = Const.routines k
  | [], _ => rfl
  | e :: es, k => (Expr.routines_poolOfAll ls es _).trans (e.routines_pool ls k)

end

theorem Expr.routines_pool? (ls : List Local) (k : List Const) :
    ∀ e : Option Expr, Const.routines (Expr.pool? ls k e) = Const.routines k
  | none => rfl
  | some e => e.routines_pool ls k

theorem Variable.routines_pool (v : Variable) (sc : Scope) (k : List Const) :
    Const.routines (v.pool sc k) = Const.routines k := by
  unfold Variable.pool
  split
  · exact sc.routines_pool k v.name
  · exact (Expr.routines_pool ..).trans (sc.routines_pool k v.name)

theorem Initializer.routines_pool (sc : Scope) (k : List Const) :
    ∀ first : Initializer, Const.routines (first.pool sc k) = Const.routines k
  | .none => rfl
  | .var v => v.routines_pool sc k
  | .expression e _ => e.routines_pool sc.locals k

mutual

theorem Stmt.routines_pool : ∀ (s : Stmt) (sc : Scope) (k : List Const),
    Const.routines (s.pool sc k) = Const.routines k ++ s.functions
  | .expression e _, sc, k | .print e _, sc, k => by
    simpa [Stmt.functions, Stmt.pool] using e.routines_pool sc.locals k
  | .var v, sc, k => by simpa [Stmt.functions, Stmt.pool] using v.routines_pool sc k
  | .function _ name _ _ _, sc, k => by
    have hPool := sc.routines_pool k name
    simp only [Const.routines] at hPool
    simp [Stmt.pool, Stmt.functions, Const.routines, Const.routine?, hPool]
  | .block body _, sc, k => Stmt.routines_poolOfAll body sc.enter k
  | .ifThen condition _ body, sc, k | .whileLoop condition _ body, sc, k =>
    (body.routines_pool sc _).trans (by rw [condition.routines_pool, Stmt.functions])
  | .ifElse condition _ body other, sc, k => by
    refine (other.routines_pool sc _).trans ?_
    rw [body.routines_pool, condition.routines_pool, Stmt.functions, List.append_assoc]
  | .forLoop first condition _ increment _ body, sc, k => by
    refine (body.routines_pool _ _).trans ?_
    rw [Expr.routines_pool?, Expr.routines_pool?, first.routines_pool, Stmt.functions]
  | .ret value _, sc, k => by
    simpa [Stmt.functions, Stmt.pool] using Expr.routines_pool? sc.locals k value

theorem Stmt.routines_poolOfAll : ∀ (ss : List Stmt) (sc : Scope) (k : List Const),
    Const.routines (Stmt.poolOfAll sc k ss) = Const.routines k ++ Stmt.functionsOfAll ss
  | [], _, _ => (List.append_nil _).symm
  | s :: ss, sc, k => by
    refine (Stmt.routines_poolOfAll ss _ _).trans ?_
    rw [s.routines_pool, Stmt.functionsOfAll, List.append_assoc]

end

/-- The functions among the constants of a routine are those that its body declares. -/
theorem Routine.routines_pool (r : Routine) : Const.routines r.pool = Stmt.functionsOfAll r.body :=
  Stmt.routines_poolOfAll r.body r.scope []

theorem Const.mem_routines_iff {k : List Const} {r : Routine} : r ∈ Const.routines k ↔ .function r ∈ k := by
  rw [Const.routines, List.mem_filterMap]
  constructor
  · rintro ⟨c, hc, hr⟩
    cases c with
    | function => cases hr; exact hc
    | number | string => cases hr
  · exact fun h => ⟨_, h, rfl⟩

theorem Routine.function_mem_pool_iff {r q : Routine} :
    .function q ∈ r.pool ↔ q ∈ Stmt.functionsOfAll r.body := by
  rw [← r.routines_pool, Const.mem_routines_iff]

theorem Stmt.mem_functionsOfAll {s : Stmt} {r : Routine} (hr : r ∈ s.functions) :
    ∀ {ss : List Stmt}, s ∈ ss → r ∈ Stmt.functionsOfAll ss
  | s' :: ss, h => by
    rw [Stmt.functionsOfAll, List.mem_append]
    rcases List.mem_cons.1 h with rfl | h
    · exact .inl hr
    · exact .inr (Stmt.mem_functionsOfAll hr h)

/-! ## Legal functions -/

mutual

theorem Stmt.nested {r : Routine} : ∀ (s : Stmt) {inFunction : Bool} {sc : Scope} {k : List Const},
    s.Proper → s.Legal inFunction sc k → r ∈ s.functions → r.Proper ∧ r.Legal
  | .expression _ _, _, _, _, _, _, h | .print _ _, _, _, _, _, _, h | .var _, _, _, _, _, _, h
  | .ret _ _, _, _, _, _, _, h => absurd h List.not_mem_nil
  | .function _ _ _ _ _, _, _, _, ⟨_, hNames, hProper⟩, ⟨_, hMax, hNodup, hBody, hPool⟩, h => by
    cases List.mem_singleton.1 h
    exact ⟨⟨nofun, hNames, hProper⟩, ⟨hBody, hMax, hNodup, hPool⟩⟩
  | .block body _, _, _, _, hProper, hLegal, h => Stmt.nestedAll body hProper hLegal h
  | .ifThen _ _ body, _, _, _, hProper, hLegal, h
  | .whileLoop _ _ body, _, _, _, hProper, hLegal, h => body.nested hProper.2.1 hLegal.2.1 h
  | .ifElse _ _ body other, _, _, _, hProper, hLegal, h => by
    rcases List.mem_append.1 h with h | h
    · exact body.nested hProper.2.1.1 hLegal.2.1 h
    · exact other.nested hProper.2.2.1 hLegal.2.2.1 h
  | .forLoop _ _ _ _ _ body, _, _, _, hProper, hLegal, h =>
    body.nested hProper.2.2.2.1 hLegal.2.2.2.1 h

theorem Stmt.nestedAll {r : Routine} : ∀ (ss : List Stmt) {inFunction : Bool} {sc : Scope}
    {k : List Const}, Stmt.ProperList ss → Stmt.LegalList inFunction sc k ss →
    r ∈ Stmt.functionsOfAll ss → r.Proper ∧ r.Legal
  | [], _, _, _, _, _, h => absurd h List.not_mem_nil
  | s :: ss, _, _, _, hProper, hLegal, h => by
    rcases List.mem_append.1 h with h | h
    · exact s.nested hProper.1 hLegal.1 h
    · exact Stmt.nestedAll ss hProper.2 hLegal.2 h

end

theorem Routine.Legal.nested {r r' : Routine} (hl : r.Legal) (hp : r.Proper)
    (h : .function r' ∈ r.pool) : r'.Proper ∧ r'.Legal :=
  Stmt.nestedAll r.body hp.body hl.body (Routine.function_mem_pool_iff.1 h)

end Lox
