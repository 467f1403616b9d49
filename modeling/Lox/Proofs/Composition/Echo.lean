import Lox.Proofs.Semantics.Evaluation
import Lox.Proofs.Syntax.Relabel

/-!
# Evaluation does not depend on places and lines

Places only tell functions apart, and lines mean nothing to a program. So a relabelled tree does in a
relabelled state what the tree does in the state (`Eval.Echoes`), if no two places become one.
-/

set_option autoImplicit false

namespace Lox

variable {φ ψ : Relabelling}

/-! ## Data and states -/

namespace Datum

/-- A datum with its functions elsewhere. -/
def relabel (φ : Relabelling) : Datum → Datum
  | function r => function (r.relabel φ)
  | nil => nil
  | bool b => bool b
  | number x => number x
  | string text => string text
  | native n => native n

theorem relabel_relabel (d : Datum) : (d.relabel φ).relabel ψ = d.relabel (ψ.comp φ) := by
  cases d <;> simp [relabel, Routine.relabel_relabel]

@[simp] theorem isFalsey_relabel (d : Datum) : (d.relabel φ).isFalsey = d.isFalsey := by
  cases d <;> rfl

@[simp] theorem text_relabel (d : Datum) : (d.relabel φ).text = d.text := by cases d <;> rfl

theorem equal_relabel (hφ : Function.Injective φ.place) (d d' : Datum) :
    (d.relabel φ).equal (d'.relabel φ) = d.equal d' := by
  cases d <;> cases d' <;> first | rfl | skip
  rename_i r r'
  rw [Bool.eq_iff_iff]
  simp only [relabel, equal, Routine.relabel, beq_iff_eq]
  exact hφ.eq_iff

end Datum

/-- Variables with relabelled values. -/
def Variables.relabel (φ : Relabelling) (vs : Variables) : Variables :=
  vs.map fun v => (v.1, v.2.relabel φ)

/-- Scopes with relabelled values. -/
def Environment.relabel (φ : Relabelling) (env : Environment) : Environment :=
  env.map (Variables.relabel φ)

/-- A state with relabelled values. -/
def State.relabel (φ : Relabelling) (s : State) : State :=
  { s with
    scopes := s.scopes.relabel φ
    globals := fun name => (s.globals name).map (Datum.relabel φ) }

theorem State.relabel_relabel (s : State) : (s.relabel φ).relabel ψ = s.relabel (ψ.comp φ) := by
  have hDatum : Datum.relabel ψ ∘ Datum.relabel φ = Datum.relabel (ψ.comp φ) :=
    funext Datum.relabel_relabel
  have hVariables : Variables.relabel ψ ∘ Variables.relabel φ = Variables.relabel (ψ.comp φ) := by
    funext vs
    simp [Variables.relabel, Datum.relabel_relabel, Function.comp_def]
  simp only [relabel, Environment.relabel, List.map_map, hVariables, Option.map_map, hDatum]

/-- The relabelled end of a statement. -/
def Completion.relabel (φ : Relabelling) : Completion → Completion
  | normal => normal
  | returned d => returned (d.relabel φ)

theorem Variables.lookup_relabel (name : String) (vs : Variables) :
    (vs.relabel φ).lookup name = (vs.lookup name).map (Datum.relabel φ) := by
  induction vs with
  | nil => rfl
  | cons v vs ih =>
    rw [List.lookup_cons, relabel, List.map_cons, List.lookup_cons]
    cases name == v.1 with
    | true => rfl
    | false => exact ih

theorem Variables.assign?_relabel (name : String) (d : Datum) (vs : Variables) :
    assign? name (d.relabel φ) (vs.relabel φ) = (assign? name d vs).map (Variables.relabel φ) := by
  induction vs with
  | nil => rfl
  | cons v vs ih =>
    simp only [relabel, List.map_cons, assign?] at ih ⊢
    split
    · rfl
    · rw [ih, Option.map_map, Option.map_map]
      rfl

theorem Environment.get?_relabel (env : Environment) (name : String) :
    (env.relabel φ).get? name = (env.get? name).map (Datum.relabel φ) := by
  induction env with
  | nil => rfl
  | cons vs env ih =>
    simp only [get?, relabel, List.map_cons, List.findSome?_cons, Variables.lookup_relabel] at ih ⊢
    cases vs.lookup name with
    | some d => rfl
    | none => exact ih

theorem Environment.set?_relabel (name : String) (d : Datum) (env : Environment) :
    set? name (d.relabel φ) (env.relabel φ) = (set? name d env).map (Environment.relabel φ) := by
  induction env with
  | nil => rfl
  | cons vs env ih =>
    simp only [set?, relabel, List.map_cons, Variables.assign?_relabel] at ih ⊢
    cases vs.assign? name d with
    | some vs => rfl
    | none =>
      simp only [Option.map_none]
      rw [ih, Option.map_map, Option.map_map]
      rfl

theorem State.relabel_update (s : State) (name : String) (d : Datum) :
    State.relabel φ { s with globals := Function.update s.globals name (some d) } =
      { s.relabel φ with
        globals := Function.update (s.relabel φ).globals name (some (d.relabel φ)) } := by
  simp only [relabel, State.mk.injEq, true_and, and_true]
  funext n
  by_cases hn : n = name
  · subst hn
    simp
  · simp [Function.update_of_ne hn]

/-! ## Computations -/

namespace Eval

/-- A result with its value and its state relabelled. -/
def relabel (φ : Relabelling) {α β : Type} (h : α → β) :
    EStateM.Result Stop State α → EStateM.Result Stop State β
  | .ok a s => .ok (h a) (s.relabel φ)
  | .error stop s => .error stop (s.relabel φ)

/-- The second computation does in a relabelled state what the first one does in the state. -/
def Echoes (φ : Relabelling) {α β : Type} (h : α → β) (x : Eval α) (y : Eval β) : Prop :=
  ∀ s, y (s.relabel φ) = relabel φ h (x s)

namespace Echoes

variable {α α' β β' : Type} {h : α → α'} {h' : β → β'}

theorem pure (a : α) : Echoes φ h (pure a) (pure (h a)) := fun _ => rfl

theorem fail (fault : Fault) : Echoes φ h (Eval.fail fault) (Eval.fail fault) := fun _ => rfl

theorem timeout : Echoes φ h (throw Stop.timeout) (throw Stop.timeout) := fun _ => rfl

theorem bind {x : Eval α} {y : Eval α'} {f : α → Eval β} {g : α' → Eval β'} (hx : Echoes φ h x y)
    (hf : ∀ a, Echoes φ h' (f a) (g (h a))) : Echoes φ h' (x >>= f) (y >>= g) := by
  intro s
  change EStateM.bind y g (s.relabel φ) = relabel φ h' (EStateM.bind x f s)
  unfold EStateM.bind
  rw [hx s]
  cases x s with
  | ok a s' => exact hf a s'
  | error stop s' => rfl

theorem ite {c : Prop} [Decidable c] {x x' : Eval α} {y y' : Eval α'} (hx : Echoes φ h x y)
    (hx' : Echoes φ h x' y') : Echoes φ h (if c then x else x') (if c then y else y') := by
  split
  · exact hx
  · exact hx'

theorem modify {f : State → State} (hf : ∀ s, f (s.relabel φ) = (f s).relabel φ) :
    Echoes φ id (modify f : Eval PUnit) (modify f) := fun s => congrArg (EStateM.Result.ok _) (hf s)

end Echoes

theorem echoes_readVariable (name : String) :
    Echoes φ (Datum.relabel φ) (readVariable name) (readVariable name) := by
  intro s
  rw [readVariable_eq, readVariable_eq]
  simp only [State.relabel, Environment.get?_relabel]
  cases s.scopes.get? name with
  | some d => rfl
  | none => cases s.globals name <;> rfl

theorem echoes_writeVariable (name : String) (d : Datum) :
    Echoes φ id (writeVariable name d) (writeVariable name (d.relabel φ)) := by
  intro s
  have hUpdate := s.relabel_update (φ := φ) name d
  rw [writeVariable_eq, writeVariable_eq]
  simp only [State.relabel, Environment.set?_relabel] at hUpdate ⊢
  cases s.scopes.set? name d with
  | some scopes => rfl
  | none =>
    cases s.globals name with
    | none => rfl
    | some d' => exact congrArg (EStateM.Result.ok _) hUpdate.symm

theorem echoes_declareVariable (name : String) (d : Datum) :
    Echoes φ id (declareVariable name d) (declareVariable name (d.relabel φ)) := by
  intro s
  obtain ⟨scopes, calls, globals, printed⟩ := s
  cases scopes with
  | nil => exact congrArg (EStateM.Result.ok _) (State.relabel_update ⟨[], calls, globals, printed⟩ name d).symm
  | cons vs env => rfl

theorem echoes_printLine (text : String) : Echoes φ id (printLine text) (printLine text) :=
  .modify fun _ => rfl

theorem echoes_enterScope : Echoes φ id enterScope enterScope := .modify fun _ => rfl

theorem echoes_leaveScope : Echoes φ id leaveScope leaveScope := .modify fun s => by
  simp [State.relabel, Environment.relabel, List.map_tail]

variable {x x' y y' : Eval Completion}

theorem Echoes.andThen (hx : Echoes φ (Completion.relabel φ) x y)
    (hx' : Echoes φ (Completion.relabel φ) x' y') :
    Echoes φ (Completion.relabel φ) (x.andThen x') (y.andThen y') := by
  refine hx.bind fun c => ?_
  cases c with
  | normal => exact hx'
  | returned d => exact .pure _

theorem echoes_leaving : Echoes φ (Completion.relabel φ) leaving leaving :=
  echoes_leaveScope.bind fun _ => .pure _

theorem Echoes.rounds {test test' : Eval Bool} {step step' : Eval Unit} (ht : Echoes φ id test test')
    (hx : Echoes φ (Completion.relabel φ) x y) (hs : Echoes φ id step step') :
    ∀ n, Echoes φ (Completion.relabel φ) (Eval.rounds test x step n) (Eval.rounds test' y step' n)
  | 0 => .timeout
  | n + 1 => ht.bind fun b => by
    cases b with
    | false => exact .pure _
    | true => exact hx.andThen (hs.bind fun _ => ht.rounds hx hs n)

theorem echoes_arithmetic {f : Float → Float → Datum} (hf : ∀ a b, (f a b).relabel φ = f a b)
    (d d' : Datum) :
    Echoes φ (Datum.relabel φ) (arithmetic f d d') (arithmetic f (d.relabel φ) (d'.relabel φ)) := by
  cases d with
  | number a =>
    cases d' with
    | number b =>
      intro s
      exact congrArg (EStateM.Result.ok · _) (hf a b).symm
    | nil | bool | string | function | native => exact .fail _
  | nil | bool | string | function | native => exact .fail _

theorem echoes_add (d d' : Datum) :
    Echoes φ (Datum.relabel φ) (add d d') (add (d.relabel φ) (d'.relabel φ)) := by
  cases d with
  | number =>
    cases d' with
    | number => exact .pure _
    | nil | bool | string | function | native => exact .fail _
  | string =>
    cases d' with
    | string => exact .pure _
    | nil | bool | number | function | native => exact .fail _
  | nil | bool | function | native => exact .fail _

end Eval

open Eval

theorem UnaryOperator.echoes (op : UnaryOperator) (d : Datum) :
    Echoes φ (Datum.relabel φ) (op.apply d) (op.apply (d.relabel φ)) := by
  cases op with
  | not =>
    rw [apply, apply, Datum.isFalsey_relabel]
    exact .pure _
  | negate =>
    cases d with
    | number => exact .pure _
    | nil | bool | string | function | native => exact .fail _

theorem BinaryOperator.echoes (hφ : Function.Injective φ.place) (op : BinaryOperator) (a b : Datum) :
    Echoes φ (Datum.relabel φ) (op.apply a b) (op.apply (a.relabel φ) (b.relabel φ)) := by
  cases op with
  | equal | notEqual =>
    simp only [apply, Datum.equal_relabel hφ]
    exact .pure _
  | add => exact echoes_add a b
  | greater | greaterEqual | less | lessEqual | subtract | multiply | divide =>
    exact echoes_arithmetic (fun _ _ => rfl) a b

/-! ## Trees -/

section

variable {call call' : Datum → List Datum → Eval Datum}

/-- Calls of relabelled data echo calls of data. -/
def CallsEcho (φ : Relabelling) (call call' : Datum → List Datum → Eval Datum) : Prop :=
  ∀ f ds, Echoes φ (Datum.relabel φ) (call f ds) (call' (f.relabel φ) (ds.map (Datum.relabel φ)))

namespace Expr

mutual

theorem echoes (hφ : Function.Injective φ.place) (hCall : CallsEcho φ call call') : ∀ e : Expr,
    Echoes φ (Datum.relabel φ) (e.eval call) ((e.relabel φ).eval call')
  | .nil _ | .bool _ _ | .number _ _ | .string _ _ => .pure _
  | .name n _ => echoes_readVariable n
  | .assign n e => (e.echoes hφ hCall).bind fun d => (echoes_writeVariable n d).bind fun _ => .pure _
  | .group e _ => e.echoes hφ hCall
  | .unary op e => (e.echoes hφ hCall).bind fun d => op.echoes d
  | .binary op a b =>
    (a.echoes hφ hCall).bind fun d => (b.echoes hφ hCall).bind fun d' => op.echoes hφ d d'
  | .and a b _ => (a.echoes hφ hCall).bind fun d => by
    rw [Datum.isFalsey_relabel]
    exact .ite (.pure _) (b.echoes hφ hCall)
  | .or a b _ => (a.echoes hφ hCall).bind fun d => by
    rw [Datum.isFalsey_relabel]
    exact .ite (b.echoes hφ hCall) (.pure _)
  | .call e es _ =>
    (e.echoes hφ hCall).bind fun f => (echoesAll hφ hCall es).bind fun ds => hCall f ds

theorem echoesAll (hφ : Function.Injective φ.place) (hCall : CallsEcho φ call call') : ∀ es : List Expr,
    Echoes φ (List.map (Datum.relabel φ)) (evalAll call es) (evalAll call' (relabelAll φ es))
  | [] => .pure _
  | e :: es => (e.echoes hφ hCall).bind fun _ => (echoesAll hφ hCall es).bind fun _ => .pure _

end

theorem echoes_holds (hφ : Function.Injective φ.place) (hCall : CallsEcho φ call call')
    (e : Option Expr) : Echoes φ id (holds call e) (holds call' (e.map (relabel φ))) := by
  cases e with
  | none => exact .pure _
  | some e =>
    refine (e.echoes hφ hCall).bind fun d => ?_
    rw [Datum.isFalsey_relabel]
    exact .pure _

theorem echoes_perform (hφ : Function.Injective φ.place) (hCall : CallsEcho φ call call')
    (e : Option Expr) : Echoes φ id (perform call e) (perform call' (e.map (relabel φ))) := by
  cases e with
  | none => exact .pure _
  | some e => exact (e.echoes hφ hCall).bind fun _ => .pure _

end Expr

theorem Variable.echoes (hφ : Function.Injective φ.place) (hCall : CallsEcho φ call call')
    (v : Variable) : Echoes φ id (v.exec call) ((v.relabel φ).exec call') := by
  obtain ⟨name, nameLine, value, line⟩ := v
  cases value with
  | none => exact echoes_declareVariable name .nil
  | some e => exact (e.echoes hφ hCall).bind fun d => echoes_declareVariable name d

theorem Initializer.echoes (hφ : Function.Injective φ.place) (hCall : CallsEcho φ call call')
    (first : Initializer) : Echoes φ id (first.exec call) ((first.relabel φ).exec call') := by
  cases first with
  | none => exact .pure _
  | var v => exact v.echoes hφ hCall
  | expression e line => exact Expr.echoes_perform hφ hCall (some e)

namespace Stmt

mutual

theorem echoes (hφ : Function.Injective φ.place) (hCall : CallsEcho φ call call') (clock : Nat) :
    ∀ s : Stmt, Echoes φ (Completion.relabel φ) (s.exec call clock) ((s.relabel φ).exec call' clock)
  | .expression e _ => (e.echoes hφ hCall).bind fun _ => .pure _
  | .print e _ => (e.echoes hφ hCall).bind fun d => by
    rw [Datum.text_relabel]
    exact (echoes_printLine d.text).bind fun _ => .pure _
  | .var v => (v.echoes hφ hCall).bind fun _ => .pure _
  | .function place name parameters body line =>
    (echoes_declareVariable name (.function ⟨place, some name, parameters, body, line⟩)).bind
      fun _ => .pure _
  | .block body _ =>
    echoes_enterScope.bind fun _ => (echoesAll hφ hCall clock body).andThen echoes_leaving
  | .ifThen e _ body => (e.echoes hφ hCall).bind fun d => by
    rw [Datum.isFalsey_relabel]
    exact .ite (.pure _) (body.echoes hφ hCall clock)
  | .ifElse e _ body other => (e.echoes hφ hCall).bind fun d => by
    rw [Datum.isFalsey_relabel]
    exact .ite (other.echoes hφ hCall clock) (body.echoes hφ hCall clock)
  | .whileLoop e _ body =>
    (Expr.echoes_holds hφ hCall (some e)).rounds (body.echoes hφ hCall clock)
      (Expr.echoes_perform hφ hCall none) clock
  | .forLoop first condition _ increment _ body =>
    echoes_enterScope.bind fun _ => (first.echoes hφ hCall).bind fun _ =>
      ((Expr.echoes_holds hφ hCall condition).rounds (body.echoes hφ hCall clock)
        (Expr.echoes_perform hφ hCall increment) clock).andThen echoes_leaving
  | .ret none _ => .pure _
  | .ret (some e) _ => (e.echoes hφ hCall).bind fun _ => .pure _

theorem echoesAll (hφ : Function.Injective φ.place) (hCall : CallsEcho φ call call') (clock : Nat) :
    ∀ ss : List Stmt, Echoes φ (Completion.relabel φ) (execAll call clock ss)
      (execAll call' clock (relabelAll φ ss))
  | [] => .pure _
  | s :: ss => (s.echoes hφ hCall clock).andThen (echoesAll hφ hCall clock ss)

end

end Stmt

end

/-! ## Calls -/

/-- What native functions compute from relabelled data is relabelled. -/
def HostEchoes (φ : Relabelling) (host host' : Native → List Datum → Datum) : Prop :=
  ∀ n ds, host' n (ds.map (Datum.relabel φ)) = (host n ds).relabel φ

theorem Routine.scopes_relabel (r : Routine) (ds : List Datum) :
    (r.relabel φ).scopes (ds.map (Datum.relabel φ)) = Environment.relabel φ (r.scopes ds) := by
  have hZip : r.parameters.zip (ds.map (Datum.relabel φ)) = Variables.relabel φ (r.parameters.zip ds) := by
    rw [List.zip_map_right]
    rfl
  simp only [scopes, relabel, hZip]
  split
  · simp [Environment.relabel, Variables.relabel]
  · rfl

theorem Eval.Echoes.inCall {x y : Eval Completion} (hx : Echoes φ (Completion.relabel φ) x y)
    (name : Option String) (scopes : Environment) :
    Echoes φ (Datum.relabel φ) (Eval.inCall name scopes x) (Eval.inCall name (scopes.relabel φ) y) := by
  intro s
  have hCalls : (s.relabel φ).calls = s.calls := rfl
  rw [inCall_eq, inCall_eq, hCalls]
  split
  · rfl
  · refine (hx.bind fun c => ?_) { s with scopes, calls := name :: s.calls }
    have hResult : (c.relabel φ).result = c.result.relabel φ := by cases c <;> rfl
    rw [hResult]
    intro s'
    rfl

theorem Datum.echoes_call (hφ : Function.Injective φ.place) {host host' : Native → List Datum → Datum}
    (hHost : HostEchoes φ host host') :
    ∀ clock, CallsEcho φ (Datum.call host clock) (Datum.call host' clock)
  | 0 => fun _ _ => .timeout
  | clock + 1 => by
    intro f ds
    cases f with
    | function r =>
      have hBody := (Stmt.echoesAll hφ (Datum.echoes_call hφ hHost clock) clock r.body).inCall r.name
        (r.scopes ds)
      rw [← Routine.scopes_relabel] at hBody
      rw [relabel, call, call, List.length_map]
      exact .ite (.fail _) hBody
    | native n =>
      rw [relabel, call, call, List.length_map, hHost n ds]
      exact .ite (.fail _) (.pure _)
    | nil | bool | number | string => exact .fail _

/-- Relabelled declarations do in a relabelled state what the declarations do in the state. -/
theorem Stmt.execAll_relabel (hφ : Function.Injective φ.place)
    {host host' : Native → List Datum → Datum} (hHost : HostEchoes φ host host') (clock : Nat)
    (ss : List Stmt) (s : State) :
    Stmt.execAll (Datum.call host' clock) clock (Stmt.relabelAll φ ss) (s.relabel φ) =
      Eval.relabel φ (Completion.relabel φ) (Stmt.execAll (Datum.call host clock) clock ss s) :=
  Stmt.echoesAll hφ (Datum.echoes_call hφ hHost clock) clock ss s

end Lox
