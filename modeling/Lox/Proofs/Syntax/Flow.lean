import Lox.Proofs.Compiler.Statements
import Lox.Proofs.Syntax.Proper

/-!
# How code uses the stack

`b.Safe n ip h`: a call that stands at the offset `ip` of a body, with `h` values of its own on the
stack, finds for `n` instructions an instruction where it looks for one, with an operand that means
something, and the values that it takes. The values are only counted. A piece of code leads from one
number of values to another (`Body.Leads`) when it is safe where what stands behind it is; a loop is
safe for `n` instructions because its next round is for fewer.

The code of an expression leads to one more value, and that of a statement to as many as there are
locals in scope behind it (`Expr.leads`, `Stmt.leads`). So the code of a legal routine is safe from its
start on (`Routine.Legal.safe`).
-/

set_option autoImplicit false

namespace Lox

open Lox.Parser (maxArguments maxConstants maxDistance maxLocals)

/-! ## Safe offsets -/

/-- The code of a function with its constants, and with how many values on the stack a call may come to
the end of the code. -/
structure Body where
  code : Code
  pool : List Const
  exit : Nat → Prop
  fits : pool.length ≤ maxConstants

/-- An instruction with this opcode hands over to the one behind it. -/
def Opcode.Passes (op : Opcode) : Prop := op ∉ [.jump, .jumpIfFalse, .loop, .ret]

instance (op : Opcode) : Decidable op.Passes := inferInstanceAs (Decidable (_ ∉ _))

namespace Instruction

/-- How many values an instruction takes from the stack. -/
def takes (i : Instruction) : Nat :=
  match i.op with
  | .constant | .pushNil | .pushTrue | .pushFalse | .getLocal | .getGlobal | .jump | .loop => 0
  | .pop | .setLocal | .defineGlobal | .setGlobal | .not | .negate | .print | .jumpIfFalse | .ret => 1
  | .equal | .greater | .less | .add | .subtract | .multiply | .divide => 2
  | .call => i.operand + 1

/-- How many values an instruction leaves in their place. -/
def leaves (i : Instruction) : Nat :=
  match i.op with
  | .pop | .defineGlobal | .print | .jump | .loop | .ret => 0
  | _ => 1

/-- The operand of an instruction means something among some constants and so many values. -/
def Means (k : List Const) (h : Nat) (i : Instruction) : Prop :=
  match i.op with
  | .constant => i.operand < k.length
  | .getGlobal | .defineGlobal | .setGlobal => ∃ name, k[i.operand]? = some (.string name)
  | .getLocal | .setLocal => i.operand < h
  | _ => True

/-- An instruction that hands over to the one behind it, with how many values on the stack before and
after. -/
structure Flows (k : List Const) (i : Instruction) (h h' : Nat) : Prop where
  passes : i.op.Passes
  means : i.Means k h
  before : i.takes ≤ h
  after : h' + i.takes = h + i.leaves

theorem Flows.over {k : List Const} {op : Opcode} {x : Nat} (rest : Nat) (hp : op.Passes)
    (hm : Means k (rest + takes ⟨op, x⟩) ⟨op, x⟩) :
    Flows k ⟨op, x⟩ (rest + takes ⟨op, x⟩) (rest + leaves ⟨op, x⟩) :=
  ⟨hp, hm, Nat.le_add_left .., Nat.add_right_comm ..⟩

/-- An instruction in front of the offset `next` leads with `h` values only to offsets, and numbers of
values, of a set. -/
inductive Goes (k : List Const) (S : Nat → Nat → Prop) (next : Nat) : Instruction → Nat → Prop
  | flow {i : Instruction} {h h' : Nat} : i.Flows k h h' → S next h' → Goes k S next i h
  | jump {d h : Nat} : S (next + d) h → Goes k S next ⟨.jump, d⟩ h
  | jumpIfFalse {d h : Nat} : S next (h + 1) → S (next + d) (h + 1) →
      Goes k S next ⟨.jumpIfFalse, d⟩ (h + 1)
  | loop {d h : Nat} : d ≤ next → S (next - d) h → Goes k S next ⟨.loop, d⟩ h
  | ret {h : Nat} : Goes k S next ⟨.ret, 0⟩ (h + 1)

variable {k : List Const} {next : Nat} {i : Instruction} {h : Nat}

theorem Goes.mono {S S' : Nat → Nat → Prop} (hS : ∀ ip h, S ip h → S' ip h) :
    i.Goes k S next h → i.Goes k S' next h
  | .flow hi hs => .flow hi (hS _ _ hs)
  | .jump hs => .jump (hS _ _ hs)
  | .jumpIfFalse hs hs' => .jumpIfFalse (hS _ _ hs) (hS _ _ hs')
  | .loop hd hs => .loop hd (hS _ _ hs)
  | .ret => .ret

/-- Where an instruction leads does not depend on the set. -/
theorem Goes.all {S : Nat → Nat → Nat → Prop} (hAll : ∀ n, i.Goes k (S n) next h) :
    i.Goes k (fun ip h => ∀ n, S n ip h) next h := by
  cases hAll 0 with
  | @flow _ _ h' hi =>
    refine .flow hi fun n => ?_
    cases hAll n with
    | @flow _ _ h'' hi' hs =>
      have hEq := hi.after.trans hi'.after.symm
      rwa [Nat.add_right_cancel hEq]
    | jump | jumpIfFalse | loop | ret => exact absurd hi.passes (by simp [Opcode.Passes])
  | jump =>
    refine .jump fun n => ?_
    cases hAll n with
    | flow hi => exact absurd hi.passes (by simp [Opcode.Passes])
    | jump hs => exact hs
  | @jumpIfFalse d h =>
    have hBoth (n : Nat) : S n next (h + 1) ∧ S n (next + d) (h + 1) := by
      cases hAll n with
      | flow hi => exact absurd hi.passes (by simp [Opcode.Passes])
      | jumpIfFalse hs hs' => exact ⟨hs, hs'⟩
    exact .jumpIfFalse (fun n => (hBoth n).1) fun n => (hBoth n).2
  | loop hd =>
    refine .loop hd fun n => ?_
    cases hAll n with
    | flow hi => exact absurd hi.passes (by simp [Opcode.Passes])
    | loop _ hs => exact hs
  | ret => exact .ret

end Instruction

namespace Body

/-- A call is safe for its next `n` instructions. -/
def Safe (b : Body) : Nat → Nat → Nat → Prop
  | 0, _, _ => True
  | n + 1, ip, h =>
    ip = b.code.size ∧ b.exit h ∨
      ∃ i line, b.code.At ip [(i, line)] ∧ i.Fits ∧ i.Goes b.pool (Safe b n) (ip + i.size) h

variable {b : Body} {n ip h : Nat}

theorem Safe.mono {n' : Nat} (hs : b.Safe n ip h) (hn : n' ≤ n) : b.Safe n' ip h := by
  induction n' generalizing n ip h with
  | zero => trivial
  | succ n' ih =>
    obtain ⟨n, rfl⟩ : ∃ j, n = j + 1 := ⟨n - 1, by omega⟩
    rcases hs with hs | ⟨i, line, hc, hFits, hGoes⟩
    · exact .inl hs
    · exact .inr ⟨i, line, hc, hFits, hGoes.mono fun _ _ hs => ih hs (by omega)⟩

namespace Safe

theorem of_eq {ip' : Nat} (hs : b.Safe n ip h) (hIp : ip' = ip) : b.Safe n ip' h := hIp ▸ hs

/-- What is safe for any number of instructions stands at an instruction that leads to such places
only, if it is not at the end of the code. -/
theorem all (hs : ∀ n, b.Safe n ip h) : ip = b.code.size ∧ b.exit h ∨
    ∃ i line, b.code.At ip [(i, line)] ∧ i.Fits ∧
      i.Goes b.pool (fun ip h => ∀ n, b.Safe n ip h) (ip + i.size) h := by
  rcases hs 1 with hEnd | ⟨i, line, hAt, hFits, -⟩
  · exact .inl hEnd
  · refine .inr ⟨i, line, hAt, hFits, .all fun n => ?_⟩
    rcases hs (n + 1) with ⟨rfl, -⟩ | ⟨i', line', hAt', -, hGoes⟩
    · exact absurd hAt.lt_size (Nat.lt_irrefl _)
    · cases hAt.unique hAt'
      exact hGoes

/-- An instruction takes one of the `n` itself, so behind it fewer are left. -/
theorem step {i : Instruction} {line : Nat} (hc : b.code.At ip [(i, line)]) (hFits : i.Fits)
    (hGoes : ∀ j < n, i.Goes b.pool (b.Safe j) (ip + i.size) h) : b.Safe n ip h := by
  cases n with
  | zero => trivial
  | succ n => exact .inr ⟨i, line, hc, hFits, hGoes n (Nat.lt_succ_self n)⟩

theorem flow {op : Opcode} {x line h' : Nat} (hi : Instruction.Flows b.pool ⟨op, x⟩ h h')
    (hFits : Instruction.Fits ⟨op, x⟩) (hc : b.code.At ip (.one op x line))
    (hs : b.Safe n (ip + (1 + op.operandSize)) h') : b.Safe n ip h :=
  .step hc hFits fun _ hj => .flow hi (hs.mono hj.le)

theorem jump {d line : Nat} (hd : d ≤ maxDistance) (hc : b.code.At ip (.one .jump d line))
    (hs : b.Safe n (ip + 3 + d) h) : b.Safe n ip h :=
  .step hc (Nat.lt_succ_of_le hd) fun _ hj => .jump (hs.mono hj.le)

theorem jumpIfFalse {d line : Nat} (hd : d ≤ maxDistance)
    (hc : b.code.At ip (.one .jumpIfFalse d line)) (hs : b.Safe n (ip + 3) (h + 1))
    (hs' : b.Safe n (ip + 3 + d) (h + 1)) : b.Safe n ip (h + 1) :=
  .step hc (Nat.lt_succ_of_le hd) fun _ hj => .jumpIfFalse (hs.mono hj.le) (hs'.mono hj.le)

theorem loop {d line : Nat} (hd : d ≤ maxDistance) (hIp : d ≤ ip + 3)
    (hc : b.code.At ip (.one .loop d line)) (hs : ∀ j < n, b.Safe j (ip + 3 - d) h) :
    b.Safe n ip h :=
  .step hc (Nat.lt_succ_of_le hd) fun j hj => .loop hIp (hs j hj)

theorem ret {line : Nat} (hc : b.code.At ip (.op .ret line)) : b.Safe n ip (h + 1) :=
  .step hc (Instruction.fits_op .ret) fun _ _ => .ret

end Safe

/-- Code leads from one number of values on the stack to another: it is safe before the code if it is
behind it. -/
def Leads (b : Body) (c : Code) (h h' : Nat) : Prop :=
  ∀ n ip, b.code.At ip c → b.Safe n (ip + c.size) h' → b.Safe n ip h

namespace Leads

variable {h₁ h₂ : Nat}

theorem nil : b.Leads [] h h := fun _ _ _ hs => hs

theorem append {c₁ c₂ : Code} (hl : b.Leads c₁ h h₁) (hl' : b.Leads c₂ h₁ h₂) :
    b.Leads (c₁ ++ c₂) h h₂ := by
  intro n ip hc hs
  refine hl n ip hc.left (hl' n _ hc.right ?_)
  rwa [Nat.add_assoc, ← Code.size_append]

theorem one {op : Opcode} {x line : Nat} (hFits : Instruction.Fits ⟨op, x⟩)
    (hi : Instruction.Flows b.pool ⟨op, x⟩ h h₁) : b.Leads (.one op x line) h h₁ := by
  intro n ip hc hs
  rw [Code.size_one] at hs
  exact .flow hi hFits hc hs

/-- An instruction without an operand. -/
theorem op {op : Opcode} {line : Nat} (hi : Instruction.Flows b.pool ⟨op, 0⟩ h h₁) :
    b.Leads (.op op line) h h₁ :=
  .one (Instruction.fits_op op) hi

theorem pushNil {line : Nat} : b.Leads (.op .pushNil line) h (h + 1) :=
  .op (.over h (by decide) trivial)

theorem pop {line : Nat} : b.Leads (.op .pop line) (h + 1) h := .op (.over h (by decide) trivial)

/-- Code that ends in a return leads anywhere. -/
theorem ret {c : Code} {line : Nat} (hc : b.Leads c h (h + 1)) (h' : Nat) :
    b.Leads (c ++ .op .ret line) h h' :=
  fun n ip hAt _ => hc n ip hAt.left (.ret hAt.right)

/-! ## Control flow -/

/-- The right operand of `and` is evaluated only when the left one does not decide. -/
theorem and {left right : Code} {line : Nat} (hl : b.Leads left h (h + 1))
    (hr : b.Leads right h (h + 1)) (hd : 1 + right.size ≤ maxDistance) :
    b.Leads (left ++ .one .jumpIfFalse (1 + right.size) line ++ .op .pop line ++ right) h
      (h + 1) := by
  intro n ip hc hs
  simp only [Code.size_append, Code.size_one, Code.size_op, Opcode.operandSize] at hs
  refine hl n ip hc.left.left.left (.jumpIfFalse hd hc.left.left.right ?_ (hs.of_eq (by omega)))
  refine pop n _ (hc.left.right.of_eq ?_) (hr n _ (hc.right.of_eq ?_) (hs.of_eq ?_))
  all_goals simp only [Code.size_append, Code.size_one, Code.size_op, Opcode.operandSize]; omega

/-- The right operand of `or` is evaluated only when the left one does not decide. -/
theorem or {left right : Code} {line : Nat} (hl : b.Leads left h (h + 1))
    (hr : b.Leads right h (h + 1)) (hd : 1 + right.size ≤ maxDistance) :
    b.Leads (left ++ .one .jumpIfFalse 3 line ++ .one .jump (1 + right.size) line ++
      .op .pop line ++ right) h (h + 1) := by
  intro n ip hc hs
  simp only [Code.size_append, Code.size_one, Code.size_op, Opcode.operandSize] at hs
  refine hl n ip hc.left.left.left.left (.jumpIfFalse (by decide) hc.left.left.left.right
    (.jump hd (hc.left.left.right.of_eq ?_) (hs.of_eq (by omega))) ?_)
  · simp only [Code.size_append, Code.size_one, Opcode.operandSize]
    omega
  refine pop n _ (hc.left.right.of_eq ?_) (hr n _ (hc.right.of_eq ?_) (hs.of_eq ?_))
  all_goals simp only [Code.size_append, Code.size_one, Code.size_op, Opcode.operandSize]; omega

theorem ifThen {test body : Code} {line line' : Nat} (ht : b.Leads test h (h + 1))
    (hb : b.Leads body h h) (hd : body.size + 4 ≤ maxDistance) :
    b.Leads (test ++ .one .jumpIfFalse (body.size + 4) line ++ .op .pop line ++ body ++
      .one .jump 1 line' ++ .op .pop line') h h := by
  intro n ip hc hs
  simp only [Code.size_append, Code.size_one, Code.size_op, Opcode.operandSize] at hs
  refine ht n ip hc.left.left.left.left.left (.jumpIfFalse hd hc.left.left.left.left.right ?_ ?_)
  · refine pop n _ (hc.left.left.left.right.of_eq ?_) (hb n _ (hc.left.left.right.of_eq ?_)
      (.jump (by decide) (hc.left.right.of_eq ?_) (hs.of_eq ?_)))
    all_goals simp only [Code.size_append, Code.size_one, Code.size_op, Opcode.operandSize]; omega
  · refine pop n _ (hc.right.of_eq ?_) (hs.of_eq ?_)
    all_goals simp only [Code.size_append, Code.size_one, Code.size_op, Opcode.operandSize]; omega

theorem ifElse {test body other : Code} {line line' : Nat} (ht : b.Leads test h (h + 1))
    (hb : b.Leads body h h) (ho : b.Leads other h h) (hd : body.size + 4 ≤ maxDistance)
    (hd' : 1 + other.size ≤ maxDistance) :
    b.Leads (test ++ .one .jumpIfFalse (body.size + 4) line ++ .op .pop line ++ body ++
      .one .jump (1 + other.size) line' ++ .op .pop line' ++ other) h h := by
  intro n ip hc hs
  simp only [Code.size_append, Code.size_one, Code.size_op, Opcode.operandSize] at hs
  refine ht n ip hc.left.left.left.left.left.left
    (.jumpIfFalse hd hc.left.left.left.left.left.right ?_ ?_)
  · refine pop n _ (hc.left.left.left.left.right.of_eq ?_)
      (hb n _ (hc.left.left.left.right.of_eq ?_)
        (.jump hd' (hc.left.left.right.of_eq ?_) (hs.of_eq ?_)))
    all_goals simp only [Code.size_append, Code.size_one, Code.size_op, Opcode.operandSize]; omega
  · refine pop n _ (hc.left.right.of_eq ?_) (ho n _ (hc.right.of_eq ?_) (hs.of_eq ?_))
    all_goals simp only [Code.size_append, Code.size_one, Code.size_op, Opcode.operandSize]; omega

/-- A loop from its test on. Its next round is safe for fewer instructions, and that is enough, as the
way back takes one. -/
theorem loop {condition : Option Code} {increment : Option (Code × Nat)} {body : Code}
    {line line' bodyLine : Nat} (ht : ∀ c, condition = some c → b.Leads c h (h + 1))
    (hi : ∀ c l, increment = some (c, l) → b.Leads c h (h + 1)) (hb : b.Leads body h h)
    (hf : Stmt.LoopFits condition increment body) :
    b.Leads (Stmt.loopCode condition line increment line' body bodyLine) h h := by
  intro n ip hc hs
  suffices hAll : ∀ j ≤ n, b.Safe j ip h from hAll n le_rfl
  intro j hj
  induction j using Nat.strong_induction_on with
  | _ j ih =>
  replace ih : ∀ i < j, b.Safe i ip h := fun i hi => ih i hi (by omega)
  replace hs := hs.mono hj
  unfold Stmt.loopCode at hc hs
  simp only [Code.size_append, Code.size_one, Stmt.size_testCode, Opcode.operandSize] at hs
  have hStepCode := hc.left.left.left.right
  have hBodyCode := hc.left.left.right
  have hLoopCode := hc.left.right
  simp only [Code.size_append, Stmt.size_testCode] at hStepCode hBodyCode hLoopCode
  have hBack := hf.back
  -- the way back leads to the increment, or else to the test
  have hAgain : ∀ i < j, b.Safe i (ip + (Stmt.testSize condition +
      (Stmt.stepCode (Stmt.testSize condition) line line' increment).size + body.size) + 3 -
        Stmt.backDistance (Stmt.testSize condition) body.size increment) h := by
    intro i hij
    cases increment with
    | none =>
      refine (ih i hij).of_eq ?_
      simp only [Stmt.stepCode, Stmt.backDistance, Code.size_nil]
      omega
    | some step =>
      obtain ⟨c, l⟩ := step
      have hOwn : b.Safe i (ip + Stmt.testSize condition + 3) h := by
        refine hi c l rfl i _ hStepCode.left.left.right (pop i _ (hStepCode.left.right.of_eq ?_)
          (.loop (hf.step c l rfl) ?_ (hStepCode.right.of_eq ?_)
            fun i' hi' => (ih i' (hi'.trans hij)).of_eq ?_))
        all_goals
          simp only [Code.size_append, Code.size_one, Code.size_op, Opcode.operandSize]
          omega
      refine hOwn.of_eq ?_
      simp only [Stmt.stepCode, Stmt.backDistance, Code.size_append, Code.size_one, Code.size_op,
        Opcode.operandSize]
      omega
  have hBody : b.Safe j (ip + (Stmt.testSize condition +
      (Stmt.stepCode (Stmt.testSize condition) line line' increment).size)) h := by
    refine hb j _ hBodyCode (.loop hf.back ?_ (hLoopCode.of_eq ?_) fun i hij =>
      (hAgain i hij).of_eq ?_)
    · cases increment with
      | none => simp only [Stmt.backDistance]; omega
      | some step =>
        simp only [Stmt.stepCode, Stmt.backDistance, Code.size_append, Code.size_one, Code.size_op,
          Opcode.operandSize]
        omega
    all_goals omega
  have hStep : b.Safe j (ip + Stmt.testSize condition) h := by
    cases increment with
    | none => exact hBody
    | some step =>
      obtain ⟨c, l⟩ := step
      have hd := hf.step c l rfl
      refine .jump (by omega) hStepCode.left.left.left (hBody.of_eq ?_)
      simp only [Stmt.stepCode, Code.size_append, Code.size_one, Code.size_op, Opcode.operandSize]
      omega
  cases condition with
  | none => exact hStep
  | some c =>
    have hTest := hc.left.left.left.left
    have hExit := hf.exit rfl
    rw [Stmt.size_stepCode _ _ _ line line'] at hExit
    refine ht c rfl j ip hTest.left.left (.jumpIfFalse (by omega) hTest.left.right
      (pop j _ (hTest.right.of_eq ?_) (hStep.of_eq ?_)) (pop j _ (hc.right.of_eq ?_) (hs.of_eq ?_)))
    all_goals
      simp only [Code.size_append, Code.size_one, Code.size_op, Opcode.operandSize,
        Stmt.size_testCode, Stmt.testSize, Option.isSome_some, if_true]
      omega

end Leads

end Body

/-! ## Expressions -/

namespace Scope

/-- The locals that may be read have their slots among so many values, and slots fit. -/
structure Covers (ls : List Local) (h : Nat) : Prop where
  slot : ∀ name n l, Draft.resolve? name ls = some (n, l) → l.initialized = true → n < h
  fits : ls.length ≤ maxLocals

variable {ls : List Local} {h : Nat}

theorem Covers.mono (hc : Covers ls h) {h' : Nat} (hh : h ≤ h') : Covers ls h' :=
  ⟨fun name n l hr hi => (hc.slot name n l hr hi).trans_le hh, hc.fits⟩

theorem Covers.all {ls : List Local} (hl : ls.length ≤ maxLocals) : Covers ls ls.length :=
  ⟨fun _ _ _ hr _ => Draft.resolve?_lt hr, hl⟩

end Scope

section

variable {b : Body}

theorem Body.index_lt {i : Nat} {c : Const} (hi : b.pool[i]? = some c) : i < 256 :=
  (List.getElem?_eq_some_iff.1 hi).1.trans_le b.fits

theorem Body.leads_constant {i : Nat} {c : Const} (hi : b.pool[i]? = some c) (line h : Nat) :
    b.Leads (.one .constant i line) h (h + 1) :=
  .one (Body.index_lt hi) (.over h (by decide) (List.getElem?_eq_some_iff.1 hi).1)

variable {ls : List Local} {k : List Const} {name : String} {h : Nat}

theorem Referent.leads_get (hu : Scope.Usable ls name) (hc : Scope.Covers ls h)
    (hp : Referent.pool ls k name <+: b.pool) (line : Nat) :
    b.Leads ((Referent.of ls k name).get line) h (h + 1) := by
  unfold Referent.of
  unfold Referent.pool at hp
  split
  · rename_i n l hr
    refine .one ?_ (.over h (by decide) (hc.slot name n l hr (hu n l hr)))
    exact (Draft.resolve?_lt hr).trans_le hc.fits
  · rename_i hr
    rw [hr] at hp
    have hi := Const.getElem?_of_prefix hp (Const.getElem?_withName k name)
    exact .one (Body.index_lt hi) (.over h (by decide) ⟨name, hi⟩)

theorem Referent.leads_set (hu : Scope.Usable ls name) (hc : Scope.Covers ls h)
    (hp : Referent.pool ls k name <+: b.pool) (line : Nat) :
    b.Leads ((Referent.of ls k name).set line) (h + 1) (h + 1) := by
  unfold Referent.of
  unfold Referent.pool at hp
  split
  · rename_i n l hr
    refine .one ?_ (.over h (by decide) ((hc.slot name n l hr (hu n l hr)).trans (Nat.lt_succ_self h)))
    exact (Draft.resolve?_lt hr).trans_le hc.fits
  · rename_i hr
    rw [hr] at hp
    have hi := Const.getElem?_of_prefix hp (Const.getElem?_withName k name)
    exact .one (Body.index_lt hi) (.over h (by decide) ⟨name, hi⟩)

end

theorem Body.leads_call {b : Body} {n : Nat} (hn : n ≤ maxArguments) (line h : Nat) :
    b.Leads (.one .call n line) (h + 1 + n) (h + 1) := by
  refine .one (Nat.lt_succ_of_le hn) ⟨by simp [Opcode.Passes], trivial, ?_, ?_⟩
  all_goals simp only [Instruction.takes, Instruction.leaves]; omega

theorem UnaryOperator.leads {b : Body} (op : UnaryOperator) (line h : Nat) :
    b.Leads (.op op.opcode line) (h + 1) (h + 1) := by
  cases op with
  | negate | not => exact .op (.over h (by decide) trivial)

theorem BinaryOperator.leads {b : Body} (op : BinaryOperator) (line h : Nat) :
    b.Leads (op.opcodes.flatMap fun o => Code.op o line) (h + 2) (h + 1) := by
  have hNot : b.Leads (.op .not line) (h + 1) (h + 1) := .op (.over h (by decide) trivial)
  cases op with
  | equal | greater | less | add | subtract | multiply | divide =>
    exact .op (.over h (by decide) trivial)
  | notEqual | greaterEqual | lessEqual => exact .append (.op (.over h (by decide) trivial)) hNot

section

variable {b : Body}

mutual

theorem Expr.leads : ∀ (e : Expr) {ls : List Local} {k : List Const} {h : Nat},
    e.Legal ls k → Scope.Covers ls h → e.pool ls k <+: b.pool → b.Leads (e.code ls k) h (h + 1)
  | .nil _, _, _, _, _, _, _ => .pushNil
  | .bool true _, _, _, h, _, _, _ | .bool false _, _, _, h, _, _, _ =>
    .op (.over h (by decide) trivial)
  | .number _ line, _, _, h, _, _, hp | .string _ line, _, _, h, _, _, hp =>
    Body.leads_constant (Const.getElem?_of_prefix hp (List.getElem?_concat_length ..)) line h
  | .name _ line, _, _, _, hu, hc, hp => Referent.leads_get hu hc hp line
  | .assign n value, ls, k, _, ⟨hu, hv⟩, hc, hp =>
    have hPool := (value.prefix_pool ls (Referent.pool ls k n)).trans hp
    (value.leads hv hc hp).append (Referent.leads_set hu hc hPool value.endLine)
  | .group inner _, _, _, _, hl, hc, hp => inner.leads hl hc hp
  | .unary op operand, _, _, h, hl, hc, hp =>
    (operand.leads hl hc hp).append (op.leads operand.endLine h)
  | .binary op left right, ls, k, h, ⟨hl, hr⟩, hc, hp =>
    have hPool := (right.prefix_pool ls (left.pool ls k)).trans hp
    ((left.leads hl hc hPool).append (right.leads hr (hc.mono (Nat.le_succ h)) hp)).append
      (op.leads right.endLine h)
  | .and left right _, ls, k, _, ⟨hl, hr, hd⟩, hc, hp =>
    have hPool := (right.prefix_pool ls (left.pool ls k)).trans hp
    .and (left.leads hl hc hPool) (right.leads hr hc hp) hd
  | .or left right _, ls, k, _, ⟨hl, hr, hd⟩, hc, hp =>
    have hPool := (right.prefix_pool ls (left.pool ls k)).trans hp
    .or (left.leads hl hc hPool) (right.leads hr hc hp) hd
  | .call callee arguments _, ls, k, h, ⟨hl, hr, hCount⟩, hc, hp =>
    have hPool := (Expr.prefix_poolOfAll ls arguments (callee.pool ls k)).trans hp
    ((callee.leads hl hc hPool).append
      (Expr.leadsAll arguments hr (hc.mono (Nat.le_succ h)) hp)).append
      (Body.leads_call hCount _ h)

theorem Expr.leadsAll : ∀ (es : List Expr) {ls : List Local} {k : List Const} {h : Nat},
    Expr.LegalList ls k es → Scope.Covers ls h → Expr.poolOfAll ls k es <+: b.pool →
    b.Leads (Expr.codeOfAll ls k es) h (h + es.length)
  | [], _, _, _, _, _, _ => .nil
  | e :: es, ls, k, h, ⟨hl, hr⟩, hc, hp => by
    have hPool := (Expr.prefix_poolOfAll ls es (e.pool ls k)).trans hp
    have hRest := Expr.leadsAll es hr (hc.mono (Nat.le_succ h)) hp
    rw [List.length_cons, Nat.add_comm es.length, ← Nat.add_assoc]
    exact (e.leads hl hc hPool).append hRest

end

theorem Expr.leads? {e : Option Expr} {ls : List Local} {k : List Const}
    (he : Expr.Legal? ls k e) (hl : ls.length ≤ maxLocals) (hp : Expr.pool? ls k e <+: b.pool)
    (e' : Expr) (h : e = some e') : b.Leads (e'.code ls k) ls.length (ls.length + 1) := by
  subst h
  exact e'.leads he (.all hl) hp

end

/-! ## Declarations -/

namespace Scope

variable {sc : Scope} {k : List Const} {name : String}

theorem length_declare (hm : sc.MayDeclare name) (hl : sc.locals.length ≤ maxLocals) :
    (sc.declare name).locals.length ≤ maxLocals := by
  unfold declare
  split
  · exact hl
  · rename_i hDepth
    exact (hm.resolve_left hDepth).2

theorem covers_declaring (hm : sc.MayDeclare name) (hl : sc.locals.length ≤ maxLocals) :
    Covers (sc.declaring name).locals sc.locals.length := by
  unfold declaring
  split
  · exact .all hl
  · rename_i hDepth
    refine ⟨fun name' n l hr hi => ?_, (hm.resolve_left hDepth).2⟩
    -- the local in the making is the one that may not be read
    rw [add, Draft.resolve?] at hr
    split at hr
    · cases hr
      cases hi
    · exact Draft.resolve?_lt hr

theorem leads_define {b : Body} (hp : sc.pool k name <+: b.pool) (line : Nat) :
    b.Leads (sc.define k name line) (sc.locals.length + 1) (sc.declare name).locals.length := by
  unfold define declare
  unfold Scope.pool at hp
  split
  · rename_i hDepth
    rw [if_pos hDepth] at hp
    have hi := Const.getElem?_of_prefix hp (Const.getElem?_withName k name)
    exact .one (Body.index_lt hi) (.over sc.locals.length (by decide) ⟨name, hi⟩)
  · exact .nil

end Scope

section

variable {b : Body} {sc : Scope} {k : List Const}

theorem Variable.leads {v : Variable} (hv : v.Legal sc k) (hl : sc.locals.length ≤ maxLocals)
    (hp : v.pool sc k <+: b.pool) :
    b.Leads (v.code sc k) sc.locals.length (sc.declare v.name).locals.length := by
  obtain ⟨hm, he⟩ := hv
  unfold Variable.pool at hp
  unfold Variable.code
  cases hValue : v.value with
  | none =>
    rw [hValue] at hp
    exact .append .pushNil (Scope.leads_define hp v.line)
  | some e =>
    rw [hValue] at hp he
    exact (e.leads he (Scope.covers_declaring hm hl) hp).append
      (Scope.leads_define ((e.prefix_pool _ _).trans hp) v.line)

theorem Initializer.leads {first : Initializer} (hf : first.Legal sc k)
    (hl : sc.locals.length ≤ maxLocals) (hp : first.pool sc k <+: b.pool) :
    b.Leads (first.code sc k) sc.locals.length (first.scope sc).locals.length := by
  cases first with
  | none => exact .nil
  | var v => exact Variable.leads hf hl hp
  | expression e line => exact (e.leads hf (.all hl) hp).append .pop

end

section

variable {sc : Scope} {k : List Const}

theorem Initializer.length_scope {first : Initializer} (hf : first.Legal sc k)
    (hl : sc.locals.length ≤ maxLocals) : (first.scope sc).locals.length ≤ maxLocals := by
  cases first with
  | none | expression e line => exact hl
  | var v => exact Scope.length_declare hf.1 hl

theorem Stmt.length_scope {inFunction : Bool} {s : Stmt} (hs : s.Legal inFunction sc k)
    (hl : sc.locals.length ≤ maxLocals) : (s.scope sc).locals.length ≤ maxLocals := by
  cases s with
  | var v => exact Scope.length_declare hs.1 hl
  | function place name parameters body line => exact Scope.length_declare hs.1 hl
  | expression | print | block | ifThen | ifElse | whileLoop | forLoop | ret => exact hl

end

/-! ## Statements -/

theorem Stmt.leads_drops {b : Body} (count line h : Nat) :
    b.Leads (Stmt.drops count line) (h + count) h := by
  induction count with
  | zero => exact .nil
  | succ count ih => exact .append .pop ih

/-- A `while` is a loop without increment. -/
theorem Stmt.code_whileLoop (condition : Expr) (line : Nat) (body : Stmt) (sc : Scope)
    (k : List Const) : (Stmt.whileLoop condition line body).code sc k =
      Stmt.loopCode (some (condition.code sc.locals k)) line none line
        (body.code sc (condition.pool sc.locals k)) body.endLine := by
  have hDistance (t b : Nat) : t + 4 + b + 3 = t + b + 7 := by omega
  simp [Stmt.code, Stmt.loopCode, Stmt.testCode, Stmt.stepCode, Stmt.testSize, Stmt.backDistance,
    hDistance]

theorem Stmt.loopFits_while {test body : Code}
    (hd : test.size + body.size + 7 ≤ maxDistance) : Stmt.LoopFits (some test) none body where
  exit := fun _ => by
    simp only [Stmt.stepCode, Code.size_nil]
    omega
  step := nofun
  back := by
    simp only [Stmt.backDistance, Stmt.testSize]
    omega

theorem Stmt.scope_of_declares {s : Stmt} (h : s.declares = false) (sc : Scope) :
    s.scope sc = sc := by
  cases s with
  | var | function => cases h
  | expression | print | block | ifThen | ifElse | whileLoop | forLoop | ret => rfl

section

variable {b : Body}

mutual

theorem Stmt.leads : ∀ (s : Stmt) {inFunction : Bool} {sc : Scope} {k : List Const}, s.Proper →
    s.Legal inFunction sc k → sc.locals.length ≤ maxLocals → s.pool sc k <+: b.pool →
    b.Leads (s.code sc k) sc.locals.length (s.scope sc).locals.length
  | .expression e _, _, _, _, _, hs, hl, hp => (e.leads hs (.all hl) hp).append .pop
  | .print e _, _, _, _, _, hs, hl, hp =>
    (e.leads hs (.all hl) hp).append (.op (.over _ (by decide) trivial))
  | .var v, _, _, _, _, hs, hl, hp => v.leads hs hl hp
  | .function _ _ _ _ line, _, _, _, _, _, _, hp =>
    (Body.leads_constant (Const.getElem?_of_prefix hp (List.getElem?_concat_length ..)) line
      _).append (Scope.leads_define ((List.prefix_append ..).trans hp) line)
  | .block body line, _, sc, k, hProper, hs, hl, hp => by
    obtain ⟨inner, hLocals, -, -, hCount⟩ :=
      Stmt.scopeOfAll_locals body sc.enter (Nat.succ_ne_zero _)
    have hBody := Stmt.leadsAll body hProper hs hl hp
    rw [hLocals, List.length_append, hCount, Nat.add_comm] at hBody
    exact hBody.append (Stmt.leads_drops _ line sc.locals.length)
  | .ifThen condition _ body, _, sc, k, ⟨_, hBody, hDeclares⟩, ⟨hc, hb, hd⟩, hl, hp => by
    have hPool := (body.prefix_pool sc (condition.pool sc.locals k)).trans hp
    have hLeads := body.leads hBody hb hl hp
    rw [Stmt.scope_of_declares hDeclares] at hLeads
    exact .ifThen (condition.leads hc (.all hl) hPool) hLeads hd
  | .ifElse condition _ body other, _, sc, k, ⟨_, ⟨hBody, hDeclares⟩, hOther, hDeclares'⟩,
      ⟨hc, hb, ho, hd, hd'⟩, hl, hp => by
    have hPool := (other.prefix_pool sc _).trans hp
    have hPool' := (body.prefix_pool sc _).trans hPool
    have hLeads := body.leads hBody hb hl hPool
    have hLeads' := other.leads hOther ho hl hp
    rw [Stmt.scope_of_declares hDeclares] at hLeads
    rw [Stmt.scope_of_declares hDeclares'] at hLeads'
    exact .ifElse (condition.leads hc (.all hl) hPool') hLeads hLeads' hd hd'
  | .whileLoop condition line body, _, sc, k, ⟨_, hBody, hDeclares⟩, ⟨hc, hb, hd⟩, hl, hp => by
    have hPool := (body.prefix_pool sc (condition.pool sc.locals k)).trans hp
    have hLeads := body.leads hBody hb hl hp
    rw [Stmt.scope_of_declares hDeclares] at hLeads
    rw [Stmt.code_whileLoop]
    refine .loop (fun c hEq => ?_) nofun hLeads (Stmt.loopFits_while hd)
    cases hEq
    exact condition.leads hc (.all hl) hPool
  | .forLoop first condition line increment line' body, _, sc, k, ⟨_, _, _, hBody, hDeclares⟩,
      ⟨hf, hc, hi, hb, hFits⟩, hl, hp => by
    have hPool := (body.prefix_pool _ _).trans hp
    have hPool' := (Expr.prefix_pool? _ _ increment).trans hPool
    have hLocals : (first.scope sc.enter).locals.length = sc.locals.length + first.localCount := by
      obtain ⟨inner, hEq, -, -, hCount⟩ := first.scope_enter sc
      rw [hEq, List.length_append, hCount, Nat.add_comm]
    have hl' : (first.scope sc.enter).locals.length ≤ maxLocals := Initializer.length_scope hf hl
    have hLeads := body.leads hBody hb hl' hp
    rw [Stmt.scope_of_declares hDeclares] at hLeads
    have hFirst := first.leads hf hl ((Expr.prefix_pool? _ _ condition).trans hPool')
    have hDrops := Stmt.leads_drops first.localCount body.endLine sc.locals.length (b := b)
    rw [← hLocals] at hDrops
    refine (hFirst.append (.loop (fun c hEq => ?_) (fun c l hEq => ?_) hLeads hFits)).append hDrops
    · obtain ⟨e, he, rfl⟩ := Option.map_eq_some_iff.1 hEq
      exact Expr.leads? hc hl' hPool' e he
    · obtain ⟨e, he, hEq⟩ := Option.map_eq_some_iff.1 hEq
      cases hEq
      exact Expr.leads? hi hl' hPool e he
  | .ret none _, _, _, _, _, _, _, _ => .ret .pushNil _
  | .ret (some e) _, _, _, _, _, hs, hl, hp => .ret (e.leads hs.2 (.all hl) hp) _

theorem Stmt.leadsAll : ∀ (ss : List Stmt) {inFunction : Bool} {sc : Scope} {k : List Const},
    Stmt.ProperList ss → Stmt.LegalList inFunction sc k ss → sc.locals.length ≤ maxLocals →
    Stmt.poolOfAll sc k ss <+: b.pool →
    b.Leads (Stmt.codeOfAll sc k ss) sc.locals.length (Stmt.scopeOfAll sc ss).locals.length
  | [], _, _, _, _, _, _, _ => .nil
  | s :: ss, _, sc, k, ⟨hProper, hProperAll⟩, ⟨hs, hss⟩, hl, hp =>
    have hPool := (Stmt.prefix_poolOfAll ss (s.scope sc) (s.pool sc k)).trans hp
    (s.leads hProper hs hl hPool).append
      (Stmt.leadsAll ss hProperAll hss (Stmt.length_scope hs hl) hp)

end

end

/-! ## Routines -/

namespace Routine

variable {r : Routine}

theorem length_scope (hp : r.Proper) : r.scope.locals.length = 1 + r.parameters.length := by
  unfold Routine.scope
  split
  · simp [Scope.function, Nat.add_comm]
  · rename_i hName
    rw [hp.script (by simpa using hName)]
    rfl

theorem length_scope_le (hl : r.Legal) (hp : r.Proper) : r.scope.locals.length ≤ maxLocals := by
  rw [length_scope hp]
  exact Nat.add_le_add_left hl.parameters 1

/-- The body of a legal routine. A call leaves it by a return only. -/
def Legal.whole (hl : r.Legal) : Body := ⟨r.code, r.pool, fun _ => False, hl.constants⟩

/-- The code of a legal routine is safe from its start on, with the function and its arguments on the
stack. -/
theorem Legal.safe (hl : r.Legal) (hp : r.Proper) (n : Nat) :
    hl.whole.Safe n 0 (1 + r.parameters.length) := by
  have hWhole : hl.whole.code.At 0 r.code := ⟨[], [], by simp [whole], rfl⟩
  have hBody := Stmt.leadsAll (b := hl.whole) r.body hp.body hl.body (length_scope_le hl hp)
    (List.prefix_refl _)
  rw [length_scope hp] at hBody
  exact hBody.append .pushNil n 0 hWhole.left (.ret hWhole.right)

end Routine

end Lox
