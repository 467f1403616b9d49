import Lox.Proofs.Syntax.Flow

/-!
# Where jumps lead

`b.Lands c`: wherever the code `c` stands in a body with an instruction behind it, each of its
instructions has an operand that fits and refers to what it should, and each of its jumps leads to the
start of an instruction of the body. Unlike `Body.Leads` this is about all instructions, also those that
no call ever comes to, as the ones behind a return.

A jump leads over a construct or to a part of one, so its target is where the code behind starts. What
stands behind a construct is not known while the construct is looked at, and it may be empty itself;
that there is an instruction at all is the hypothesis of `Lands`, which the end of the function meets.
-/

set_option autoImplicit false

namespace Lox

open Lox.Parser (maxArguments maxConstants maxDistance maxLocals)

/-! ## Starts of instructions -/

/-- An instruction of some code starts at an offset. -/
def Code.Starts (whole : Code) (ip : Nat) : Prop := ∃ x, whole.At ip [x]

theorem Code.Starts.of_eq {whole : Code} {ip ip' : Nat} (h : whole.Starts ip) (hIp : ip' = ip) :
    whole.Starts ip' := hIp ▸ h

namespace Code.At

variable {whole c c₁ c₂ : Code} {ip : Nat}

/-- Where code stands that has an instruction behind it, an instruction starts: its first one, or when it
has none the one behind. -/
theorem starts (h : whole.At ip c) (hEnd : whole.Starts (ip + c.size)) : whole.Starts ip := by
  cases c with
  | nil => exact hEnd
  | cons x c =>
    rw [← List.singleton_append] at h
    exact ⟨x, h.left⟩

theorem starts_between (h : whole.At ip (c₁ ++ c₂)) (hEnd : whole.Starts (ip + (c₁ ++ c₂).size)) :
    whole.Starts (ip + c₁.size) := by
  rw [Code.size_append, ← Nat.add_assoc] at hEnd
  exact h.right.starts hEnd

end Code.At

namespace Instruction

/-- The constant that an instruction refers to is there, and is a string where a name is asked for. -/
def Refers (k : List Const) (i : Instruction) : Prop :=
  match i.op with
  | .constant => i.operand < k.length
  | .getGlobal | .defineGlobal | .setGlobal => ∃ name, k[i.operand]? = some (.string name)
  | _ => True

/-- A jump at an offset leads to an offset of a set, a way back to one that is not behind it. -/
def LeadsInto (S : Nat → Prop) (ip : Nat) (i : Instruction) : Prop :=
  match i.op with
  | .jump | .jumpIfFalse => S (ip + 3 + i.operand)
  | .loop => 3 ≤ i.operand ∧ i.operand ≤ ip + 3 ∧ S (ip + 3 - i.operand)
  | _ => True

end Instruction

namespace Body

/-- An instruction at an offset of a body is as it should be. -/
structure Sound (b : Body) (ip : Nat) (i : Instruction) : Prop where
  fits : i.Fits
  refers : i.Refers b.pool
  target : i.LeadsInto b.code.Starts ip

/-- Each instruction of some code that stands at an offset of a body is as it should be. -/
def SoundFrom (b : Body) : Nat → Code → Prop
  | _, [] => True
  | ip, x :: c => b.Sound ip x.1 ∧ SoundFrom b (ip + x.1.size) c

variable {b : Body}

theorem soundFrom_append {ip : Nat} {c₁ c₂ : Code} :
    b.SoundFrom ip (c₁ ++ c₂) ↔ b.SoundFrom ip c₁ ∧ b.SoundFrom (ip + c₁.size) c₂ := by
  induction c₁ generalizing ip with
  | nil => simp [SoundFrom]
  | cons x c ih => simp only [List.cons_append, SoundFrom, ih, Code.size_cons, and_assoc, Nat.add_assoc]

theorem soundFrom_one {ip : Nat} {op : Opcode} {n line : Nat} (h : b.Sound ip ⟨op, n⟩) :
    b.SoundFrom ip (.one op n line) := ⟨h, trivial⟩

theorem sound_jump {op : Opcode} (hOp : op = .jump ∨ op = .jumpIfFalse) {ip d : Nat}
    (hd : d ≤ maxDistance) (hs : b.code.Starts (ip + 3 + d)) : b.Sound ip ⟨op, d⟩ := by
  rcases hOp with rfl | rfl
  all_goals exact ⟨Nat.lt_succ_of_le hd, trivial, hs⟩

theorem sound_loop (target : Nat) {ip d : Nat} (hd : d ≤ maxDistance) (hBack : target + d = ip + 3)
    (hOver : 3 ≤ d) (hs : b.code.Starts target) : b.Sound ip ⟨.loop, d⟩ := by
  refine ⟨Nat.lt_succ_of_le hd, trivial, hOver, by simp only; omega, ?_⟩
  simp only [← hBack, Nat.add_sub_cancel]
  exact hs

/-- Code lands: where it stands with an instruction behind it, its instructions are as they should be. -/
def Lands (b : Body) (c : Code) : Prop :=
  ∀ ip, b.code.At ip c → b.code.Starts (ip + c.size) → b.SoundFrom ip c

namespace Lands

theorem nil : b.Lands [] := fun _ _ _ => trivial

theorem append {c₁ c₂ : Code} (h₁ : b.Lands c₁) (h₂ : b.Lands c₂) : b.Lands (c₁ ++ c₂) := by
  intro ip hc hEnd
  refine soundFrom_append.2 ⟨h₁ ip hc.left (hc.starts_between hEnd), h₂ _ hc.right ?_⟩
  rwa [Nat.add_assoc, ← Code.size_append]

/-- An instruction that does not jump. -/
theorem one {op : Opcode} {n line : Nat} (hFits : Instruction.Fits ⟨op, n⟩)
    (hRefers : Instruction.Refers b.pool ⟨op, n⟩)
    (hTarget : ∀ S ip, Instruction.LeadsInto S ip ⟨op, n⟩) : b.Lands (.one op n line) :=
  fun ip _ _ => soundFrom_one ⟨hFits, hRefers, hTarget _ ip⟩

/-- An instruction without an operand. -/
theorem op {op : Opcode} {line : Nat} (hRefers : Instruction.Refers b.pool ⟨op, 0⟩)
    (hTarget : ∀ S ip, Instruction.LeadsInto S ip ⟨op, 0⟩) : b.Lands (.op op line) :=
  .one (Instruction.fits_op op) hRefers hTarget

theorem pop (line : Nat) : b.Lands (.op .pop line) := .op trivial fun _ _ => trivial

theorem pushNil {line : Nat} : b.Lands (.op .pushNil line) := .op trivial fun _ _ => trivial

theorem ret {line : Nat} : b.Lands (.op .ret line) := .op trivial fun _ _ => trivial

theorem drops (count line : Nat) : b.Lands (Stmt.drops count line) := by
  induction count with
  | zero => exact .nil
  | succ count ih => exact .append (.pop line) ih

/-! ## Control flow -/

/-- A jump over code leads to what stands behind it. -/
theorem jump {op : Opcode} (hOp : op = .jump ∨ op = .jumpIfFalse) (c₁ c₂ : Code) {d : Nat} (line : Nat)
    (h : b.Lands (c₁ ++ c₂)) (hSize : d = c₁.size) (hd : d ≤ maxDistance) :
    b.Lands (.one op d line ++ (c₁ ++ c₂)) := by
  have hThree : (Code.one op d line).size = 3 := by rcases hOp with rfl | rfl <;> rfl
  intro ip hc hEnd
  have hRest := hc.right
  rw [Code.size_append, ← Nat.add_assoc, hThree] at hEnd
  rw [hThree] at hRest
  refine soundFrom_append.2 ⟨soundFrom_one (sound_jump hOp hd ?_), hThree.symm ▸ h _ hRest hEnd⟩
  exact hSize ▸ hRest.starts_between hEnd

/-- A jump over the rest of a construct. -/
theorem jumpOver {op : Opcode} (hOp : op = .jump ∨ op = .jumpIfFalse) {c : Code} {d : Nat} (line : Nat)
    (h : b.Lands c) (hSize : d = c.size) (hd : d ≤ maxDistance) :
    b.Lands (.one op d line ++ c) := by
  have hJump := jump hOp c [] line (by rwa [List.append_nil]) hSize hd
  rwa [List.append_nil] at hJump

/-- The jump of `and` leads behind the right operand. -/
theorem and {left right : Code} {line : Nat} (hl : b.Lands left) (hr : b.Lands right)
    (hd : 1 + right.size ≤ maxDistance) :
    b.Lands (left ++ .one .jumpIfFalse (1 + right.size) line ++ .op .pop line ++ right) := by
  have hJump := jumpOver (.inr rfl) line ((pop line).append hr)
    (by simp [Opcode.operandSize]) hd
  simpa using hl.append hJump

/-- The first jump of `or` leads to the drop in front of the right operand, the second behind it. -/
theorem or {left right : Code} {line : Nat} (hl : b.Lands left) (hr : b.Lands right)
    (hd : 1 + right.size ≤ maxDistance) :
    b.Lands (left ++ .one .jumpIfFalse 3 line ++ .one .jump (1 + right.size) line ++
      .op .pop line ++ right) := by
  have hSecond := jumpOver (.inl rfl) line ((pop line).append hr)
    (by simp [Opcode.operandSize]) hd
  have hFirst := jump (.inr rfl) _ _ (d := 3) line hSecond rfl (by decide)
  simpa using hl.append hFirst

/-- The first jump of an `if` leads to the drop in front of the other branch, the second behind it. -/
theorem ifElse {test body other : Code} (line line' : Nat) (ht : b.Lands test) (hb : b.Lands body)
    (ho : b.Lands other) (hd : body.size + 4 ≤ maxDistance) (hd' : 1 + other.size ≤ maxDistance) :
    b.Lands (test ++ .one .jumpIfFalse (body.size + 4) line ++ .op .pop line ++ body ++
      .one .jump (1 + other.size) line' ++ .op .pop line' ++ other) := by
  have hElse := jumpOver (.inl rfl) line' ((pop line').append ho)
    (by simp [Opcode.operandSize]) hd'
  have hBoth := (pop line).append (hb.append hElse)
  have hThen := jump (.inr rfl) (.op .pop line ++ body ++ .one .jump (1 + other.size) line')
    (.op .pop line' ++ other) (d := body.size + 4) line (by simpa using hBoth)
    (by simp [Opcode.operandSize]; omega) hd
  simpa using ht.append hThen

theorem ifThen {test body : Code} (line line' : Nat) (ht : b.Lands test) (hb : b.Lands body)
    (hd : body.size + 4 ≤ maxDistance) :
    b.Lands (test ++ .one .jumpIfFalse (body.size + 4) line ++ .op .pop line ++ body ++
      .one .jump 1 line' ++ .op .pop line') := by
  simpa using ifElse line line' ht hb nil hd (by decide)

end Lands

/-- The test of a loop, with an instruction where the jump out of the loop leads. -/
theorem soundFrom_test {condition : Option Code} {rest line ip : Nat}
    (ht : ∀ c, condition = some c → b.Lands c) (hd : condition.isSome → rest + 1 ≤ maxDistance)
    (hc : b.code.At ip (Stmt.testCode rest line condition))
    (hExit : b.code.Starts (ip + Stmt.testSize condition + rest)) :
    b.SoundFrom ip (Stmt.testCode rest line condition) := by
  cases condition with
  | none => trivial
  | some c =>
    have hJump : b.code.Starts (ip + c.size) := ⟨_, hc.left.right⟩
    refine soundFrom_append.2 ⟨soundFrom_append.2 ⟨ht c rfl ip hc.left.left hJump,
      soundFrom_one (sound_jump (.inr rfl) (hd rfl) (hExit.of_eq ?_))⟩,
      soundFrom_one ⟨Instruction.fits_op _, trivial, trivial⟩⟩
    simp only [Stmt.testSize]
    omega

/-- The increment of a loop, with an instruction in front of the test and one behind the increment. -/
theorem soundFrom_step {increment : Option (Code × Nat)} {size line line' ip : Nat}
    (hi : ∀ c l, increment = some (c, l) → b.Lands c)
    (hd : ∀ c l, increment = some (c, l) → size + c.size + 7 ≤ maxDistance)
    (hc : b.code.At (ip + size) (Stmt.stepCode size line line' increment))
    (hTest : b.code.Starts ip)
    (hBody : b.code.Starts (ip + size + (Stmt.stepCode size line line' increment).size)) :
    b.SoundFrom (ip + size) (Stmt.stepCode size line line' increment) := by
  cases increment with
  | none => trivial
  | some step =>
    obtain ⟨c, l⟩ := step
    have hFits := hd c l rfl
    have hPop : b.code.Starts (ip + size + 3 + c.size) :=
      ⟨_, hc.left.right.of_eq (by simp only [Code.size_append, Code.size_one, Opcode.operandSize]; omega)⟩
    unfold Stmt.stepCode at hBody ⊢
    simp only [Code.size_append, Code.size_one, Code.size_op, Opcode.operandSize] at hBody
    refine soundFrom_append.2 ⟨soundFrom_append.2 ⟨soundFrom_append.2
      ⟨soundFrom_one (sound_jump (.inl rfl) (by omega) (hBody.of_eq (by omega))),
        hi c l rfl _ hc.left.left.right hPop⟩,
      soundFrom_one ⟨Instruction.fits_op _, trivial, trivial⟩⟩,
      soundFrom_one (sound_loop ip hFits ?_ (by omega) hTest)⟩
    simp only [Code.size_append, Code.size_one, Code.size_op, Opcode.operandSize]
    omega

/-- The ways back of a loop lead to its test or to its increment, and the jump out of it behind it. -/
theorem Lands.loop {condition : Option Code} {increment : Option (Code × Nat)} {body : Code}
    {line line' bodyLine : Nat} (ht : ∀ c, condition = some c → b.Lands c)
    (hi : ∀ c l, increment = some (c, l) → b.Lands c) (hb : b.Lands body)
    (hf : Stmt.LoopFits condition increment body) :
    b.Lands (Stmt.loopCode condition line increment line' body bodyLine) := by
  intro ip hc hEnd
  unfold Stmt.loopCode at hc hEnd ⊢
  have hBackCode := hc.left.right
  have hBodyCode := hc.left.left.right
  have hStepCode := hc.left.left.left.right
  have hTestCode := hc.left.left.left.left
  -- an instruction starts in front of each part, also in front of one that is empty
  have hLeave := hc.starts_between hEnd
  have hBack : b.code.Starts _ := ⟨_, hBackCode⟩
  have hBody := hBodyCode.starts (by simpa [Nat.add_assoc] using hBack)
  have hStep := hStepCode.starts (by simpa [Nat.add_assoc] using hBody)
  have hTest := hTestCode.starts (by simpa using hStep)
  simp only [Code.size_append, Code.size_one, Stmt.size_testCode, Opcode.operandSize] at *
  refine soundFrom_append.2 ⟨soundFrom_append.2 ⟨soundFrom_append.2 ⟨soundFrom_append.2
    ⟨soundFrom_test ht (fun h => ?_) hTestCode (hLeave.of_eq (by omega)), ?_⟩, ?_⟩, ?_⟩, ?_⟩
  · have hExit := hf.exit h
    rwa [Stmt.size_stepCode _ _ _ line line'] at hExit
  · rw [Stmt.size_testCode]
    exact soundFrom_step hi hf.step hStepCode hTest (hBody.of_eq (by omega))
  · rw [Code.size_append, Stmt.size_testCode]
    exact hb _ hBodyCode (hBack.of_eq (by omega))
  · rw [Code.size_append, Code.size_append, Stmt.size_testCode]
    refine soundFrom_one ?_
    cases increment with
    | none =>
      refine sound_loop ip hf.back ?_ ?_ hTest
      all_goals simp only [Stmt.stepCode, Stmt.backDistance, Code.size_nil]; omega
    | some step =>
      obtain ⟨c, l⟩ := step
      refine sound_loop (ip + Stmt.testSize condition + 3) hf.back ?_ ?_ ?_
      · simp only [Stmt.stepCode, Stmt.backDistance, Code.size_append, Code.size_one, Code.size_op,
          Opcode.operandSize]
        omega
      · simp only [Stmt.backDistance]
        omega
      · refine hStepCode.left.left.right.starts ⟨_, hStepCode.left.right.of_eq ?_⟩
        simp only [Code.size_append, Code.size_one, Opcode.operandSize]
        omega
  · split
    · exact soundFrom_one ⟨Instruction.fits_op _, trivial, trivial⟩
    · trivial

end Body

/-! ## Expressions -/

section

variable {b : Body}

theorem Body.lands_constant {i : Nat} {c : Const} (hi : b.pool[i]? = some c) (line : Nat) :
    b.Lands (.one .constant i line) :=
  .one (Body.index_lt hi) (List.getElem?_eq_some_iff.1 hi).1 fun _ _ => trivial

section

variable {ls : List Local} {k : List Const} {name : String}

/-- What a name refers to is a slot that fits, or a global whose name is among the constants. -/
theorem Referent.refers (hl : ls.length ≤ maxLocals) (hp : Referent.pool ls k name <+: b.pool) :
    match Referent.of ls k name with
    | slot n => n < 256
    | global index => b.pool[index]? = some (.string name) := by
  unfold Referent.of
  unfold Referent.pool at hp
  cases hr : Draft.resolve? name ls with
  | some found => exact (Draft.resolve?_lt hr).trans_le hl
  | none =>
    rw [hr] at hp
    exact Const.getElem?_of_prefix hp (Const.getElem?_withName k name)

theorem Referent.lands_get (hl : ls.length ≤ maxLocals) (hp : Referent.pool ls k name <+: b.pool)
    (line : Nat) : b.Lands ((Referent.of ls k name).get line) := by
  have hr := Referent.refers hl hp
  generalize Referent.of ls k name = ref at hr ⊢
  cases ref with
  | slot n => exact .one hr trivial fun _ _ => trivial
  | global index => exact .one (Body.index_lt hr) ⟨name, hr⟩ fun _ _ => trivial

theorem Referent.lands_set (hl : ls.length ≤ maxLocals) (hp : Referent.pool ls k name <+: b.pool)
    (line : Nat) : b.Lands ((Referent.of ls k name).set line) := by
  have hr := Referent.refers hl hp
  generalize Referent.of ls k name = ref at hr ⊢
  cases ref with
  | slot n => exact .one hr trivial fun _ _ => trivial
  | global index => exact .one (Body.index_lt hr) ⟨name, hr⟩ fun _ _ => trivial

end

theorem UnaryOperator.lands (op : UnaryOperator) (line : Nat) : b.Lands (.op op.opcode line) := by
  cases op with
  | negate | not => exact .op trivial fun _ _ => trivial

theorem BinaryOperator.lands (op : BinaryOperator) (line : Nat) :
    b.Lands (op.opcodes.flatMap fun o => Code.op o line) := by
  cases op with
  | equal | greater | less | add | subtract | multiply | divide =>
    exact .op trivial fun _ _ => trivial
  | notEqual | greaterEqual | lessEqual =>
    exact .append (.op trivial fun _ _ => trivial) (.op trivial fun _ _ => trivial)

mutual

theorem Expr.lands : ∀ (e : Expr) {ls : List Local} {k : List Const}, e.Legal ls k →
    ls.length ≤ maxLocals → e.pool ls k <+: b.pool → b.Lands (e.code ls k)
  | .nil _, _, _, _, _, _ => .pushNil
  | .bool true _, _, _, _, _, _ | .bool false _, _, _, _, _, _ => .op trivial fun _ _ => trivial
  | .number _ line, _, _, _, _, hp | .string _ line, _, _, _, _, hp =>
    Body.lands_constant (Const.getElem?_of_prefix hp (List.getElem?_concat_length ..)) line
  | .name _ line, _, _, _, hl, hp => Referent.lands_get hl hp line
  | .assign n value, ls, k, ⟨_, hv⟩, hl, hp =>
    have hPool := (value.prefix_pool ls (Referent.pool ls k n)).trans hp
    (value.lands hv hl hp).append (Referent.lands_set hl hPool value.endLine)
  | .group inner _, _, _, he, hl, hp => inner.lands he hl hp
  | .unary op operand, _, _, he, hl, hp =>
    (operand.lands he hl hp).append (op.lands operand.endLine)
  | .binary op left right, ls, k, ⟨he, hr⟩, hl, hp =>
    have hPool := (right.prefix_pool ls (left.pool ls k)).trans hp
    ((left.lands he hl hPool).append (right.lands hr hl hp)).append (op.lands right.endLine)
  | .and left right _, ls, k, ⟨he, hr, hd⟩, hl, hp =>
    have hPool := (right.prefix_pool ls (left.pool ls k)).trans hp
    .and (left.lands he hl hPool) (right.lands hr hl hp) hd
  | .or left right _, ls, k, ⟨he, hr, hd⟩, hl, hp =>
    have hPool := (right.prefix_pool ls (left.pool ls k)).trans hp
    .or (left.lands he hl hPool) (right.lands hr hl hp) hd
  | .call callee arguments _, ls, k, ⟨he, hr, hCount⟩, hl, hp =>
    have hPool := (Expr.prefix_poolOfAll ls arguments (callee.pool ls k)).trans hp
    ((callee.lands he hl hPool).append (Expr.landsAll arguments hr hl hp)).append
      (.one (Nat.lt_succ_of_le hCount) trivial fun _ _ => trivial)

theorem Expr.landsAll : ∀ (es : List Expr) {ls : List Local} {k : List Const},
    Expr.LegalList ls k es → ls.length ≤ maxLocals → Expr.poolOfAll ls k es <+: b.pool →
    b.Lands (Expr.codeOfAll ls k es)
  | [], _, _, _, _, _ => .nil
  | e :: es, ls, k, ⟨he, hr⟩, hl, hp =>
    have hPool := (Expr.prefix_poolOfAll ls es (e.pool ls k)).trans hp
    (e.lands he hl hPool).append (Expr.landsAll es hr hl hp)

end

/-! ## Statements -/

theorem Scope.lands_define {sc : Scope} {k : List Const} {name : String}
    (hp : sc.pool k name <+: b.pool) (line : Nat) : b.Lands (sc.define k name line) := by
  unfold Scope.define
  unfold Scope.pool at hp
  split
  · rename_i hDepth
    rw [if_pos hDepth] at hp
    have hi := Const.getElem?_of_prefix hp (Const.getElem?_withName k name)
    exact .one (Body.index_lt hi) ⟨name, hi⟩ fun _ _ => trivial
  · exact .nil

theorem Variable.lands {v : Variable} {sc : Scope} {k : List Const} (hv : v.Legal sc k)
    (hl : sc.locals.length ≤ maxLocals) (hp : v.pool sc k <+: b.pool) : b.Lands (v.code sc k) := by
  obtain ⟨hm, he⟩ := hv
  unfold Variable.pool at hp
  unfold Variable.code
  cases hValue : v.value with
  | none =>
    rw [hValue] at hp
    exact .append .pushNil (Scope.lands_define hp v.line)
  | some e =>
    rw [hValue] at hp he
    exact (e.lands he (Scope.covers_declaring hm hl).fits hp).append
      (Scope.lands_define ((e.prefix_pool _ _).trans hp) v.line)

theorem Initializer.lands {first : Initializer} {sc : Scope} {k : List Const} (hf : first.Legal sc k)
    (hl : sc.locals.length ≤ maxLocals) (hp : first.pool sc k <+: b.pool) :
    b.Lands (first.code sc k) := by
  cases first with
  | none => exact .nil
  | var v => exact Variable.lands hf hl hp
  | expression e line => exact (e.lands hf hl hp).append (.pop _)

mutual

theorem Stmt.lands : ∀ (s : Stmt) {inFunction : Bool} {sc : Scope} {k : List Const},
    s.Legal inFunction sc k → sc.locals.length ≤ maxLocals → s.pool sc k <+: b.pool →
    b.Lands (s.code sc k)
  | .expression e _, _, _, _, hs, hl, hp => (e.lands hs hl hp).append (.pop _)
  | .print e _, _, _, _, hs, hl, hp => (e.lands hs hl hp).append (.op trivial fun _ _ => trivial)
  | .var v, _, _, _, hs, hl, hp => v.lands hs hl hp
  | .function _ _ _ _ line, _, _, _, _, _, hp =>
    (Body.lands_constant (Const.getElem?_of_prefix hp (List.getElem?_concat_length ..)) line).append
      (Scope.lands_define ((List.prefix_append ..).trans hp) line)
  | .block body line, _, _, _, hs, hl, hp => (Stmt.landsAll body hs hl hp).append (.drops _ line)
  | .ifThen condition _ body, _, sc, k, ⟨hc, hb, hd⟩, hl, hp =>
    have hPool := (body.prefix_pool sc (condition.pool sc.locals k)).trans hp
    .ifThen _ _ (condition.lands hc hl hPool) (body.lands hb hl hp) hd
  | .ifElse condition _ body other, _, sc, k, ⟨hc, hb, ho, hd, hd'⟩, hl, hp =>
    have hPool := (other.prefix_pool sc _).trans hp
    have hPool' := (body.prefix_pool sc _).trans hPool
    .ifElse _ _ (condition.lands hc hl hPool') (body.lands hb hl hPool) (other.lands ho hl hp) hd hd'
  | .whileLoop condition line body, _, sc, k, ⟨hc, hb, hd⟩, hl, hp => by
    have hPool := (body.prefix_pool sc (condition.pool sc.locals k)).trans hp
    rw [Stmt.code_whileLoop]
    refine .loop (fun c hEq => ?_) nofun (body.lands hb hl hp) (Stmt.loopFits_while hd)
    cases hEq
    exact condition.lands hc hl hPool
  | .forLoop first condition line increment line' body, _, sc, k, ⟨hf, hc, hi, hb, hFits⟩, hl, hp => by
    have hPool := (body.prefix_pool _ _).trans hp
    have hPool' := (Expr.prefix_pool? _ _ increment).trans hPool
    have hl' : (first.scope sc.enter).locals.length ≤ maxLocals := Initializer.length_scope hf hl
    have hFirst := first.lands hf hl ((Expr.prefix_pool? _ _ condition).trans hPool')
    refine (hFirst.append (.loop (fun c hEq => ?_) (fun c l hEq => ?_) (body.lands hb hl' hp)
      hFits)).append (.drops _ _)
    · obtain ⟨e, rfl, rfl⟩ := Option.map_eq_some_iff.1 hEq
      exact e.lands hc hl' hPool'
    · obtain ⟨e, rfl, hEq⟩ := Option.map_eq_some_iff.1 hEq
      cases hEq
      exact e.lands hi hl' hPool
  | .ret none _, _, _, _, _, _, _ => .append .pushNil .ret
  | .ret (some e) _, _, _, _, hs, hl, hp => (e.lands hs.2 hl hp).append .ret

theorem Stmt.landsAll : ∀ (ss : List Stmt) {inFunction : Bool} {sc : Scope} {k : List Const},
    Stmt.LegalList inFunction sc k ss → sc.locals.length ≤ maxLocals →
    Stmt.poolOfAll sc k ss <+: b.pool → b.Lands (Stmt.codeOfAll sc k ss)
  | [], _, _, _, _, _, _ => .nil
  | s :: ss, _, sc, k, ⟨hs, hss⟩, hl, hp =>
    have hPool := (Stmt.prefix_poolOfAll ss (s.scope sc) (s.pool sc k)).trans hp
    (s.lands hs hl hPool).append (Stmt.landsAll ss hss (Stmt.length_scope hs hl) hp)

end

end

/-! ## Routines -/

/-- Every instruction of a legal routine is as it should be. -/
theorem Routine.Legal.sound {r : Routine} (hl : r.Legal) (hp : r.Proper) :
    hl.whole.SoundFrom 0 r.code := by
  have hWhole : hl.whole.code.At 0 r.code := ⟨[], [], by simp [Routine.Legal.whole], rfl⟩
  have hBody := Stmt.landsAll (b := hl.whole) r.body hl.body (Routine.length_scope_le hl hp)
    (List.prefix_refl _)
  -- the body has the return of nil behind it
  refine Body.soundFrom_append.2 ⟨Body.soundFrom_append.2 ⟨hBody 0 hWhole.left.left ?_, ?_⟩, ?_⟩
  · exact ⟨_, hWhole.left.right⟩
  · exact Body.soundFrom_one ⟨Instruction.fits_op _, trivial, trivial⟩
  · exact Body.soundFrom_one ⟨Instruction.fits_op _, trivial, trivial⟩

end Lox
