import Lox.Proofs.Machine.Sessions

/-!
# Arbitrary bytecode

What holds of the machine whatever code it runs. No instruction subtracts more than there is, or cuts a
slice outside of the stack: with every subtraction and slice checked, a step is the same step
(`Machine.checkedStep_eq`). The outermost call has the whole stack (`Frame.Grounded`), and a call is
refused while there are as many as may be in progress (`Machine.calls_step`). So a session always comes
back to an empty stack (`Moment.robust`).
-/

set_option autoImplicit false

namespace Lox

/-! ## Checked instructions -/

/-- A difference that is not below zero. -/
def difference? (a b : Nat) : Option Nat := if b ≤ a then some (a - b) else none

/-- The elements from an index on that is not outside of an array. -/
def sliceFrom? {α : Type} (xs : Array α) (start : Nat) : Option (Array α) :=
  if start ≤ xs.size then some (xs.extract start xs.size) else none

theorem difference?_eq {a b : Nat} (h : b ≤ a) : difference? a b = some (a - b) := if_pos h

theorem sliceFrom?_eq {α : Type} {xs : Array α} {start : Nat} (h : start ≤ xs.size) :
    sliceFrom? xs start = some (xs.extract start xs.size) := if_pos h

namespace Machine

/-- Cuts the stack to a size that is counted from its top, with the difference checked. -/
def checkedDrop (m : Machine) (count : Nat) : Option Machine := do
  let size ← difference? m.stack.size count
  return { m with stack := m.stack.shrink size }

/-- `arithmetic`, checked. -/
def checkedArithmetic (m : Machine) (frame : Frame) (f : Float → Float → Value) : Option Step :=
  match m.peek? 1, m.peek? 0 with
  | some (.number a), some (.number b) => do
    let rest ← m.checkedDrop 2
    return .next (rest.push (f a b)) frame
  | some _, some _ => some (.fail m frame .notNumbers)
  | _, _ => some (.fail m frame .stackUnderflow)

/-- `add`, checked. -/
def checkedAdd (m : Machine) (frame : Frame) : Option Step :=
  match m.peek? 1, m.peek? 0 with
  | some (.number a), some (.number b) => do
    let rest ← m.checkedDrop 2
    return .next (rest.push (.number (a + b))) frame
  | some (.object (.string a)), some (.object (.string b)) => do
    let (s, heap) := m.heap.intern (a.text ++ b.text)
    let rest ← { m with heap }.checkedDrop 2
    return .next (rest.push (.object (.string s))) frame
  | some _, some _ => some (.fail m frame .notAddable)
  | _, _ => some (.fail m frame .stackUnderflow)

/-- `call`, checked: where the arguments start, the slot of the function below them, and the slice of the
arguments. -/
def checkedCall (m : Machine) (frame : Frame) (count : Nat) : Option Step :=
  match m.peek? count with
  | none => some (.fail m frame .stackUnderflow)
  | some (.object (.function f)) =>
    if count ≠ f.arity then some (.fail m frame (.wrongArity f.arity count))
    else if maxFrames ≤ m.callers.length + 1 then some (.fail m frame .stackOverflow)
    else do
      let start ← difference? m.stack.size count
      let base ← difference? start 1
      return .next { m with callers := frame :: m.callers } { function := f, ip := 0, base }
  | some (.object (.native n)) =>
    if count ≠ n.arity then some (.fail m frame (.wrongArity n.arity count))
    else do
      let start ← difference? m.stack.size count
      let arguments ← sliceFrom? m.stack start
      let result := match m.natives[n.entry]? with
        | some behaviour => behaviour m.now arguments
        | none => .nil
      let base ← difference? start 1
      return .next ({ m with stack := m.stack.shrink base }.push result) frame
  | some _ => some (.fail m frame .notCallable)

/-- `execute`, with every subtraction and slice checked. -/
def checkedExecute (m : Machine) (frame : Frame) (i : Instruction) : Option Step :=
  match i.op with
  | .greater => m.checkedArithmetic frame fun a b => .bool (a > b)
  | .less => m.checkedArithmetic frame fun a b => .bool (a < b)
  | .add => m.checkedAdd frame
  | .subtract => m.checkedArithmetic frame fun a b => .number (a - b)
  | .multiply => m.checkedArithmetic frame fun a b => .number (a * b)
  | .divide => m.checkedArithmetic frame fun a b => .number (a / b)
  | .call => m.checkedCall frame i.operand
  | _ => some (m.execute frame i)

/-- `step`, with every subtraction and slice checked. -/
def checkedStep (m : Machine) (frame : Frame) : Option Step :=
  match frame.function.chunk.decode frame.ip with
  | .outside => some (.fail m frame .outsideCode)
  | .unknown byte => some (.fail m { frame with ip := frame.ip + 1 } (.unknownOpcode byte))
  | .truncated _ => some (.fail m { frame with ip := frame.function.chunk.code.size } .outsideCode)
  | .instruction i next => m.checkedExecute { frame with ip := next } i

variable (m : Machine) (frame : Frame)

/-- A value at a distance from the top means that the stack is deeper than this distance. -/
theorem lt_size_of_peek? {m : Machine} {d : Nat} {v : Value} (h : m.peek? d = some v) :
    d < m.stack.size := by
  unfold peek? at h
  split at h
  · assumption
  · cases h

theorem checkedDrop_eq {m : Machine} {count : Nat} (h : count ≤ m.stack.size) :
    m.checkedDrop count = some (m.drop count) := by
  rw [checkedDrop, difference?_eq h]
  rfl

theorem checkedArithmetic_eq (f : Float → Float → Value) :
    m.checkedArithmetic frame f = some (m.arithmetic frame f) := by
  have hDrop : ∀ v, m.peek? 1 = some v → m.checkedDrop 2 = some (m.drop 2) :=
    fun v hv => checkedDrop_eq (lt_size_of_peek? hv)
  unfold checkedArithmetic arithmetic
  generalize m.peek? 1 = left at hDrop
  generalize m.peek? 0 = right
  split
  · rw [hDrop _ rfl]
    rfl
  · simp_all
  · simp_all

theorem checkedAdd_eq : m.checkedAdd frame = some (m.add frame) := by
  have hDrop : ∀ v, m.peek? 1 = some v →
      ∀ heap, { m with heap }.checkedDrop 2 = some ({ m with heap }.drop 2) :=
    fun v hv heap => checkedDrop_eq (lt_size_of_peek? hv)
  unfold checkedAdd add
  generalize m.peek? 1 = left at hDrop
  generalize m.peek? 0 = right
  split
  · rw [hDrop _ rfl m.heap]
    rfl
  · dsimp only
    rw [hDrop _ rfl]
    rfl
  · simp_all
  · simp_all

theorem checkedCall_eq (count : Nat) : m.checkedCall frame count = some (m.call frame count) := by
  have hLess : ∀ v, m.peek? count = some v → count < m.stack.size := fun v => lt_size_of_peek?
  unfold checkedCall call
  generalize m.peek? count = callee at hLess
  split
  · rfl
  · specialize hLess _ rfl
    dsimp only
    split
    · rfl
    · split
      · rfl
      · rw [difference?_eq (by omega)]
        dsimp only [Option.bind_eq_bind, Option.bind_some]
        rw [difference?_eq (by omega)]
        rfl
  · specialize hLess _ rfl
    dsimp only
    split
    · rfl
    · rw [difference?_eq (by omega)]
      dsimp only [Option.bind_eq_bind, Option.bind_some]
      rw [sliceFrom?_eq (by omega)]
      dsimp only [Option.bind_eq_bind, Option.bind_some]
      rw [difference?_eq (by omega)]
      rfl
  · simp_all

/-- No instruction subtracts more than there is, or cuts a slice outside of the stack. -/
theorem checkedStep_eq : m.checkedStep frame = some (m.step frame) := by
  have hExecute (frame : Frame) (i : Instruction) :
      m.checkedExecute frame i = some (m.execute frame i) := by
    obtain ⟨op, operand⟩ := i
    cases op with
    | greater | less | subtract | multiply | divide => exact checkedArithmetic_eq m frame _
    | add => exact checkedAdd_eq m frame
    | call => exact checkedCall_eq m frame operand
    | _ => rfl
  unfold checkedStep step
  cases frame.function.chunk.decode frame.ip with
  | outside | unknown | truncated => rfl
  | instruction i next => exact hExecute _ i

/-! ## Calls in progress -/

/-- What an instruction may do to the calls in progress: nothing, start a call while there may be one
more, or return to the caller. Only the outermost call ends the run, and takes down its stack. -/
def Calls (m : Machine) (frame : Frame) : Step → Prop
  | .next m' frame' =>
    frame'.base = frame.base ∧ m'.callers = m.callers ∨
    (∃ caller : Frame, caller.base = frame.base ∧ m'.callers = caller :: m.callers ∧
      m.callers.length + 1 < maxFrames) ∨
    m.callers = frame' :: m'.callers
  | .halt m' => m.callers = [] ∧ m'.callers = [] ∧ m'.stack.size ≤ frame.base
  | .fail _ _ _ => True

theorem calls_call (count : Nat) : m.Calls frame (m.call frame count) := by
  unfold call
  split
  · trivial
  · split
    · trivial
    · split
      · trivial
      · rename_i hFrames
        exact .inr (.inl ⟨frame, rfl, rfl, Nat.lt_of_not_le hFrames⟩)
  · split
    · trivial
    · exact .inl ⟨rfl, rfl⟩
  · trivial

theorem calls_ret : m.Calls frame (m.ret frame) := by
  unfold ret
  split
  · trivial
  · dsimp only
    split
    · rename_i hNone
      exact ⟨hNone, hNone, by rw [Array.size_shrink]; exact Nat.min_le_left ..⟩
    · rename_i caller callers hSome
      exact .inr (.inr hSome)

theorem calls_execute (i : Instruction) : m.Calls frame (m.execute frame i) := by
  obtain ⟨op, operand⟩ := i
  cases op with
  | call => exact calls_call m frame operand
  | ret => exact calls_ret m frame
  | jumpIfFalse =>
    simp only [execute, jumpIfFalse]
    split
    · refine .inl ⟨?_, rfl⟩
      split <;> rfl
    · trivial
  | _ =>
    simp only [execute, constant, pop, getLocal, setLocal, getGlobal, defineGlobal, setGlobal, equal,
      arithmetic, add, not, negate, print, loop]
    repeat' split
    all_goals first | trivial | exact .inl ⟨rfl, rfl⟩

theorem calls_step : m.Calls frame (m.step frame) := by
  unfold step
  split
  · trivial
  · trivial
  · trivial
  · exact calls_execute m _ _

end Machine

/-- The outermost call has the whole stack. -/
def Frame.Grounded : Frame → List Frame → Prop
  | frame, [] => frame.base = 0
  | _, caller :: callers => Grounded caller callers

theorem Frame.Grounded.of_base {frame frame' : Frame} {callers : List Frame}
    (h : frame.Grounded callers) (hBase : frame'.base = frame.base) : frame'.Grounded callers := by
  cases callers with
  | nil => exact hBase.trans h
  | cons => exact h

namespace Moment

/-- What holds of a session whatever code it runs. -/
structure Bounded (a : Moment) : Prop where
  idle : a.running = none → a.session.machine.stack = #[] ∧ a.session.machine.callers = []
  running : ∀ frame, a.running = some frame → frame.Grounded a.session.machine.callers ∧
    a.session.machine.callers.length + 1 ≤ Machine.maxFrames

theorem Bounded.start (settings : Settings) (output : Output) :
    (Moment.start settings output).Bounded := by
  refine ⟨fun _ => ?_, nofun⟩
  change (Session.create settings output).machine.stack = #[] ∧
    (Session.create settings output).machine.callers = []
  unfold Session.create
  dsimp only
  split <;> exact ⟨rfl, rfl⟩

theorem Bounded.next {ok : List Fn → Machine → Frame → Prop} {a b : Moment} (h : a.Bounded)
    (hn : Next ok a b) : b.Bounded := by
  obtain ⟨hIdle, hRunning⟩ := h
  cases hn with
  | host e => exact ⟨hIdle, hRunning⟩
  | reserve => exact ⟨hIdle, hRunning⟩
  | define name arity behaviour => exact ⟨hIdle, nofun⟩
  | @reject s s' scripts stores source problems hLoad =>
    obtain ⟨heap, -, rfl⟩ := Session.load_eq_error hLoad
    exact ⟨hIdle, nofun⟩
  | @load s s' scripts stores source frame hLoad =>
    obtain ⟨f, heap, log, -, rfl, rfl⟩ := Session.load_eq_ok hLoad
    obtain ⟨hStack, hCallers⟩ := hIdle rfl
    refine ⟨nofun, fun frame hFrame => ?_⟩
    cases hFrame
    change Frame.Grounded _ s.machine.callers ∧ s.machine.callers.length + 1 ≤ _
    simp only at hStack hCallers
    rw [hCallers, hStack]
    exact ⟨rfl, by decide⟩
  | @step s frame frame' scripts stores m _ hStep =>
    obtain ⟨hGrounded, hLength⟩ := hRunning frame rfl
    have hCalls := s.machine.calls_step frame
    rw [hStep] at hCalls
    refine ⟨nofun, fun frame'' hFrame => ?_⟩
    cases hFrame
    rcases hCalls with ⟨hBase, hSame⟩ | ⟨caller, hBase, hMore, hLess⟩ | hBack
    · exact ⟨by rw [hSame]; exact hGrounded.of_base hBase, by rw [hSame]; exact hLength⟩
    · refine ⟨?_, ?_⟩
      · rw [hMore]
        exact hGrounded.of_base hBase
      · rw [hMore]
        exact hLess
    · simp only at hGrounded hLength
      rw [hBack] at hGrounded hLength
      exact ⟨hGrounded, Nat.le_of_succ_le hLength⟩
  | @halt s frame scripts stores m t _ hStep =>
    obtain ⟨hGrounded, -⟩ := hRunning frame rfl
    have hCalls := s.machine.calls_step frame
    rw [hStep] at hCalls
    obtain ⟨hNone, hCallers, hSize⟩ := hCalls
    simp only at hGrounded
    rw [hNone] at hGrounded
    refine ⟨fun _ => ⟨Array.eq_empty_of_size_eq_zero ?_, hCallers⟩, nofun⟩
    exact Nat.le_zero.1 (Nat.le_trans hSize (Nat.le_of_eq hGrounded))
  | @fail s frame frame' scripts stores m fault t _ hStep => exact ⟨fun _ => ⟨rfl, rfl⟩, nofun⟩

theorem Reached.bounded {ok : List Fn → Machine → Frame → Prop} {a : Moment} (h : Reached ok a) :
    a.Bounded := by
  induction h with
  | start settings output => exact .start settings output
  | next _ hn ih => exact ih.next hn

/-- In every session, whatever code it runs: no instruction subtracts more than there is or cuts a slice
outside of the stack, and at most 63 calls are suspended. Without tracing, an instruction that fails
makes the run fail with its fault. Interpreting a source text comes to no other end than the three it
reports, and leaves an empty stack and no suspended call. -/
theorem robust {a : Moment} (ha : Reached (fun _ _ _ => True) a) :
    (∀ frame, a.running = some frame →
      a.session.machine.checkedStep frame = some (a.session.machine.step frame) ∧
      a.session.machine.callers.length ≤ 63 ∧
      ∀ m frame' fault, a.session.machine.step frame = .fail m frame' fault →
        ∀ fuel, a.session.machine.run false (fuel + 1) frame =
          .failed (m.abort frame' fault).1 (m.abort frame' fault).2 ∧
          (m.abort frame' fault).2.fault = fault) ∧
    (a.running = none → a.session.settings.traceExecution = false → ∀ source fuel,
      (a.session.interpret source fuel).1 ≠ .crashed ∧
      ((a.session.interpret source fuel).1 ≠ .unfinished →
        (a.session.interpret source fuel).2.machine.stack = #[] ∧
        (a.session.interpret source fuel).2.machine.callers = [])) := by
  refine ⟨fun frame hFrame => ?_, fun hIdle hTracing source fuel => ?_⟩
  · obtain ⟨-, hLength⟩ := ha.bounded.running frame hFrame
    refine ⟨Machine.checkedStep_eq _ frame, Nat.le_of_succ_le_succ hLength, ?_⟩
    intro m frame' fault hStep fuel
    refine ⟨?_, rfl⟩
    rw [Machine.run]
    simp only [Bool.false_eq_true, if_false, if_true, hStep]
  · obtain ⟨s, running, scripts, stores⟩ := a
    cases hIdle
    have hInterpreted := ha.interpret source fuel fun _ _ _ _ _ _ _ _ _ => trivial
    have hNot : (s.interpret source fuel).1 ≠ .crashed := by
      intro hCrashed
      have hOn := (hInterpreted.crashed hCrashed).1
      rw [s.settings_interpret, hTracing] at hOn
      cases hOn
    refine ⟨hNot, fun hFinished => ?_⟩
    obtain ⟨_, _, hReached⟩ := hInterpreted.idle hNot hFinished
    generalize (s.interpret source fuel).2 = s' at hReached
    exact hReached.bounded.idle rfl

/-- The function whose code drops more values than there are, called by a script. -/
def Underflow.session : Session :=
  let drops : Fn := ⟨100, 0, ⟨#[4, 4, 4, 24], #[], #[]⟩, none⟩
  { Session.create {} {} with
    machine := (Session.create {} {}).machine.defineNative "raw" 0 (.always (.object (.function drops))) }

/-- Code that drops more values than there are fails, and leaves an empty stack. -/
theorem robust_underflow :
    Reached (fun _ _ _ => True) ⟨Underflow.session, none, [],
      ("raw", native (Session.create {} {}).machine "raw" 0) :: (start {} {}).stores⟩ ∧
    (Underflow.session.interpret "raw()();" 20).1 =
      .failed ⟨.stackUnderflow, [⟨0, none⟩, ⟨1, none⟩]⟩ ∧
    (Underflow.session.interpret "raw()();" 20).2.machine.stack = #[] ∧
    (Underflow.session.interpret "raw()();" 20).2.machine.callers = [] := by
  have hReached : Reached (fun _ _ _ => True) ⟨Underflow.session, none, [],
      ("raw", native (Session.create {} {}).machine "raw" 0) :: (start {} {}).stores⟩ :=
    .next (.start {} {}) (.define "raw" 0 _)
  have hFailed : (Underflow.session.interpret "raw()();" 20).1 =
      .failed ⟨.stackUnderflow, [⟨0, none⟩, ⟨1, none⟩]⟩ := by decide +kernel
  refine ⟨hReached, hFailed, ((robust hReached).2 rfl rfl "raw()();" 20).2 ?_⟩
  rw [hFailed]
  nofun

end Moment

end Lox
