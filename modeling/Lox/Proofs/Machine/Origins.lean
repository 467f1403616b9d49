import Lox.Proofs.Machine.Traces

/-!
# Where values come from

What is on the stack behind an instruction was there before, is a constant of the function that runs, the
value of a global or the result of a native function, or it is made by the instruction and then no
function (`Machine.source_execute`). So a session whose native functions are modest holds only values of
a set that has all scripts and all that is no function, until a constant is pushed that is not in the set
(`Moment.Holds.next`).
-/

set_option autoImplicit false

namespace Lox

namespace Machine

/-! ## One instruction -/

/-- Where a value comes from that is on the stack behind an instruction. -/
inductive Source (m : Machine) (frame : Frame) (i : Instruction) (v : Value) : Prop
  | stack : v ∈ m.stack → Source m frame i v
  | plain : (∀ f, v ≠ .object (.function f)) → Source m frame i v
  | constant : i.op = .constant → frame.function.chunk.constants[i.operand]? = some v →
      Source m frame i v
  | global {s : Str} : nameAt frame i.operand = .ok s → m.globals.get? (.string s) = some v →
      Source m frame i v
  | answer {native : Native} {m' : Machine} {frame' : Frame} : i.op = .call →
      m.peek? i.operand = some (.object (.native native)) → m.execute frame i = .next m' frame' →
      m'.peek? 0 = some v → Source m frame i v

variable {m : Machine} {frame : Frame} {i : Instruction} {v w : Value}

theorem mem_of_mem_shrink {stack : Array Value} {n : Nat} (h : v ∈ stack.shrink n) : v ∈ stack := by
  rw [← Array.mem_toList_iff, Array.toList_shrink] at h
  exact Array.mem_toList_iff.1 (List.mem_of_mem_take h)

theorem Source.drop {count : Nat} (h : v ∈ (m.drop count).stack) : m.Source frame i v :=
  .stack (mem_of_mem_shrink h)

theorem Source.push {stack : Array Value} (hStack : ∀ v ∈ stack, m.Source frame i v)
    (hw : m.Source frame i w) (h : v ∈ stack.push w) : m.Source frame i v := by
  rcases Array.mem_push.1 h with h | rfl
  · exact hStack v h
  · exact hw

/-- A value that is no function in place of others. -/
theorem Source.replace {count : Nat} (hw : ∀ f, w ≠ .object (.function f))
    (h : v ∈ ((m.drop count).push w).stack) : m.Source frame i v :=
  .push (fun _ => .drop) (.plain hw) h

theorem peek?_push (m : Machine) (v : Value) : (m.push v).peek? 0 = some v := by
  simp [peek?, Machine.push]

/-- What a call does: it fails, it starts a function, or a native function leaves its result. -/
theorem call_cases (m : Machine) (frame : Frame) (count : Nat) :
    (∃ fault, m.call frame count = .fail m frame fault) ∨
    (∃ f, m.peek? count = some (.object (.function f)) ∧ m.call frame count =
      .next { m with callers := frame :: m.callers } ⟨f, 0, m.stack.size - count - 1⟩) ∨
    ∃ native result, m.peek? count = some (.object (.native native)) ∧
      m.call frame count = .next ((m.drop (count + 1)).push result) frame := by
  unfold Machine.call
  split
  · exact .inl ⟨_, rfl⟩
  · rename_i f hf
    split
    · exact .inl ⟨_, rfl⟩
    · split
      · exact .inl ⟨_, rfl⟩
      · exact .inr (.inl ⟨f, hf, rfl⟩)
  · rename_i native hNative
    split
    · exact .inl ⟨_, rfl⟩
    · exact .inr (.inr ⟨native, _, hNative, rfl⟩)
  · exact .inl ⟨_, rfl⟩

/-- What is on the stack behind an instruction. -/
theorem source_execute (h : v ∈ (m.execute frame i).machine.stack) : m.Source frame i v := by
  obtain ⟨op, operand⟩ := i
  have hSame : ∀ v ∈ m.stack, m.Source frame ⟨op, operand⟩ v := fun _ => .stack
  cases op with
  | constant =>
    simp only [execute, Machine.constant] at h
    split at h
    · rename_i value hGet
      exact .push hSame (.constant rfl hGet) h
    · exact .stack h
  | getGlobal =>
    simp only [execute, getGlobal] at h
    split at h
    · exact .stack h
    · rename_i name hName
      split at h
      · rename_i value hGet
        exact .push hSame (.global hName hGet) h
      · exact .stack h
  | getLocal =>
    simp only [execute, getLocal] at h
    split at h
    · rename_i value hGet
      exact .push hSame (.stack (Array.mem_of_getElem? hGet)) h
    · exact .stack h
  | setLocal =>
    simp only [execute, setLocal] at h
    split at h
    · rename_i value hPeek
      split at h
      · rcases Array.mem_or_eq_of_mem_setIfInBounds h with h | rfl
        · exact .stack h
        · exact .stack (mem_of_peek? hPeek)
      · exact .stack h
    · exact .stack h
  | call =>
    rcases m.call_cases frame operand with ⟨_, hCall⟩ | ⟨_, -, hCall⟩ | ⟨_, _, hNative, hCall⟩
    · rw [execute, hCall] at h
      exact .stack h
    · rw [execute, hCall] at h
      exact .stack h
    · have hAnswer : m.Source frame ⟨.call, operand⟩ _ :=
        .answer rfl hNative hCall (peek?_push _ _)
      rw [execute, hCall] at h
      exact .push (fun _ => .drop) hAnswer h
  | ret =>
    simp only [execute, ret] at h
    split at h
    · exact .stack h
    · rename_i result hPeek
      split at h
      · exact .stack (mem_of_mem_shrink (mem_of_mem_shrink h))
      · refine .push (fun v hv => ?_) (.stack (mem_of_peek? hPeek)) h
        exact .stack (mem_of_mem_shrink (mem_of_mem_shrink hv))
  | pushNil | pushTrue | pushFalse => exact .push hSame (.plain (by simp)) h
  | jump => exact .stack h
  | _ =>
    simp only [execute, pop, defineGlobal, setGlobal, equal, arithmetic, add, not, negate, print,
      jumpIfFalse, loop] at h
    repeat' split at h
    all_goals first
      | exact .stack h
      | exact .drop h
      | exact .replace (by simp) h

/-- A call in progress behind an instruction was so before, or its function was on the stack. -/
theorem frames_execute {m' : Machine} {frame' : Frame} (h : m.execute frame i = .next m' frame')
    {caller : Frame} (hMem : caller ∈ frame' :: m'.callers) :
    caller.function = frame.function ∨ caller ∈ m.callers ∨
      .object (.function caller.function) ∈ m.stack := by
  have hTurns := m.turns_execute frame i
  rw [h] at hTurns
  rcases hTurns with ⟨hFunction, hCallers⟩ | ⟨hCall, hCallers⟩ | hCallers
  · rcases List.mem_cons.1 hMem with rfl | hMem
    · exact .inl hFunction
    · exact .inr (.inl (hCallers ▸ hMem))
  · obtain ⟨op, count⟩ := i
    cases hCall
    rw [hCallers] at hMem
    rcases List.mem_cons.1 hMem with rfl | hMem
    · rcases m.call_cases frame count with ⟨_, hCall⟩ | ⟨f, hf, hCall⟩ | ⟨_, _, -, hCall⟩
      · cases h.symm.trans hCall
      · cases h.symm.trans hCall
        exact .inr (.inr (mem_of_peek? hf))
      · cases h.symm.trans hCall
        exact .inl rfl
    · rcases List.mem_cons.1 hMem with rfl | hMem
      · exact .inl rfl
      · exact .inr (.inl hMem)
  · exact .inr (.inl (hCallers ▸ hMem))

theorem frames_step {m' : Machine} {frame' : Frame} (h : m.step frame = .next m' frame')
    {caller : Frame} (hMem : caller ∈ frame' :: m'.callers) :
    caller.function = frame.function ∨ caller ∈ m.callers ∨
      .object (.function caller.function) ∈ m.stack := by
  unfold Machine.step at h
  split at h
  · cases h
  · cases h
  · cases h
  · exact frames_execute h hMem

/-- What is stored in a global was on the stack. -/
theorem mem_of_store? {e : String × Value} (h : m.store? frame = some e) : e.2 ∈ m.stack := by
  unfold store? at h
  split at h
  · split at h
    · split at h
      · rename_i hPeek
        cases h
        exact mem_of_peek? hPeek
      · cases h
    · cases h
  · cases h

end Machine

namespace Moment

/-! ## Sessions -/

/-- All values and functions that a session holds are of a set. -/
structure Holds (Q : Value → Prop) (a : Moment) : Prop where
  stack : ∀ v ∈ a.session.machine.stack, Q v
  globals : ∀ n v, a.stores.lookup n = some v → Q v
  running : ∀ frame, a.running = some frame → Q (.object (.function frame.function))
  callers : ∀ frame ∈ a.session.machine.callers, Q (.object (.function frame.function))

variable {Q : Value → Prop} {a b : Moment}

/-- The globals of a session whose native functions are modest are what was stored. -/
theorem Reached.stored_of_modest (h : Reached Machine.Modest a) :
    a.session.machine.Stored a.stores :=
  (h.imp fun ha _ => (ha.own_of_modest.machine).interned _).stored

/-- The names among the constants of the function that runs are on the heap. -/
theorem Reached.nameAt_mem (h : Reached Machine.Modest a) {frame : Frame} (hr : a.running = some frame)
    {index : Nat} {s : Str} (hName : Machine.nameAt frame index = .ok s) :
    .string s ∈ a.session.machine.heap.objects := by
  have hFunction := h.own_of_modest.roots.2.2.1 frame hr
  unfold Machine.nameAt at hName
  split at hName
  · rename_i name hGet
    cases hName
    exact (h.rooted.2 _ hFunction).constants _ (Array.mem_of_getElem? hGet)
  · cases hName
  · cases hName

/-- An idle session holds its globals. -/
theorem Holds.of_idle (hb : Reached Machine.Modest b) (hIdle : b.running = none)
    (hGlobals : ∀ n v, b.stores.lookup n = some v → Q v) : b.Holds Q := by
  have hMachine := hb.own_of_modest.machine
  rw [hIdle] at hMachine
  refine ⟨?_, hGlobals, ?_, ?_⟩
  · rw [hMachine.stack]
    simp
  · rw [hIdle]
    simp
  · rw [hMachine.callers]
    simp

theorem forall_lookup_cons {n : String} {v : Value} {stores : List (String × Value)} (hv : Q v)
    (hStores : ∀ n v, stores.lookup n = some v → Q v) :
    ∀ n' v', ((n, v) :: stores).lookup n' = some v' → Q v' := by
  intro n' v' h
  rw [List.lookup_cons] at h
  split at h
  · cases h
    exact hv
  · exact hStores n' v' h

/-- A step leaves values of the set on the stack if it does not push another constant. -/
theorem Holds.stack_step (h : a.Holds Q) (ha : Reached Machine.Modest a)
    (hPlain : ∀ v, (∀ f, v ≠ .object (.function f)) → Q v) {frame : Frame}
    (hr : a.running = some frame) (hModest : a.session.machine.Modest a.scripts frame)
    (hConstant : ∀ i next v, frame.function.chunk.decode frame.ip = .instruction ⟨.constant, i⟩ next →
      frame.function.chunk.constants[i]? = some v → Q v) :
    ∀ v ∈ (a.session.machine.step frame).machine.stack, Q v := by
  intro v hv
  cases hDecode : frame.function.chunk.decode frame.ip with
  | outside | unknown | truncated =>
    simp only [Machine.step, hDecode] at hv
    exact h.stack v hv
  | instruction i next =>
    have hStep : a.session.machine.step frame =
        a.session.machine.execute { frame with ip := next } i := by
      simp only [Machine.step, hDecode]
    rw [hStep] at hv
    cases Machine.source_execute hv with
    | stack hMem => exact h.stack v hMem
    | plain hv => exact hPlain v hv
    | constant hOp hGet =>
      obtain ⟨op, index⟩ := i
      cases hOp
      exact hConstant index next v hDecode hGet
    | @global s hName hGet =>
      rw [ha.stored_of_modest.get? (ha.nameAt_mem hr hName)] at hGet
      exact h.globals s.text v hGet
    | @answer native m' frame' hOp hNative hNext hPeek =>
      obtain ⟨op, count⟩ := i
      cases hOp
      rcases hModest count next native m' frame' v hDecode hNative (hStep.trans hNext) hPeek with
        hNone | hMem | ⟨s, rfl, -⟩
      · exact hPlain v fun f => hNone _
      · exact h.stack v hMem
      · exact hPlain _ (by simp)

/-- A constant was pushed that is not of a set. -/
structure Pushed (Q : Value → Prop) (a b : Moment) (frame : Frame) (v : Value) : Prop where
  before : a.running = some frame
  constant : ∃ i next, frame.function.chunk.decode frame.ip = .instruction ⟨.constant, i⟩ next ∧
    frame.function.chunk.constants[i]? = some v ∧ b.running = some { frame with ip := next }
  foreign : ¬ Q v
  machine : b.session.machine = a.session.machine.push v

/-- What happens in a session adds no values but those of the set, or it pushes a constant. -/
theorem Holds.next (h : a.Holds Q) (ha : Reached Machine.Modest a)
    (hPlain : ∀ v, (∀ f, v ≠ .object (.function f)) → Q v)
    (hLoad : ∀ source frame s, a.session.load source = (.ok frame, s) → b.running = some frame →
      Q (.object (.function frame.function)))
    (hn : Next Machine.Modest a b) : b.Holds Q ∨ ∃ frame v, Pushed Q a b frame v := by
  have hb := ha.next hn
  cases hn with
  | host e | reserve => exact .inl { h with }
  | define name arity behaviour =>
    refine .inl (.of_idle hb rfl (forall_lookup_cons (hPlain _ ?_) h.globals))
    simp [native]
  | reject _ => exact .inl (.of_idle hb rfl h.globals)
  | halt t hok hStep => exact .inl (.of_idle hb rfl h.globals)
  | fail t hok hStep => exact .inl (.of_idle hb rfl h.globals)
  | @load s s' scripts stores source frame hLoaded =>
    have hScript := hLoad source frame s' hLoaded rfl
    obtain ⟨f, heap, log, -, rfl, rfl⟩ := Session.load_eq_ok hLoaded
    refine .inl ⟨fun v hv => ?_, h.globals, ?_, h.callers⟩
    · rcases Array.mem_push.1 hv with hv | rfl
      · exact h.stack v hv
      · exact hScript
    · rintro _ ⟨⟩
      exact hScript
  | @step s frame frame' scripts stores m hok hStep =>
    by_cases hForeign : ∃ i next v, frame.function.chunk.decode frame.ip = .instruction ⟨.constant, i⟩ next ∧
        frame.function.chunk.constants[i]? = some v ∧ ¬ Q v
    · obtain ⟨i, next, v, hDecode, hGet, hv⟩ := hForeign
      have hPush : s.machine.step frame = .next (s.machine.push v) { frame with ip := next } := by
        simp only [Machine.step, hDecode, Machine.execute, Machine.constant, hGet]
      cases hPush.symm.trans hStep
      exact .inr ⟨frame, v, rfl, ⟨i, next, hDecode, hGet, rfl⟩, hv, rfl⟩
    · have hStack := h.stack_step ha hPlain rfl hok fun i next v hDecode hGet =>
        not_not.1 fun hv => hForeign ⟨i, next, v, hDecode, hGet, hv⟩
      rw [hStep] at hStack
      have hFrames : ∀ caller ∈ frame' :: m.callers, Q (.object (.function caller.function)) := by
        intro caller hMem
        rcases Machine.frames_step hStep hMem with hSame | hOld | hCalled
        · rw [hSame]
          exact h.running frame rfl
        · exact h.callers caller hOld
        · exact h.stack _ hCalled
      refine .inl ⟨hStack, ?_, ?_, fun caller hMem => hFrames caller (List.mem_cons_of_mem _ hMem)⟩
      · cases hStore : s.machine.store? frame with
        | none => exact h.globals
        | some e => exact forall_lookup_cons (h.stack _ (Machine.mem_of_store? hStore)) h.globals
      · rintro _ ⟨⟩
        exact hFrames frame' List.mem_cons_self

end Moment

end Lox
