import Lox.Proofs.Machine.Sessions

/-!
# Output that takes so many bytes and no more

A session on an output that fails after so many bytes is compared with the same session on an output that
takes everything. Only print instructions touch the output (`Machine.step_output`), so the two do the same
as long as what is printed fits. At the first line that does not fit, the limited one fails with the bytes
that did fit, and otherwise with what the other one had at that instruction (`Machine.cut`,
`Session.output_failure_cuts`).
-/

set_option autoImplicit false

namespace Lox

/-! ## What an instruction does with the output -/

/-- The same step of a machine with another output. -/
def Step.withOutput (output : Output) : Step → Step
  | next m frame => .next { m with output } frame
  | halt m => .halt { m with output }
  | fail m frame fault => .fail { m with output } frame fault

namespace Machine

/-- No instruction but print reads or writes the output. -/
theorem execute_withOutput (m : Machine) (frame : Frame) {i : Instruction} (hOp : i.op ≠ .print)
    (output : Output) : { m with output }.execute frame i = (m.execute frame i).withOutput output := by
  have hPeek (n : Nat) : { m with output }.peek? n = m.peek? n := rfl
  obtain ⟨op, x⟩ := i
  cases op with
  | print => exact absurd rfl hOp
  | _ =>
    simp only [execute, constant, pop, getLocal, setLocal, getGlobal, defineGlobal, setGlobal, equal,
      arithmetic, add, not, negate, jumpIfFalse, loop, call, ret, hPeek, drop]
    repeat' split
    all_goals rfl

/-- What a print instruction comes to when its line was written to the output. -/
def printed (m : Machine) (frame : Frame) : Option String × Output → Step
  | (none, output) => .next { m with output } frame
  | (some reason, output) => .fail { m with output } frame (.outputFailed reason)

/-- A step has nothing to do with the output, or prints a line. -/
theorem step_output (m : Machine) (frame : Frame) :
    (∀ output, { m with output }.step frame = (m.step frame).withOutput output) ∨
    ∃ x next line, frame.function.chunk.decode frame.ip = .instruction ⟨.print, x⟩ next ∧
      ∀ output : Output, { m with output }.step frame =
        (m.drop 1).printed { frame with ip := next } (output.write line) := by
  unfold step
  cases hDecode : frame.function.chunk.decode frame.ip with
  | outside | unknown | truncated => exact .inl fun _ => rfl
  | instruction i next =>
    obtain ⟨op, x⟩ := i
    by_cases hOp : op = .print
    · subst hOp
      cases hValue : m.peek? 0 with
      | none =>
        refine .inl fun output => ?_
        have hValue' : { m with output }.peek? 0 = none := hValue
        simp only [execute, print, hValue, hValue', Step.withOutput]
      | some value =>
        refine .inr ⟨x, next, (value.text ++ "\n").toUTF8, rfl, fun output => ?_⟩
        have hValue' : { m with output }.peek? 0 = some value := hValue
        simp only [execute, print, hValue', drop, Output.printLine]
        cases output.write (value.text ++ "\n").toUTF8 with
        | mk failure output' => cases failure <;> rfl
    · exact .inl fun output => m.execute_withOutput _ hOp output

end Machine

/-! ## Two runs -/

/-- The machine with other room in its output. -/
def Machine.withRoom (m : Machine) (room : Room) : Machine :=
  { m with output := { m.output with room } }

namespace Progress

/-- The same progress of a run with other room in its output. -/
def withRoom (room : Room) : Progress → Progress
  | running m frame => .running (m.withRoom room) frame
  | finished m => .finished (m.withRoom room)
  | failed m error => .failed (m.withRoom room) error
  | crashed m => .crashed (m.withRoom room)

end Progress

namespace Machine

variable {tracing : Bool} {m m₁ : Machine} {frame frame₁ : Frame} {limit fuel : Nat} {reason : String}
  {line : ByteArray}

/-- After `n` instructions, the run without a limit has come to the first print instruction with which it
exceeds so many bytes. -/
structure Exceeds (tracing : Bool) (m : Machine) (frame : Frame) (limit n : Nat) (m' : Machine)
    (frame' : Frame) (next : Nat) : Prop where
  running : run tracing n (m.withRoom .unlimited) frame = .running m' frame'
  print : ∃ x, frame'.function.chunk.decode frame'.ip = .instruction ⟨.print, x⟩ next
  fits : m'.output.written.size ≤ m.output.written.size + limit
  exceeds : m.output.written.size + limit <
    (run tracing (n + 1) (m.withRoom .unlimited) frame).machine.output.written.size

/-- A run without a limit has printed some bytes. While they fit, the run with the limit has come as far.
When they do not, it has failed at the first print instruction that exceeds the limit. -/
structure Cut (tracing : Bool) (m : Machine) (frame : Frame) (limit : Nat) (reason : String) (fuel : Nat)
    (bytes : ByteArray) : Prop where
  output : (run tracing fuel (m.withRoom .unlimited) frame).machine.output =
    ⟨m.output.written ++ bytes, .unlimited⟩
  same : bytes.size ≤ limit → run tracing fuel (m.withRoom (.limited limit reason)) frame =
    (run tracing fuel (m.withRoom .unlimited) frame).withRoom (.limited (limit - bytes.size) reason)
  failed : limit < bytes.size → ∃ n m' frame' next log, n < fuel ∧
    Exceeds tracing m frame limit n m' frame' next ∧
    run tracing fuel (m.withRoom (.limited limit reason)) frame =
      .failed { m' with
          stack := #[], callers := [], log
          output := ⟨m.output.written ++ bytes.extract 0 limit, .limited 0 reason⟩ }
        ⟨.outputFailed reason, { frame' with ip := next }.tracePoint :: m'.callers.map Frame.tracePoint⟩

/-- Nothing was printed. -/
theorem Cut.of_same {p : Progress}
    (hRun : ∀ room, run tracing fuel (m.withRoom room) frame = p.withRoom room)
    (hOutput : p.machine.output.written = m.output.written) :
    Cut tracing m frame limit reason fuel .empty where
  output := by
    rw [hRun, ByteArray.append_empty, ← hOutput]
    cases p <;> rfl
  same := by
    rw [hRun, hRun]
    cases p <;> exact fun _ => rfl
  failed := fun h => absurd h (Nat.not_lt_zero limit)

/-- A first step that prints as much as fits, and the rest of the run. -/
theorem Cut.next {bytes : ByteArray} (hWritten : m₁.output.written = m.output.written ++ line)
    (hFits : line.size ≤ limit)
    (hFree : ∀ fuel, run tracing (fuel + 1) (m.withRoom .unlimited) frame =
      run tracing fuel (m₁.withRoom .unlimited) frame₁)
    (hLimited : run tracing (fuel + 1) (m.withRoom (.limited limit reason)) frame =
      run tracing fuel (m₁.withRoom (.limited (limit - line.size) reason)) frame₁)
    (h : Cut tracing m₁ frame₁ (limit - line.size) reason fuel bytes) :
    Cut tracing m frame limit reason (fuel + 1) (line ++ bytes) where
  output := by rw [hFree, h.output, hWritten, ByteArray.append_assoc]
  same := fun hSize => by
    rw [ByteArray.size_append] at hSize ⊢
    rw [hFree, hLimited, h.same (by omega), Nat.sub_sub]
  failed := fun hSize => by
    rw [ByteArray.size_append] at hSize
    obtain ⟨n, m', frame', next, log, hn, hExceeds, hRun⟩ := h.failed (by omega)
    have hBytes : (line ++ bytes).extract 0 limit = line ++ bytes.extract 0 (limit - line.size) := by
      have hLine : line.extract 0 limit = line :=
        ByteArray.ext (ByteArray.data_extract.trans (Array.extract_eq_self_of_le hFits))
      rw [ByteArray.extract_append, Nat.zero_sub, hLine]
    have hLess := hExceeds.fits
    have hMore := hExceeds.exceeds
    rw [hWritten, ByteArray.size_append] at hLess hMore
    refine ⟨n + 1, m', frame', next, log, Nat.succ_lt_succ hn, ⟨?_, hExceeds.print, ?_, ?_⟩, ?_⟩
    · rw [hFree, hExceeds.running]
    · omega
    · rw [hFree]
      omega
    · rw [hLimited, hRun, hWritten, hBytes, ByteArray.append_assoc]

/-- A first step that prints more than fits. -/
theorem Cut.of_exceeds {bytes : ByteArray} {x next : Nat} (log : String)
    (hDecode : frame.function.chunk.decode frame.ip = .instruction ⟨.print, x⟩ next)
    (hWritten : m₁.output.written = m.output.written ++ line) (hExceeds : limit < line.size)
    (hFree : ∀ fuel, run tracing (fuel + 1) (m.withRoom .unlimited) frame =
      run tracing fuel (m₁.withRoom .unlimited) frame₁)
    (hLimited : run tracing (fuel + 1) (m.withRoom (.limited limit reason)) frame =
      .failed { m with
          stack := #[], callers := [], log
          output := ⟨m.output.written ++ line.extract 0 limit, .limited 0 reason⟩ }
        ⟨.outputFailed reason, { frame with ip := next }.tracePoint :: m.callers.map Frame.tracePoint⟩)
    (h : Cut tracing m₁ frame₁ limit reason fuel bytes) :
    Cut tracing m frame limit reason (fuel + 1) (line ++ bytes) where
  output := by rw [hFree, h.output, hWritten, ByteArray.append_assoc]
  same := fun hSize => by
    rw [ByteArray.size_append] at hSize
    omega
  failed := fun _ => by
    have hBytes : (line ++ bytes).extract 0 limit = line.extract 0 limit := by
      rw [ByteArray.extract_append, Nat.sub_eq_zero_of_le (Nat.le_of_lt hExceeds)]
      simp
    refine ⟨0, _, frame, next, log, Nat.succ_pos fuel, ⟨rfl, ⟨x, hDecode⟩, Nat.le_add_right _ _, ?_⟩, ?_⟩
    · rw [hFree]
      change _ < m₁.output.written.size
      rw [hWritten, ByteArray.size_append]
      omega
    · rw [hBytes]
      exact hLimited

/-- Two runs of which one has a limit do the same until the other one exceeds it. -/
theorem cut (tracing : Bool) (m : Machine) (frame : Frame) (limit : Nat) (reason : String) (fuel : Nat) :
    ∃ bytes, Cut tracing m frame limit reason fuel bytes := by
  induction fuel generalizing m frame limit with
  | zero => exact ⟨_, .of_same (p := .running m frame) (fun _ => rfl) rfl⟩
  | succ fuel ih =>
    rcases run_succ_output tracing m frame with ⟨-, -, log, hRun⟩ | ⟨log, hRun⟩
    · exact ⟨_, .of_same (p := .crashed { m with log }) (fun room => hRun ⟨_, room⟩ fuel) rfl⟩
    · rcases step_output { m with log } frame with hStep | ⟨x, next, line, hDecode, hStep⟩
      · have hSame (room : Room) (fuel : Nat) : run tracing (fuel + 1) (m.withRoom room) frame =
            match ({ m with log }.step frame).withOutput { m.output with room } with
            | .next m frame => run tracing fuel m frame
            | .halt m => .finished m
            | .fail m frame fault => .failed (m.abort frame fault).1 (m.abort frame fault).2 := by
          rw [← hStep]
          exact hRun _ fuel
        cases hNext : { m with log }.step frame with
        | next m₁ frame₁ =>
          rw [hNext] at hSame
          obtain ⟨bytes, h⟩ := ih { m₁ with output := m.output } frame₁ limit
          have hNone : ({ m₁ with output := m.output } : Machine).output.written =
              m.output.written ++ .empty := ByteArray.append_empty.symm
          exact ⟨_, h.next hNone (Nat.zero_le limit) (hSame _) (hSame _ fuel)⟩
        | halt m₁ =>
          rw [hNext] at hSame
          exact ⟨_, .of_same (p := .finished { m₁ with output := m.output }) (fun room => hSame room fuel) rfl⟩
        | fail m₁ frame₁ fault =>
          rw [hNext] at hSame
          exact ⟨_, .of_same (p := .failed { (m₁.abort frame₁ fault).1 with output := m.output }
            (m₁.abort frame₁ fault).2) (fun room => hSame room fuel) rfl⟩
      · -- The same line goes to both outputs.
        obtain ⟨m₁, hm₁⟩ : ∃ m₁ : Machine, m₁ =
          { m.drop 1 with output := { m.output with written := m.output.written ++ line }, log } := ⟨_, rfl⟩
        have hFree (fuel : Nat) : run tracing (fuel + 1) (m.withRoom .unlimited) frame =
            run tracing fuel (m₁.withRoom .unlimited) { frame with ip := next } := by
          refine (hRun _ fuel).trans ?_
          rw [hStep, hm₁]
          rfl
        have hWritten : m₁.output.written = m.output.written ++ line := by rw [hm₁]
        by_cases hFits : line.size ≤ limit
        · obtain ⟨bytes, h⟩ := ih m₁ { frame with ip := next } (limit - line.size)
          refine ⟨_, h.next hWritten hFits hFree ?_⟩
          refine (hRun _ fuel).trans ?_
          rw [hStep, Output.write, hm₁]
          simp only [if_pos hFits]
          rfl
        · obtain ⟨bytes, h⟩ := ih m₁ { frame with ip := next } limit
          refine ⟨_, h.of_exceeds log hDecode hWritten (Nat.not_le.1 hFits) hFree ?_⟩
          refine (hRun _ fuel).trans ?_
          rw [hStep, Output.write]
          simp only [if_neg hFits]
          rfl

end Machine

/-! ## Two sessions -/

namespace Session

/-- The session with other room in its output. -/
def withRoom (s : Session) (room : Room) : Session := { s with machine := s.machine.withRoom room }

/-- Compiling has nothing to do with the output. -/
theorem load_withRoom (s : Session) (source : String) :
    (∃ (problems : List Diagnostic) (m : Machine), m.output = s.machine.output ∧
      ∀ room, (s.withRoom room).load source = (.error problems, { s with machine := m.withRoom room })) ∨
    ∃ (frame : Frame) (m : Machine), m.output = s.machine.output ∧
      ∀ room, (s.withRoom room).load source = (.ok frame, { s with machine := m.withRoom room }) := by
  unfold load withRoom
  cases hCompile : compile source s.machine.heap with
  | mk result heap =>
    have hSame (room : Room) : compile source (s.machine.withRoom room).heap = (result, heap) := hCompile
    simp only [hSame]
    cases result with
    | error problems => exact .inl ⟨problems, { s.machine with heap }, rfl, fun _ => rfl⟩
    | ok f =>
      let frame : Frame := { function := f, ip := 0, base := s.machine.stack.size }
      cases s.settings.dumpBytecode with
      | false =>
        exact .inr ⟨frame, { s.machine with heap }.push (.object (.function f)), rfl, fun _ => rfl⟩
      | true =>
        let m : Machine := { s.machine with heap, log := s.machine.log ++ f.tree }
        exact .inr ⟨frame, m.push (.object (.function f)), rfl, fun _ => rfl⟩

theorem after_withRoom (s : Session) (p : Progress) (room : Room) :
    s.after (p.withRoom room) = ((s.after p).1, (s.after p).2.withRoom room) := by
  cases p <;> rfl

theorem machine_after (s : Session) (p : Progress) : (s.after p).2.machine = p.machine := by
  cases p <;> rfl

/-- Compiling has nothing to do with flushing. -/
theorem load_flushError (s : Session) (source : String) (flushError : Option String) :
    { s with flushError }.load source = ((s.load source).1, { (s.load source).2 with flushError }) := by
  unfold load
  dsimp only
  cases compile source s.machine.heap with
  | mk result heap => cases result <;> rfl

/-- A flush that fails changes nothing but the warnings. -/
theorem interpret_flushError (s : Session) (source : String) (fuel : Nat) (flushError : Option String) :
    ∃ warnings, { s with flushError }.interpret source fuel =
      ((s.interpret source fuel).1, { (s.interpret source fuel).2 with flushError, warnings }) := by
  have hLoad' := s.load_flushError source flushError
  cases hLoad : s.load source with
  | mk result s' =>
    rw [hLoad] at hLoad'
    cases result with
    | error problems =>
      rw [interpret, interpret, hLoad, hLoad']
      exact ⟨s'.warnings, rfl⟩
    | ok frame =>
      rw [interpret_of_load hLoad, interpret_of_load hLoad']
      cases s'.machine.run s'.settings.traceExecution fuel frame <;> exact ⟨_, rfl⟩

/-- Of two sessions of which one has an output that takes everything, and the other one an output that takes
so many bytes, each source text makes the same until the bytes that it prints do not fit. Where they do not,
the other one fails at the first print instruction that exceeds the limit: it has written the bytes that
fit, has the heap and the globals that the first one has at that instruction, and no call is in progress.
Whether flushing fails is all the same. -/
theorem output_failure_cuts (s : Session) (source : String) (limit : Nat) (reason : String) :
    let free := s.withRoom .unlimited
    let tight := s.withRoom (.limited limit reason)
    ((∃ (problems : List Diagnostic) (m : Machine), m.output = s.machine.output ∧
        free.load source = (.error problems, { s with machine := m.withRoom .unlimited }) ∧
        tight.load source = (.error problems, { s with machine := m.withRoom (.limited limit reason) })) ∨
      ∃ (frame : Frame) (m : Machine), m.output = s.machine.output ∧
        free.load source = (.ok frame, { s with machine := m.withRoom .unlimited }) ∧
        tight.load source = (.ok frame, { s with machine := m.withRoom (.limited limit reason) }) ∧
        ∀ fuel, ∃ bytes, (free.interpret source fuel).2.machine.output.written =
            s.machine.output.written ++ bytes ∧
          (bytes.size ≤ limit →
            (m.withRoom (.limited limit reason)).run s.settings.traceExecution fuel frame =
              ((m.withRoom .unlimited).run s.settings.traceExecution fuel frame).withRoom
                (.limited (limit - bytes.size) reason) ∧
            tight.interpret source fuel = ((free.interpret source fuel).1,
              (free.interpret source fuel).2.withRoom (.limited (limit - bytes.size) reason))) ∧
          (limit < bytes.size → ∃ n m' frame' next error t, n < fuel ∧
            m.Exceeds s.settings.traceExecution frame limit n m' frame' next ∧
            tight.interpret source fuel = (.failed error, t) ∧
            error.fault.message = "Failed to write output: " ++ reason ++ "." ∧
            t.machine.output.written = s.machine.output.written ++ bytes.extract 0 limit ∧
            t.machine.heap = m'.heap ∧ t.machine.globals = m'.globals ∧
            t.machine.stack = #[] ∧ t.machine.callers = [])) ∧
    ∀ (t : Session) (fuel : Nat) (flushError : Option String), ∃ warnings,
      { t with flushError }.interpret source fuel =
        ((t.interpret source fuel).1, { (t.interpret source fuel).2 with flushError, warnings }) := by
  intro free tight
  refine ⟨?_, fun t fuel flushError => t.interpret_flushError source fuel flushError⟩
  rcases s.load_withRoom source with ⟨problems, m, hOutput, hLoad⟩ | ⟨frame, m, hOutput, hLoad⟩
  · exact .inl ⟨problems, m, hOutput, hLoad _, hLoad _⟩
  refine .inr ⟨frame, m, hOutput, hLoad _, hLoad _, fun fuel => ?_⟩
  obtain ⟨bytes, hCut⟩ := m.cut s.settings.traceExecution frame limit reason fuel
  have hFree := interpret_of_load (hLoad .unlimited) fuel
  have hTight := interpret_of_load (hLoad (.limited limit reason)) fuel
  refine ⟨bytes, ?_, fun hSize => ⟨hCut.same hSize, ?_⟩, fun hSize => ?_⟩
  · rw [hFree, machine_after, ← hOutput]
    exact congrArg Output.written hCut.output
  · rw [hFree, hTight, ← after_withRoom]
    exact congrArg _ (hCut.same hSize)
  · obtain ⟨n, m', frame', next, log, hn, hExceeds, hRun⟩ := hCut.failed hSize
    refine ⟨n, m', frame', next, _, _, hn, hExceeds, hTight.trans (congrArg _ hRun), rfl, ?_⟩
    rw [← hOutput]
    exact ⟨rfl, rfl, rfl, rfl, rfl⟩

-- The limit falls into the second line, at its newline.
example : let (outcome, s) := (create {} { room := .limited 4 "full" }).interpret "print 12; print 3;" 9
    outcome = .failed ⟨.outputFailed "full", [⟨1, none⟩]⟩ ∧ s.machine.output.written = "12\n3".toUTF8 := by
  decide +kernel

end Session

end Lox
