import Lox.Proofs.Machine.Sessions

/-!
# What is logged changes nothing

No instruction reads or writes the log, so a run does the same with tracing as without it, with one
exception: with tracing there must be an instruction to log. Where a run comes to an offset outside the
code of its function, it fails, and with tracing it crashes instead (`Machine.run_traced`,
`Machine.run_strays`). So two sessions of which one traces and dumps show the same from event to event
until this happens (`tracing_transparent`).
-/

set_option autoImplicit false

namespace Lox

/-! ## Steps and runs -/

/-- The same step of a machine with another log. -/
def Step.withLog (log : String) : Step → Step
  | next m frame => .next { m with log } frame
  | halt m => .halt { m with log }
  | fail m frame fault => .fail { m with log } frame fault

namespace Machine

theorem arithmetic_withLog (m : Machine) (frame : Frame) (f : Float → Float → Value) (log : String) :
    { m with log }.arithmetic frame f = (m.arithmetic frame f).withLog log := by
  have hPeek (n : Nat) : { m with log }.peek? n = m.peek? n := rfl
  unfold arithmetic
  rw [hPeek, hPeek]
  split <;> rfl

/-- No instruction reads or writes the log. -/
theorem execute_withLog (m : Machine) (frame : Frame) (i : Instruction) (log : String) :
    { m with log }.execute frame i = (m.execute frame i).withLog log := by
  have hPeek (n : Nat) : { m with log }.peek? n = m.peek? n := rfl
  obtain ⟨op, x⟩ := i
  cases op with
  | pushNil | pushTrue | pushFalse | jump => rfl
  | greater | less | subtract | multiply | divide => exact m.arithmetic_withLog frame _ log
  | constant =>
    simp only [execute, constant]
    split <;> rfl
  | getLocal =>
    simp only [execute, getLocal]
    split <;> rfl
  | loop =>
    simp only [execute, loop]
    split <;> rfl
  | pop | not | negate | jumpIfFalse | equal =>
    simp only [execute, pop, not, negate, jumpIfFalse, equal, hPeek]
    split <;> rfl
  | add =>
    simp only [execute, add, hPeek]
    split <;> rfl
  | setLocal =>
    simp only [execute, setLocal, hPeek]
    split
    · split <;> rfl
    · rfl
  | getGlobal =>
    simp only [execute, getGlobal]
    split
    · rfl
    · split <;> rfl
  | defineGlobal =>
    simp only [execute, defineGlobal, hPeek]
    split
    · rfl
    · split <;> rfl
  | setGlobal =>
    simp only [execute, setGlobal, hPeek]
    split
    · rfl
    · split
      · split <;> rfl
      · rfl
  | print =>
    simp only [execute, print, hPeek]
    split
    · dsimp only [Machine.drop]
      split <;> rfl
    · rfl
  | call =>
    simp only [execute, call, hPeek]
    split
    · rfl
    · split
      · rfl
      · split <;> rfl
    · split <;> rfl
    · rfl
  | ret =>
    simp only [execute, ret, hPeek]
    split
    · rfl
    · dsimp only [Machine.drop]
      split <;> rfl

theorem step_withLog (m : Machine) (frame : Frame) (log : String) :
    { m with log }.step frame = (m.step frame).withLog log := by
  unfold step
  split
  · rfl
  · rfl
  · rfl
  · exact m.execute_withLog _ _ log

end Machine

theorem Machine.defineNative_withLog (m : Machine) (name : String) (arity : Nat) (behaviour : Behaviour)
    (log : String) : { m with log }.defineNative name arity behaviour =
      { m.defineNative name arity behaviour with log } := by
  simp only [defineNative, addBehaviour]

/-- The same progress of a run with another log. -/
def Progress.withLog (log : String) : Progress → Progress
  | running m frame => .running { m with log } frame
  | finished m => .finished { m with log }
  | failed m error => .failed { m with log } error
  | crashed m => .crashed { m with log }

theorem Chunk.decode_eq_outside_iff {c : Chunk Value} {offset : Nat} :
    c.decode offset = .outside ↔ c.code.size ≤ offset := by
  unfold Chunk.decode
  split
  · rename_i hNone
    simpa using hNone
  · rename_i byte hByte
    have hLess := (Array.getElem?_eq_some_iff.1 hByte).1
    refine iff_of_false ?_ (by omega)
    repeat' split
    all_goals nofun

namespace Machine

/-- A run without tracing comes to an offset outside the code within so many instructions. -/
def Strays (fuel : Nat) (m : Machine) (frame : Frame) : Prop :=
  ∃ n m' frame', n < fuel ∧ run false n m frame = .running m' frame' ∧
    frame'.function.chunk.code.size ≤ frame'.ip

variable {m : Machine} {frame : Frame} {fuel : Nat}

theorem run_quiet (fuel : Nat) (m : Machine) (frame : Frame) :
    run false (fuel + 1) m frame = match m.step frame with
      | .next m frame => run false fuel m frame
      | .halt m => .finished m
      | .fail m frame fault => .failed (m.abort frame fault).1 (m.abort frame fault).2 := rfl

theorem step_of_outside (h : frame.function.chunk.code.size ≤ frame.ip) :
    m.step frame = .fail m frame .outsideCode := by
  unfold step
  rw [Chunk.decode_eq_outside_iff.2 h]

theorem strays_succ : Strays (fuel + 1) m frame ↔ frame.function.chunk.code.size ≤ frame.ip ∨
    ∃ m' frame', m.step frame = .next m' frame' ∧ Strays fuel m' frame' := by
  constructor
  · rintro ⟨n, m', frame', hLess, hRun, hOutside⟩
    cases n with
    | zero =>
      cases hRun
      exact .inl hOutside
    | succ n =>
      rw [run_quiet] at hRun
      cases hStep : m.step frame with
      | next m₁ frame₁ =>
        rw [hStep] at hRun
        exact .inr ⟨m₁, frame₁, rfl, n, m', frame', by omega, hRun, hOutside⟩
      | halt | fail =>
        rw [hStep] at hRun
        cases hRun
  · rintro (hOutside | ⟨m₁, frame₁, hStep, n, m', frame', hLess, hRun, hOutside⟩)
    · exact ⟨0, m, frame, by omega, rfl, hOutside⟩
    · refine ⟨n + 1, m', frame', by omega, ?_, hOutside⟩
      rw [run_quiet, hStep]
      exact hRun

/-- A step of a run is a step of the machine, unless it is traced outside the code. -/
theorem run_step_or (tracing : Bool) (m : Machine) (frame : Frame) (log : String) :
    (tracing = true ∧ frame.function.chunk.code.size ≤ frame.ip) ∨
    ∃ log', ∀ fuel, run tracing (fuel + 1) { m with log } frame =
      match (m.step frame).withLog log' with
      | .next m frame => run tracing fuel m frame
      | .halt m => .finished m
      | .fail m frame fault => .failed (m.abort frame fault).1 (m.abort frame fault).2 := by
  rcases run_succ tracing { m with log } frame with ⟨hTracing, hDecode, -⟩ | ⟨log', hRun⟩
  · exact .inl ⟨hTracing, Chunk.decode_eq_outside_iff.1 hDecode⟩
  · refine .inr ⟨log', fun fuel => ?_⟩
    rw [← step_withLog]
    exact hRun fuel

/-- A run does the same with tracing, but for the log, as long as it stays inside the code. -/
theorem run_traced {tracing : Bool} (h : tracing = true → ¬ Strays fuel m frame) (log : String) :
    ∃ log', run tracing fuel { m with log } frame = (run false fuel m frame).withLog log' := by
  induction fuel generalizing m frame log with
  | zero => exact ⟨log, rfl⟩
  | succ fuel ih =>
    rcases run_step_or tracing m frame log with ⟨hTracing, hOutside⟩ | ⟨log', hRun⟩
    · exact absurd (strays_succ.2 (.inl hOutside)) (h hTracing)
    · rw [hRun, run_quiet]
      cases hStep : m.step frame with
      | next m' frame' =>
        refine ih (fun hTracing hStrays => h hTracing ?_) log'
        exact strays_succ.2 (.inr ⟨m', frame', hStep, hStrays⟩)
      | halt | fail => exact ⟨log', rfl⟩

/-- A run that leaves the code crashes with tracing, and fails without. -/
theorem run_strays (h : Strays fuel m frame) (log : String) :
    (∃ m', run true fuel { m with log } frame = .crashed m') ∧
      ∃ m' error, run false fuel m frame = .failed m' error ∧ error.fault = .outsideCode := by
  induction fuel generalizing m frame log with
  | zero =>
    obtain ⟨n, -, -, hLess, -⟩ := h
    omega
  | succ fuel ih =>
    rcases strays_succ.1 h with hOutside | ⟨m', frame', hStep, hStrays⟩
    · constructor
      · have hLine : frame.function.chunk.listingLine? frame.ip = none := by
          rw [Chunk.listingLine?, Chunk.decode_eq_outside_iff.2 hOutside]
        have hTrace : ({ m with log }.trace frame).1 = false := by rw [trace, hLine]
        rw [run, if_pos rfl]
        dsimp only
        rw [hTrace]
        exact ⟨_, rfl⟩
      · rw [run_quiet, step_of_outside hOutside]
        exact ⟨_, _, rfl, rfl⟩
    · rcases run_step_or true m frame log with ⟨-, hOutside⟩ | ⟨log', hRun⟩
      · rw [step_of_outside hOutside] at hStep
        cases hStep
      · rw [hRun, run_quiet, hStep]
        exact ih hStrays log'

end Machine

/-! ## Sessions -/

namespace Session

/-- What a session shows: all of its machine but the log, and the durations of the last run. -/
def face (s : Session) : Machine × Option Timings := ({ s.machine with log := "" }, s.timings)

/-- A source text whose run without tracing leaves the code. -/
def Strays (s : Session) (source : String) (fuel : Nat) : Prop :=
  ∃ frame s', s.load source = (.ok frame, s') ∧ s'.machine.Strays fuel frame

variable {s t : Session}

theorem machine_of_face (h : t.face = s.face) : ∃ log, t.machine = { s.machine with log } := by
  have hMachine : { t.machine with log := "" } = { s.machine with log := "" } := congrArg Prod.fst h
  exact ⟨t.machine.log, congrArg (fun m : Machine => { m with log := t.machine.log }) hMachine⟩

/-- Sessions that show the same load a source text in the same way, whatever their settings. -/
theorem load_face (h : t.face = s.face) (source : String) :
    (∃ problems s' t', s.load source = (.error problems, s') ∧ t.load source = (.error problems, t') ∧
      t'.face = s'.face) ∨
    ∃ frame m log timings, s.load source = (.ok frame, { s with machine := m, timings }) ∧
      t.load source = (.ok frame, { t with machine := { m with log }, timings }) := by
  obtain ⟨log, hMachine⟩ := machine_of_face h
  have hTimings : t.timings = s.timings := congrArg Prod.snd h
  unfold load
  dsimp only
  rw [hMachine, hTimings]
  cases compile source s.machine.heap with
  | mk result heap =>
    cases result with
    | error problems => exact .inl ⟨problems, _, _, rfl, rfl, rfl⟩
    | ok f =>
      refine .inr ?_
      dsimp only
      split
      · split <;> exact ⟨_, _, _, _, rfl, rfl⟩
      · split <;> exact ⟨_, _, _, _, rfl, rfl⟩

/-- A source text that stays inside the code does the same with tracing and dumping as without. -/
theorem interpret_face (h : t.face = s.face) (hs : s.settings.traceExecution = false) {source : String}
    {fuel : Nat} (hStays : t.settings.traceExecution = true → ¬ s.Strays source fuel) :
    (t.interpret source fuel).1 = (s.interpret source fuel).1 ∧
      (t.interpret source fuel).2.face = (s.interpret source fuel).2.face := by
  unfold interpret
  rcases load_face h source with ⟨problems, s', t', hLoad, hLoad', hFace⟩ |
    ⟨frame, m, log, timings, hLoad, hLoad'⟩
  · rw [hLoad, hLoad']
    exact ⟨rfl, hFace⟩
  · obtain ⟨log', hRun⟩ := Machine.run_traced
      (fun hTracing hStrays => hStays hTracing ⟨frame, _, hLoad, hStrays⟩) log
    rw [hLoad, hLoad']
    dsimp only
    rw [hs, hRun]
    cases m.run false fuel frame with
    | running | finished | failed | crashed => exact ⟨rfl, rfl⟩

/-- A source text that leaves the code crashes with tracing, and fails without. -/
theorem interpret_strays (h : t.face = s.face) (hs : s.settings.traceExecution = false)
    (ht : t.settings.traceExecution = true) {source : String} {fuel : Nat}
    (hStrays : s.Strays source fuel) :
    (t.interpret source fuel).1 = .crashed ∧
      ∃ error, (s.interpret source fuel).1 = .failed error ∧ error.fault = .outsideCode := by
  unfold interpret
  rcases load_face h source with ⟨problems, s₁, t₁, hLoad, -⟩ | ⟨frame, m, log, timings, hLoad, hLoad'⟩
  · obtain ⟨frame, s', hEq, -⟩ := hStrays
    cases hLoad.symm.trans hEq
  · obtain ⟨frame', s', hEq, hStrays⟩ := hStrays
    cases hLoad.symm.trans hEq
    obtain ⟨⟨m', hCrashed⟩, m'', error, hFailed, hFault⟩ := Machine.run_strays hStrays log
    rw [hLoad, hLoad']
    dsimp only
    rw [hs, ht, hCrashed, hFailed]
    exact ⟨rfl, error, rfl, hFault⟩

/-! ## From event to event -/

/-- What a host does with a session. -/
inductive Event where
  | define (name : String) (arity : Nat) (behaviour : Behaviour)
  /-- Other native functions, another output or another time. -/
  | surround (natives : Array Behaviour) (output : Output) (now : Float)
  /-- An identity is taken, for an object that is not on the heap. -/
  | reserve
  | interpret (source : String) (fuel : Nat)

/-- What comes of an event, and the session after it. -/
def apply (s : Session) : Event → Option Outcome × Session
  | .define name arity behaviour =>
    (none, { s with machine := s.machine.defineNative name arity behaviour })
  | .surround natives output now => (none, { s with machine := { s.machine with natives, output, now } })
  | .reserve => (none, { s with machine := { s.machine with heap := s.machine.heap.reserve.2 } })
  | .interpret source fuel => (some (s.interpret source fuel).1, (s.interpret source fuel).2)

/-- The session after some events. -/
def afterAll (s : Session) (events : List Event) : Session := events.foldl (fun s e => (s.apply e).2) s

/-- What comes of each event, and what the session shows after it. -/
def story (s : Session) : List Event → List (Option Outcome × Machine × Option Timings)
  | [] => []
  | e :: events => ((s.apply e).1, (s.apply e).2.face) :: (s.apply e).2.story events

/-- A source text among some events leaves the code. -/
def StraysIn (s : Session) (events : List Event) : Prop :=
  ∃ (before : List Event) (source : String) (fuel : Nat) (behind : List Event),
    events = before ++ .interpret source fuel :: behind ∧
    (s.afterAll before).Strays source fuel

theorem afterAll_nil (s : Session) : s.afterAll [] = s := rfl

theorem settings_apply (s : Session) (e : Event) : (s.apply e).2.settings = s.settings := by
  cases e with
  | interpret source fuel =>
    simp only [apply]
    exact s.settings_interpret source fuel
  | define | surround | reserve => rfl

theorem apply_face (h : t.face = s.face) (hs : s.settings.traceExecution = false) (e : Event)
    (hStays : ∀ source fuel, e = .interpret source fuel → t.settings.traceExecution = true →
      ¬ s.Strays source fuel) :
    (t.apply e).1 = (s.apply e).1 ∧ (t.apply e).2.face = (s.apply e).2.face := by
  obtain ⟨log, hMachine⟩ := machine_of_face h
  have hTimings : t.timings = s.timings := congrArg Prod.snd h
  cases e with
  | interpret source fuel =>
    obtain ⟨hOutcome, hFace⟩ := interpret_face h hs (hStays source fuel rfl)
    simp only [apply, hOutcome, hFace, and_self]
  | define name arity behaviour =>
    simp only [apply, face, hMachine, hTimings, Machine.defineNative_withLog, and_self]
  | surround | reserve => simp only [apply, face, hMachine, hTimings, and_self]

/-- Sessions that show the same show it from event to event, until one that traces leaves the code. -/
theorem story_face (h : t.face = s.face) (hs : s.settings.traceExecution = false) (events : List Event) :
    (t.story events = s.story events ∧ (t.settings.traceExecution = true → ¬ s.StraysIn events)) ∨
    t.settings.traceExecution = true ∧ ∃ (before : List Event) (source : String) (fuel : Nat)
      (behind : List Event) (error : RuntimeError),
      events = before ++ .interpret source fuel :: behind ∧ t.story before = s.story before ∧
      (s.afterAll before).Strays source fuel ∧ ((t.afterAll before).interpret source fuel).1 = .crashed ∧
      ((s.afterAll before).interpret source fuel).1 = .failed error ∧ error.fault = .outsideCode := by
  induction events generalizing s t with
  | nil =>
    refine .inl ⟨rfl, ?_⟩
    rintro - ⟨before, source, fuel, behind, hEq, -⟩
    cases before <;> cases hEq
  | cons e events ih =>
    by_cases hStrays : t.settings.traceExecution = true ∧
        ∃ source fuel, e = .interpret source fuel ∧ s.Strays source fuel
    · obtain ⟨ht, source, fuel, rfl, hStrays⟩ := hStrays
      obtain ⟨hCrashed, error, hFailed, hFault⟩ := interpret_strays h hs ht hStrays
      refine .inr ⟨ht, [], source, fuel, events, error, rfl, rfl, ?_⟩
      rw [afterAll_nil, afterAll_nil]
      exact ⟨hStrays, hCrashed, hFailed, hFault⟩
    · have hStays : ∀ source fuel, e = .interpret source fuel → t.settings.traceExecution = true →
          ¬ s.Strays source fuel :=
        fun source fuel hEq ht hNow => hStrays ⟨ht, source, fuel, hEq, hNow⟩
      obtain ⟨hOutcome, hFace⟩ := apply_face h hs e hStays
      have hSettings := t.settings_apply e
      rcases ih hFace ((s.settings_apply e).symm ▸ hs) with ⟨hStory, hNever⟩ |
        ⟨ht, before, source, fuel, behind, error, rfl, hStory, hRest⟩
      · refine .inl ⟨by simp only [story, hOutcome, hFace, hStory], ?_⟩
        rintro ht ⟨before, source, fuel, behind, hEq, hNow⟩
        cases before with
        | nil =>
          cases hEq
          rw [afterAll_nil] at hNow
          exact hStays source fuel rfl ht hNow
        | cons e' before =>
          cases hEq
          exact hNever (hSettings ▸ ht) ⟨before, source, fuel, behind, rfl, hNow⟩
      · refine .inr ⟨hSettings ▸ ht, e :: before, source, fuel, behind, error, rfl, ?_, hRest⟩
        simp only [story, hOutcome, hFace, hStory]

end Session

/-- Of two sessions that differ in tracing and dumping only, the loud one shows the same as the quiet one
from event to event, unless a source text leaves the code of a function: there the quiet one fails and the
one that traces crashes. -/
theorem tracing_transparent (settings : Settings) (output : Output) (trace dump : Bool)
    (events : List Session.Event) :
    let quiet := Session.create { settings with traceExecution := false, dumpBytecode := false } output
    let loud := Session.create { settings with traceExecution := trace, dumpBytecode := dump } output
    (loud.story events = quiet.story events ∧ (trace = true → ¬ quiet.StraysIn events)) ∨
    trace = true ∧ ∃ (before : List Session.Event) (source : String) (fuel : Nat)
      (behind : List Session.Event) (error : RuntimeError),
      events = before ++ .interpret source fuel :: behind ∧ loud.story before = quiet.story before ∧
      (quiet.afterAll before).Strays source fuel ∧
      ((loud.afterAll before).interpret source fuel).1 = .crashed ∧
      ((quiet.afterAll before).interpret source fuel).1 = .failed error ∧ error.fault = .outsideCode := by
  intro quiet loud
  have hFace : loud.face = quiet.face := rfl
  exact Session.story_face hFace rfl events

/-- A function whose code is at an end without a return: called by a script, it fails without tracing, and
with tracing the session crashes. -/
theorem tracing_crashes :
    let raw : Fn := { id := 100, arity := 0, chunk := { code := #[1, 4], lines := #[1, 1] }, name := none }
    let events : List Session.Event := [.define "raw" 0 fun _ _ => .object (.function raw)]
    let source := "print 1; raw()(); print 2;"
    (((Session.create { traceExecution := true } {}).afterAll events).interpret source 100).1 = .crashed ∧
    (((Session.create {} {}).afterAll events).interpret source 100).1 =
      .failed ⟨.outsideCode, [⟨1, none⟩, ⟨1, none⟩]⟩ := by
  decide +kernel

end Lox
