import Lox.Session

/-!
# Sessions in the course of time

A session is followed instruction by instruction. At a `Moment` it is idle or runs in a frame; it is
known which scripts were compiled so far, and which values were stored in globals. `Moment.Next` says
what can happen: native functions are defined and source texts are interpreted, in between the host may
change at any time what its native functions compute, what the clock reads, and where output and log go.
What holds of every moment that can be reached holds in particular before and after each
`Session.interpret` (`Moment.Reached.interpret`).
-/

set_option autoImplicit false

namespace Lox

/-- What a host may change at any time. -/
structure Surroundings where
  natives : Array Behaviour
  output : Output
  now : Float
  log : String

/-- The machine that a step leaves. -/
def Step.machine : Step → Machine
  | next m _ | halt m | fail m _ _ => m

/-- The machine that a run has come to. -/
def Progress.machine : Progress → Machine
  | running m _ | finished m | failed m _ | crashed m => m

/-- The machine in other surroundings. -/
def Machine.within (m : Machine) (e : Surroundings) : Machine :=
  { m with natives := e.natives, output := e.output, now := e.now, log := e.log }

/-- The global that the next instruction stores a value in, if it is one that does, and the value. -/
def Machine.store? (m : Machine) (frame : Frame) : Option (String × Value) :=
  match frame.function.chunk.decode frame.ip with
  | .instruction i _ =>
    if i.op = .defineGlobal ∨ i.op = .setGlobal then
      match nameAt frame i.operand, m.peek? 0 with
      | .ok name, some value => some (name.text, value)
      | _, _ => none
    else none
  | _ => none

/-- A session at a moment. -/
structure Moment where
  session : Session
  /-- The frame it runs in, none when it is idle. -/
  running : Option Frame
  /-- The scripts compiled so far, newest first. -/
  scripts : List Fn
  /-- The values stored in globals so far, newest first. -/
  stores : List (String × Value)

namespace Moment

/-- The native function that is defined next under a name. -/
def native (m : Machine) (name : String) (arity : Nat) : Value :=
  .object (.native (m.heap.allocNative name arity m.natives.size).1)

/-- A new session. -/
def start (settings : Settings) (output : Output) : Moment where
  session := .create settings output
  running := none
  scripts := []
  stores := if settings.natives then [("clock", native {} "clock" 0)] else []

/-- What can happen next in a session whose instructions are executed under a condition only. -/
inductive Next (ok : List Fn → Machine → Frame → Prop) : Moment → Moment → Prop
  | host {s : Session} {running : Option Frame} {scripts : List Fn} {stores : List (String × Value)}
      (e : Surroundings) :
      Next ok ⟨s, running, scripts, stores⟩
        ⟨{ s with machine := s.machine.within e }, running, scripts, stores⟩
  | reserve {s : Session} {running : Option Frame} {scripts : List Fn}
      {stores : List (String × Value)} :
      Next ok ⟨s, running, scripts, stores⟩
        ⟨{ s with machine := { s.machine with heap := s.machine.heap.reserve.2 } }, running, scripts,
          stores⟩
  | define {s : Session} {scripts : List Fn} {stores : List (String × Value)} (name : String)
      (arity : Nat) (behaviour : Behaviour) :
      Next ok ⟨s, none, scripts, stores⟩
        ⟨{ s with machine := s.machine.defineNative name arity behaviour }, none, scripts,
          (name, native s.machine name arity) :: stores⟩
  | reject {s s' : Session} {scripts : List Fn} {stores : List (String × Value)} {source : String}
      {problems : List Diagnostic} : s.load source = (.error problems, s') →
      Next ok ⟨s, none, scripts, stores⟩ ⟨s', none, scripts, stores⟩
  | load {s s' : Session} {scripts : List Fn} {stores : List (String × Value)} {source : String}
      {frame : Frame} : s.load source = (.ok frame, s') →
      Next ok ⟨s, none, scripts, stores⟩ ⟨s', some frame, frame.function :: scripts, stores⟩
  | step {s : Session} {frame frame' : Frame} {scripts : List Fn} {stores : List (String × Value)}
      {m : Machine} : ok scripts s.machine frame → s.machine.step frame = .next m frame' →
      Next ok ⟨s, some frame, scripts, stores⟩
        ⟨{ s with machine := m }, some frame', scripts, (s.machine.store? frame).toList ++ stores⟩
  | halt {s : Session} {frame : Frame} {scripts : List Fn} {stores : List (String × Value)}
      {m : Machine} (t : Timings) : ok scripts s.machine frame → s.machine.step frame = .halt m →
      Next ok ⟨s, some frame, scripts, stores⟩ ⟨s.close m t, none, scripts, stores⟩
  | fail {s : Session} {frame frame' : Frame} {scripts : List Fn} {stores : List (String × Value)}
      {m : Machine} {fault : Fault} (t : Timings) : ok scripts s.machine frame →
      s.machine.step frame = .fail m frame' fault →
      Next ok ⟨s, some frame, scripts, stores⟩
        ⟨s.close (m.abort frame' fault).1 t, none, scripts, stores⟩

/-- The moments of all sessions whose instructions are executed under a condition only. -/
inductive Reached (ok : List Fn → Machine → Frame → Prop) : Moment → Prop
  | start (settings : Settings) (output : Output) : Reached ok (.start settings output)
  | next {a b : Moment} : Reached ok a → Next ok a b → Reached ok b

end Moment

theorem exists_of_isOk {ε α : Type} {x : Except ε α} (h : x.isOk = true) : ∃ a, x = .ok a := by
  cases x with
  | ok a => exact ⟨a, rfl⟩
  | error e => cases h

namespace Session

/-- What `load` does: it compiles, and pushes a script that was compiled. -/
theorem load_cases (s : Session) (source : String) :
    (∃ problems heap, compile source s.machine.heap = (.error problems, heap) ∧
      s.load source = (.error problems, { s with machine := { s.machine with heap } })) ∨
    ∃ f heap log, compile source s.machine.heap = (.ok f, heap) ∧
      s.load source = (.ok ⟨f, 0, s.machine.stack.size⟩,
        { s with machine := ({ s.machine with heap, log }).push (.object (.function f)) }) := by
  obtain ⟨settings, machine, timings⟩ := s
  unfold load
  dsimp only
  generalize compile source machine.heap = compiled
  obtain ⟨result, heap⟩ := compiled
  cases result with
  | error problems => exact .inl ⟨problems, heap, rfl, rfl⟩
  | ok f =>
    dsimp only
    split
    · exact .inr ⟨f, heap, _, rfl, rfl⟩
    · exact .inr ⟨f, heap, _, rfl, rfl⟩

theorem load_eq_error {s s' : Session} {source : String} {problems : List Diagnostic}
    (h : s.load source = (.error problems, s')) :
    ∃ heap, compile source s.machine.heap = (.error problems, heap) ∧
      s' = { s with machine := { s.machine with heap } } := by
  rcases s.load_cases source with ⟨_, heap, hCompile, hEq⟩ | ⟨_, _, _, -, hEq⟩
  · cases h.symm.trans hEq
    exact ⟨heap, hCompile, rfl⟩
  · cases h.symm.trans hEq

theorem load_eq_ok {s s' : Session} {source : String} {frame : Frame}
    (h : s.load source = (.ok frame, s')) :
    ∃ f heap log, compile source s.machine.heap = (.ok f, heap) ∧ frame = ⟨f, 0, s.machine.stack.size⟩ ∧
      s' = { s with machine := ({ s.machine with heap, log }).push (.object (.function f)) } := by
  rcases s.load_cases source with ⟨_, _, -, hEq⟩ | ⟨f, heap, log, hCompile, hEq⟩
  · cases h.symm.trans hEq
  · cases h.symm.trans hEq
    exact ⟨f, heap, log, hCompile, rfl, rfl⟩

/-- What comes of a source text whose script has run so far. -/
def after (s : Session) : Progress → Outcome × Session
  | .finished machine => (.ok, s.close machine ⟨0, 0⟩)
  | .failed machine error => (.failed error, s.close machine ⟨0, 0⟩)
  | .crashed machine => (.crashed, { s with machine })
  | .running machine _ => (.unfinished, { s with machine })

theorem interpret_of_load {s s' : Session} {source : String} {frame : Frame}
    (h : s.load source = (.ok frame, s')) (fuel : Nat) :
    s.interpret source fuel = s'.after (s'.machine.run s'.settings.traceExecution fuel frame) := by
  unfold interpret
  rw [h]
  dsimp only
  split <;> rename_i hRun <;> rw [hRun] <;> rfl

theorem settings_interpret (s : Session) (source : String) (fuel : Nat) :
    (s.interpret source fuel).2.settings = s.settings := by
  unfold interpret
  rcases s.load_cases source with ⟨problems, heap, -, hLoad⟩ | ⟨f, heap, log, -, hLoad⟩
  · rw [hLoad]
  · rw [hLoad]
    dsimp only
    split <;> rfl

end Session

namespace Machine

/-- Before a step the log may grow, and with tracing there must be an instruction. Where the output goes
is all the same. -/
theorem run_succ_output (tracing : Bool) (m : Machine) (frame : Frame) :
    (tracing = true ∧ frame.function.chunk.decode frame.ip = .outside ∧
      ∃ log, ∀ output fuel, run tracing (fuel + 1) { m with output } frame =
        .crashed { m with output, log }) ∨
    ∃ log, ∀ output fuel, run tracing (fuel + 1) { m with output } frame =
      match { m with output, log }.step frame with
      | .next m frame => run tracing fuel m frame
      | .halt m => .finished m
      | .fail m frame fault => .failed (m.abort frame fault).1 (m.abort frame fault).2 := by
  cases tracing with
  | false => exact .inr ⟨m.log, fun _ _ => rfl⟩
  | true =>
    cases hLine : frame.function.chunk.listingLine? frame.ip with
    | some line =>
      have hTrace : ∃ log, ∀ output, { m with output }.trace frame = (true, { m with output, log }) := by
        simp only [trace, hLine]
        exact ⟨_, fun _ => rfl⟩
      obtain ⟨log, hTrace⟩ := hTrace
      refine .inr ⟨log, fun output fuel => ?_⟩
      rw [run, if_pos rfl, hTrace]
      rfl
    | none =>
      have hTrace : ∃ log, ∀ output, { m with output }.trace frame = (false, { m with output, log }) := by
        simp only [trace, hLine]
        exact ⟨_, fun _ => rfl⟩
      obtain ⟨log, hTrace⟩ := hTrace
      refine .inl ⟨rfl, ?_, log, fun output fuel => ?_⟩
      · unfold Chunk.listingLine? at hLine
        split at hLine <;> first | assumption | cases hLine
      · rw [run, if_pos rfl, hTrace]
        rfl

theorem run_succ (tracing : Bool) (m : Machine) (frame : Frame) :
    (tracing = true ∧ frame.function.chunk.decode frame.ip = .outside ∧
      ∃ log, ∀ fuel, run tracing (fuel + 1) m frame = .crashed { m with log }) ∨
    ∃ log, ∀ fuel, run tracing (fuel + 1) m frame =
      match { m with log }.step frame with
      | .next m frame => run tracing fuel m frame
      | .halt m => .finished m
      | .fail m frame fault => .failed (m.abort frame fault).1 (m.abort frame fault).2 := by
  rcases run_succ_output tracing m frame with ⟨hTracing, hDecode, log, hRun⟩ | ⟨log, hRun⟩
  · exact .inl ⟨hTracing, hDecode, log, hRun m.output⟩
  · exact .inr ⟨log, hRun m.output⟩

theorem natives_defineNative (m : Machine) (name : String) (arity : Nat) (behaviour : Behaviour) :
    (m.defineNative name arity behaviour).natives = m.natives.push behaviour := rfl

/-- No instruction changes what native functions compute. -/
theorem natives_step (m : Machine) (frame : Frame) : (m.step frame).machine.natives = m.natives := by
  unfold step
  split
  · rfl
  · rfl
  · rfl
  · simp only [execute, constant, pop, getLocal, setLocal, getGlobal, defineGlobal, setGlobal, equal,
      arithmetic, add, not, negate, print, jumpIfFalse, loop, call, ret]
    repeat' split
    all_goals rfl

theorem natives_run (tracing : Bool) (n : Nat) (m : Machine) (frame : Frame) :
    (run tracing n m frame).machine.natives = m.natives := by
  induction n generalizing m frame with
  | zero => rfl
  | succ n ih =>
    rcases run_succ tracing m frame with ⟨-, -, log, hRun⟩ | ⟨log, hRun⟩
    · rw [hRun]
      rfl
    · have hSame := natives_step { m with log } frame
      rw [hRun]
      cases hStep : { m with log }.step frame with
      | next m₁ frame₁ =>
        rw [hStep] at hSame
        exact (ih m₁ frame₁).trans hSame
      | halt | fail =>
        rw [hStep] at hSame
        exact hSame

end Machine

namespace Session

theorem natives_load {s s₁ : Session} {source : String} {frame : Frame}
    (h : s.load source = (.ok frame, s₁)) : s₁.machine.natives = s.machine.natives := by
  obtain ⟨f, heap, log, -, -, rfl⟩ := load_eq_ok h
  rfl

theorem natives_interpret (s : Session) (source : String) (fuel : Nat) :
    (s.interpret source fuel).2.machine.natives = s.machine.natives := by
  cases hLoad : s.load source with
  | mk result s₁ =>
    cases result with
    | error problems =>
      obtain ⟨heap, -, rfl⟩ := load_eq_error hLoad
      rw [interpret, hLoad]
    | ok frame =>
      have hRun := Machine.natives_run s₁.settings.traceExecution fuel s₁.machine frame
      rw [interpret_of_load hLoad, ← natives_load hLoad, ← hRun]
      cases s₁.machine.run s₁.settings.traceExecution fuel frame <;> rfl

end Session

namespace Moment

variable {ok : List Fn → Machine → Frame → Prop} {s : Session} {scripts : List Fn}
  {stores : List (String × Value)}

/-- Sessions under a condition, at whose moments another condition is met. -/
theorem Reached.imp {ok ok' : List Fn → Machine → Frame → Prop}
    (hok : ∀ {s frame scripts stores}, Reached ok ⟨s, some frame, scripts, stores⟩ →
      ok scripts s.machine frame → ok' scripts s.machine frame) {a : Moment} (h : Reached ok a) :
    Reached ok' a := by
  induction h with
  | start settings output => exact .start settings output
  | next ha hn ih =>
    refine ih.next ?_
    cases hn with
    | host e => exact .host e
    | reserve => exact .reserve
    | define name arity behaviour => exact .define name arity behaviour
    | reject hLoad => exact .reject hLoad
    | load hLoad => exact .load hLoad
    | step hc hStep => exact .step (hok ha hc) hStep
    | halt t hc hStep => exact .halt t (hok ha hc) hStep
    | fail t hc hStep => exact .fail t (hok ha hc) hStep

/-- The first script of a session. -/
theorem Reached.first {settings : Settings} {output : Output} {source : String} {frame : Frame}
    (hLoad : (Session.create settings output).load source = (.ok frame, s)) :
    Reached ok ⟨s, some frame, [frame.function], (Moment.start settings output).stores⟩ :=
  .next (.start settings output) (.load hLoad)

/-- What was reached when a run has come so far. -/
def ReachedBy (ok : List Fn → Machine → Frame → Prop) (s : Session) (scripts : List Fn)
    (tracing : Bool) : Progress → Prop
  | .running m frame => ∃ stores, Reached ok ⟨{ s with machine := m }, some frame, scripts, stores⟩
  | .finished m => ∃ stores, ∀ t, Reached ok ⟨s.close m t, none, scripts, stores⟩
  | .failed m error =>
    (∃ stores, ∀ t, Reached ok ⟨s.close m t, none, scripts, stores⟩) ∧
      ∃ m₀ frame stores m₁ frame',
        Reached ok ⟨{ s with machine := m₀ }, some frame, scripts, stores⟩ ∧
        m₀.step frame = .fail m₁ frame' error.fault ∧ m₁.abort frame' error.fault = (m, error)
  | .crashed m => tracing = true ∧ ∃ frame stores,
      frame.function.chunk.decode frame.ip = .outside ∧
        Reached ok ⟨{ s with machine := m }, some frame, scripts, stores⟩

/-- A run that meets the condition at each of its instructions. -/
theorem Reached.run {tracing : Bool} {fuel : Nat} {frame : Frame}
    (hr : Reached ok ⟨s, some frame, scripts, stores⟩)
    (hok : ∀ n m frame', n < fuel → s.machine.run tracing n frame = .running m frame' →
      ∀ log, ok scripts { m with log } frame') :
    ReachedBy ok s scripts tracing (s.machine.run tracing fuel frame) := by
  induction fuel generalizing s frame stores with
  | zero => exact ⟨stores, hr⟩
  | succ fuel ih =>
    have hLog (log : String) : Reached ok
        ⟨{ s with machine := { s.machine with log } }, some frame, scripts, stores⟩ :=
      hr.next (.host ⟨s.machine.natives, s.machine.output, s.machine.now, log⟩)
    rcases Machine.run_succ tracing s.machine frame with ⟨hTracing, hDecode, log, hRun⟩ | ⟨log, hRun⟩
    · rw [hRun]
      exact ⟨hTracing, frame, stores, hDecode, hLog log⟩
    · have hOk := hok 0 s.machine frame (Nat.succ_pos fuel) rfl log
      rw [hRun]
      cases hStep : { s.machine with log }.step frame with
      | next m frame' =>
        refine ih (s := { s with machine := m }) ((hLog log).next (.step hOk hStep)) ?_
        intro n m' frame'' hn hRun'
        refine hok (n + 1) m' frame'' (Nat.succ_lt_succ hn) ?_
        rw [hRun, hStep]
        exact hRun'
      | halt m => exact ⟨stores, fun t => (hLog log).next (.halt t hOk hStep)⟩
      | fail m frame' fault =>
        exact ⟨⟨stores, fun t => (hLog log).next (.fail t hOk hStep)⟩,
          _, frame, stores, m, frame', hLog log, hStep, rfl⟩

/-- What was reached when a source text was interpreted so far. -/
structure Interpreted (ok : List Fn → Machine → Frame → Prop) (s : Session) (outcome : Outcome) :
    Prop where
  idle : outcome ≠ .crashed → outcome ≠ .unfinished →
    ∃ scripts stores, Reached ok ⟨s, none, scripts, stores⟩
  failed : ∀ error, outcome = .failed error → ∃ b frame m frame', Reached ok b ∧
    b.running = some frame ∧ b.session.machine.step frame = .fail m frame' error.fault ∧
    m.abort frame' error.fault = (s.machine, error)
  crashed : outcome = .crashed → s.settings.traceExecution = true ∧ ∃ frame scripts stores,
    frame.function.chunk.decode frame.ip = .outside ∧ Reached ok ⟨s, some frame, scripts, stores⟩

/-- Interpreting a source text is a part of a session, if the condition is met at each instruction. -/
theorem Reached.interpret (source : String) (fuel : Nat)
    (hr : Reached ok ⟨s, none, scripts, stores⟩)
    (hok : ∀ s' frame, s.load source = (.ok frame, s') → ∀ n m frame', n < fuel →
      s'.machine.run s'.settings.traceExecution n frame = .running m frame' →
      ∀ log, ok (frame.function :: scripts) { m with log } frame') :
    Interpreted ok (s.interpret source fuel).2 (s.interpret source fuel).1 := by
  unfold Session.interpret
  cases hLoad : s.load source with
  | mk result s' =>
    cases result with
    | error problems =>
      exact ⟨fun _ _ => ⟨scripts, stores, hr.next (.reject hLoad)⟩, nofun, nofun⟩
    | ok frame =>
      have hRun := (hr.next (.load hLoad)).run (hok s' frame hLoad)
      dsimp only
      generalize s'.machine.run s'.settings.traceExecution fuel frame = progress at hRun ⊢
      cases progress with
      | running m frame' => exact ⟨fun _ h => absurd rfl h, nofun, nofun⟩
      | finished m =>
        obtain ⟨stores, hRun⟩ := hRun
        exact ⟨fun _ _ => ⟨_, stores, hRun ⟨0, 0⟩⟩, nofun, nofun⟩
      | failed m error =>
        obtain ⟨⟨stores, hRun⟩, m₀, frame₀, stores₀, m₁, frame', hReached, hStep, hAbort⟩ := hRun
        refine ⟨fun _ _ => ⟨_, stores, hRun ⟨0, 0⟩⟩, fun error' hError => ?_, nofun⟩
        cases hError
        exact ⟨_, frame₀, m₁, frame', hReached, rfl, hStep, hAbort⟩
      | crashed m =>
        obtain ⟨hTracing, frame', stores, hDecode, hReached⟩ := hRun
        exact ⟨fun h => absurd rfl h, nofun, fun _ => ⟨hTracing, frame', _, stores, hDecode, hReached⟩⟩

/-- A source text that was interpreted without a fault leaves its script among those of the session. -/
theorem Reached.interpret_ok {s₁ s' : Session} {source : String} {fuel : Nat} {frame : Frame}
    (hr : Reached ok ⟨s, none, scripts, stores⟩) (hLoad : s.load source = (.ok frame, s₁))
    (hok : ∀ n m frame', n < fuel → s₁.machine.run s₁.settings.traceExecution n frame = .running m frame' →
      ∀ log, ok (frame.function :: scripts) { m with log } frame')
    (h : s.interpret source fuel = (.ok, s')) :
    ∃ stores, Reached ok ⟨s', none, frame.function :: scripts, stores⟩ := by
  have hRun := (hr.next (.load hLoad)).run hok
  rw [Session.interpret_of_load hLoad] at h
  generalize s₁.machine.run s₁.settings.traceExecution fuel frame = progress at hRun h
  cases progress with
  | finished m =>
    cases h
    obtain ⟨stores, hRun⟩ := hRun
    exact ⟨stores, hRun ⟨0, 0⟩⟩
  | running | failed | crashed => cases h

end Moment

end Lox
