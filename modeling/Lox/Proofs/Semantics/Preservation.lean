import Lox.Proofs.Machine.Tracing
import Lox.Proofs.Semantics.Statements

/-!
# Compiling and running means what evaluating does

The steps of a machine are those of `Machine.run` whatever is logged, so a run that follows an evaluation
ends where it ends (`Machine.Reaches.finishes`, `Machine.Reaches.breaks`). A session in which no call is in
progress then interprets a script as the evaluator does (`Session.follows`), and a new session any source
text that compiles (`interpret_preserves_meaning`).
-/

set_option autoImplicit false

namespace Lox

/-! ## Steps and runs -/

namespace Machine

/-- A step of a run is a step of the machine, unless the code has come to its end. -/
theorem run_step (tracing : Bool) (m : Machine) (frame : Frame) (log : String)
    (hs : ∀ m' frame' fault, m.step frame = .fail m' frame' fault → fault.internal = false) :
    ∃ log', ∀ fuel, run tracing (fuel + 1) { m with log } frame =
      match (m.step frame).withLog log' with
      | .next m frame => run tracing fuel m frame
      | .halt m => .finished m
      | .fail m frame fault => .failed (m.abort frame fault).1 (m.abort frame fault).2 := by
  rcases run_step_or tracing m frame log with ⟨-, hOutside⟩ | hRun
  · cases hs _ _ _ (step_of_outside hOutside)
  · exact hRun

theorem run_next (tracing : Bool) {m m' : Machine} {frame frame' : Frame}
    (hs : m.step frame = .next m' frame') (log : String) : ∃ log', ∀ fuel,
    run tracing (fuel + 1) { m with log } frame = run tracing fuel { m' with log := log' } frame' := by
  obtain ⟨log', hRun⟩ := run_step tracing m frame log fun _ _ _ hFail => by
    rw [hs] at hFail
    cases hFail
  rw [hs] at hRun
  exact ⟨log', hRun⟩

/-- A machine that is still running after so many instructions. -/
def Busy (tracing : Bool) (n : Nat) (m : Machine) (frame : Frame) : Prop :=
  ∀ k ≤ n, ∃ m' frame', run tracing k m frame = .running m' frame'

theorem Busy.next {tracing : Bool} {n : Nat} {m m' : Machine} {frame frame' : Frame}
    (hRun : ∀ fuel, run tracing (fuel + 1) m frame = run tracing fuel m' frame')
    (h : Busy tracing n m' frame') : Busy tracing (n + 1) m frame
  | 0, _ => ⟨m, frame, rfl⟩
  | k + 1, hk => by
    rw [hRun]
    exact h k (Nat.le_of_succ_le_succ hk)

theorem Lasts.busy (tracing : Bool) {n : Nat} {m : Machine} {frame : Frame} (h : Lasts n m frame)
    (log : String) : Busy tracing n { m with log } frame := by
  induction n generalizing m frame log with
  | zero =>
    intro k hk
    obtain rfl := Nat.le_zero.1 hk
    exact ⟨_, _, rfl⟩
  | succ n ih =>
    obtain ⟨m', frame', hs, h⟩ := h
    obtain ⟨log', hRun⟩ := run_next tracing hs log
    exact .next hRun (ih h log')

theorem Reaches.run (tracing : Bool) {Q : Machine → Frame → Prop} {m : Machine} {frame : Frame}
    (h : Reaches Q m frame) (log : String) : ∃ n m' frame' log', Q m' frame' ∧
      Busy tracing n { m with log } frame ∧ ∀ fuel,
        Machine.run tracing (fuel + n) { m with log } frame =
          Machine.run tracing fuel { m' with log := log' } frame' := by
  induction h generalizing log with
  | @here m frame hq =>
    refine ⟨0, m, frame, log, hq, Lasts.busy tracing (n := 0) trivial log, fun fuel => rfl⟩
  | next hs _ ih =>
    obtain ⟨log₁, hRun⟩ := run_next tracing hs log
    obtain ⟨n, m', frame', log', hq, hBusy, hRest⟩ := ih log₁
    refine ⟨n + 1, m', frame', log', hq, .next hRun hBusy, fun fuel => ?_⟩
    rw [← Nat.add_assoc, hRun, hRest]

/-- A run comes to an end. -/
def Ends (tracing : Bool) (progress : Progress) (m : Machine) (frame : Frame) : Prop :=
  ∃ n, Busy tracing n m frame ∧ ∀ fuel, n < fuel → run tracing fuel m frame = progress

/-- A run ends where its steps lead to a last one. -/
theorem Reaches.ends (tracing : Bool) {Q : Machine → Frame → Prop} {P : Progress → Prop} {m : Machine}
    {frame : Frame} (h : Reaches Q m frame) (log : String)
    (k : ∀ m' frame' log', Q m' frame' → ∃ progress, P progress ∧
      ∀ fuel, Machine.run tracing (fuel + 1) { m' with log := log' } frame' = progress) :
    ∃ progress, P progress ∧ Ends tracing progress { m with log } frame := by
  obtain ⟨n, m', frame', log', hq, hBusy, hRun⟩ := h.run tracing log
  obtain ⟨progress, hp, hEnd⟩ := k m' frame' log' hq
  refine ⟨progress, hp, n, hBusy, fun fuel hFuel => ?_⟩
  obtain ⟨j, rfl⟩ : ∃ j, fuel = j + 1 + n := ⟨fuel - n - 1, by omega⟩
  rw [hRun, hEnd]

/-- No call is in progress. -/
structure Rests (m : Machine) : Prop where
  stack : m.stack = #[]
  callers : m.callers = []

section

variable {u : Setup} {c : Call u} {m : Machine} {frame : Frame} {s : State}

/-- The script returns. -/
theorem Runs.halts {sc : Scope} {d : Datum} {ip line : Nat} (hm : m.Runs c sc s [d])
    (hAt : c.routine.code.At ip (.op .ret line)) (hBelow : c.below = []) (hCallers : c.callers = []) :
    ∃ m', m.step (c.frame ip) = .halt m' ∧ m'.Mirrors u s ∧ m'.Rests ∧ c.heap.Extends m'.heap := by
  obtain ⟨v, hv, -⟩ := hm.single.peek
  have hStep := hm.step hAt (Instruction.fits_op _)
  simp only [execute, Machine.ret, List.length_nil] at hv hStep
  rw [hv] at hStep
  dsimp only at hStep
  rw [show (m.drop 1).callers = [] from hm.callers.trans hCallers] at hStep
  refine ⟨_, hStep, hm.toMirrors.congr rfl rfl rfl rfl rfl rfl rfl, ⟨?_, rfl⟩, hm.grown⟩
  simp [Call.frame, hBelow]

/-- A run whose steps lead to a return of the script finishes. -/
theorem Reaches.finishes (tracing : Bool) {d : Datum} (hBelow : c.below = []) (hCallers : c.callers = [])
    (h : Reaches (fun m' frame' => ∃ ip line sc, c.routine.code.At ip (.op .ret line) ∧
      frame' = c.frame ip ∧ m'.Runs c sc s [d]) m frame) :
    ∃ m', m'.Mirrors u s ∧ m'.Rests ∧ c.heap.Extends m'.heap ∧ m.Ends tracing (.finished m') frame := by
  obtain ⟨_, ⟨m', rfl, hMirrors, hRests, hGrown⟩, hEnds⟩ := h.ends tracing
    (P := fun progress => ∃ m', progress = .finished m' ∧ m'.Mirrors u s ∧ m'.Rests ∧
      c.heap.Extends m'.heap) m.log (by
      rintro m₁ _ log ⟨ip, line, sc, hAt, rfl, hm⟩
      obtain ⟨m', hStep, hMirrors, hRests, hGrown⟩ := hm.halts hAt hBelow hCallers
      obtain ⟨log', hRun⟩ := run_step tracing m₁ (c.frame ip) log fun _ _ _ hFail => by
        rw [hStep] at hFail
        cases hFail
      rw [hStep] at hRun
      exact ⟨_, ⟨{ m' with log := log' }, rfl, hMirrors.congr rfl rfl rfl rfl rfl rfl rfl,
        ⟨hRests.stack, hRests.callers⟩, hGrown⟩, hRun⟩)
  exact ⟨m', hMirrors, hRests, hGrown, hEnds⟩

/-- A run whose steps lead to a fault fails with it. -/
theorem Reaches.breaks (tracing : Bool) {fault : Fault} (h : Reaches (Fails u s fault) m frame) :
    ∃ m' trace, m'.Mirrors u s ∧ m'.Rests ∧ trace.map TracePoint.name = s.calls ∧
      m.Ends tracing (.failed m' ⟨fault, trace⟩) frame := by
  obtain ⟨_, ⟨m', trace, rfl, hMirrors, hRests, hTrace⟩, hEnds⟩ := h.ends tracing
    (P := fun progress => ∃ m' trace, progress = .failed m' ⟨fault, trace⟩ ∧ m'.Mirrors u s ∧ m'.Rests ∧
      trace.map TracePoint.name = s.calls) m.log (by
      rintro m₁ frame₁ log ⟨hInternal, m', frame', hStep, hMirrors, hCalls⟩
      obtain ⟨log', hRun⟩ := run_step tracing m₁ frame₁ log fun _ _ _ hFail => by
        rw [hStep] at hFail
        cases hFail
        exact hInternal
      rw [hStep] at hRun
      refine ⟨.failed { m' with stack := #[], callers := [], log := log' }
        ⟨fault, (frame' :: m'.callers).map Frame.tracePoint⟩,
        ⟨_, _, rfl, hMirrors.congr rfl rfl rfl rfl rfl rfl rfl, ⟨rfl, rfl⟩, ?_⟩, hRun⟩
      rw [← hCalls, List.map_map]
      rfl)
  exact ⟨m', trace, hMirrors, hRests, hTrace, hEnds⟩

end

end Machine

/-! ## Scripts -/

/-- The evaluator is in a script, outside of all scopes. -/
structure State.Rests (s : State) : Prop where
  scopes : s.scopes = []
  calls : s.calls = [none]

/-- An outcome says how an evaluation ended: without a fault, or with the same fault in calls of the same
functions. -/
def Outcome.Reports (outcome : Outcome) : Evaluated → Prop
  | .ok _ _ => outcome = .ok
  | .error (.fault fault) σ =>
    ∃ trace, outcome = .failed ⟨fault, trace⟩ ∧ trace.map TracePoint.name = σ.calls
  | .error .timeout _ => outcome = .unfinished

namespace Session

/-- Interpreting a source text comes to an end. -/
def Ends (s : Session) (source : String) (outcome : Outcome) (s' : Session) : Prop :=
  ∃ n, (∀ fuel ≤ n, (s.interpret source fuel).1 = .unfinished) ∧
    ∀ fuel, n < fuel → s.interpret source fuel = (outcome, s')

/-- Interpreting a source text, compiled on a heap, does what an evaluation with some clock does. -/
def Follows (u : Setup) (heap : Heap) (clock : Nat) (s : Session) (source : String) : Evaluated → Prop
  | .ok completion σ => (completion = .normal → σ.Rests) ∧ ∃ s', s'.machine.Mirrors u σ ∧
      s'.machine.Rests ∧ heap.Extends s'.machine.heap ∧ s.Ends source .ok s'
  | .error (.fault fault) σ => ∃ s' trace, s'.machine.Mirrors u σ ∧ s'.machine.Rests ∧
      trace.map TracePoint.name = σ.calls ∧ s.Ends source (.failed ⟨fault, trace⟩) s'
  | .error .timeout _ => ∀ fuel ≤ clock, (s.interpret source fuel).1 = .unfinished

theorem unfinished_of_busy {s s' : Session} {source : String} {frame : Frame} {n : Nat}
    (h : s.load source = (.ok frame, s'))
    (hBusy : s'.machine.Busy s'.settings.traceExecution n frame) :
    ∀ fuel ≤ n, (s.interpret source fuel).1 = .unfinished := by
  intro fuel hFuel
  obtain ⟨m, frame', hRun⟩ := hBusy fuel hFuel
  rw [interpret_of_load h, hRun]
  rfl

theorem ends_of_run {s s' : Session} {source : String} {frame : Frame} {progress : Progress}
    (h : s.load source = (.ok frame, s'))
    (hEnds : s'.machine.Ends s'.settings.traceExecution progress frame) :
    s.Ends source (s'.after progress).1 (s'.after progress).2 := by
  obtain ⟨n, hBusy, hEnd⟩ := hEnds
  refine ⟨n, unfinished_of_busy h hBusy, fun fuel hFuel => ?_⟩
  rw [interpret_of_load h, hEnd fuel hFuel]

/-- A compiled script does what the evaluator does with its tree, in a session in which no call is in
progress. -/
theorem follows {u : Setup} {s : Session} {source : String} {f : Fn} {heap : Heap} {r : Routine} {σ : State}
    (hRests : s.machine.Rests) (hCompile : compile source s.machine.heap = (.ok f, heap))
    (hCompiled : (u.world heap).Compiled f r) (hName : r.name = none) (hLegal : r.Legal)
    (hProper : r.Proper) (hm : { s.machine with heap }.Mirrors u σ) (hσ : σ.Rests) (clock : Nat) :
    s.Follows u heap clock source (r.evaluate u.host clock σ) := by
  rcases s.load_cases source with ⟨_, _, hError, -⟩ | ⟨_, _, log, hOk, hLoad⟩
  · cases hError.symm.trans hCompile
  · cases hOk.symm.trans hCompile
    let c : Call u := ⟨f, r, heap, hCompiled, hLegal, hProper, [], []⟩
    have hFnName : f.name = none := by
      obtain ⟨-, -, -, hEq, -⟩ := hCompiled
      rw [hName] at hEq
      simpa using hEq
    have hRuns : Machine.Runs c r.scope
        ({ s.machine with heap, log }.push (.object (.function f))) σ [] :=
      { toMirrors := hm.congr rfl rfl rfl rfl rfl rfl rfl
        grown := .refl _
        stack := by
          rw [hσ.scopes]
          simp only [Machine.push, hRests.stack]
          exact .cons (.function hCompiled hLegal hProper) .nil
        callers := hRests.callers
        calls := by simp [hσ.calls, Call.names, Call.frame, c, hFnName]
        scope := by simp [hσ.scopes, Routine.scope, hName]; rfl }
    have hFrame : (⟨f, 0, s.machine.stack.size⟩ : Frame) = c.frame 0 := by
      rw [hRests.stack]
      rfl
    have hBody := Call.follows_body (calls u clock) hRuns
    have hState := @Call.state_of_normal _ _ _ _ _ _ (calls u clock) hRuns
    rw [hFrame] at hLoad
    change s.Follows u heap clock source (Stmt.execAll (Datum.call u.host clock) clock r.body σ)
    generalize Stmt.execAll (Datum.call u.host clock) clock r.body σ = result at hBody hState
    cases result with
    | ok completion σ' =>
      have hσ' (hNormal : completion = .normal) : σ'.Rests := by
        obtain ⟨hCalls, hScopes⟩ := hState (congrArg (EStateM.Result.ok · σ') hNormal)
        exact ⟨List.eq_nil_of_length_eq_zero (by rw [hScopes, hσ.scopes]; rfl), hCalls.trans hσ.calls⟩
      obtain ⟨m', hMirrors, hRests', hGrown, hEnds⟩ :=
        Machine.Reaches.finishes s.settings.traceExecution rfl rfl hBody
      exact ⟨hσ', _, hMirrors, hRests', hGrown, ends_of_run hLoad hEnds⟩
    | error stop σ' =>
      cases stop with
      | fault fault =>
        obtain ⟨m', trace, hMirrors, hRests', hTrace, hEnds⟩ :=
          Machine.Reaches.breaks s.settings.traceExecution hBody
        exact ⟨_, trace, hMirrors, hRests', hTrace, ends_of_run hLoad hEnds⟩
      | timeout =>
        exact unfinished_of_busy hLoad (Machine.Lasts.busy s.settings.traceExecution hBody log)

/-- An interpretation that has come to its end agrees with an evaluation that has: in what they printed, in
how they ended, and in the globals. -/
structure Agrees (before : ByteArray) (result : Evaluated) (outcome : Outcome) (s : Session) : Prop where
  output : s.machine.output.written = before ++ result.state.printed.toUTF8
  outcome : outcome.Reports result
  globals : ∃ w : World, w.heap = s.machine.heap ∧ w.Distinct ∧
    ∀ name, Option.Rel w.Like (s.machine.global? name) (result.state.globals name)

theorem Ends.unique {s s' : Session} {source : String} {outcome : Outcome}
    (h : s.Ends source outcome s') {fuel : Nat} (hFuel : (s.interpret source fuel).1 ≠ .unfinished) :
    s.interpret source fuel = (outcome, s') := by
  obtain ⟨n, hBusy, hEnd⟩ := h
  by_cases hn : fuel ≤ n
  · exact absurd (hBusy fuel hn) hFuel
  · exact hEnd fuel (Nat.not_le.1 hn)

theorem Ends.ended {s s' : Session} {source : String} {outcome : Outcome}
    (h : s.Ends source outcome s') (hOutcome : outcome ≠ .unfinished) :
    ∃ fuel, (s.interpret source fuel).1 ≠ .unfinished := by
  obtain ⟨n, -, hEnd⟩ := h
  refine ⟨n + 1, ?_⟩
  rw [hEnd _ (Nat.lt_succ_self n)]
  exact hOutcome

theorem agrees_of_mirrors {u : Setup} {s : Session} {result : Evaluated} {outcome : Outcome}
    (hm : s.machine.Mirrors u result.state) (hOutcome : outcome.Reports result) : Agrees u.before result outcome s where
  output := by rw [hm.output]
  outcome := hOutcome
  globals := by
    obtain ⟨stores, hStored, hLike⟩ := hm.globals
    refine ⟨u.world s.machine.heap, rfl, u.distinct _, fun name => ?_⟩
    rw [hStored.global?]
    exact hLike name

/-- If an interpretation follows an evaluation whatever the clock, one of them ends if the other does, and
then they agree. -/
theorem agrees_of_follows {u : Setup} {heap : Heap} {s : Session} {source : String}
    {evaluate : Nat → Evaluated} (h : ∀ clock, s.Follows u heap clock source (evaluate clock)) :
    ((∃ fuel, (s.interpret source fuel).1 ≠ .unfinished) ↔ ∃ clock, (evaluate clock).Ended) ∧
    ∀ fuel clock, (s.interpret source fuel).1 ≠ .unfinished → (evaluate clock).Ended →
      Agrees u.before (evaluate clock) (s.interpret source fuel).1 (s.interpret source fuel).2 := by
  refine ⟨⟨?_, ?_⟩, ?_⟩
  · rintro ⟨fuel, hFuel⟩
    refine ⟨fuel, ?_⟩
    have hFollows := h fuel
    generalize evaluate fuel = result at hFollows
    match result, hFollows with
    | .ok _ _, _ | .error (.fault _) _, _ => trivial
    | .error .timeout _, hFollows => exact hFuel (hFollows fuel le_rfl)
  · rintro ⟨clock, hEnded⟩
    have hFollows := h clock
    generalize evaluate clock = result at hFollows hEnded
    match result, hFollows with
    | .ok _ _, ⟨_, _, _, _, _, hEnds⟩ => exact hEnds.ended nofun
    | .error (.fault _) _, ⟨_, _, _, _, _, hEnds⟩ => exact hEnds.ended nofun
  · intro fuel clock hFuel hEnded
    have hFollows := h clock
    generalize evaluate clock = result at hFollows hEnded
    match result, hFollows with
    | .ok _ _, ⟨_, _, hMirrors, _, _, hEnds⟩ =>
      rw [hEnds.unique hFuel]
      exact agrees_of_mirrors hMirrors rfl
    | .error (.fault _) _, ⟨_, trace, hMirrors, _, hTrace, hEnds⟩ =>
      rw [hEnds.unique hFuel]
      exact agrees_of_mirrors hMirrors ⟨trace, rfl, hTrace⟩

end Session

/-- No native function computes anything. -/
def noHost : Native → List Datum → Datum := fun _ _ => .nil

/-- A new machine mirrors the empty state. -/
theorem Machine.mirrors_new (made : List (Nat × Nat)) (apart : ∀ a ∈ made, ∀ b ∈ made, a.1 = b.1 ↔ a.2 = b.2)
    {output : Output} (hRoom : output.room = .unlimited) {heap : Heap} (hh : heap.WF) :
    ({ output, heap } : Machine).Mirrors ⟨made, apart, #[], noHost, output.written⟩ {} where
  globals := by
    refine ⟨[], ⟨hh, Table.empty_wf, fun k v hv => absurd hv (Table.not_holds_empty k v), fun n v =>
      ⟨nofun, fun ⟨_, _, hv⟩ => absurd hv (Table.not_holds_empty _ v)⟩⟩, fun _ => .none⟩
  output := by
    obtain ⟨written, room⟩ := output
    cases hRoom
    simp
  behaviours := rfl
  natives := fun _ _ _ _ _ _ _ _ _ => .nil

/-- Interpreting a source text that compiles means what evaluating its syntax tree does: one comes to an end
exactly if the other does, and then both have printed the same, ended in the same way, and left the same
globals. -/
theorem interpret_preserves_meaning (settings : Settings) (hNatives : settings.natives = false)
    (output : Output) (hRoom : output.room = .unlimited) (source : String) (f : Fn)
    (hCompile : (compile source {}).1 = .ok f) :
    (∃ r : Routine, r.Accepted (Scanner.tokens source)) ∧
    ∀ r : Routine, r.Accepted (Scanner.tokens source) →
      ((∃ fuel, ((Session.create settings output).interpret source fuel).1 ≠ .unfinished) ↔
        ∃ clock, (r.evaluate noHost clock {}).Ended) ∧
      ∀ fuel clock, ((Session.create settings output).interpret source fuel).1 ≠ .unfinished →
        (r.evaluate noHost clock {}).Ended →
        Session.Agrees output.written (r.evaluate noHost clock {})
          ((Session.create settings output).interpret source fuel).1
          ((Session.create settings output).interpret source fuel).2 := by
  obtain ⟨r₀, hd⟩ := derives_of_compile hCompile
  refine ⟨?_, fun r ha => ?_⟩
  · rcases hd.compile Heap.empty_wf with ⟨ha, -⟩ | ⟨-, hNot⟩
    · exact ⟨r₀, ha⟩
    · exact absurd hCompile (hNot f)
  · rcases ha.derives.compile Heap.empty_wf with ⟨-, w, f', -, hw, hCompiled, hEq⟩ | ⟨hNot, -⟩
    · have hMachine : (Session.create settings output).machine = { output } := by
        unfold Session.create
        rw [hNatives]
        rfl
      have hProper := ha.derives.proper (Scanner.named_tokens source)
      have hName : r.name = none := by
        cases ha.derives
        rfl
      let u : Setup := ⟨w.made, hw.distinct, #[], noHost, output.written⟩
      have hCompiled' : (u.world w.heap).Compiled f' r := hCompiled
      refine @Session.agrees_of_follows u w.heap _ _ _ fun clock => ?_
      refine Session.follows ?_ ?_ hCompiled' hName ha.legal hProper ?_ ⟨rfl, rfl⟩ clock
      · rw [hMachine]
        exact ⟨rfl, rfl⟩
      · rw [hMachine]
        exact hEq
      · rw [hMachine]
        exact Machine.mirrors_new w.made hw.distinct hRoom hw.heap
    · exact absurd ha hNot

namespace Sample

/-- A function that returns, and a global that gets what it returns. -/
def source : String := "fun f(a) { if (a) return a; return true; } var c = f(nil); print c;"

end Sample

theorem interpret_preserves_meaning_call :
    ∃ r : Routine, r.Accepted (Scanner.tokens Sample.source) ∧
      ∃ clock, (r.evaluate noHost clock {}).Ended ∧
        Session.Agrees .empty (r.evaluate noHost clock {}) .ok
          (Sample.session.interpret Sample.source 40).2 := by
  have hCompile : (compile Sample.source {}).1.isOk = true := by decide +kernel
  have hOutcome : (Sample.session.interpret Sample.source 40).1 = .ok := by decide +kernel
  have hFuel : (Sample.session.interpret Sample.source 40).1 ≠ .unfinished := by
    rw [hOutcome]
    nofun
  obtain ⟨f, hf⟩ := exists_of_isOk hCompile
  obtain ⟨⟨r, ha⟩, hMeaning⟩ := interpret_preserves_meaning { natives := false } rfl {} rfl Sample.source f hf
  obtain ⟨hEnds, hAgrees⟩ := hMeaning r ha
  obtain ⟨clock, hEnded⟩ := hEnds.1 ⟨40, hFuel⟩
  refine ⟨r, ha, clock, hEnded, ?_⟩
  rw [← hOutcome]
  exact hAgrees 40 clock hFuel hEnded

end Lox
