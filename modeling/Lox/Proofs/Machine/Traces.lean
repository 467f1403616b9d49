import Lox.Proofs.Compiler.Safety
import Lox.Proofs.Machine.Frames
import Lox.Proofs.Machine.Robust
import Lox.Proofs.Machine.WellFormed

/-!
# Where a failed run has come to

A session is followed with a record of the calls under way: with the instruction that enters a function its
offset is noted, and with the return it is taken off again (`Moment.Recorded`). The record knows nothing of
the frames that the machine keeps. When an instruction fails, the trace of the error has the line of this
instruction, and then the lines of the calls on record, down to the script (`Moment.trace_at_lines`). For
that, all bytes of an instruction must be on one line, since the machine looks up the line of the last byte
that it has read.
-/

set_option autoImplicit false

namespace Lox

/-! ## Lines of code -/

/-- Code on lines: no instruction is on two of them, they do not go back, and there are none but those up to
`bound`. -/
structure Chunk.OnLines (bound : Nat) (c : Chunk Value) : Prop where
  together : ∃ sites, c.Splits 0 sites ∧ ∀ s ∈ sites, ∀ k < s.2.size, c.lineAt (s.1 + k) = c.lineAt s.1
  ascending : ∀ i j, i ≤ j → j < c.code.size → c.lineAt i ≤ c.lineAt j
  range : ∀ i < c.code.size, 1 ≤ c.lineAt i ∧ c.lineAt i ≤ bound

namespace Chunk

variable {c : Chunk Value}

theorem lineAt_eq_getElem {i : Nat} (h : i < c.lines.toList.length) : c.lineAt i = c.lines.toList[i] := by
  rw [lineAt, Array.getD_eq_getD_getElem?, ← Array.getElem?_toList, List.getElem?_eq_getElem h]
  rfl

/-- All bytes of an instruction are on the line it was written on. -/
theorem lineAt_of_at {whole : Code} (hLines : c.lines.toList = whole.lines) {ip line k : Nat}
    {i : Instruction} (h : whole.At ip [(i, line)]) (hk : k < i.size) : c.lineAt (ip + k) = line := by
  obtain ⟨before, behind, rfl, rfl⟩ := h
  have hOne : Code.lines [(i, line)] = List.replicate i.size line := by simp [Code.lines]
  rw [lineAt, Array.getD_eq_getD_getElem?, ← Array.getElem?_toList, hLines, Code.lines_append,
    Code.lines_append, hOne, List.append_assoc, ← Code.length_lines, List.getElem?_append_right (by omega),
    Nat.add_sub_cancel_left, List.getElem?_append_left (by simpa using hk), List.getElem?_replicate,
    if_pos hk]
  rfl

end Chunk

theorem Code.at_of_mem_sites (before : Code) {code : Code} {s : Nat × Instruction}
    (hs : s ∈ code.sites before.size) : ∃ line, (before ++ code).At s.1 [(s.2, line)] := by
  induction code generalizing before with
  | nil => cases hs
  | cons x code ih =>
    rcases List.mem_cons.1 hs with rfl | hs
    · exact ⟨x.2, before, code, by simp, rfl⟩
    · have hBehind := ih (before ++ [x])
      rw [List.append_assoc, Code.size_append, Code.size_cons] at hBehind
      exact hBehind hs

theorem Function.Among.lined {bound : Nat} {scripts : List Fn} (hs : ∀ f ∈ scripts, f.Lined bound) {f : Fn}
    (hf : f.Among scripts) : f.Lined bound := by
  induction hf with
  | script hMem => exact hs _ hMem
  | nested _ hMem ih =>
    obtain ⟨-, hConstants⟩ := ih
    exact hConstants _ hMem

/-- The functions of a source text are on its lines. -/
theorem lined_of_compile {source : String} {heap : Heap} {f : Fn} (h : (compile source heap).1 = .ok f) :
    f.Lined (Lexis.line source.toList) := by
  obtain ⟨hTidy, hSettled⟩ := Parser.tidy_start source heap
  have hAll : Parser.AcceptsLiterals fun _ => True := ⟨fun _ _ _ => trivial, fun _ _ _ _ _ _ => trivial⟩
  have hLevels := Level.checks_stack (Lexis.line source.toList) hAll (Parser.maxNesting + 1)
  obtain ⟨-, hEnd, -⟩ := (Parser.sure_script hLevels (Scanner.tokens source).length hSettled).apply hTidy
  obtain ⟨p, hp, hEnd⟩ : ∃ p, compile source heap = Parser.conclude p ∧ p.Tidy (Lexis.line source.toList) :=
    ⟨_, compile_primed .first source heap, hEnd⟩
  rw [hp] at h
  have hReturn := ((Parser.leaves_emitReturn p).apply hEnd).1
  unfold Parser.conclude at h
  dsimp only at h
  rw [p.endFunction_spec.1] at h
  split at h
  · cases h
    exact hReturn.lined rfl
  · cases h

/-- All that is compiled is on the lines of the source text. -/
theorem Function.Among.onLines {source : String} {heap : Heap} {f g : Fn} (hh : heap.Reachable)
    (h : (compile source heap).1 = .ok f) (hg : g.Among [f]) :
    g.chunk.OnLines (1 + source.toList.count '\n') := by
  have hCompile : compile source heap = (.ok f, (compile source heap).2) := by rw [← h]
  obtain ⟨hLined, -⟩ : g.Lined (Lexis.line source.toList) :=
    hg.lined (List.forall_mem_singleton.2 (lined_of_compile h))
  have hSound : g.Sound (compile source heap).2 :=
    hg.sound (List.forall_mem_singleton.2 (sound_of_compile hh.wf hCompile).1)
  obtain ⟨w, r, -, hc, hp, hl, -⟩ := hSound
  have hSize (i : Nat) (hi : i < g.chunk.code.size) : i < g.chunk.lines.toList.length := by
    rw [Array.length_toList, hLined.size]
    exact hi
  refine ⟨⟨r.code.sites 0, (hc.wellFormed hp hl).splits, fun s hs k hk => ?_⟩, fun i j hij hj => ?_,
    fun i hi => ?_⟩
  · obtain ⟨-, -, -, -, -, hLines, -⟩ := hc
    obtain ⟨line, hAt⟩ := Code.at_of_mem_sites [] hs
    rw [Chunk.lineAt_of_at hLines hAt hk]
    exact (Chunk.lineAt_of_at hLines hAt s.2.size_pos).symm
  · rw [Chunk.lineAt_eq_getElem (hSize i (hij.trans_lt hj)), Chunk.lineAt_eq_getElem (hSize j hj)]
    rcases hij.lt_or_eq with hLess | rfl
    · exact List.pairwise_iff_getElem.1 hLined.ascending i j _ _ hLess
    · exact Nat.le_refl _
  · rw [Chunk.lineAt_eq_getElem (hSize i hi)]
    exact hLined.range _ (List.getElem_mem _)

/-! ## Calls under way -/

namespace Machine

/-- What an instruction does to the calls in progress, in a frame that stands behind it: nothing, a call, or
a return. A fault leaves them where they are. -/
def Turns (m : Machine) (frame : Frame) (i : Instruction) : Step → Prop
  | .next m' frame' =>
    frame'.function = frame.function ∧ m'.callers = m.callers ∨
    i.op = .call ∧ m'.callers = frame :: m.callers ∨
    m.callers = frame' :: m'.callers
  | .halt _ => True
  | .fail m' frame' _ => frame' = frame ∧ m'.callers = m.callers

theorem turns_execute (m : Machine) (frame : Frame) (i : Instruction) :
    m.Turns frame i (m.execute frame i) := by
  obtain ⟨op, operand⟩ := i
  cases op with
  | call =>
    simp only [execute, call]
    repeat' split
    all_goals first | exact ⟨rfl, rfl⟩ | exact .inr (.inl ⟨rfl, rfl⟩) | exact .inl ⟨rfl, rfl⟩
  | ret =>
    simp only [execute, ret]
    split
    · exact ⟨rfl, rfl⟩
    · split
      · trivial
      · rename_i hCallers
        exact .inr (.inr hCallers)
  | jumpIfFalse =>
    simp only [execute, jumpIfFalse]
    split
    · refine .inl ⟨?_, rfl⟩
      split <;> rfl
    · exact ⟨rfl, rfl⟩
  | _ =>
    simp only [execute, constant, pop, getLocal, setLocal, getGlobal, defineGlobal, setGlobal, equal,
      arithmetic, add, not, negate, print, loop]
    repeat' split
    all_goals first | exact ⟨rfl, rfl⟩ | exact .inl ⟨rfl, rfl⟩

variable {m : Machine} {frame : Frame}

/-- In a machine that runs in order there is an instruction, with all of its bytes on one line. -/
theorem Running.turns_step {P : Heap → Value → Prop} (hr : m.Running P frame) :
    ∃ i next, frame.function.chunk.decode frame.ip = .instruction i next ∧
      frame.function.chunk.lineAt (next - 1) = frame.function.chunk.lineAt frame.ip ∧
      m.Turns { frame with ip := next } i (m.step frame) := by
  obtain ⟨h, hm, w, r, hl, -, hc, -, -, hSafe⟩ := hr.height
  obtain ⟨i, line, hAt, hFits, -⟩ := (Body.Safe.all hSafe).resolve_left fun hEnd => hEnd.2
  obtain ⟨hDecode, hStep⟩ := step_at (m := m) hc hAt hFits
  obtain ⟨-, -, -, -, -, hLines, -⟩ := hc
  have hPos := i.size_pos
  refine ⟨i, frame.ip + i.size, hDecode, ?_, ?_⟩
  · rw [Nat.add_sub_assoc hPos, Chunk.lineAt_of_at hLines hAt (Nat.sub_lt hPos Nat.one_pos)]
    exact (Chunk.lineAt_of_at hLines hAt hPos).symm
  · rw [hStep]
    exact turns_execute ..

end Machine

/-- The point of the source text that a function has come to at an offset. -/
def Function.point (f : Fn) (offset : Nat) : TracePoint :=
  { line := f.chunk.lineAt offset, name := f.name.map (·.text) }

theorem name_of_compile {source : String} {heap heap' : Heap} {f : Fn} (hh : heap.WF)
    (h : compile source heap = (.ok f, heap')) : f.name = none := by
  obtain ⟨w, r, ha, -, -, -, hc⟩ := compiled_of_compile hh h
  obtain ⟨-, -, -, hName, -⟩ := hc
  cases ha.derives
  exact Option.map_eq_none_iff.1 hName

/-- A suspended frame stands behind the call at an offset of its function, which is on one line. -/
structure Frame.Waits (frame : Frame) (call : Fn × Nat) : Prop where
  function : frame.function = call.1
  pending : ∃ count, call.1.chunk.decode call.2 = .instruction ⟨.call, count⟩ frame.ip
  line : call.1.chunk.lineAt (frame.ip - 1) = call.1.chunk.lineAt call.2

theorem Frame.Waits.tracePoint {frame : Frame} {call : Fn × Nat} (h : frame.Waits call) :
    frame.tracePoint = call.1.point call.2 := by
  rw [Frame.tracePoint, h.function, h.line]
  rfl

namespace Moment

/-- The number of suspended calls. -/
def suspended (a : Moment) : Nat := a.session.machine.callers.length

/-- The record of the calls under way after a step. Where one more call is suspended, the instruction is
noted that was executed; where there is one less, the newest entry is taken off. -/
def note (a b : Moment) (calls : List (Fn × Nat)) : List (Fn × Nat) :=
  match a.running, b.running with
  | some frame, some _ =>
    if a.suspended < b.suspended then (frame.function, frame.ip) :: calls
    else if b.suspended < a.suspended then calls.tail
    else calls
  | _, _ => []

/-- The moments of sessions with a record of the calls under way: the functions that wait, newest first, each
with the offset of the instruction that it waits at. -/
inductive Recorded (ok : List Fn → Machine → Frame → Prop) : Moment → List (Fn × Nat) → Prop
  | start (settings : Settings) (output : Output) : Recorded ok (.start settings output) []
  | next {a b : Moment} {calls : List (Fn × Nat)} : Recorded ok a calls → Next ok a b →
      Recorded ok b (a.note b calls)

theorem Recorded.reached {ok : List Fn → Machine → Frame → Prop} {a : Moment} {calls : List (Fn × Nat)}
    (h : Recorded ok a calls) : Reached ok a := by
  induction h with
  | start settings output => exact .start settings output
  | next _ hn ih => exact ih.next hn

theorem Reached.recorded {ok : List Fn → Machine → Frame → Prop} {a : Moment} (h : Reached ok a) :
    ∃ calls, Recorded ok a calls := by
  induction h with
  | start settings output => exact ⟨[], .start settings output⟩
  | next _ hn ih =>
    obtain ⟨calls, hc⟩ := ih
    exact ⟨_, hc.next hn⟩

/-- The suspended frames of a session are those on record, and the outermost call is that of the script
compiled last. -/
structure Matches (a : Moment) (calls : List (Fn × Nat)) : Prop where
  waits : List.Forall₂ Frame.Waits a.session.machine.callers calls
  script : ∀ frame, a.running = some frame →
    ((frame :: a.session.machine.callers).map Frame.function).getLast? = a.scripts.head?
  nameless : ∀ f ∈ a.scripts, f.name = none

variable {a b : Moment} {calls : List (Fn × Nat)} {frame frame' : Frame}

theorem note_running (ha : a.running = some frame) (hb : b.running = some frame') : a.note b calls =
    if a.suspended < b.suspended then (frame.function, frame.ip) :: calls
    else if b.suspended < a.suspended then calls.tail
    else calls := by
  unfold note
  rw [ha, hb]

theorem note_idle (hb : b.running = none) : a.note b calls = [] := by
  unfold note
  rw [hb]
  cases a.running <;> rfl

/-- Where nothing runs, nothing waits. -/
theorem Matches.of_idle (hb : b.Bounded) (hIdle : b.running = none)
    (hNames : ∀ f ∈ b.scripts, f.name = none) : b.Matches [] := by
  refine ⟨?_, fun frame hFrame => ?_, hNames⟩
  · rw [(hb.idle hIdle).2]
    exact .nil
  · rw [hIdle] at hFrame
    cases hFrame

/-- The calls under way stay the same. -/
theorem Matches.stay (h : a.Matches calls) (ha : a.running = some frame) (hb : b.running = some frame')
    (hFunction : frame'.function = frame.function)
    (hCallers : b.session.machine.callers = a.session.machine.callers) (hScripts : b.scripts = a.scripts) :
    b.Matches (a.note b calls) := by
  have hSame : b.suspended = a.suspended := congrArg List.length hCallers
  rw [note_running ha hb, hSame, if_neg (Nat.lt_irrefl _), if_neg (Nat.lt_irrefl _)]
  refine ⟨hCallers ▸ h.waits, fun now hNow => ?_, hScripts ▸ h.nameless⟩
  cases hb.symm.trans hNow
  rw [hCallers, hScripts, ← h.script frame ha, List.map_cons, List.map_cons, hFunction]

/-- A call starts. -/
theorem Matches.enter (h : a.Matches calls) (ha : a.running = some frame) (hb : b.running = some frame')
    {caller : Frame} (hCallers : b.session.machine.callers = caller :: a.session.machine.callers)
    (hWaits : caller.Waits (frame.function, frame.ip)) (hScripts : b.scripts = a.scripts) :
    b.Matches (a.note b calls) := by
  have hMore : b.suspended = a.suspended + 1 := congrArg List.length hCallers
  rw [note_running ha hb, hMore, if_pos (Nat.lt_succ_self _)]
  refine ⟨hCallers ▸ .cons hWaits h.waits, fun now hNow => ?_, hScripts ▸ h.nameless⟩
  rw [hCallers, hScripts, ← h.script frame ha, List.map_cons, List.map_cons, List.getLast?_cons_cons,
    hWaits.function]
  rfl

/-- A call returns. -/
theorem Matches.leave (h : a.Matches calls) (ha : a.running = some frame) (hb : b.running = some frame')
    (hCallers : a.session.machine.callers = frame' :: b.session.machine.callers)
    (hScripts : b.scripts = a.scripts) : b.Matches (a.note b calls) := by
  have hLess : a.suspended = b.suspended + 1 := congrArg List.length hCallers
  have hWaits := h.waits
  have hScript := h.script frame ha
  rw [hCallers] at hWaits hScript
  rw [note_running ha hb, hLess, if_neg (by omega), if_pos (Nat.lt_succ_self _)]
  refine ⟨?_, fun now hNow => ?_, hScripts ▸ h.nameless⟩
  · cases hWaits with
    | cons _ hRest => exact hRest
  · cases hb.symm.trans hNow
    rw [hScripts, ← hScript]
    rfl

theorem Matches.next {P : Heap → Value → Prop} {ok : List Fn → Machine → Frame → Prop} (ho : a.Orderly P)
    (ha : a.Bounded) (hb : b.Bounded) (h : a.Matches calls) (hn : Next ok a b) :
    b.Matches (a.note b calls) := by
  cases hIdle : b.running with
  | none =>
    rw [note_idle hIdle]
    refine .of_idle hb hIdle ?_
    cases hn with
    | load => cases hIdle
    | _ => exact h.nameless
  | some now =>
    cases hn with
    | host e => exact h.stay hIdle hIdle rfl rfl rfl
    | reserve => exact h.stay hIdle hIdle rfl rfl rfl
    | define | reject | halt | fail => cases hIdle
    | @load s s' scripts stores source frame hLoad =>
      obtain ⟨f, heap, log, hCompile, rfl, rfl⟩ := Session.load_eq_ok hLoad
      have hCallers : s.machine.callers = [] := (ha.idle rfl).2
      have hName : f.name = none := name_of_compile ho.machine.heap hCompile
      refine ⟨?_, fun frame hFrame => ?_, List.forall_mem_cons.2 ⟨hName, h.nameless⟩⟩
      · change List.Forall₂ _ s.machine.callers []
        rw [hCallers]
        exact .nil
      · cases hFrame
        change ((_ :: s.machine.callers).map Frame.function).getLast? = _
        rw [hCallers]
        rfl
    | @step s frame frame' scripts stores m hCond hStep =>
      obtain ⟨i, next, hDecode, hLine, hTurns⟩ := Machine.Running.turns_step ho.machine
      rw [hStep] at hTurns
      rcases hTurns with ⟨hFunction, hCallers⟩ | ⟨hCall, hCallers⟩ | hCallers
      · exact h.stay rfl rfl hFunction hCallers rfl
      · obtain ⟨op, count⟩ := i
        cases hCall
        exact h.enter rfl rfl hCallers ⟨rfl, ⟨count, hDecode⟩, hLine⟩ rfl
      · exact h.leave rfl rfl hCallers rfl

theorem Recorded.matches (h : Recorded Machine.CallsOwn a calls) : a.Matches calls := by
  induction h with
  | start settings output =>
    exact .of_idle (.start settings output) rfl fun _ hf => absurd hf List.not_mem_nil
  | next ha hn ih =>
    have hReached := ha.reached
    exact ih.next hReached.orderly_of_callsOwn hReached.bounded (hReached.next hn).bounded hn

/-- The trace of an error that ends a run at a moment, with the calls that are under way. It has a point for
each frame: that of the instruction which fails, then those of the calls, and the last one is in the
script. -/
structure Traces (a : Moment) (calls : List (Fn × Nat)) (frame : Frame) (trace : List TracePoint) : Prop where
  points : trace = frame.function.point frame.ip :: calls.map fun call => call.1.point call.2
  frames : trace.length = (frame :: a.session.machine.callers).length
  bounded : trace.length ≤ 64
  failing : ∃ i next, frame.function.chunk.decode frame.ip = .instruction i next
  pending : ∀ call ∈ calls, ∃ count next, call.1.chunk.decode call.2 = .instruction ⟨.call, count⟩ next
  script : ∃ f, a.scripts.head? = some f ∧ f.name = none ∧
    (frame.function :: calls.map Prod.fst).getLast? = some f

/-- Two lists that belong together have what their members have in common. -/
theorem map_eq_of_forall₂ {α β γ : Type} {R : α → β → Prop} {f : α → γ} {g : β → γ} {xs : List α}
    {ys : List β} (h : List.Forall₂ R xs ys) (hR : ∀ x y, R x y → f x = g y) : xs.map f = ys.map g := by
  rw [← List.forall₂_eq_eq_eq, List.forall₂_map_left_iff, List.forall₂_map_right_iff]
  exact h.imp hR

theorem Recorded.traces (h : Recorded Machine.CallsOwn a calls) (hFrame : a.running = some frame)
    {m : Machine} {fault : Fault} (hStep : a.session.machine.step frame = .fail m frame' fault) :
    a.Traces calls frame (m.abort frame' fault).2.trace := by
  have hMatches := h.matches
  have hOrderly := h.reached.orderly_of_callsOwn.machine
  rw [hFrame] at hOrderly
  obtain ⟨i, next, hDecode, hLine, hTurns⟩ := Machine.Running.turns_step hOrderly
  rw [hStep] at hTurns
  obtain ⟨rfl, hCallers⟩ := hTurns
  have hFirst : Frame.tracePoint { frame with ip := next } = frame.function.point frame.ip := by
    rw [Frame.tracePoint, hLine]
    rfl
  have hPoints : (m.abort { frame with ip := next } fault).2.trace =
      frame.function.point frame.ip :: calls.map fun call => call.1.point call.2 := by
    rw [← hFirst, ← map_eq_of_forall₂ hMatches.waits fun _ _ h => h.tracePoint, ← hCallers]
    rfl
  have hLength : (m.abort { frame with ip := next } fault).2.trace.length =
      (frame :: a.session.machine.callers).length := by
    rw [hPoints, List.length_cons, List.length_map, List.length_cons, hMatches.waits.length_eq]
  have hFunctions : a.session.machine.callers.map Frame.function = calls.map Prod.fst :=
    map_eq_of_forall₂ hMatches.waits fun _ _ h => h.function
  have hScript := hMatches.script frame hFrame
  rw [List.map_cons, hFunctions] at hScript
  refine ⟨hPoints, hLength, ?_, ⟨i, next, hDecode⟩, fun call hCall => ?_, ?_⟩
  · rw [hLength]
    exact (h.reached.bounded.running frame hFrame).2
  · obtain ⟨k, hk, rfl⟩ := List.getElem_of_mem hCall
    have hk' : k < a.session.machine.callers.length := hMatches.waits.length_eq ▸ hk
    obtain ⟨count, hPending⟩ := (hMatches.waits.get hk' hk).pending
    exact ⟨count, _, hPending⟩
  · have hLast := List.getLast?_eq_some_getLast (List.cons_ne_nil frame.function (calls.map Prod.fst))
    have hHead := hScript.symm.trans hLast
    exact ⟨_, hHead, hMatches.nameless _ (List.mem_of_mem_head? hHead), hLast⟩

/-! ## Source texts that fail -/

/-- A source text that fails was compiled, and an instruction of the run of its script has failed. -/
theorem Reached.interpret_failed {ok : List Fn → Machine → Frame → Prop} {s : Session} {scripts : List Fn}
    {stores : List (String × Value)} (source : String) (fuel : Nat)
    (hr : Reached ok ⟨s, none, scripts, stores⟩)
    (hok : ∀ s' frame, s.load source = (.ok frame, s') → ∀ n m frame', n < fuel →
      s'.machine.run s'.settings.traceExecution n frame = .running m frame' →
      ∀ log, ok (frame.function :: scripts) { m with log } frame')
    {error : RuntimeError} (h : (s.interpret source fuel).1 = .failed error) :
    ∃ f b frame m frame', (compile source s.machine.heap).1 = .ok f ∧ Reached ok b ∧
      b.scripts = f :: scripts ∧ b.running = some frame ∧
      b.session.machine.step frame = .fail m frame' error.fault ∧ (m.abort frame' error.fault).2 = error := by
  unfold Session.interpret at h
  rcases s.load_cases source with ⟨_, _, -, hLoad⟩ | ⟨f, heap, log, hCompile, hLoad⟩
  · rw [hLoad] at h
    cases h
  · have hRun := (hr.next (.load hLoad)).run (hok _ _ hLoad)
    rw [hLoad] at h
    dsimp only at h hRun
    generalize Machine.run _ fuel _ _ = progress at h hRun
    cases progress with
    | running | finished | crashed => cases h
    | failed m error' =>
      cases h
      obtain ⟨-, m₀, frame, stores₀, m₁, frame', hReached, hStep, hAbort⟩ := hRun
      exact ⟨f, _, frame, m₁, frame', by rw [hCompile], hReached, rfl, rfl, hStep, by rw [hAbort]⟩

/-- Stack traces have the right lines. In a session that calls no function but those it compiled, the error
of an instruction that fails has a trace with a point for each frame, at most 64: the line of this
instruction, then those of the calls that are under way, and the last point is in the script. So it is for a
source text that is interpreted and fails. The lines are those of the source text: the bytes of an
instruction are on one line, and in the code the lines do not go back. -/
theorem trace_at_lines :
    (∀ (a : Moment) (calls : List (Fn × Nat)) (frame : Frame) (m : Machine) (frame' : Frame) (fault : Fault),
      Recorded Machine.CallsOwn a calls → a.running = some frame →
      a.session.machine.step frame = .fail m frame' fault →
      a.Traces calls frame (m.abort frame' fault).2.trace) ∧
    (∀ (a : Moment) (source : String) (fuel : Nat) (error : RuntimeError),
      Reached Machine.CallsOwn a → a.running = none →
      (∀ s frame, a.session.load source = (.ok frame, s) → ∀ n m frame', n < fuel →
        s.machine.run s.settings.traceExecution n frame = .running m frame' →
        ∀ log, { m with log }.CallsOwn (frame.function :: a.scripts) frame') →
      (a.session.interpret source fuel).1 = .failed error →
      ∃ f b calls frame m frame', (compile source a.session.machine.heap).1 = .ok f ∧
        Recorded Machine.CallsOwn b calls ∧ b.scripts = f :: a.scripts ∧ b.running = some frame ∧
        b.session.machine.step frame = .fail m frame' error.fault ∧ b.Traces calls frame error.trace) ∧
    ∀ (source : String) (heap : Heap) (f g : Fn), heap.Reachable → (compile source heap).1 = .ok f →
      g.Among [f] → g.chunk.OnLines (1 + source.toList.count '\n') := by
  refine ⟨fun a calls frame m frame' fault ha hFrame hStep => ha.traces hFrame hStep, ?_,
    fun source heap f g hh h hg => hg.onLines hh h⟩
  intro a source fuel error ha hIdle hOwn hFailed
  obtain ⟨s, running, scripts, stores⟩ := a
  cases hIdle
  obtain ⟨f, b, frame, m, frame', hCompile, hb, hScripts, hFrame, hStep, hError⟩ :=
    ha.interpret_failed source fuel hOwn hFailed
  obtain ⟨calls, hc⟩ := hb.recorded
  refine ⟨f, b, calls, frame, m, frame', hCompile, hc, hScripts, hFrame, hStep, ?_⟩
  have hTraces := hc.traces hFrame hStep
  rwa [hError] at hTraces

/-- A call that is closed on the line behind its name: the function fails on its second line. -/
theorem trace_at_lines_call : ∃ (a : Moment) (script : Fn) (frame frame' : Frame) (m : Machine),
    Recorded Machine.CallsOwn a [(script, 6)] ∧ a.running = some frame ∧
    a.session.machine.step frame = .fail m frame' .notNumber ∧
    a.Traces [(script, 6)] frame (m.abort frame' .notNumber).2.trace ∧
    (m.abort frame' .notNumber).2.trace = [⟨2, some "f"⟩, ⟨6, none⟩] := by
  let source := "\n".intercalate [r"fun f() {", "  -nil;", r"}", "", "f(", ");", ""]
  -- three instructions lead to the call; the function pushes nil and negates it
  have hCall : ((early? source 3).map fun e => (e.2.1.function.chunk.decode 6, e.2.1.ip,
      e.2.1.function.point 6, e.1.machine.stack.size, e.1.machine.callers.length)) =
      some (.instruction ⟨.call, 0⟩ 8, 6, ⟨6, none⟩, 2, 0) := by decide +kernel
  have hCallee : ((early? source 3).bind fun e => ((e.1.machine.peek? 0).bind Value.asFunction?).map fun f =>
      (f.id, f.arity, f.chunk.decode 0, f.chunk.decode 1, f.point 1)) =
      some (3, 0, .instruction ⟨.pushNil, 0⟩ 1, .instruction ⟨.negate, 0⟩ 2, ⟨2, some "f"⟩) := by
    decide +kernel
  have hConstant : ((early? source 3).bind fun e =>
      (e.2.2.chunk.constants[1]?.bind Value.asFunction?).map Function.id) = some 3 := by decide +kernel
  obtain ⟨⟨s, frame, script⟩, hEarly, hFacts⟩ := Option.map_eq_some_iff.1 hCall
  simp only [Prod.mk.injEq] at hFacts
  obtain ⟨hDecode, hIp, hLine, hSize, hDepth⟩ := hFacts
  rw [hEarly, Option.bind_some] at hCallee hConstant
  obtain ⟨f, hf, hFacts⟩ := Option.map_eq_some_iff.1 hCallee
  simp only [Prod.mk.injEq] at hFacts
  obtain ⟨hId, hArity, hFirst, hSecond, hPoint⟩ := hFacts
  have hv := Value.eq_some_of_asFunction? hf
  have hAmong := Reached.among_of_early? hEarly hv (hConstant.trans (congrArg some hId.symm))
  obtain ⟨stores, hReached⟩ : ∃ stores, Reached Machine.CallsOwn ⟨s, some frame, [script], stores⟩ :=
    Reached.of_early? hEarly .of_not_calls
  have hCallers : s.machine.callers = [] := List.eq_nil_of_length_eq_zero hDepth
  obtain ⟨calls, hRecord⟩ := hReached.recorded
  obtain rfl : calls = [] := by
    have hLength := hRecord.matches.waits.length_eq
    simp only [hCallers] at hLength
    exact List.eq_nil_of_length_eq_zero hLength.symm
  let m₁ : Machine := { s.machine with callers := [{ frame with ip := 8 }] }
  have hStep₁ : s.machine.step frame = .next m₁ ⟨f, 0, 1⟩ := by
    simp [m₁, Machine.step, hIp, hDecode, Machine.execute, Machine.call, hv, hArity, hSize, hCallers,
      Machine.maxFrames]
  have hStep₂ : m₁.step ⟨f, 0, 1⟩ = .next (m₁.push .nil) ⟨f, 1, 1⟩ := by
    simp [Machine.step, hFirst, Machine.execute]
  have hStep₃ : (m₁.push .nil).step ⟨f, 1, 1⟩ = .fail (m₁.push .nil) ⟨f, 2, 1⟩ .notNumber := by
    simp [Machine.step, hSecond, Machine.execute, Machine.negate, Machine.peek?, Machine.push]
  have hOwn : s.machine.CallsOwn [script] frame := by
    intro count next f' hDecode' hf'
    rw [hIp, hDecode] at hDecode'
    cases hDecode'
    cases hv.symm.trans hf'
    exact hAmong
  let b : Moment :=
    ⟨{ s with machine := m₁ }, some ⟨f, 0, 1⟩, [script], (s.machine.store? frame).toList ++ stores⟩
  let c : Moment := ⟨{ s with machine := m₁.push .nil }, some ⟨f, 1, 1⟩, [script],
    (m₁.store? ⟨f, 0, 1⟩).toList ++ b.stores⟩
  have hEnter : note ⟨s, some frame, [script], stores⟩ b [] = [(frame.function, 6)] := by
    simp [note, suspended, b, m₁, hCallers, hIp]
  have hEntered : Recorded Machine.CallsOwn b [(frame.function, 6)] :=
    hEnter ▸ hRecord.next (.step hOwn hStep₁)
  have hPush : Next Machine.CallsOwn b c := .step (.of_not_calls (by simp [Frame.calls, hFirst])) hStep₂
  have hSame : b.note c [(frame.function, 6)] = [(frame.function, 6)] := by
    simp [note, suspended, b, c, m₁, Machine.push]
  have hPushed : Recorded Machine.CallsOwn c [(frame.function, 6)] := hSame ▸ hEntered.next hPush
  have hTraces := trace_at_lines.1 _ _ _ _ _ _ hPushed rfl hStep₃
  refine ⟨c, frame.function, _, _, _, hPushed, rfl, hStep₃, hTraces, ?_⟩
  rw [hTraces.points, List.map_singleton, hLine, hPoint]

end Moment

end Lox
