import Lox.Proofs.Machine.Safety
import Lox.Proofs.Machine.Sessions

/-!
# Sessions do not go wrong

In every session the machine runs in order, whatever becomes of its source texts, if its native functions
return no function but those of source texts that were accepted (`Moment.Reached.orderly`). So no run meets a
fault that only bytecode could have that no compiler wrote (`Moment.fault_not_internal`). A text that is
rejected leaves functions on the heap too, as far as they were compiled; a native function that returns one of
them lets a run meet such a fault (`Session.leftover_underflows`).
-/

set_option autoImplicit false

namespace Lox

/-- The functions of some scripts: the scripts, and those declared in them at any depth. There is a script for
a source text that was accepted only, so the functions that a rejected one left on the heap are not among
them. -/
inductive Function.Among (scripts : List Fn) : Fn → Prop
  | script {f : Fn} : f ∈ scripts → Among scripts f
  | nested {f g : Fn} : Among scripts f → .object (.function g) ∈ f.chunk.constants →
      Among scripts g

/-- A native function that is called returns no function but those of some scripts: none that came from
elsewhere, and none that a rejected source text left. -/
def Machine.Loyal (scripts : List Fn) : Machine → Frame → Prop :=
  Machine.Answers fun v => ∀ f, v = .object (.function f) → f.Among scripts

/-- Whether the next instruction of a frame is a call. -/
def Frame.calls (frame : Frame) : Bool :=
  match frame.function.chunk.decode frame.ip with
  | .instruction ⟨.call, _⟩ _ => true
  | _ => false

/-- Whether a run goes on with a call. -/
def Progress.calls : Progress → Bool
  | running _ frame => frame.calls
  | _ => false

theorem Frame.ne_call {frame : Frame} (h : frame.calls = false) (count next : Nat) :
    frame.function.chunk.decode frame.ip ≠ .instruction ⟨.call, count⟩ next := by
  intro hDecode
  rw [calls, hDecode] at h
  cases h

theorem Value.eq_of_asFunction? {v : Value} {f : Fn} (h : v.asFunction? = some f) :
    v = .object (.function f) := by
  unfold asFunction? at h
  split at h
  · cases h
    rfl
  · cases h

theorem Value.eq_some_of_asFunction? {v? : Option Value} {f : Fn} (h : v?.bind asFunction? = some f) :
    v? = some (.object (.function f)) := by
  obtain ⟨v, hv, hf⟩ := Option.bind_eq_some_iff.1 h
  rw [hv, eq_of_asFunction? hf]

theorem Function.Among.self (f : Fn) : f.Among [f] := .script (List.mem_singleton_self f)

theorem Function.Among.of_constant {f g : Fn} {i : Nat}
    (h : f.chunk.constants[i]? = some (.object (.function g))) : g.Among [f] :=
  .nested (.self f) (Array.mem_of_getElem? h)

theorem Function.Among.cons {scripts : List Fn} {f : Fn} (hf : f.Among scripts) (script : Fn) :
    f.Among (script :: scripts) := by
  induction hf with
  | script hMem => exact .script (List.mem_cons_of_mem _ hMem)
  | nested _ hMem ih => exact .nested ih hMem

theorem Function.Among.sound {scripts : List Fn} {heap : Heap} (hs : ∀ f ∈ scripts, f.Sound heap)
    {f : Fn} (hf : f.Among scripts) : f.Sound heap := by
  induction hf with
  | script hMem => exact hs _ hMem
  | nested _ hMem ih =>
    obtain ⟨w, r, hd, hc, hp, hl, hw⟩ := ih
    exact hc.constant_mem hd hp hl hw Value.closed_sound.toStable hMem _ rfl

namespace Machine

variable {P : Heap → Value → Prop} {m : Machine}

/-- Native functions answer with what they compute, or with nil. -/
theorem answers_of_natives {Q : Value → Prop} (hNil : Q .nil)
    (h : ∀ b ∈ m.natives, ∀ now args, Q (b now args)) (frame : Frame) : m.Answers Q frame := by
  intro count next native m' frame' v hDecode hPeek hStep hTop
  simp only [step, hDecode, execute, call, hPeek] at hStep
  split at hStep
  · cases hStep
  · cases hStep
    simp only [peek?, push, Array.size_push, Nat.zero_lt_succ, if_true, Nat.add_sub_cancel, Nat.sub_zero,
      Array.getElem?_push_size, Option.some.injEq] at hTop
    subst hTop
    split
    · rename_i b hGet
      exact h b (Array.mem_of_getElem? hGet) _ _
    · exact hNil

/-- While a source text is interpreted, native functions are loyal if all of them return no function but those
of the scripts before. -/
theorem loyal_of_natives {s s₁ : Session} {scripts : List Fn} (hNatives : ∀ b ∈ s.machine.natives,
      ∀ now args f, b now args = .object (.function f) → f.Among scripts)
    {source : String} {frame frame' : Frame} (hLoad : s.load source = (.ok frame, s₁)) {tracing : Bool}
    {n : Nat} (hRun : s₁.machine.run tracing n frame = .running m frame') (log : String) :
    { m with log }.Loyal (frame.function :: scripts) frame' := by
  refine answers_of_natives nofun (fun b hb now args f hf => (hNatives b ?_ now args f hf).cons _) frame'
  have hSame := natives_run tracing n s₁.machine frame
  rw [hRun, Session.natives_load hLoad] at hSame
  exact hSame ▸ hb

/-- A machine in order that does not run. -/
structure Idle (P : Heap → Value → Prop) (m : Machine) : Prop extends m.Kept P where
  stack : m.stack = #[]
  callers : m.callers = []

theorem Kept.defineNative (hP : Value.Stable P) (h : m.Kept P) (name : String) (arity : Nat)
    (behaviour : Behaviour) : (m.defineNative name arity behaviour).Kept P ∧
      m.heap.Extends (m.defineNative name arity behaviour).heap := by
  obtain ⟨hWF, hExtends, hNative⟩ := Heap.allocNative_spec h.heap name arity m.natives.size
  obtain ⟨hWF', hExtends', hMem, -⟩ := Heap.intern_spec hWF name
  have hKept := h.extend hP hWF' (hExtends.trans hExtends')
  exact ⟨{ hKept.set hMem (hP.native (hExtends'.mem hNative)) with }, hExtends.trans hExtends'⟩

theorem Running.extend (hP : Value.Stable P) {frame : Frame} (h : m.Running P frame) {heap : Heap}
    (hw : heap.WF) (he : m.heap.Extends heap) : { m with heap }.Running P frame := by
  obtain ⟨⟨n, hm, hs⟩, hc⟩ := h
  exact ⟨⟨n, hm.extend hP hw he, hs.mono he⟩, hc.mono he⟩

/-- A compiled script starts in order. -/
theorem Idle.running_script (hP : Value.Stable P) (h : m.Idle P) {heap : Heap} (hw : heap.WF)
    (he : m.heap.Extends heap) {f : Fn} (hf : f.Sound heap) (hArity : f.arity = 0) (log : String) :
    (({ m with heap, log }).push (.object (.function f))).Running P ⟨f, 0, m.stack.size⟩ := by
  have hSize : m.stack.size = 0 := by rw [h.stack]; rfl
  have hEmpty : { m with heap, log }.In P 0 0 :=
    { h.toKept.extend hP hw he with
      stack := by
        intro v hv
        rw [h.stack] at hv
        simp at hv
      height := hSize }
  have hStands := hf.stands 0
  rw [hArity] at hStands
  refine ⟨⟨1, ?_, ?_⟩, ?_⟩
  · rw [hSize]
    exact hEmpty.push (hP.function hf)
  · rw [hSize]
    exact hStands
  · rw [hSize]
    change Frame.Stacked heap 0 m.callers
    rw [h.callers]
    exact .none

end Machine

/-- A compiled script is sound. -/
theorem sound_of_compile {source : String} {heap heap' : Heap} {f : Fn} (hh : heap.WF)
    (h : compile source heap = (.ok f, heap')) : f.Sound heap' ∧ f.arity = 0 := by
  obtain ⟨w, r, ha, hp, rfl, hw, hc⟩ := compiled_of_compile hh h
  refine ⟨⟨w, r, hw.distinct, hc, hp, ha.legal, .refl _⟩, ?_⟩
  obtain ⟨-, -, hArity, -⟩ := hc
  cases ha.derives
  exact hArity

namespace Moment

/-- A session in order. -/
structure Orderly (P : Heap → Value → Prop) (a : Moment) : Prop where
  scripts : ∀ f ∈ a.scripts, f.Sound a.session.machine.heap
  machine : match a.running with
    | none => a.session.machine.Idle P
    | some frame => a.session.machine.Running P frame

variable {P : Heap → Value → Prop} {ok : List Fn → Machine → Frame → Prop}

theorem Orderly.start (hP : Value.Stable P) (settings : Settings) (output : Output) :
    (Moment.start settings output).Orderly P := by
  have hNew : ({ output } : Machine).Kept P :=
    ⟨Heap.empty_wf, Table.empty_wf, fun k v hv => absurd hv (Table.not_holds_empty k v),
      fun k v hv => absurd hv (Table.not_holds_empty k v)⟩
  refine ⟨fun f hf => absurd hf List.not_mem_nil, ?_⟩
  change (Session.create settings output).machine.Idle P
  unfold Session.create
  dsimp only
  split
  · exact ⟨(hNew.defineNative hP "clock" 0 .clock).1, rfl, rfl⟩
  · exact ⟨hNew, rfl, rfl⟩

/-- A session stays in order, if native functions answer with values of the set, and only sound functions
are called. -/
theorem Orderly.next (hP : Value.Stable P) (hok : ∀ {scripts m frame}, (∀ f ∈ scripts, f.Sound m.heap) →
      m.Running P frame → ok scripts m frame → m.Answers (P m.heap) frame ∧ m.CallsSound frame)
    {a b : Moment} (h : a.Orderly P) (hn : Next ok a b) : b.Orderly P := by
  obtain ⟨hScripts, hMachine⟩ := h
  cases hn with
  | @host s running scripts stores e =>
    refine ⟨hScripts, ?_⟩
    cases running with
    | none => exact { hMachine with }
    | some frame =>
      obtain ⟨⟨n, hm, hs⟩, hc⟩ := hMachine
      exact ⟨⟨n, { hm with }, hs⟩, hc⟩
  | @reserve s running scripts stores =>
    have he : s.machine.heap.Extends s.machine.heap.reserve.2 :=
      ⟨List.suffix_refl _, Nat.le_succ _⟩
    refine ⟨fun f hf => (hScripts f hf).mono he, ?_⟩
    cases running with
    | none =>
      exact { hMachine.toKept.extend hP (Heap.reserve_wf hMachine.heap) he with
        stack := hMachine.stack, callers := hMachine.callers }
    | some frame =>
      obtain ⟨n, hm, -⟩ := hMachine.height
      exact hMachine.extend hP (Heap.reserve_wf hm.heap) he
  | define name arity behaviour =>
    obtain ⟨hKept, he⟩ := hMachine.toKept.defineNative hP name arity behaviour
    exact ⟨fun f hf => (hScripts f hf).mono he, hKept, hMachine.stack, hMachine.callers⟩
  | @reject s s' scripts stores source problems hLoad =>
    obtain ⟨heap, hCompile, rfl⟩ := Session.load_eq_error hLoad
    obtain ⟨hw, he⟩ := grows_compile source s.machine.heap hMachine.heap
    rw [hCompile] at hw he
    exact ⟨fun f hf => (hScripts f hf).mono he, hMachine.toKept.extend hP hw he, hMachine.stack,
      hMachine.callers⟩
  | @load s s' scripts stores source frame hLoad =>
    obtain ⟨f, heap, log, hCompile, rfl, rfl⟩ := Session.load_eq_ok hLoad
    obtain ⟨hw, he⟩ := grows_compile source s.machine.heap hMachine.heap
    rw [hCompile] at hw he
    obtain ⟨hSound, hArity⟩ := sound_of_compile hMachine.heap hCompile
    refine ⟨fun g hg => ?_, hMachine.running_script hP hw he hSound hArity log⟩
    rcases List.mem_cons.1 hg with rfl | hg
    · exact hSound
    · exact (hScripts g hg).mono he
  | @step s frame frame' scripts stores m hCond hStep =>
    obtain ⟨hAnswers, hCalls⟩ := hok hScripts hMachine hCond
    have hSafe := Machine.Running.step hP hMachine hAnswers hCalls
    rw [hStep] at hSafe
    exact ⟨fun f hf => (hScripts f hf).mono hSafe.2, hSafe.1⟩
  | @halt s frame scripts stores m t hCond hStep =>
    obtain ⟨hAnswers, hCalls⟩ := hok hScripts hMachine hCond
    have hSafe := Machine.Running.step hP hMachine hAnswers hCalls
    rw [hStep] at hSafe
    obtain ⟨hKept, he, hStack, hCallers⟩ := hSafe
    exact ⟨fun f hf => (hScripts f hf).mono he, hKept, hStack, hCallers⟩
  | @fail s frame frame' scripts stores m fault t hCond hStep =>
    obtain ⟨hAnswers, hCalls⟩ := hok hScripts hMachine hCond
    have hSafe := Machine.Running.step hP hMachine hAnswers hCalls
    rw [hStep] at hSafe
    obtain ⟨-, hKept, he⟩ := hSafe
    exact ⟨fun f hf => (hScripts f hf).mono he, { hKept with stack := rfl, callers := rfl }⟩

theorem Reached.orderly_of (hP : Value.Stable P) (hok : ∀ {scripts m frame},
      (∀ f ∈ scripts, f.Sound m.heap) → m.Running P frame → ok scripts m frame →
      m.Answers (P m.heap) frame ∧ m.CallsSound frame)
    {a : Moment} (h : Reached ok a) : a.Orderly P := by
  induction h with
  | start settings output => exact .start hP settings output
  | next _ hn ih => exact ih.next hP hok hn

theorem Reached.orderly {a : Moment} (h : Reached Machine.Loyal a) : a.Orderly Value.Sound := by
  refine h.orderly_of Value.closed_sound.toStable fun hScripts hr hl =>
    ⟨?_, hr.callsSound Value.closed_sound⟩
  intro count next native m' frame' v hd hp hs hv f hf
  exact (hl count next native m' frame' v hd hp hs hv f hf).sound hScripts

/-- A new session behind so many instructions of a source text, none of which is a call: the session, the
frame it runs in, and the script. -/
def early? (source : String) (n : Nat) : Option (Session × Frame × Fn) :=
  match (Session.create {} {}).load source with
  | (.ok frame, s) =>
    if (List.range n).any fun k => (s.machine.run false k frame).calls then none
    else
      match s.machine.run false n frame with
      | .running m frame' => some ({ s with machine := m }, frame', frame.function)
      | _ => none
  | _ => none

theorem Reached.later {a b : Moment} (ha : Reached ok a)
    (hb : Relation.ReflTransGen (Next ok) a b) : Reached ok b := by
  induction hb with
  | refl => exact ha
  | tail _ hn ih => exact ih.next hn

/-- A run under way is a part of a session, if the condition is met at each of its instructions. -/
theorem later_of_run {s : Session} {scripts : List Fn} {n : Nat} {frame frame' : Frame} {m : Machine}
    (hRun : s.machine.run false n frame = .running m frame')
    (hok : ∀ k m frame', k < n → s.machine.run false k frame = .running m frame' → ok scripts m frame')
    (stores : List (String × Value)) :
    ∃ stores', Relation.ReflTransGen (Next ok) ⟨s, some frame, scripts, stores⟩
      ⟨{ s with machine := m }, some frame', scripts, stores'⟩ := by
  induction n generalizing s frame stores with
  | zero =>
    cases hRun
    exact ⟨stores, .refl⟩
  | succ n ih =>
    have hOk := hok 0 s.machine frame (Nat.succ_pos n) rfl
    cases hStep : s.machine.step frame with
    | next m₁ frame₁ =>
      have hSucc (k : Nat) : s.machine.run false (k + 1) frame = m₁.run false k frame₁ := by
        simp [Machine.run, hStep]
      rw [hSucc] at hRun
      obtain ⟨stores', hLater⟩ := ih (s := { s with machine := m₁ }) hRun
        (fun k m frame' hk hRun' => hok (k + 1) m frame' (Nat.succ_lt_succ hk) ((hSucc k).trans hRun')) _
      exact ⟨stores', .head (.step hOk hStep) hLater⟩
    | halt | fail =>
      simp [Machine.run, hStep] at hRun

/-- The moment when a source text has been loaded. -/
def loaded (a : Moment) (start : Frame) (s : Session) : Moment :=
  ⟨s, some start, start.function :: a.scripts, a.stores⟩

theorem later_of_early? {source : String} {n : Nat} {s : Session} {frame : Frame} {script : Fn}
    (h : early? source n = some (s, frame, script))
    (hok : ∀ {m frame}, frame.calls = false → ok [script] m frame) :
    ∃ start s₀ stores, (Session.create {} {}).load source = (.ok start, s₀) ∧
      start.function = script ∧ Relation.ReflTransGen (Next ok) ((Moment.start {} {}).loaded start s₀)
        ⟨s, some frame, [script], stores⟩ := by
  unfold early? at h
  split at h
  · rename_i start s₀ hLoad
    split at h
    · cases h
    · rename_i hNone
      split at h
      · rename_i m frame' hRun
        cases h
        have hCalls (k : Nat) (m : Machine) (frame : Frame) (hk : k < n)
            (hRun : s₀.machine.run false k start = .running m frame) :
            ok [start.function] m frame := by
          refine hok (Bool.eq_false_iff.2 fun hCalls => hNone ?_)
          refine List.any_eq_true.2 ⟨k, List.mem_range.2 hk, ?_⟩
          rw [hRun]
          exact hCalls
        obtain ⟨stores, hLater⟩ := later_of_run hRun hCalls (Moment.start {} {}).stores
        exact ⟨start, s₀, stores, hLoad, rfl, hLater⟩
      · cases h
  · cases h

theorem Reached.of_early? {source : String} {n : Nat} {s : Session} {frame : Frame} {script : Fn}
    (h : early? source n = some (s, frame, script))
    (hok : ∀ {m frame}, frame.calls = false → ok [script] m frame) :
    ∃ stores, Reached ok ⟨s, some frame, [script], stores⟩ := by
  obtain ⟨start, s₀, stores, hLoad, -, hLater⟩ := later_of_early? h hok
  exact ⟨stores, (Reached.first hLoad).later hLater⟩

/-- An instruction of a session in order fails only with a fault that programs have. -/
theorem Orderly.not_internal {a : Moment} (h : a.Orderly Value.Sound) {frame frame' : Frame} {m : Machine}
    {fault : Fault} (hr : a.running = some frame)
    (hStep : a.session.machine.step frame = .fail m frame' fault) : fault.internal = false := by
  have hRunning := h.machine
  rw [hr] at hRunning
  have hAnswers : a.session.machine.Answers (Value.Sound a.session.machine.heap) frame :=
    fun _ _ _ _ _ _ _ _ hNext => by
      rw [hStep] at hNext
      cases hNext
  have hSafe := hRunning.step Value.closed_sound.toStable hAnswers (hRunning.callsSound Value.closed_sound)
  rw [hStep] at hSafe
  exact hSafe.1

/-- No instruction of a session fails with a fault that only bytecode could have that no compiler wrote,
and so does no source text that is interpreted, as long as native functions return no function but those of
the source texts that the session accepted. Nor does tracing ever miss an instruction. -/
theorem fault_not_internal {a : Moment} (ha : Reached Machine.Loyal a) :
    (∀ frame m frame' fault, a.running = some frame →
      a.session.machine.step frame = .fail m frame' fault → fault.internal = false) ∧
    ∀ source fuel, a.running = none →
      (∀ s frame, a.session.load source = (.ok frame, s) → ∀ n m frame', n < fuel →
        s.machine.run s.settings.traceExecution n frame = .running m frame' →
        ∀ log, { m with log }.Loyal (frame.function :: a.scripts) frame') →
      (∀ error, (a.session.interpret source fuel).1 = .failed error →
        error.fault.internal = false) ∧ (a.session.interpret source fuel).1 ≠ .crashed := by
  refine ⟨fun frame m frame' fault hr hStep => ha.orderly.not_internal hr hStep, ?_⟩
  intro source fuel hIdle hLoyal
  obtain ⟨s, running, scripts, stores⟩ := a
  cases hIdle
  have hInterpreted := ha.interpret source fuel hLoyal
  constructor
  · intro error hFailed
    obtain ⟨b, frame, m, frame', hb, hr, hStep, -⟩ := hInterpreted.failed error hFailed
    exact hb.orderly.not_internal hr hStep
  · intro hCrashed
    obtain ⟨-, frame, _, _, hOutside, hb⟩ := hInterpreted.crashed hCrashed
    generalize (s.interpret source fuel).2 = s' at hb
    have hStep : s'.machine.step frame = .fail s'.machine frame .outsideCode := by
      unfold Machine.step
      rw [hOutside]
    cases hb.orderly.not_internal rfl hStep

end Moment

namespace Sample

/-- A new session without native functions. -/
def session : Session := .create { natives := false } {}

/-- A function that takes a jump and then fails. -/
def picky : String := "fun g(n) { if (n) return 1; return 2 + nil; }"

/-- The function that is declared in it, a constant of its script. -/
def picked : Value :=
  ((session.load picky).1.toOption.bind (·.function.chunk.constants[1]?)).getD .nil

/-- A session that has declared the function, in which `pick` returns it. -/
def picking : Session :=
  let s := (session.interpret picky 10).2
  { s with machine := s.machine.defineNative "pick" 0 (.always picked) }

end Sample

open Sample

/-- A native function returns a function that was declared before, which jumps and fails. -/
theorem Moment.fault_not_internal_picked :
    (picked.asFunction?.map Function.arity = some 1) ∧
    ∃ error, (picking.interpret "pick()(false);" 20).1 = .failed error ∧
      error = ⟨.notAddable, [⟨1, some "g"⟩, ⟨1, none⟩]⟩ ∧ error.fault.internal = false := by
  have hPicked : picked.asFunction?.map Function.arity = some 1 := by decide +kernel
  have hLoads : (Sample.session.load picky).1.isOk = true := by decide +kernel
  have hOk : (Sample.session.interpret picky 10).1 = .ok := by decide +kernel
  have hFailed : (picking.interpret "pick()(false);" 20).1 =
      .failed ⟨.notAddable, [⟨1, some "g"⟩, ⟨1, none⟩]⟩ := by decide +kernel
  obtain ⟨frame, hFrame⟩ := exists_of_isOk hLoads
  have hLoad : Sample.session.load picky = (.ok frame, (Sample.session.load picky).2) := Prod.ext hFrame rfl
  have hInterpret : Sample.session.interpret picky 10 = (.ok, (Sample.session.interpret picky 10).2) :=
    Prod.ext hOk rfl
  have hAmong : ∀ f, picked = .object (.function f) → f.Among [frame.function] := by
    intro f hf
    rw [picked, hFrame, Except.toOption, Option.bind_some] at hf
    cases hGet : frame.function.chunk.constants[1]? with
    | none =>
      rw [hGet] at hf
      cases hf
    | some v =>
      rw [hGet] at hf
      cases hf
      exact .of_constant hGet
  obtain ⟨stores, hReached⟩ := (Moment.Reached.start { natives := false } {}).interpret_ok hLoad
    (fun n m frame' _ hRun log =>
      Machine.loyal_of_natives (fun b hb => absurd hb (Array.not_mem_empty b)) hLoad hRun log) hInterpret
  have hPicking : Moment.Reached Machine.Loyal ⟨picking, none, [frame.function], _⟩ :=
    hReached.next (.define "pick" 0 (.always picked))
  refine ⟨hPicked, _, hFailed, rfl, ?_⟩
  refine ((Moment.fault_not_internal hPicking).2 "pick()(false);" 20 rfl ?_).1 _ hFailed
  intro s₂ frame₂ hLoad₂ n m frame' _ hRun log
  refine Machine.loyal_of_natives (fun b hb now args f hf => ?_) hLoad₂ hRun log
  rw [picking, Machine.natives_defineNative, Session.natives_interpret] at hb
  obtain rfl : b = .always picked := Array.mem_singleton.1 hb
  exact hAmong f hf

/-! ## Functions of rejected texts -/

/-- Whether a source text was rejected. -/
def Outcome.isRejected : Outcome → Bool
  | rejected _ => true
  | _ => false

/-- The function made last, if there is one. -/
def Heap.newest? (h : Heap) : Option Fn := h.objects.findSome? fun o => (Value.object o).asFunction?

theorem Heap.mem_of_newest? {h : Heap} {f : Fn} (hf : h.newest? = some f) : .function f ∈ h.objects := by
  obtain ⟨o, ho, hFunction⟩ := List.exists_of_findSome?_eq_some hf
  cases Value.eq_of_asFunction? hFunction
  exact ho

namespace Sample

/-- A new session that has read a source text. -/
def reader (source : String) : Outcome × Session := session.interpret source 0

/-- A function that the text left. -/
def leftover (source : String) : Value :=
  (reader source).2.machine.heap.newest?.elim .nil fun f => .object (.function f)

/-- The session that has read the text, in which `left` returns the function. -/
def leaving (source : String) : Session :=
  let s := (reader source).2
  { s with machine := s.machine.defineNative "left" 0 (.always (leftover source)) }

/-- A text is rejected, but the compiler has made a function of it, and no native function returns any other. -/
structure Leaves (source : String) : Prop where
  rejected : ∃ problems, (reader source).1 = .rejected problems
  made : ∃ f, leftover source = .object (.function f) ∧
    .function f ∈ (reader source).2.machine.heap.objects
  natives : (leaving source).machine.natives = #[.always (leftover source)]

theorem leaves_of_rejected {source : String} (hRejected : (reader source).1.isRejected = true)
    (hMade : (reader source).2.machine.heap.newest?.isSome = true) : Leaves source where
  rejected := by
    generalize (reader source).1 = outcome at hRejected
    cases outcome with
    | rejected problems => exact ⟨problems, rfl⟩
    | ok | failed | crashed | unfinished => cases hRejected
  made := by
    obtain ⟨f, hf⟩ := Option.isSome_iff_exists.1 hMade
    refine ⟨f, ?_, Heap.mem_of_newest? hf⟩
    rw [leftover, hf]
    rfl
  natives := by
    rw [leaving, Machine.natives_defineNative, reader, Session.natives_interpret]
    rfl

/-- Each `)` stands where an expression is missing, so that the function drops values that nothing pushed. -/
def dropping : String := "fun f() { ); ); ); ); }"

end Sample

/-- A call of what a rejected text left meets a fault that accepted texts never do. -/
theorem Session.leftover_underflows : Leaves dropping ∧
    ((leaving dropping).interpret "left()();" 20).1 =
      .failed ⟨.stackUnderflow, [⟨1, some "f"⟩, ⟨1, none⟩]⟩ ∧
    Fault.stackUnderflow.internal = true :=
  ⟨leaves_of_rejected (by decide +kernel) (by decide +kernel), by decide +kernel, rfl⟩

end Lox
