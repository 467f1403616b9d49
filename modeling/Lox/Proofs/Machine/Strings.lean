import Lox.Proofs.Compiler.Twins
import Lox.Proofs.Composition.Worlds

/-!
# Strings are equal by their texts

Equality of objects is that of identities. Every string that a session can get at (`Moment.Reaches`) is
the one string object of its text on the heap, so two of them are the same object exactly if their texts
are equal (`Moment.strings_canonical`). All strings come from the heap: instructions and the compiler
intern what they make, and native functions may only hand on what there is (`Machine.Modest`).
-/

set_option autoImplicit false

namespace Lox

/-! ## What is on the heap -/

/-- The names and constants of all functions on a heap are on it. -/
def Heap.Rooted (h : Heap) : Prop := ∀ f, .function f ∈ h.objects → f.Rooted h

theorem Heap.Grown.heap_rooted {h₀ h : Heap} (hg : h₀.Grown h) (hr : h₀.Rooted) : h.Rooted := by
  intro f hf
  rcases hg.rooted f hf with hOld | hNew
  · exact (hr f hOld).mono hg.old
  · exact hNew

namespace Machine

/-- An instruction makes no object but the string of a text. -/
theorem heap_execute (m : Machine) (frame : Frame) (i : Instruction) :
    (m.execute frame i).machine.heap = m.heap ∨
      ∃ text, (m.execute frame i).machine.heap = (m.heap.intern text).2 := by
  obtain ⟨op, operand⟩ := i
  cases op with
  | add =>
    simp only [execute, add]
    split
    · exact .inl rfl
    · exact .inr ⟨_, rfl⟩
    · exact .inl rfl
    · exact .inl rfl
  | _ =>
    simp only [execute, constant, pop, getLocal, setLocal, getGlobal, defineGlobal, setGlobal, equal,
      arithmetic, not, negate, print, jumpIfFalse, loop, call, ret]
    repeat' split
    all_goals exact .inl rfl

theorem grown_step {m : Machine} (hw : m.heap.WF) (frame : Frame) :
    m.heap.Grown (m.step frame).machine.heap := by
  have hSame : m.heap.Grown m.heap := .refl hw
  unfold step
  split
  · exact hSame
  · exact hSame
  · exact hSame
  · rename_i i next _
    rcases m.heap_execute { frame with ip := next } i with hHeap | ⟨text, hHeap⟩
    · rw [hHeap]
      exact hSame
    · rw [hHeap]
      exact hSame.intern text

end Machine

namespace Moment

variable {ok : List Fn → Machine → Frame → Prop}

/-- What happens in a session lets the heap grow. -/
theorem Next.grown {a b : Moment} (hn : Next ok a b) (hw : a.session.machine.heap.WF) :
    a.session.machine.heap.Grown b.session.machine.heap := by
  have hSame := Heap.Grown.refl hw
  cases hn with
  | host e => exact hSame
  | reserve => exact hSame.reserve
  | define name arity behaviour => exact (hSame.allocNative ..).intern name
  | @reject s s' scripts stores source problems hLoad =>
    have hg := grown_compile source hw
    obtain ⟨heap, hCompile, rfl⟩ := Session.load_eq_error hLoad
    rwa [hCompile] at hg
  | @load s s' scripts stores source frame hLoad =>
    have hg := grown_compile source hw
    obtain ⟨f, heap, log, hCompile, rfl, rfl⟩ := Session.load_eq_ok hLoad
    rwa [hCompile] at hg
  | @step s frame frame' scripts stores m _ hStep | @halt s frame scripts stores m t _ hStep
  | @fail s frame frame' scripts stores m fault t _ hStep =>
    have hg := Machine.grown_step hw frame
    rw [hStep] at hg
    exact hg

theorem rooted_start (settings : Settings) (output : Output) :
    (Moment.start settings output).session.machine.heap.WF ∧
      (Moment.start settings output).session.machine.heap.Rooted := by
  have hEmpty : ({} : Heap).Rooted := fun _ hf => absurd hf List.not_mem_nil
  have hg : ({} : Heap).Grown (Session.create settings output).machine.heap := by
    unfold Session.create
    dsimp only
    split
    · exact ((Heap.Grown.refl Heap.empty_wf).allocNative ..).intern "clock"
    · exact .refl Heap.empty_wf
  exact ⟨hg.wf, hg.heap_rooted hEmpty⟩

theorem Reached.rooted {a : Moment} (h : Reached ok a) :
    a.session.machine.heap.WF ∧ a.session.machine.heap.Rooted := by
  induction h with
  | start settings output => exact rooted_start settings output
  | next _ hn ih =>
    have hg := hn.grown ih.1
    exact ⟨hg.wf, hg.heap_rooted ih.2⟩

end Moment

/-! ## Modest native functions -/

/-- A native function that is called returns no object, what is on the stack, as its arguments are, or a
string on the heap. -/
def Machine.Modest (_ : List Fn) (m : Machine) : Frame → Prop :=
  m.Answers fun v => (∀ o, v ≠ .object o) ∨ v ∈ m.stack ∨
    ∃ s, v = .object (.string s) ∧ .string s ∈ m.heap.objects

theorem Machine.Modest.of_not_calls {scripts : List Fn} {m : Machine} {frame : Frame}
    (h : frame.calls = false) : m.Modest scripts frame :=
  fun count next _ _ _ _ hDecode => absurd hDecode (frame.ne_call h count next)

/-- A machine whose values are on its heap gets no others from a modest native function. -/
theorem Machine.Modest.answers {scripts : List Fn} {m : Machine} {frame : Frame}
    (h : m.Modest scripts frame) (hr : m.Running Value.Own frame) :
    m.Answers (Value.Own m.heap) frame := by
  intro count next native m' frame' v hDecode hNative hStep hv
  obtain ⟨n, hm, -⟩ := hr.height
  rcases h count next native m' frame' v hDecode hNative hStep hv with hPlain | hStack | ⟨s, rfl, hs⟩
  · exact Value.closed_own.plain hPlain
  · exact hm.stack v hStack
  · exact Value.closed_own.string hs

namespace Moment

theorem Reached.own_of_modest {a : Moment} (h : Reached Machine.Modest a) : a.Orderly Value.Own :=
  h.orderly_of Value.closed_own.toStable fun _ hr hm => ⟨hm.answers hr, hr.callsSound Value.closed_own⟩

/-! ## What a session can get at -/

/-- The objects that a session can get at: those on the stack, the names and values of the globals, the
functions of the calls in progress, and the names and constants of functions it can get at. -/
inductive Reaches (a : Moment) : Obj → Prop
  | stack {o : Obj} : .object o ∈ a.session.machine.stack → Reaches a o
  | key {k : Obj} {v : Value} : a.session.machine.globals.Holds k v → Reaches a k
  | global {k o : Obj} : a.session.machine.globals.Holds k (.object o) → Reaches a o
  | running {frame : Frame} : a.running = some frame → Reaches a (.function frame.function)
  | caller {frame : Frame} : frame ∈ a.session.machine.callers → Reaches a (.function frame.function)
  | name {f : Fn} {s : Str} : Reaches a (.function f) → f.name = some s → Reaches a (.string s)
  | constant {f : Fn} {o : Obj} : Reaches a (.function f) → .object o ∈ f.chunk.constants → Reaches a o

end Moment

/-- The function of a call in progress is on the heap. -/
theorem Frame.Stands.mem {heap : Heap} {frame : Frame} {h : Nat} (hs : frame.Stands heap h) :
    .function frame.function ∈ heap.objects := by
  obtain ⟨w, r, -, -, ⟨hMem, -⟩, -, he, -⟩ := hs
  exact he.mem hMem

theorem Frame.Stacked.mem {heap : Heap} {base : Nat} {callers : List Frame}
    (hs : Frame.Stacked heap base callers) :
    ∀ frame ∈ callers, .function frame.function ∈ heap.objects := by
  induction hs with
  | none => exact nofun
  | call hStands _ ih => exact List.forall_mem_cons.2 ⟨hStands.mem, ih⟩

namespace Moment

/-- What a session in order starts from: what it keeps, and that stack and calls are on the heap. -/
theorem Orderly.roots {a : Moment} (h : a.Orderly Value.Own) :
    a.session.machine.Kept Value.Own ∧
    (∀ v ∈ a.session.machine.stack, v.Own a.session.machine.heap) ∧
    (∀ frame, a.running = some frame → .function frame.function ∈ a.session.machine.heap.objects) ∧
    ∀ frame ∈ a.session.machine.callers, .function frame.function ∈ a.session.machine.heap.objects := by
  have hMachine := h.machine
  split at hMachine
  · rename_i hIdle
    rw [hIdle, hMachine.stack, hMachine.callers]
    exact ⟨hMachine.toKept, by simp, nofun, nofun⟩
  · rename_i frame hRunning
    obtain ⟨⟨n, hm, hs⟩, hc⟩ := hMachine
    rw [hRunning]
    refine ⟨hm.toKept, hm.stack, fun frame' hEq => ?_, hc.mem⟩
    cases hEq
    exact hs.mem

theorem Reaches.mem {a : Moment} (ha : a.Orderly Value.Own) (hRooted : a.session.machine.heap.Rooted)
    {o : Obj} (h : a.Reaches o) : o ∈ a.session.machine.heap.objects := by
  obtain ⟨hKept, hStack, hRunning, hCallers⟩ := ha.roots
  induction h with
  | stack hMem => exact (hStack _ hMem).2 _ rfl
  | key hHolds => exact hKept.keys _ _ hHolds
  | global hHolds => exact (hKept.values _ _ hHolds).2 _ rfl
  | running hr => exact hRunning _ hr
  | caller hMem => exact hCallers _ hMem
  | name _ hs ih => exact (hRooted _ ih).name _ hs
  | constant _ hMem ih => exact (hRooted _ ih).constants _ hMem

end Moment

/-! ## Equality and globals -/

namespace Machine

variable {P : Heap → Value → Prop} {m : Machine}

/-- Two names on the heap mean the same global exactly if their texts are equal. -/
theorem Kept.get?_set (h : m.Kept P) {s t : Str} (hs : .string s ∈ m.heap.objects)
    (ht : .string t ∈ m.heap.objects) (v : Value) :
    (m.globals.set (.string s) v).2.get? (.string t) =
      if s.text = t.text then some v else m.globals.get? (.string t) := by
  have hAny : m.Kept fun _ _ => True := { h with values := fun _ _ _ => trivial }
  have hSet := hAny.set hs (v := v) trivial
  refine Option.ext fun w => ?_
  rw [Table.get?_eq_some_iff hSet.table (hSet.knows ht), Table.holds_set h.table (h.knows hs)]
  by_cases hText : s.text = t.text
  · cases h.heap.canonical s t hs ht hText
    rw [if_pos rfl, Option.some.injEq]
    constructor
    · rintro (⟨-, rfl⟩ | ⟨hId, -⟩)
      · rfl
      · exact absurd rfl hId
    · rintro rfl
      exact .inl ⟨rfl, rfl⟩
  · rw [if_neg hText, Table.get?_eq_some_iff h.table (h.knows ht)]
    constructor
    · rintro (⟨hEq, -⟩ | ⟨-, hHolds⟩)
      · cases hEq
        exact absurd rfl hText
      · exact hHolds
    · intro hHolds
      exact .inr ⟨fun hId => hText ((h.heap.id_eq_iff ht hs).1 hId).symm, hHolds⟩

end Machine

namespace Moment

/-- In a session whose native functions are modest, every string that it can get at is the string object
of its text on the heap. So two strings on the stack are equal exactly if their texts are, wherever they
come from, and two names mean the same global exactly if their texts are equal. -/
theorem strings_canonical {a : Moment} (ha : Reached Machine.Modest a) :
    (∀ s, a.Reaches (.string s) → a.session.machine.heap.lookup? s.text = some s) ∧
    (∀ frame i next s t, a.running = some frame →
      frame.function.chunk.decode frame.ip = .instruction i next → i.op = .equal →
      a.session.machine.peek? 1 = some (.object (.string s)) →
      a.session.machine.peek? 0 = some (.object (.string t)) →
      a.session.machine.step frame =
        .next ((a.session.machine.drop 2).push (.bool (decide (s.text = t.text))))
          { frame with ip := next }) ∧
    ∀ s t, a.Reaches (.string s) → a.Reaches (.string t) → ∀ v,
      (a.session.machine.globals.set (.string s) v).2.get? (.string t) =
        if s.text = t.text then some v else a.session.machine.globals.get? (.string t) := by
  have hOwn := ha.own_of_modest
  obtain ⟨hw, hRooted⟩ := ha.rooted
  have hMem (o : Obj) (ho : a.Reaches o) : o ∈ a.session.machine.heap.objects := ho.mem hOwn hRooted
  refine ⟨fun s hs => ?_, ?_, fun s t hs ht v => hOwn.roots.1.get?_set (hMem _ hs) (hMem _ ht) v⟩
  · exact (Heap.lookup?_eq_some_iff hw s.text s).2 ⟨hMem _ hs, rfl⟩
  · intro frame i next s t _ hDecode hEqual hs ht
    have hSame := hw.id_eq_iff (hMem _ (.stack (Machine.mem_of_peek? hs)))
      (hMem _ (.stack (Machine.mem_of_peek? ht)))
    have hValue : (Value.object (.string s)).equal (.object (.string t)) = decide (s.text = t.text) :=
      decide_eq_decide.2 hSame
    simp only [Machine.step, hDecode, Machine.execute, hEqual, Machine.equal, hs, ht, hValue]

/-- What has the text of a string is one. -/
theorem exists_string_of_text {v : Option Value} {text : String}
    (h : (v.bind Value.asString?).map Str.text = some text) :
    ∃ s, v = some (.object (.string s)) ∧ s.text = text := by
  obtain ⟨s, hs, hText⟩ := Option.map_eq_some_iff.1 h
  obtain ⟨v, rfl, hv⟩ := Option.bind_eq_some_iff.1 hs
  refine ⟨s, ?_, hText⟩
  cases v with
  | object o => cases o <;> cases hv; rfl
  | nil | bool | number => cases hv

/-- The string that `+` makes equals the literal with its text. -/
theorem strings_canonical_joined :
    ∃ (a : Moment) (frame : Frame) (s t : Str) (m : Machine) (frame' : Frame),
      Reached Machine.Modest a ∧ a.running = some frame ∧
      a.session.machine.peek? 1 = some (.object (.string s)) ∧
      a.session.machine.peek? 0 = some (.object (.string t)) ∧ s.text = "ab" ∧ t.text = "ab" ∧
      a.session.machine.step frame = .next m frame' ∧ m.peek? 0 = some (.bool true) := by
  -- the first four instructions push both strings
  have hRun : ((early? "\"a\" + \"b\" == \"ab\";" 4).map fun (s, frame, _) =>
      (frame.function.chunk.decode frame.ip, ((s.machine.peek? 1).bind Value.asString?).map Str.text,
        ((s.machine.peek? 0).bind Value.asString?).map Str.text)) =
      some (.instruction ⟨.equal, 0⟩ 8, some "ab", some "ab") := by decide +kernel
  obtain ⟨⟨s, frame, script⟩, hEarly, hFacts⟩ := Option.map_eq_some_iff.1 hRun
  simp only [Prod.mk.injEq] at hFacts
  obtain ⟨hDecode, hLeft, hRight⟩ := hFacts
  obtain ⟨stores, hReached⟩ : ∃ stores, Reached Machine.Modest ⟨s, some frame, [script], stores⟩ :=
    Reached.of_early? hEarly .of_not_calls
  obtain ⟨left, hs, hText⟩ := exists_string_of_text hLeft
  obtain ⟨right, ht, hText'⟩ := exists_string_of_text hRight
  have hStep := (strings_canonical hReached).2.1 frame _ _ left right rfl hDecode rfl hs ht
  rw [hText, hText'] at hStep
  exact ⟨_, frame, left, right, _, _, hReached, rfl, hs, ht, hText, hText', hStep,
    by simp [Machine.peek?, Machine.push]⟩

end Moment

end Lox
