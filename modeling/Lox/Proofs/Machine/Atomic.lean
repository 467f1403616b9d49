import Lox.Proofs.Machine.Frames

/-!
# Failing instructions change nothing

An instruction that fails leaves the heap and the suspended calls as they are, and every name means what
it did (`Moment.fault_atomic`). Most instructions look at everything before they change anything. Only an
assignment to a name that is not defined takes something back: it files the name among the globals, for
which all entries may move to a larger table, and removes it again (`Table.holds_undo`).

The code may be any, and the names it stores under need not be on the heap. All that is asked of them is
what identities are there for, that no two objects have the same (`Machine.Genuine`).
-/

set_option autoImplicit false

namespace Lox

/-- Whether a fault is that an instruction refuses its operands or what it is to call, or does not find
the name it needs. -/
def Fault.refusal : Fault → Bool
  | undefinedVariable _ | notNumbers | notAddable | notNumber | notCallable | wrongArity _ _
  | stackOverflow => true
  | outputFailed _ | stackUnderflow | invalidSlot | outsideCode | unknownOpcode _ | invalidConstant _
  | notName _ | loopOutside => false

/-! ## Tables as maps -/

namespace Table

variable {ν : Type} {t t' : Table ν}

/-- Two tables are the same map: they have the same entries, in whatever order, and no key gets another
value. -/
structure SameMap (t t' : Table ν) : Prop where
  entries : t'.entries.Perm t.entries
  get? : ∀ key, t.Knows key → t'.get? key = t.get? key

theorem SameMap.refl (t : Table ν) : t.SameMap t := ⟨.refl _, fun _ _ => rfl⟩

theorem WF.nodup_entries (h : t.WF) : t.entries.Nodup := by
  refine (pairwise_entries h.filed).imp fun hId hEq => hId ?_
  rw [hEq]

theorem WF.sameMap (h : t.WF) (h' : t'.WF) (hSame : ∀ k v, t'.Holds k v ↔ t.Holds k v) :
    t.SameMap t' where
  entries := by
    refine (List.perm_ext_iff_of_nodup h'.nodup_entries h.nodup_entries).2 fun e => ?_
    rw [mem_entries, mem_entries, hSame]
  get? := fun key hk => by
    have hk' : t'.Knows key := fun k v hv => hk k v ((hSame k v).1 hv)
    refine Option.ext fun v => ?_
    rw [get?_eq_some_iff h' hk', get?_eq_some_iff h hk, hSame]

end Table

/-! ## Identities -/

/-- The identity of an object was handed out, and to no other object of the heap. -/
def Heap.Identifies (h : Heap) (o : Obj) : Prop :=
  o.id < h.nextId ∧ ∀ o' ∈ h.objects, o'.id = o.id → o' = o

theorem Heap.WF.identifies {h : Heap} (hw : h.WF) {o : Obj} (ho : o ∈ h.objects) : h.Identifies o :=
  ⟨hw.bound o ho, fun _ ho' hId => hw.eq_of_id ho' ho hId⟩

theorem Heap.Grown.identifies {h₀ h : Heap} (hg : h₀.Grown h) {o : Obj} (ho : h₀.Identifies o) :
    h.Identifies o := by
  refine ⟨ho.1.trans_le hg.old.nextId, fun o' ho' hId => ?_⟩
  rcases hg.fresh o' ho' with hOld | hNew
  · exact ho.2 o' hOld hId
  · have := ho.1
    omega

/-- The table of globals is in order, and the heap knows the identities of its keys. -/
structure Heap.Files (h : Heap) (t : Table Value) : Prop where
  table : t.WF
  keys : ∀ k v, t.Holds k v → h.Identifies k

namespace Heap.Files

variable {h : Heap} {t : Table Value} {key : Obj}

theorem mono (hf : h.Files t) {h' : Heap} (hg : h.Grown h') : h'.Files t :=
  ⟨hf.table, fun k v hv => hg.identifies (hf.keys k v hv)⟩

/-- An object of the heap shares its identity with no key. -/
theorem knows (hf : h.Files t) (hk : key ∈ h.objects) : t.Knows key :=
  fun k v hv hId => ((hf.keys k v hv).2 key hk hId.symm).symm

theorem set (hf : h.Files t) (hi : h.Identifies key) (hk : t.Knows key) (v : Value) :
    h.Files (t.set key v).2 := by
  refine ⟨Table.set_wf hf.table hk v, fun k w hw => ?_⟩
  rcases (Table.holds_set hf.table hk v k w).1 hw with ⟨rfl, -⟩ | ⟨-, hw⟩
  · exact hi
  · exact hf.keys k w hw

theorem undo (hf : h.Files t) (hk : t.Knows key) {v : Value} (hNew : (t.set key v).1 = true) :
    h.Files ((t.set key v).2.delete key).2 :=
  ⟨Table.undo_wf hf.table hk v, fun k w hw => hf.keys k w ((Table.holds_undo hf.table hk hNew k w).1 hw)⟩

end Heap.Files

/-! ## Instructions -/

namespace Machine

variable {m : Machine} {frame : Frame}

/-- The name under which the next instruction stores a value, if it is one that does, has an identity of
its own: neither another object of the heap nor another key of the globals has it. -/
def Genuine (_ : List Fn) (m : Machine) (frame : Frame) : Prop :=
  ∀ op i next s, frame.function.chunk.decode frame.ip = .instruction ⟨op, i⟩ next →
    op = .defineGlobal ∨ op = .setGlobal → nameAt frame i = .ok s →
    m.heap.Identifies (.string s) ∧ m.globals.Knows (.string s)

/-- Compiled code has the names that it stores under on the heap. -/
theorem Running.genuine {P : Heap → Value → Prop} (hr : m.Running P frame) (scripts : List Fn) :
    m.Genuine scripts frame := by
  intro op i next s hDecode hOp hName
  have hs := hr.interned scripts op i next s hDecode hOp hName
  obtain ⟨_, hm, -⟩ := hr.height
  exact ⟨hm.heap.identifies hs, hm.knows hs⟩

/-- Only definitions and assignments change the globals. -/
theorem globals_execute (m : Machine) (frame : Frame) {i : Instruction} (hDefine : i.op ≠ .defineGlobal)
    (hSet : i.op ≠ .setGlobal) : (m.execute frame i).machine.globals = m.globals := by
  obtain ⟨op, operand⟩ := i
  cases op with
  | defineGlobal => exact absurd rfl hDefine
  | setGlobal => exact absurd rfl hSet
  | _ =>
    simp only [execute, constant, pop, getLocal, setLocal, getGlobal, equal, arithmetic, add, not, negate,
      print, jumpIfFalse, loop, call, ret]
    repeat' split
    all_goals rfl

section

variable (hf : m.heap.Files m.globals)

include hf

theorem files_defineGlobal (frame : Frame) {index : Nat} (hName : ∀ s, nameAt frame index = .ok s →
      m.heap.Identifies (.string s) ∧ m.globals.Knows (.string s)) :
    m.heap.Files (m.defineGlobal frame index).machine.globals := by
  unfold defineGlobal
  cases hs : nameAt frame index with
  | error fault => exact hf
  | ok s =>
    obtain ⟨hi, hk⟩ := hName s hs
    dsimp only
    cases m.peek? 0 with
    | none => exact hf
    | some v => exact hf.set hi hk v

theorem files_setGlobal (frame : Frame) {index : Nat} (hName : ∀ s, nameAt frame index = .ok s →
      m.heap.Identifies (.string s) ∧ m.globals.Knows (.string s)) :
    m.heap.Files (m.setGlobal frame index).machine.globals := by
  unfold setGlobal
  cases hs : nameAt frame index with
  | error fault => exact hf
  | ok s =>
    obtain ⟨hi, hk⟩ := hName s hs
    dsimp only
    cases m.peek? 0 with
    | none => exact hf
    | some v =>
      dsimp only
      split
      · rename_i hNew
        exact hf.undo hk hNew
      · exact hf.set hi hk v

/-- A step keeps the globals in order. -/
theorem files_step {scripts : List Fn} (hok : m.Genuine scripts frame) :
    m.heap.Files (m.step frame).machine.globals := by
  unfold step
  cases hDecode : frame.function.chunk.decode frame.ip with
  | outside | unknown | truncated => exact hf
  | instruction i next =>
    obtain ⟨op, index⟩ := i
    dsimp only
    by_cases hOp : op = .defineGlobal ∨ op = .setGlobal
    · have hName := fun s => hok op index next s hDecode hOp
      rcases hOp with rfl | rfl
      · exact files_defineGlobal hf { frame with ip := next } hName
      · exact files_setGlobal hf { frame with ip := next } hName
    · rw [globals_execute _ _ (fun hDefine => hOp (.inl hDefine)) fun hSet => hOp (.inr hSet)]
      exact hf

end

/-- What an instruction leaves as it is when it fails; the values on the stack only if it refuses them. -/
def Spares (m : Machine) (frame : Frame) : Step → Prop
  | .next _ _ | .halt _ => True
  | .fail m' frame' fault =>
    m'.heap = m.heap ∧ m.globals.SameMap m'.globals ∧ m'.callers = m.callers ∧
      frame'.function = frame.function ∧ frame'.base = frame.base ∧
      (fault.refusal = true → m'.stack = m.stack)

/-- An instruction that fails before it changes anything. -/
theorem spares_of_eq (m : Machine) (frame : Frame) (fault : Fault) :
    m.Spares frame (.fail m frame fault) :=
  ⟨rfl, .refl _, rfl, rfl, rfl, fun _ => rfl⟩

/-- An assignment that fails has taken back the name it filed. -/
theorem spares_setGlobal (hw : m.globals.WF) {index : Nat}
    (hk : ∀ s, nameAt frame index = .ok s → m.globals.Knows (.string s)) :
    m.Spares frame (m.setGlobal frame index) := by
  unfold setGlobal
  cases hName : nameAt frame index with
  | error fault => exact m.spares_of_eq frame fault
  | ok s =>
    dsimp only
    cases m.peek? 0 with
    | none => exact m.spares_of_eq frame _
    | some v =>
      dsimp only
      split
      · rename_i hNew
        have hUndo := hw.sameMap (Table.undo_wf hw (hk s hName) v)
          (Table.holds_undo hw (hk s hName) hNew)
        exact ⟨rfl, hUndo, rfl, rfl, rfl, fun _ => rfl⟩
      · trivial

theorem spares_execute (hw : m.globals.WF) {i : Instruction}
    (hk : i.op = .setGlobal → ∀ s, nameAt frame i.operand = .ok s → m.globals.Knows (.string s)) :
    m.Spares frame (m.execute frame i) := by
  obtain ⟨op, operand⟩ := i
  cases op with
  | setGlobal => exact spares_setGlobal hw (hk rfl)
  | equal | print =>
    -- these take a value before they fail, but not because of it
    simp only [execute, equal, print]
    repeat' split
    all_goals first | trivial | exact ⟨rfl, .refl _, rfl, rfl, rfl, fun h => absurd h Bool.false_ne_true⟩
  | _ =>
    simp only [execute, constant, pop, getLocal, setLocal, getGlobal, defineGlobal, arithmetic, add, not,
      negate, jumpIfFalse, loop, call, ret]
    repeat' split
    all_goals first | trivial | exact m.spares_of_eq frame _

theorem spares_step (hf : m.heap.Files m.globals) {scripts : List Fn} (hok : m.Genuine scripts frame) :
    m.Spares frame (m.step frame) := by
  unfold step
  cases hDecode : frame.function.chunk.decode frame.ip with
  | outside | unknown | truncated => exact ⟨rfl, .refl _, rfl, rfl, rfl, fun _ => rfl⟩
  | instruction i next =>
    have hSpares : m.Spares { frame with ip := next } (m.execute { frame with ip := next } i) :=
      spares_execute hf.table fun hOp s hName =>
        (hok i.op i.operand next s hDecode (.inr hOp) hName).2
    exact hSpares

end Machine

/-! ## Sessions -/

namespace Moment

theorem files_start (settings : Settings) (output : Output) :
    (start settings output).session.machine.heap.Files (start settings output).session.machine.globals := by
  have hStored := stored_start settings output
  refine ⟨hStored.table, fun k v hv => ?_⟩
  obtain ⟨s, rfl, hs⟩ := hStored.keys k v hv
  exact hStored.heap.identifies hs

theorem Next.files {a b : Moment} (hn : Next Machine.Genuine a b) (hw : a.session.machine.heap.WF)
    (hf : a.session.machine.heap.Files a.session.machine.globals) :
    b.session.machine.heap.Files b.session.machine.globals := by
  have hg := hn.grown hw
  cases hn with
  | host e => exact hf
  | reserve => exact hf.mono hg
  | @define s _ _ name arity behaviour =>
    have hNative := (Heap.Grown.refl hw).allocNative name arity s.machine.natives.size
    obtain ⟨hw', -, hMem, -⟩ := Heap.intern_spec hNative.wf name
    have hf' := hf.mono (hNative.intern name)
    exact hf'.set (hw'.identifies hMem) (hf'.knows hMem) _
  | @reject s s' scripts stores source problems hLoad =>
    obtain ⟨heap, -, rfl⟩ := Session.load_eq_error hLoad
    exact hf.mono hg
  | @load s s' scripts stores source frame hLoad =>
    obtain ⟨f, heap, log, -, rfl, rfl⟩ := Session.load_eq_ok hLoad
    exact hf.mono hg
  | step hok hStep | halt t hok hStep | fail t hok hStep =>
    have hStepped := Machine.files_step hf hok
    rw [hStep] at hStepped
    exact hStepped.mono hg

theorem Reached.files {a : Moment} (h : Reached Machine.Genuine a) :
    a.session.machine.heap.Files a.session.machine.globals := by
  induction h with
  | start settings output => exact files_start settings output
  | next ha hn ih => exact hn.files ha.rooted.1 ih

/-- Sessions that call no function but those they compiled store under no forged names. -/
theorem Reached.genuine {a : Moment} (h : Reached Machine.CallsOwn a) : Reached Machine.Genuine a :=
  h.imp fun ha _ => ha.orderly_of_callsOwn.machine.genuine _

/-- An instruction that fails changes nothing that outlives it: in every session and for any code, the heap
is the same with its objects and strings, the globals are the same map, and the same calls are suspended.
If it fails because it refuses its operands or what it is to call, or because a name is not defined, all
values are still on the stack. -/
theorem fault_atomic {a : Moment} (ha : Reached Machine.Genuine a) {frame frame' : Frame} {m : Machine}
    {fault : Fault} (hok : a.session.machine.Genuine a.scripts frame)
    (hStep : a.session.machine.step frame = .fail m frame' fault) :
    m.heap = a.session.machine.heap ∧
    a.session.machine.globals.SameMap m.globals ∧
    (∀ n, m.global? n = a.session.machine.global? n) ∧
    m.callers = a.session.machine.callers ∧
    frame'.function = frame.function ∧ frame'.base = frame.base ∧
    (fault.refusal = true → m.stack = a.session.machine.stack) := by
  have hSpares := Machine.spares_step ha.files hok
  rw [hStep] at hSpares
  obtain ⟨hHeap, hMap, hCallers, hFunction, hBase, hStack⟩ := hSpares
  refine ⟨hHeap, hMap, fun n => ?_, hCallers, hFunction, hBase, hStack⟩
  unfold Machine.global?
  rw [hHeap]
  cases hLookup : a.session.machine.heap.lookup? n with
  | none => rfl
  | some s =>
    obtain ⟨hs, -⟩ := (Heap.lookup?_eq_some_iff ha.rooted.1 n s).1 hLookup
    exact hMap.get? _ (ha.files.knows hs)

/-- The seventh name is assigned to but not defined, and the table has no room for it: it grows, and still
is the same map. -/
theorem fault_atomic_grown : ∃ (a : Moment) (frame frame' : Frame) (m : Machine),
    Reached Machine.Genuine a ∧ a.running = some frame ∧
    a.session.machine.step frame = .fail m frame' (.undefinedVariable "f") ∧
    a.session.machine.globals.capacity = 8 ∧ m.globals.capacity = 16 ∧
    a.session.machine.globals.SameMap m.globals ∧ m.stack = a.session.machine.stack := by
  have hFacts : ((early? "var a; var b; var c; var d; var e; f = 1;" 11).bind fun e =>
      match e.1.machine.step e.2.1 with
      | .fail m _ fault => some (fault, e.1.machine.globals.capacity, m.globals.capacity)
      | _ => none) = some (.undefinedVariable "f", 8, 16) := by decide +kernel
  obtain ⟨⟨s, frame, script⟩, hEarly, hFacts⟩ := Option.bind_eq_some_iff.1 hFacts
  dsimp only at hFacts
  obtain ⟨stores, hReached⟩ : ∃ stores, Reached Machine.CallsOwn ⟨s, some frame, [script], stores⟩ :=
    Reached.of_early? hEarly .of_not_calls
  cases hStep : s.machine.step frame with
  | next | halt =>
    rw [hStep] at hFacts
    cases hFacts
  | fail m frame' fault =>
    rw [hStep] at hFacts
    simp only [Option.some.injEq, Prod.mk.injEq] at hFacts
    obtain ⟨rfl, hBefore, hAfter⟩ := hFacts
    have hok := hReached.orderly_of_callsOwn.machine.genuine [script]
    obtain ⟨-, hMap, -, -, -, -, hStack⟩ := fault_atomic hReached.genuine hok hStep
    exact ⟨_, frame, frame', m, hReached.genuine, rfl, hStep, hBefore, hAfter, hMap, hStack rfl⟩

end Moment

end Lox
