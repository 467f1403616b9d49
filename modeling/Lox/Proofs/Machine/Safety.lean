import Lox.Proofs.Compiler.Correctness
import Lox.Proofs.Machine.Layout
import Lox.Proofs.Syntax.Flow
import Lox.Proofs.Syntax.Nested

/-!
# Compiled code does not go wrong

A machine runs in order (`Machine.Running`) when the function of every call in progress is that of a
legal routine, and each of these calls stands at a safe offset with as many values on the stack as the
code expects there: the running one now, a suspended one with the result it waits for. One step keeps
that order, and fails only with a fault that programs have (`Machine.Running.step`).
-/

set_option autoImplicit false

namespace Lox

/-- Whether a fault comes only from bytecode that no compiler wrote. -/
def Fault.internal : Fault → Bool
  | undefinedVariable _ | notNumbers | notAddable | notNumber | notCallable | wrongArity _ _
  | stackOverflow | outputFailed _ => false
  | stackUnderflow | invalidSlot | outsideCode | unknownOpcode _ | invalidConstant _ | notName _
  | loopOutside => true

/-! ## Sound values -/

/-- A function has the code of a legal routine, and its constants are objects of a heap. -/
def Function.Sound (h : Heap) (f : Fn) : Prop :=
  ∃ (w : World) (r : Routine), w.Distinct ∧ w.Compiled f r ∧ r.Proper ∧ r.Legal ∧ w.heap.Extends h

/-- A value is no function, or a sound one. -/
def Value.Sound (h : Heap) (v : Value) : Prop := ∀ f, v = .object (.function f) → f.Sound h

theorem Function.Sound.mono {h h' : Heap} (he : h.Extends h') {f : Fn} (hf : f.Sound h) : f.Sound h' := by
  obtain ⟨w, r, hd, hc, hp, hl, hw⟩ := hf
  exact ⟨w, r, hd, hc, hp, hl, hw.trans he⟩

theorem Value.Sound.mono {h h' : Heap} (he : h.Extends h') {v : Value} (hv : v.Sound h) :
    v.Sound h' := fun f hf => (hv f hf).mono he

/-- A set of values on a heap that no instruction leads out of: it has all sound functions, the other
objects of the heap, and what is no object. -/
structure Value.Stable (P : Heap → Value → Prop) : Prop where
  mono : ∀ {h h' v}, h.Extends h' → P h v → P h' v
  plain : ∀ {h v}, (∀ o, v ≠ .object o) → P h v
  string : ∀ {h s}, .string s ∈ h.objects → P h (.object (.string s))
  native : ∀ {h n}, .native n ∈ h.objects → P h (.object (.native n))
  function : ∀ {h f}, f.Sound h → P h (.object (.function f))

/-- Such a set whose functions are all sound. -/
structure Value.Closed (P : Heap → Value → Prop) : Prop extends Value.Stable P where
  sound : ∀ {h v}, P h v → v.Sound h

theorem Value.closed_sound : Value.Closed Value.Sound where
  sound := id
  mono := fun he hv => hv.mono he
  plain := fun hv f hf => absurd hf (hv _)
  string := fun _ => nofun
  native := fun _ => nofun
  function := fun hf g hg => by
    cases hg
    exact hf

/-- A constant where the pool of a routine has one. -/
theorem World.Compiled.constant {w : World} {f : Fn} {r : Routine} (hc : w.Compiled f r) {i : Nat}
    {c : Const} (hi : r.pool[i]? = some c) :
    ∃ v, f.chunk.constants[i]? = some v ∧ w.Represents v c := by
  obtain ⟨-, -, -, -, -, -, hAll, -⟩ := hc
  obtain ⟨hLess, rfl⟩ := List.getElem?_eq_some_iff.1 hi
  have hLess' : i < f.chunk.constants.toList.length := hAll.length_eq ▸ hLess
  refine ⟨f.chunk.constants.toList[i], ?_, hAll.get hLess' hLess⟩
  rw [← Array.getElem?_toList, List.getElem?_eq_getElem hLess']

/-- What the pool of a routine has where there is a constant. -/
theorem World.Compiled.pool {w : World} {f : Fn} {r : Routine} (hc : w.Compiled f r) {i : Nat}
    {v : Value} (hv : f.chunk.constants[i]? = some v) :
    ∃ c, r.pool[i]? = some c ∧ w.Represents v c := by
  have hLess : i < r.pool.length := by
    obtain ⟨-, -, -, -, -, -, hAll, -⟩ := hc
    rw [← hAll.length_eq, Array.length_toList]
    exact (Array.getElem?_eq_some_iff.1 hv).1
  obtain ⟨v', hv', hr⟩ := hc.constant (List.getElem?_eq_getElem hLess)
  cases hv.symm.trans hv'
  exact ⟨_, List.getElem?_eq_getElem hLess, hr⟩

/-- A name where the pool of a routine has one. -/
theorem World.Compiled.nameAt {w : World} {frame : Frame} {r : Routine}
    (hc : w.Compiled frame.function r) {h : Heap} (hw : w.heap.Extends h) {i : Nat}
    (hi : ∃ name, r.pool[i]? = some (.string name)) :
    ∃ s, Machine.nameAt frame i = .ok s ∧ .string s ∈ h.objects := by
  obtain ⟨name, hi⟩ := hi
  obtain ⟨v, hv, hr⟩ := hc.constant hi
  cases hr with
  | string hMem => exact ⟨_, by simp only [Machine.nameAt, hv], hw.mem hMem⟩

/-- The constants of a sound function: numbers, strings of the heap, and sound functions. -/
theorem World.Compiled.constant_mem {w : World} {f : Fn} {r : Routine} (hd : w.Distinct)
    (hc : w.Compiled f r) (hp : r.Proper) (hl : r.Legal) {h : Heap} (hw : w.heap.Extends h)
    {P : Heap → Value → Prop} (hP : Value.Stable P) {v : Value} (hv : v ∈ f.chunk.constants) : P h v := by
  obtain ⟨i, hGet⟩ := Array.mem_iff_getElem?.1 hv
  obtain ⟨c, hConst, hRepresents⟩ := hc.pool hGet
  cases hRepresents with
  | number x => exact hP.plain nofun
  | string hMem => exact hP.string (hw.mem hMem)
  | function hCompiled =>
    obtain ⟨hp', hl'⟩ := hl.nested hp (List.mem_of_getElem? hConst)
    exact hP.function ⟨w, _, hd, hCompiled, hp', hl', hw⟩

/-! ## The order of a machine -/

namespace Machine

/-- What the machine keeps between runs. -/
structure Kept (P : Heap → Value → Prop) (m : Machine) : Prop where
  heap : m.heap.WF
  table : m.globals.WF
  keys : ∀ k v, m.globals.Holds k v → k ∈ m.heap.objects
  values : ∀ k v, m.globals.Holds k v → P m.heap v

variable {P : Heap → Value → Prop} {m : Machine}

theorem mem_of_peek? {d : Nat} {v : Value} (h : m.peek? d = some v) : v ∈ m.stack := by
  unfold peek? at h
  split at h
  · exact Array.mem_of_getElem? h
  · cases h

theorem Kept.knows (h : m.Kept P) {key : Obj} (hk : key ∈ m.heap.objects) : m.globals.Knows key :=
  fun k v hv hId => h.heap.eq_of_id (h.keys k v hv) hk hId

/-- A global gets a value. -/
theorem Kept.set (h : m.Kept P) {key : Obj} (hk : key ∈ m.heap.objects) {v : Value}
    (hv : P m.heap v) : { m with globals := (m.globals.set key v).2 }.Kept P where
  heap := h.heap
  table := Table.set_wf h.table (h.knows hk) v
  keys := fun k w hw => by
    rcases (Table.holds_set h.table (h.knows hk) v k w).1 hw with ⟨rfl, -⟩ | ⟨-, hw⟩
    · exact hk
    · exact h.keys k w hw
  values := fun k w hw => by
    rcases (Table.holds_set h.table (h.knows hk) v k w).1 hw with ⟨-, rfl⟩ | ⟨-, hw⟩
    · exact hv
    · exact h.values k w hw

/-- A global is removed. -/
theorem Kept.delete (h : m.Kept P) {key : Obj} (hk : key ∈ m.heap.objects) :
    { m with globals := (m.globals.delete key).2 }.Kept P where
  heap := h.heap
  table := Table.delete_wf h.table (h.knows hk)
  keys := fun k w hw => h.keys k w ((Table.holds_delete h.table (h.knows hk) k w).1 hw).2
  values := fun k w hw => h.values k w ((Table.holds_delete h.table (h.knows hk) k w).1 hw).2

/-- The heap grows. -/
theorem Kept.extend (hP : Value.Stable P) (h : m.Kept P) {heap : Heap} (hw : heap.WF)
    (he : m.heap.Extends heap) : { m with heap }.Kept P where
  heap := hw
  table := h.table
  keys := fun k v hv => he.mem (h.keys k v hv)
  values := fun k v hv => hP.mono he (h.values k v hv)

/-- A call has so many values on the stack. -/
structure In (P : Heap → Value → Prop) (m : Machine) (base h : Nat) : Prop extends m.Kept P where
  stack : ∀ v ∈ m.stack, P m.heap v
  height : m.stack.size = base + h

namespace In

variable {base h : Nat}

theorem peek (hm : m.In P base h) {d : Nat} (hd : d < h) :
    ∃ v, m.peek? d = some v ∧ P m.heap v := by
  have hSize := hm.height
  have hLess : m.stack.size - 1 - d < m.stack.size := by omega
  refine ⟨m.stack[m.stack.size - 1 - d], ?_, hm.stack _ (Array.getElem_mem hLess)⟩
  rw [peek?, if_pos (by omega), Array.getElem?_eq_getElem hLess]

theorem push (hm : m.In P base h) {v : Value} (hv : P m.heap v) : (m.push v).In P base (h + 1) :=
  { hm.toKept with
    stack := fun v' hv' => by
      rcases Array.mem_push.1 hv' with hv' | rfl
      · exact hm.stack v' hv'
      · exact hv
    height := by
      rw [Machine.push, Array.size_push, hm.height]
      rfl }

/-- The stack is cut. -/
theorem shrink (hm : m.In P base h) (base' h' : Nat) (hSize : base' + h' ≤ base + h) :
    { m with stack := m.stack.shrink (base' + h') }.In P base' h' :=
  { hm.toKept with
    stack := fun v hv => by
      have hTake : (m.stack.shrink (base' + h')).toList = m.stack.toList.take (base' + h') := by simp
      rw [← Array.mem_toList_iff, hTake] at hv
      exact hm.stack v (Array.mem_toList_iff.1 (List.mem_of_mem_take hv))
    height := by
      have hHeight := hm.height
      simp only [Array.size_shrink]
      omega }

theorem drop {d : Nat} (hm : m.In P base (h + d)) : (m.drop d).In P base h := by
  have hSize : m.stack.size - d = base + h := by
    have hHeight := hm.height
    omega
  rw [Machine.drop, hSize]
  exact hm.shrink base h (by omega)

/-- The heap grows under a call. -/
theorem extend (hP : Value.Stable P) (hm : m.In P base h) {heap : Heap} (hw : heap.WF)
    (he : m.heap.Extends heap) : { m with heap }.In P base h :=
  { hm.toKept.extend hP hw he with
    stack := fun v hv => hP.mono he (hm.stack v hv)
    height := hm.height }

end In

end Machine

/-! ## Instructions that hand over to the next -/

/-- What may come of an instruction that leaves so many values in a call: it hands over to the next one
in the same call, or finds a fault of the program. -/
def Step.Orderly (P : Heap → Value → Prop) (m : Machine) (frame : Frame) (h : Nat) : Step → Prop
  | next m' frame' => frame' = frame ∧ m'.In P frame.base h ∧ m.heap.Extends m'.heap ∧
      m'.callers = m.callers
  | halt _ => False
  | fail m' _ fault => fault.internal = false ∧ m'.Kept P ∧ m.heap.Extends m'.heap

namespace Machine.In

variable {P : Heap → Value → Prop} {m : Machine} {frame : Frame} {h : Nat}

/-- A value in place of others. -/
theorem orderly_push {d : Nat} (hm : m.In P frame.base (h + d)) {v : Value} (hv : P m.heap v) :
    (Step.next ((m.drop d).push v) frame).Orderly P m frame (h + 1) :=
  ⟨rfl, hm.drop.push hv, .refl _, rfl⟩

theorem orderly_arithmetic (hm : m.In P frame.base (h + 2)) {f : Float → Float → Value}
    (hf : ∀ x y, P m.heap (f x y)) :
    (m.arithmetic frame f).Orderly P m frame (h + 1) := by
  obtain ⟨u, hu, -⟩ := hm.peek (d := 1) (by omega)
  obtain ⟨v, hv, -⟩ := hm.peek (d := 0) (by omega)
  unfold arithmetic
  rw [hu, hv]
  split
  · exact hm.orderly_push (hf _ _)
  · exact ⟨rfl, hm.toKept, .refl _⟩
  · simp_all

theorem orderly_add (hP : Value.Stable P) (hm : m.In P frame.base (h + 2)) :
    (m.add frame).Orderly P m frame (h + 1) := by
  obtain ⟨u, hu, -⟩ := hm.peek (d := 1) (by omega)
  obtain ⟨v, hv, -⟩ := hm.peek (d := 0) (by omega)
  unfold add
  rw [hu, hv]
  split
  · exact hm.orderly_push (hP.plain nofun)
  · rename_i s t _ _
    obtain ⟨hWF, hExtends, hMem, -⟩ := Heap.intern_spec hm.heap (s.text ++ t.text)
    exact ⟨rfl, (hm.extend hP hWF hExtends).drop.push (hP.string hMem), hExtends, rfl⟩
  · exact ⟨rfl, hm.toKept, .refl _⟩
  · simp_all

theorem orderly_print (hm : m.In P frame.base (h + 1)) : (m.print frame).Orderly P m frame h := by
  obtain ⟨v, hv, -⟩ := hm.peek (Nat.succ_pos h)
  unfold print
  rw [hv]
  have hDropped := hm.drop
  dsimp only
  generalize (m.drop 1).output.printLine v.text = printed
  obtain ⟨failure, output⟩ := printed
  cases failure with
  | none => exact ⟨rfl, { hDropped with }, .refl _, rfl⟩
  | some reason => exact ⟨rfl, { hDropped.toKept with }, .refl _⟩

theorem orderly_getLocal {slot : Nat} (hm : m.In P frame.base h) (hs : slot < h) :
    (m.getLocal frame slot).Orderly P m frame (h + 1) := by
  have hLess : frame.base + slot < m.stack.size := by
    rw [hm.height]
    omega
  unfold getLocal
  rw [Array.getElem?_eq_getElem hLess]
  exact ⟨rfl, hm.push (hm.stack _ (Array.getElem_mem hLess)), .refl _, rfl⟩

theorem orderly_setLocal {slot : Nat} (hm : m.In P frame.base (h + 1)) (hs : slot < h + 1) :
    (m.setLocal frame slot).Orderly P m frame (h + 1) := by
  obtain ⟨v, hv, hSound⟩ := hm.peek (Nat.succ_pos h)
  have hLess : frame.base + slot < m.stack.size := by
    rw [hm.height]
    omega
  unfold setLocal
  rw [hv]
  dsimp only
  rw [if_pos hLess]
  refine ⟨rfl, { hm.toKept with stack := fun v' hv' => ?_, height := ?_ }, .refl _, rfl⟩
  · rcases Array.mem_or_eq_of_mem_setIfInBounds hv' with hv' | rfl
    · exact hm.stack v' hv'
    · exact hSound
  · rw [Array.size_setIfInBounds, hm.height]

variable {index : Nat} {s : Str}

theorem orderly_getGlobal (hm : m.In P frame.base h) (hName : nameAt frame index = .ok s)
    (hs : .string s ∈ m.heap.objects) : (m.getGlobal frame index).Orderly P m frame (h + 1) := by
  unfold getGlobal
  rw [hName]
  dsimp only
  split
  · rename_i v hGet
    have hHolds := (Table.get?_eq_some_iff hm.table (hm.knows hs) v).1 hGet
    exact ⟨rfl, hm.push (hm.values _ v hHolds), .refl _, rfl⟩
  · exact ⟨rfl, hm.toKept, .refl _⟩

theorem orderly_defineGlobal (hm : m.In P frame.base (h + 1)) (hName : nameAt frame index = .ok s)
    (hs : .string s ∈ m.heap.objects) : (m.defineGlobal frame index).Orderly P m frame h := by
  obtain ⟨v, hv, hSound⟩ := hm.peek (Nat.succ_pos h)
  unfold defineGlobal
  rw [hName, hv]
  have hSet : { m with globals := (m.globals.set (.string s) v).2 }.In P frame.base (h + 1) :=
    { hm.toKept.set hs hSound with stack := hm.stack, height := hm.height }
  exact ⟨rfl, hSet.drop, .refl _, rfl⟩

theorem orderly_setGlobal (hm : m.In P frame.base (h + 1)) (hName : nameAt frame index = .ok s)
    (hs : .string s ∈ m.heap.objects) : (m.setGlobal frame index).Orderly P m frame (h + 1) := by
  obtain ⟨v, hv, hSound⟩ := hm.peek (Nat.succ_pos h)
  have hKept := hm.toKept.set hs hSound
  unfold setGlobal
  rw [hName, hv]
  dsimp only
  split
  · exact ⟨rfl, hKept.delete hs, .refl _⟩
  · exact ⟨rfl, { hKept with stack := hm.stack, height := hm.height }, .refl _, rfl⟩

variable {w : World} {r : Routine}

/-- An instruction other than a call that hands over to the next one. -/
theorem orderly_execute (hP : Value.Stable P) (frame : Frame) (hm : m.In P frame.base h)
    (hd : w.Distinct) (hc : w.Compiled frame.function r) (hp : r.Proper) (hl : r.Legal)
    (hw : w.heap.Extends m.heap) {i : Instruction} {h' : Nat} (hi : i.Flows r.pool h h')
    (hNoCall : i.op ≠ .call) : (m.execute frame i).Orderly P m frame h' := by
  obtain ⟨op, x⟩ := i
  obtain ⟨hPasses, hMeans, hBefore, hAfter⟩ := hi
  cases op
  -- the number of values below those that the instruction takes
  all_goals
    simp only [Instruction.takes, Instruction.leaves, Nat.add_zero] at hBefore hAfter
    obtain ⟨rest, rfl⟩ := Nat.exists_eq_add_of_le' hBefore
  case jump | jumpIfFalse | loop | ret => simp [Opcode.Passes] at hPasses
  case call => exact absurd rfl hNoCall
  case constant =>
    obtain ⟨v, hv, -⟩ := hc.constant (List.getElem?_eq_getElem hMeans)
    subst hAfter
    simp only [execute, constant, hv]
    exact ⟨rfl, hm.push (hc.constant_mem hd hp hl hw hP (Array.mem_of_getElem? hv)), .refl _, rfl⟩
  case pushNil | pushTrue | pushFalse =>
    subst hAfter
    exact ⟨rfl, hm.push (hP.plain (by simp)), .refl _, rfl⟩
  case pop =>
    obtain ⟨v, hv, -⟩ := hm.peek (Nat.succ_pos rest)
    obtain rfl : h' = rest := by omega
    simp only [execute, pop, hv]
    exact ⟨rfl, hm.drop, .refl _, rfl⟩
  case not =>
    obtain ⟨v, hv, -⟩ := hm.peek (Nat.succ_pos rest)
    obtain rfl : h' = rest + 1 := by omega
    simp only [execute, not, hv]
    exact hm.orderly_push (hP.plain (by simp))
  case negate =>
    obtain ⟨v, hv, -⟩ := hm.peek (Nat.succ_pos rest)
    obtain rfl : h' = rest + 1 := by omega
    simp only [execute, negate, hv]
    cases v with
    | number x => exact hm.orderly_push (hP.plain (by simp))
    | nil | bool _ | object _ => exact ⟨rfl, hm.toKept, .refl _⟩
  case equal =>
    obtain ⟨u, hu, -⟩ := hm.peek (d := 1) (by omega)
    obtain ⟨v, hv, -⟩ := hm.peek (d := 0) (by omega)
    obtain rfl : h' = rest + 1 := by omega
    simp only [execute, equal, hu, hv]
    exact hm.orderly_push (hP.plain (by simp))
  case greater | less | subtract | multiply | divide =>
    obtain rfl : h' = rest + 1 := by omega
    exact hm.orderly_arithmetic fun _ _ => hP.plain (by simp)
  case add =>
    obtain rfl : h' = rest + 1 := by omega
    exact hm.orderly_add hP
  case print =>
    obtain rfl : h' = rest := by omega
    exact hm.orderly_print
  case getLocal =>
    subst hAfter
    exact hm.orderly_getLocal hMeans
  case setLocal =>
    obtain rfl : h' = rest + 1 := by omega
    exact hm.orderly_setLocal hMeans
  case getGlobal =>
    obtain ⟨s, hName, hs⟩ := hc.nameAt hw hMeans
    subst hAfter
    exact hm.orderly_getGlobal hName hs
  case defineGlobal =>
    obtain ⟨s, hName, hs⟩ := hc.nameAt hw hMeans
    obtain rfl : h' = rest := by omega
    exact hm.orderly_defineGlobal hName hs
  case setGlobal =>
    obtain ⟨s, hName, hs⟩ := hc.nameAt hw hMeans
    obtain rfl : h' = rest + 1 := by omega
    exact hm.orderly_setGlobal hName hs

end Machine.In

/-! ## Calls in progress -/

/-- A call stands at a safe offset of a sound function, with so many values on the stack. -/
def Frame.Stands (heap : Heap) (frame : Frame) (h : Nat) : Prop :=
  ∃ (w : World) (r : Routine) (hl : r.Legal), w.Distinct ∧ w.Compiled frame.function r ∧ r.Proper ∧
    w.heap.Extends heap ∧ ∀ n, hl.whole.Safe n frame.ip h

theorem Frame.Stands.mono {heap heap' : Heap} (he : heap.Extends heap') {frame : Frame} {h : Nat}
    (hs : frame.Stands heap h) : frame.Stands heap' h := by
  obtain ⟨w, r, hl, hd, hc, hp, hw, hSafe⟩ := hs
  exact ⟨w, r, hl, hd, hc, hp, hw.trans he, hSafe⟩

/-- A sound function may be called with as many arguments as it has parameters. -/
theorem Function.Sound.stands {heap : Heap} {f : Fn} (hf : f.Sound heap) (base : Nat) :
    Frame.Stands heap ⟨f, 0, base⟩ (1 + f.arity) := by
  obtain ⟨w, r, hd, hc, hp, hl, hw⟩ := hf
  have hArity : f.arity = r.parameters.length := by
    obtain ⟨-, -, h, -⟩ := hc
    exact h
  exact ⟨w, r, hl, hd, hc, hp, hw, fun n => hArity ▸ hl.safe hp n⟩

/-- Suspended calls that stand where they can go on with a result, below a call with its values from
`base` on. -/
inductive Frame.Stacked (heap : Heap) : Nat → List Frame → Prop
  | none : Stacked heap 0 []
  | call {caller : Frame} {callers : List Frame} {h : Nat} : caller.Stands heap (h + 1) →
      Stacked heap caller.base callers → Stacked heap (caller.base + h) (caller :: callers)

theorem Frame.Stacked.mono {heap heap' : Heap} (he : heap.Extends heap') {base : Nat}
    {callers : List Frame} : Stacked heap base callers → Stacked heap' base callers
  | .none => .none
  | .call hs hRest => .call (hs.mono he) (hRest.mono he)

namespace Machine

/-- A machine runs in order. -/
structure Running (P : Heap → Value → Prop) (m : Machine) (frame : Frame) : Prop where
  intro ::
  height : ∃ h, m.In P frame.base h ∧ frame.Stands m.heap h
  callers : Frame.Stacked m.heap frame.base m.callers

/-- The native function that is called next, if any, returns a value of a set. -/
def Answers (P : Value → Prop) (m : Machine) (frame : Frame) : Prop :=
  ∀ count next native m' frame' v,
    frame.function.chunk.decode frame.ip = .instruction ⟨.call, count⟩ next →
    m.peek? count = some (.object (.native native)) →
    m.step frame = .next m' frame' → m'.peek? 0 = some v → P v

/-- The function that is called next, if any, is sound. -/
def CallsSound (m : Machine) (frame : Frame) : Prop :=
  ∀ count next f, frame.function.chunk.decode frame.ip = .instruction ⟨.call, count⟩ next →
    m.peek? count = some (.object (.function f)) → f.Sound m.heap

/-- What may come of a step of a machine that runs in order. -/
def SafeStep (P : Heap → Value → Prop) (m : Machine) : Step → Prop
  | .next m' frame => m'.Running P frame ∧ m.heap.Extends m'.heap
  | .halt m' => m'.Kept P ∧ m.heap.Extends m'.heap ∧ m'.stack = #[] ∧ m'.callers = []
  | .fail m' _ fault => fault.internal = false ∧ m'.Kept P ∧ m.heap.Extends m'.heap

section

variable {m : Machine} {frame : Frame}

/-- A step at an offset of a routine executes the instruction there. -/
theorem step_at {w : World} {r : Routine} (hc : w.Compiled frame.function r) {i : Instruction}
    {line : Nat} (hAt : r.code.At frame.ip [(i, line)]) (hFits : i.Fits) :
    frame.function.chunk.decode frame.ip = .instruction i (frame.ip + i.size) ∧
      m.step frame = m.execute { frame with ip := frame.ip + i.size } i := by
  obtain ⟨-, -, -, -, hCode, -, -⟩ := hc
  have hHas : frame.function.chunk.Has frame.ip (.one i.op i.operand line) := .of_at hCode hAt
  exact ⟨hHas.decode hFits, step_of_has hHas hFits⟩

variable {P : Heap → Value → Prop} {h : Nat}

/-- A call: a function starts above the caller, a native function leaves its result. -/
theorem Running.call {count : Nat} (hm : m.In P frame.base (h + 1 + count))
    (hs : frame.Stands m.heap (h + 1)) (hCallers : Frame.Stacked m.heap frame.base m.callers)
    (hAnswers : ∀ native m' v, m.peek? count = some (.object (.native native)) →
      m.call frame count = .next m' frame → m'.peek? 0 = some v → P m.heap v)
    (hSound : ∀ f, m.peek? count = some (.object (.function f)) → f.Sound m.heap) :
    m.SafeStep P (m.call frame count) := by
  obtain ⟨v, hv, -⟩ := hm.peek (d := count) (by omega)
  have hHeight := hm.height
  unfold Machine.call at hAnswers ⊢
  rw [hv] at hAnswers ⊢
  dsimp only at hAnswers ⊢
  split
  · rename_i hNone
    cases hNone
  · rename_i f hf
    cases hf
    split
    · exact ⟨rfl, hm.toKept, .refl _⟩
    · rename_i hArity
      split
      · exact ⟨rfl, hm.toKept, .refl _⟩
      · have hBase : m.stack.size - count - 1 = frame.base + h := by omega
        have hArity : count = f.arity := not_not.1 hArity
        rw [hBase]
        refine ⟨⟨⟨1 + f.arity, { hm with height := ?_ }, (hSound f hv).stands _⟩,
          .call hs hCallers⟩, .refl _⟩
        dsimp only
        omega
  · rename_i native hNative
    cases hNative
    split
    · exact ⟨rfl, hm.toKept, .refl _⟩
    · rename_i hArity
      dsimp only at hAnswers
      rw [if_neg hArity] at hAnswers
      have hRest : m.In P frame.base (h + (count + 1)) := by
        rw [Nat.add_comm count, ← Nat.add_assoc]
        exact hm
      refine ⟨⟨⟨h + 1, hRest.drop.push (hAnswers native _ _ rfl rfl ?_), hs⟩, hCallers⟩, .refl _⟩
      simp [peek?, push]
  · exact ⟨rfl, hm.toKept, .refl _⟩

/-- A return: the caller goes on with the result, or the script is at its end. -/
theorem Running.ret (hm : m.In P frame.base (h + 1))
    (hCallers : Frame.Stacked m.heap frame.base m.callers) : m.SafeStep P (m.ret frame) := by
  obtain ⟨v, hv, hSound⟩ := hm.peek (Nat.succ_pos h)
  unfold Machine.ret
  rw [hv]
  have hLeft := hm.drop.shrink frame.base 0 (by omega)
  have hSame : (m.drop 1).callers = m.callers := rfl
  dsimp only
  rw [hSame]
  generalize m.callers = callers at hCallers
  generalize frame.base = base at hCallers hLeft
  cases hCallers with
  | none =>
    exact ⟨{ hLeft.toKept with }, .refl _, Array.eq_empty_of_size_eq_zero hLeft.height, rfl⟩
  | @call caller callers h hs hRest =>
    refine ⟨⟨⟨h + 1, Machine.In.push ?_ hSound, hs⟩, hRest⟩, .refl _⟩
    exact { hLeft with }

/-- Where all values are sound, so is what is called. -/
theorem Running.callsSound (hP : Value.Closed P) (hr : m.Running P frame) : m.CallsSound frame := by
  intro count next f _ hf
  obtain ⟨h, hm, -⟩ := hr.height
  exact hP.sound (hm.stack _ (mem_of_peek? hf)) f rfl

/-- A step keeps the order of the machine, and fails only with a fault that programs have. -/
theorem Running.step (hP : Value.Stable P) (hr : m.Running P frame) (ha : m.Answers (P m.heap) frame)
    (hCalls : m.CallsSound frame) : m.SafeStep P (m.step frame) := by
  obtain ⟨⟨h, hm, w, r, hl, hd, hc, hp, hw, hSafe⟩, hCallers⟩ := hr
  obtain ⟨i, line, hAt, hFits, hGoes⟩ := (Body.Safe.all hSafe).resolve_left fun hEnd => hEnd.2
  obtain ⟨hDecode, hStep⟩ := step_at (m := m) hc hAt hFits
  have hStands {ip h : Nat} (hSafe : ∀ n, hl.whole.Safe n ip h) :
      Frame.Stands m.heap { frame with ip } h := ⟨w, r, hl, hd, hc, hp, hw, hSafe⟩
  unfold Answers at ha
  unfold CallsSound at hCalls
  rw [hDecode, hStep] at ha
  rw [hDecode] at hCalls
  rw [hStep]
  cases hGoes with
  | @flow _ _ h' hi hs =>
    obtain ⟨op, count⟩ := i
    by_cases hCall : op = .call
    · subst hCall
      obtain ⟨-, -, hBefore, hAfter⟩ := hi
      simp only [Instruction.takes, Instruction.leaves] at hBefore hAfter
      obtain ⟨rest, rfl⟩ := Nat.exists_eq_add_of_le' hBefore
      obtain rfl : h' = rest + 1 := by omega
      refine Running.call (h := rest) ?_ (hStands hs) hCallers (fun native m' v => ?_) fun f => ?_
      · rw [Nat.add_right_comm, Nat.add_assoc]
        exact hm
      · exact ha count _ native m' _ v rfl
      · exact hCalls count _ f rfl
    · have hOrderly := Machine.In.orderly_execute hP
        { frame with ip := frame.ip + Instruction.size ⟨op, count⟩ } hm hd hc hp hl hw hi hCall
      generalize m.execute _ _ = step at hOrderly
      cases step with
      | next m' frame' =>
        obtain ⟨rfl, hm', he, hEq⟩ := hOrderly
        exact ⟨⟨⟨h', hm', (hStands hs).mono he⟩, hEq ▸ hCallers.mono he⟩, he⟩
      | halt => exact hOrderly.elim
      | fail => exact hOrderly
  | jump hs => exact ⟨⟨⟨h, hm, hStands hs⟩, hCallers⟩, .refl _⟩
  | jumpIfFalse hs hs' =>
    obtain ⟨v, hv, -⟩ := hm.peek (Nat.succ_pos _)
    simp only [execute, jumpIfFalse, hv]
    split
    · exact ⟨⟨⟨_, hm, hStands hs'⟩, hCallers⟩, .refl _⟩
    · exact ⟨⟨⟨_, hm, hStands hs⟩, hCallers⟩, .refl _⟩
  | loop hd hs =>
    simp only [execute, loop, if_pos hd]
    exact ⟨⟨⟨h, hm, hStands hs⟩, hCallers⟩, .refl _⟩
  | ret => exact Running.ret hm hCallers

end

end Machine

end Lox
