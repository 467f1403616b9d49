import Lox.Proofs.Machine.Strings

/-!
# Calls respect the caller

All calls in progress share one stack, and nothing at run time stops an instruction from taking values
below those of its own call. Compiled code has enough values of its own: in a machine that runs in order
an instruction changes nothing below the base of the call it runs in, starts calls at or above it, and
returns to what was below it (`Machine.respects_step`). So from the step that enters a function to the
return from it, whatever happens in between, the stack below stays as it was (`Moment.call_respects_caller`).
-/

set_option autoImplicit false

namespace Lox

/-! ## One instruction -/

theorem Instruction.Goes.takes_le {k : List Const} {S : Nat → Nat → Prop} {next : Nat} {i : Instruction}
    {h : Nat} (hg : i.Goes k S next h) : i.takes ≤ h := by
  cases hg with
  | flow hi => exact hi.before
  | jump | loop => exact Nat.zero_le _
  | jumpIfFalse | ret => exact Nat.le_add_left ..

theorem getElem?_take_of_lt {α : Type} {xs : Array α} {j n : Nat} (h : j < n) : (xs.take n)[j]? = xs[j]? := by
  rw [← Array.getElem?_toList, ← Array.getElem?_toList, ← Array.shrink_eq_take, Array.toList_shrink,
    List.getElem?_take_of_lt h]

namespace Machine

variable {m m' : Machine} {frame : Frame} {n : Nat}

/-- The lowest `n` values on the stack are the same. -/
def Keeps (n : Nat) (m m' : Machine) : Prop := ∀ j < n, m'.stack[j]? = m.stack[j]?

theorem Keeps.trans {m'' : Machine} (h : m.Keeps n m') (h' : m'.Keeps n m'') : m.Keeps n m'' :=
  fun j hj => (h' j hj).trans (h j hj)

theorem Keeps.mono {n' : Nat} (h : m.Keeps n m') (hn : n' ≤ n) : m.Keeps n' m' :=
  fun j hj => h j (hj.trans_le hn)

theorem Keeps.take_eq (h : m.Keeps n m') : m'.stack.take n = m.stack.take n := by
  refine Array.ext_getElem? fun j => ?_
  by_cases hj : j < n
  · rw [getElem?_take_of_lt hj, getElem?_take_of_lt hj, h j hj]
  · have hNone (xs : Array Value) : (xs.take n)[j]? = none := by
      refine Array.getElem?_eq_none ?_
      rw [← Array.shrink_eq_take, Array.size_shrink]
      omega
    rw [hNone, hNone]

theorem Keeps.push (h : m.Keeps n m') (hn : n ≤ m'.stack.size) (v : Value) : m.Keeps n (m'.push v) := by
  intro j hj
  rw [Machine.push, Array.getElem?_push, if_neg (by omega)]
  exact h j hj

theorem keeps_drop {d : Nat} (h : n + d ≤ m.stack.size) : m.Keeps n (m.drop d) := by
  intro j hj
  rw [Machine.drop, Array.shrink_eq_take, getElem?_take_of_lt (by omega)]

/-- A value in place of others. -/
theorem keeps_replace {d : Nat} (h : n + d ≤ m.stack.size) (v : Value) :
    m.Keeps n ((m.drop d).push v) := by
  refine (keeps_drop h).push ?_ v
  simp only [Machine.drop, Array.size_shrink]
  omega

/-- A value on top of the lowest ones. -/
theorem keeps_of_take (h : n ≤ m.stack.size) {v : Value} (hStack : m'.stack = (m.stack.take n).push v) :
    m.Keeps n m' := by
  intro j hj
  rw [hStack, Array.getElem?_push, if_neg, getElem?_take_of_lt hj]
  rw [← Array.shrink_eq_take, Array.size_shrink]
  omega

/-- What an instruction does to the calls in progress and the values of other calls. It stays in its call
and changes nothing below it, it starts a call at or above its own, or it returns what is on top of the
stack to the values below its call. Only the outermost call ends the run. -/
def Respects (m : Machine) (frame : Frame) (i : Instruction) : Step → Prop
  | .next m' frame' =>
    frame'.base = frame.base ∧ m'.callers = m.callers ∧ m.Keeps frame.base m' ∨
    frame.base ≤ frame'.base ∧ m'.callers = frame :: m.callers ∧ m'.stack = m.stack ∨
    i.op = .ret ∧ m.callers = frame' :: m'.callers ∧
      ∃ v, m.peek? 0 = some v ∧ m'.stack = (m.stack.take frame.base).push v
  | .halt _ => m.callers = []
  | .fail _ _ _ => True

theorem respects_call {count : Nat} (h : frame.base + (count + 1) ≤ m.stack.size) :
    m.Respects frame ⟨.call, count⟩ (m.call frame count) := by
  unfold call
  split
  · trivial
  · split
    · trivial
    · split
      · trivial
      · refine .inr (.inl ⟨?_, rfl, rfl⟩)
        dsimp only
        omega
  · split
    · trivial
    · exact .inl ⟨rfl, rfl, keeps_replace h _⟩
  · trivial

theorem respects_ret {operand : Nat} (h : frame.base + 1 ≤ m.stack.size) :
    m.Respects frame ⟨.ret, operand⟩ (m.ret frame) := by
  have hStack : (m.stack.shrink (m.stack.size - 1)).shrink frame.base = m.stack.take frame.base := by
    refine Array.toList_inj.1 ?_
    rw [← Array.shrink_eq_take, Array.toList_shrink, Array.toList_shrink, Array.toList_shrink,
      List.take_take, Nat.min_eq_left (by omega)]
  unfold ret
  split
  · trivial
  · rename_i v hv
    dsimp only
    split
    · assumption
    · rename_i hCallers
      refine .inr (.inr ⟨rfl, hCallers, v, hv, ?_⟩)
      rw [← hStack]
      rfl

theorem respects_execute {i : Instruction} (h : frame.base + i.takes ≤ m.stack.size) :
    m.Respects frame i (m.execute frame i) := by
  obtain ⟨op, operand⟩ := i
  cases op with
  | call => exact respects_call h
  | ret => exact respects_ret h
  | jumpIfFalse =>
    simp only [execute, jumpIfFalse]
    split
    · refine .inl ⟨?_, rfl, fun _ _ => rfl⟩
      split <;> rfl
    · trivial
  | setLocal =>
    simp only [execute, setLocal]
    split
    · split
      · refine .inl ⟨rfl, rfl, fun j hj => ?_⟩
        exact Array.getElem?_setIfInBounds_ne (by omega)
      · trivial
    · trivial
  | pop | print | defineGlobal =>
    simp only [execute, pop, print, defineGlobal]
    repeat' split
    all_goals first | trivial | exact .inl ⟨rfl, rfl, keeps_drop h⟩
  | not | negate | equal | add | greater | less | subtract | multiply | divide =>
    simp only [execute, not, negate, equal, add, arithmetic]
    repeat' split
    all_goals first | trivial | exact .inl ⟨rfl, rfl, keeps_replace h _⟩
  | constant | pushNil | pushTrue | pushFalse | getLocal | getGlobal =>
    simp only [execute, constant, getLocal, getGlobal]
    repeat' split
    all_goals first | trivial | exact .inl ⟨rfl, rfl, Keeps.push (fun _ _ => rfl) h _⟩
  | setGlobal | jump | loop =>
    simp only [execute, setGlobal, loop]
    repeat' split
    all_goals first | trivial | exact .inl ⟨rfl, rfl, fun _ _ => rfl⟩

/-- In a machine that runs in order there is an instruction, with enough values of its own call. -/
theorem Running.respects_step {P : Heap → Value → Prop} (hr : m.Running P frame) :
    ∃ i next, frame.function.chunk.decode frame.ip = .instruction i next ∧
      m.Respects { frame with ip := next } i (m.step frame) := by
  obtain ⟨h, hm, w, r, hl, -, hc, -, -, hSafe⟩ := hr.height
  obtain ⟨i, line, hAt, hFits, hGoes⟩ := (Body.Safe.all hSafe).resolve_left fun hEnd => hEnd.2
  obtain ⟨hDecode, hStep⟩ := step_at (m := m) hc hAt hFits
  refine ⟨i, frame.ip + i.size, hDecode, ?_⟩
  rw [hStep]
  have hTakes := hGoes.takes_le
  have hHeight := hm.height
  refine respects_execute ?_
  dsimp only
  omega

/-- A function that is called is one of some scripts. In a session these are the source texts that were
accepted: a function that a rejected one left on the heap may drop values of its caller. -/
def CallsOwn (scripts : List Fn) (m : Machine) (frame : Frame) : Prop :=
  ∀ count next f, frame.function.chunk.decode frame.ip = .instruction ⟨.call, count⟩ next →
    m.peek? count = some (.object (.function f)) → f.Among scripts

theorem CallsOwn.of_not_calls {scripts : List Fn} (h : frame.calls = false) : m.CallsOwn scripts frame :=
  fun count next _ hDecode => absurd hDecode (frame.ne_call h count next)

end Machine

theorem Value.stable_any : Value.Stable fun _ _ => True :=
  ⟨fun _ _ => trivial, fun _ => trivial, fun _ => trivial, fun _ => trivial, fun _ => trivial⟩

/-- Sessions that call no function but those they compiled run in order, whatever their native functions
return. -/
theorem Moment.Reached.orderly_of_callsOwn {a : Moment} (h : Reached Machine.CallsOwn a) :
    a.Orderly fun _ _ => True :=
  h.orderly_of Value.stable_any fun hScripts _ hOwn =>
    ⟨fun _ _ _ _ _ _ _ _ _ _ => trivial,
      fun count next f hDecode hf => (hOwn count next f hDecode hf).sound hScripts⟩

/-- A function on the stack that has the identity of a function of the session is that function. -/
theorem Moment.Reached.among_of_id {a : Moment} (ha : Reached Machine.Modest a) {f g : Fn}
    (hg : g.Among a.scripts) {d : Nat} (hf : a.session.machine.peek? d = some (.object (.function f)))
    (hId : f.id = g.id) : f.Among a.scripts := by
  have hOwn := ha.own_of_modest
  have hStack := (hOwn.roots.2.1 _ (Machine.mem_of_peek? hf)).2 _ rfl
  have hMem := (Value.closed_own.function (hg.sound hOwn.scripts)).2 _ rfl
  cases ha.rooted.1.eq_of_id hStack hMem hId
  exact hg

theorem Moment.Reached.among_of_early? {source : String} {n : Nat} {s : Session} {frame : Frame} {script f : Fn}
    (h : early? source n = some (s, frame, script)) {d i : Nat}
    (hf : s.machine.peek? d = some (.object (.function f)))
    (hId : (script.chunk.constants[i]?.bind Value.asFunction?).map Function.id = some f.id) :
    f.Among [script] := by
  obtain ⟨g, hg, hId⟩ := Option.map_eq_some_iff.1 hId
  obtain ⟨_, ha⟩ : ∃ stores, Reached Machine.Modest ⟨s, some frame, [script], stores⟩ :=
    Reached.of_early? h .of_not_calls
  exact ha.among_of_id (.of_constant (Value.eq_some_of_asFunction? hg)) hf hId.symm

/-! ## From a call to its return -/

/-- A call, with the suspended ones, above some calls: the lowest of those above has its values from `base`
on, and the others from there or higher. -/
inductive Frame.Above (base : Nat) (below : List Frame) : Frame → List Frame → Prop
  | lowest {frame : Frame} : frame.base = base → Above base below frame below
  | call {frame caller : Frame} {callers : List Frame} : base ≤ frame.base →
      Above base below caller callers → Above base below frame (caller :: callers)

namespace Frame.Above

variable {base : Nat} {below callers : List Frame} {frame frame' : Frame}

theorem le (h : frame.Above base below callers) : base ≤ frame.base := by
  cases h with
  | lowest hBase => exact hBase.ge
  | call hBase => exact hBase

theorem of_base (h : frame.Above base below callers) (hBase : frame'.base = frame.base) :
    frame'.Above base below callers := by
  cases h with
  | lowest h => exact .lowest (hBase.trans h)
  | call h hRest => exact .call (hBase ▸ h) hRest

theorem suffix (h : frame.Above base below callers) : below <:+ callers := by
  induction h with
  | lowest => exact List.suffix_refl _
  | call _ _ ih => exact ih.trans (List.suffix_cons ..)

end Frame.Above

namespace Moment

/-- The step that enters a function of the session with so many arguments; the frame of the caller then
stands behind the call. -/
inductive Enters (count : Nat) (caller : Frame) : Moment → Moment → Prop
  | call {s : Session} {frame callee : Frame} {scripts : List Fn} {stores : List (String × Value)}
      {m : Machine} {f : Fn} {next : Nat} :
      frame.function.chunk.decode frame.ip = .instruction ⟨.call, count⟩ next →
      s.machine.peek? count = some (.object (.function f)) → f.Among scripts →
      s.machine.step frame = .next m callee → caller = { frame with ip := next } →
      Enters count caller ⟨s, some frame, scripts, stores⟩
        ⟨{ s with machine := m }, some callee, scripts, (s.machine.store? frame).toList ++ stores⟩

/-- From the moment `b` on, as long as more than so many calls are suspended. -/
inductive Inside (ok : List Fn → Machine → Frame → Prop) (depth : Nat) (b : Moment) : Moment → Prop
  | enter : Inside ok depth b b
  | next {c d : Moment} : Inside ok depth b c → Next ok c d → d.running ≠ none →
      depth < d.session.machine.callers.length → Inside ok depth b d

/-- A moment of a call above some calls: the stack below the call is that of another machine. -/
structure During (m : Machine) (base : Nat) (below : List Frame) (c : Moment) : Prop where
  running : ∃ frame, c.running = some frame ∧ frame.Above base below c.session.machine.callers
  keeps : m.Keeps base c.session.machine

theorem Enters.next {a b : Moment} {count : Nat} {caller : Frame} (h : Enters count caller a b) :
    Next Machine.CallsOwn a b := by
  obtain ⟨hDecode, hCallee, hAmong, hStep, -⟩ := h
  refine .step (fun count' next' f' hDecode' hCallee' => ?_) hStep
  rw [hDecode] at hDecode'
  cases hDecode'
  rw [hCallee] at hCallee'
  cases hCallee'
  exact hAmong

/-- A call starts above its caller, and with the stack as it is. -/
theorem Enters.during {a b : Moment} {count : Nat} {caller : Frame} (h : Enters count caller a b) :
    b.During a.session.machine (a.session.machine.stack.size - count - 1)
      (caller :: a.session.machine.callers) := by
  obtain ⟨hDecode, hCallee, -, hStep, rfl⟩ := h
  simp only [Machine.step, hDecode, Machine.execute, Machine.call, hCallee] at hStep
  split at hStep
  · cases hStep
  · split at hStep
    · cases hStep
    · cases hStep
      exact ⟨⟨_, rfl, .lowest rfl⟩, fun _ _ => rfl⟩

/-- What may happen in a call next: it goes on, the run fails, or the call returns the value on top of the
stack to its caller, which has the stack below the call. -/
theorem During.next {P : Heap → Value → Prop} {ok : List Fn → Machine → Frame → Prop} {m : Machine}
    {base : Nat} {caller : Frame} {callers : List Frame} {c d : Moment}
    (hc : c.During m base (caller :: callers)) (ho : c.Orderly P) (hn : Next ok c d) :
    d.During m base (caller :: callers) ∨
    (∃ frame m' frame' fault, c.running = some frame ∧
      c.session.machine.step frame = .fail m' frame' fault ∧ d.running = none) ∨
    ∃ frame i next v, c.running = some frame ∧
      frame.function.chunk.decode frame.ip = .instruction i next ∧ i.op = .ret ∧
      c.session.machine.peek? 0 = some v ∧ d.running = some caller ∧
      d.session.machine.callers = callers ∧ d.session.machine.stack = (m.stack.take base).push v := by
  obtain ⟨⟨frame, hFrame, hAbove⟩, hKeeps⟩ := hc
  have hRunning := ho.machine
  rw [hFrame] at hRunning
  cases hn with
  | host e => exact .inl ⟨⟨frame, hFrame, hAbove⟩, hKeeps⟩
  | reserve => exact .inl ⟨⟨frame, hFrame, hAbove⟩, hKeeps⟩
  | define | reject | load => cases hFrame
  | @step s _ frame' scripts stores m' _ hStep =>
    cases hFrame
    obtain ⟨i, next, hDecode, hRespects⟩ := hRunning.respects_step
    obtain ⟨h, hm, -⟩ := hRunning.height
    have hHeight : frame.base ≤ s.machine.stack.size := hm.height ▸ Nat.le_add_right ..
    rw [hStep] at hRespects
    rcases hRespects with ⟨hBase, hCallers, hSame⟩ | ⟨hBase, hCallers, hStack⟩ |
      ⟨hRet, hCallers, v, hv, hStack⟩
    · refine .inl ⟨⟨frame', rfl, ?_⟩, hKeeps.trans (hSame.mono hAbove.le)⟩
      change frame'.Above base (caller :: callers) m'.callers
      rw [hCallers]
      exact hAbove.of_base hBase
    · refine .inl ⟨⟨frame', rfl, ?_⟩, fun j hj => ?_⟩
      · change frame'.Above base (caller :: callers) m'.callers
        rw [hCallers]
        exact .call (hAbove.le.trans hBase) (hAbove.of_base rfl)
      · change m'.stack[j]? = _
        rw [hStack]
        exact hKeeps j hj
    · replace hAbove : frame.Above base (caller :: callers) s.machine.callers := hAbove
      rw [hCallers] at hAbove
      cases hAbove with
      | lowest hBase =>
        refine .inr (.inr ⟨frame, i, next, v, rfl, hDecode, hRet, hv, rfl, rfl, hStack.trans ?_⟩)
        dsimp only
        rw [hBase, hKeeps.take_eq]
      | call hLess hRest =>
        exact .inl ⟨⟨frame', rfl, hRest⟩,
          hKeeps.trans ((Machine.keeps_of_take hHeight hStack).mono hLess)⟩
  | @halt s _ scripts stores m' t _ hStep =>
    cases hFrame
    obtain ⟨i, next, -, hRespects⟩ := hRunning.respects_step
    rw [hStep] at hRespects
    have hNone : s.machine.callers = [] := hRespects
    have hBelow := hAbove.suffix
    simp only [hNone, List.suffix_nil] at hBelow
    cases hBelow
  | @fail s _ frame' scripts stores m' fault t _ hStep =>
    cases hFrame
    exact .inr (.inl ⟨frame, m', frame', fault, rfl, hStep, rfl⟩)

/-- As long as a call lasts, it is above its caller. -/
theorem Inside.during {a b : Moment} {count : Nat} {caller : Frame} (ha : Reached Machine.CallsOwn a)
    (hEnter : Enters count caller a b) {c : Moment}
    (hc : Inside Machine.CallsOwn a.session.machine.callers.length b c) :
    Reached Machine.CallsOwn c ∧ c.During a.session.machine (a.session.machine.stack.size - count - 1)
      (caller :: a.session.machine.callers) := by
  induction hc with
  | enter => exact ⟨ha.next hEnter.next, hEnter.during⟩
  | next _ hn hRunning hDepth ih =>
    obtain ⟨hReached, hDuring⟩ := ih
    refine ⟨hReached.next hn, ?_⟩
    rcases hDuring.next hReached.orderly_of_callsOwn hn with
      hDuring | ⟨_, _, _, _, -, -, hNone⟩ | ⟨_, _, _, _, -, -, -, -, -, hCallers, -⟩
    · exact hDuring
    · exact absurd hNone hRunning
    · rw [hCallers] at hDepth
      exact absurd hDepth (lt_irrefl _)

theorem During.running_deep {m : Machine} {base : Nat} {caller : Frame} {callers : List Frame} {c : Moment}
    (hc : c.During m base (caller :: callers)) :
    c.running ≠ none ∧ callers.length < c.session.machine.callers.length := by
  obtain ⟨⟨frame, hFrame, hAbove⟩, -⟩ := hc
  refine ⟨fun hNone => ?_, hAbove.suffix.length_le⟩
  rw [hNone] at hFrame
  cases hFrame

/-- In a session that calls no function but those of the source texts it accepted, from the step that enters a
function with `count` arguments on, as long as the call lasts: no value below the callee is changed or removed.
The call ends when the run fails, or with the instruction that returns: then the stack is what was below the
callee with the one result on top, and the caller goes on behind its call, with the calls suspended that were
so before. -/
theorem call_respects_caller {a b : Moment} {count : Nat} {caller : Frame}
    (ha : Reached Machine.CallsOwn a) (hEnter : Enters count caller a b) {c : Moment}
    (hc : Inside Machine.CallsOwn a.session.machine.callers.length b c) :
    (∀ i < a.session.machine.stack.size - count - 1,
      c.session.machine.stack[i]? = a.session.machine.stack[i]?) ∧
    ∀ d, Next Machine.CallsOwn c d →
      Inside Machine.CallsOwn a.session.machine.callers.length b d ∨
      (∃ frame m frame' fault, c.running = some frame ∧
        c.session.machine.step frame = .fail m frame' fault ∧ d.running = none) ∨
      ∃ frame i next result, c.running = some frame ∧
        frame.function.chunk.decode frame.ip = .instruction i next ∧ i.op = .ret ∧
        c.session.machine.peek? 0 = some result ∧
        d.session.machine.stack =
          (a.session.machine.stack.take (a.session.machine.stack.size - count - 1)).push result ∧
        d.running = some caller ∧ d.session.machine.callers = a.session.machine.callers := by
  obtain ⟨hReached, hDuring⟩ := hc.during ha hEnter
  refine ⟨hDuring.keeps, fun d hn => ?_⟩
  rcases hDuring.next hReached.orderly_of_callsOwn hn with
    hDuring | hFail | ⟨frame, i, next, result, hFrame, hDecode, hRet, hResult, hCaller, hCallers, hStack⟩
  · obtain ⟨hRunning, hDepth⟩ := hDuring.running_deep
    exact .inl (hc.next hn hRunning hDepth)
  · exact .inr (.inl hFail)
  · exact .inr (.inr ⟨frame, i, next, result, hFrame, hDecode, hRet, hResult, hStack, hCaller, hCallers⟩)

/-- A call in the middle of an expression, with an operand of the caller below it. -/
theorem call_respects_caller_operand : ∃ (a b c d : Moment) (caller : Frame) (result : Value),
    Reached Machine.CallsOwn a ∧ Enters 1 caller a b ∧
    Inside Machine.CallsOwn a.session.machine.callers.length b c ∧ Next Machine.CallsOwn c d ∧
    a.session.machine.stack.size = 4 ∧
    d.session.machine.stack = (a.session.machine.stack.take 2).push result ∧ d.running = some caller := by
  -- five instructions lead to the call; the function pushes nil and returns it
  have hCall : ((early? "fun f(x) {} true == f(nil);" 5).map fun e =>
      (e.2.1.function.chunk.decode e.2.1.ip, e.1.machine.stack.size, e.1.machine.callers.length)) =
      some (.instruction ⟨.call, 1⟩ 10, 4, 0) := by decide +kernel
  have hCallee : ((early? "fun f(x) {} true == f(nil);" 5).bind fun e =>
      ((e.1.machine.peek? 1).bind Value.asFunction?).map fun f =>
        (f.id, f.arity, f.chunk.decode 0, f.chunk.decode 1)) =
      some (3, 1, .instruction ⟨.pushNil, 0⟩ 1, .instruction ⟨.ret, 0⟩ 2) := by decide +kernel
  have hConstant : ((early? "fun f(x) {} true == f(nil);" 5).bind fun e =>
      (e.2.2.chunk.constants[1]?.bind Value.asFunction?).map Function.id) = some 3 := by decide +kernel
  obtain ⟨⟨s, frame, script⟩, hEarly, hFacts⟩ := Option.map_eq_some_iff.1 hCall
  simp only [Prod.mk.injEq] at hFacts
  obtain ⟨hDecode, hSize, hDepth⟩ := hFacts
  rw [hEarly, Option.bind_some] at hCallee hConstant
  obtain ⟨f, hf, hFacts⟩ := Option.map_eq_some_iff.1 hCallee
  simp only [Prod.mk.injEq] at hFacts
  obtain ⟨hId, hArity, hFirst, hSecond⟩ := hFacts
  have hv := Value.eq_some_of_asFunction? hf
  have hAmong := Reached.among_of_early? hEarly hv (hConstant.trans (congrArg some hId.symm))
  obtain ⟨stores, hReached⟩ : ∃ stores, Reached Machine.CallsOwn ⟨s, some frame, [script], stores⟩ :=
    Reached.of_early? hEarly .of_not_calls
  let m₁ : Machine := { s.machine with callers := { frame with ip := 10 } :: s.machine.callers }
  have hStep₁ : s.machine.step frame = .next m₁ ⟨f, 0, 2⟩ := by
    simp [m₁, Machine.step, hDecode, Machine.execute, Machine.call, hv, hArity, hSize, hDepth,
      Machine.maxFrames]
  have hStep₂ : m₁.step ⟨f, 0, 2⟩ = .next (m₁.push .nil) ⟨f, 1, 2⟩ := by
    simp [Machine.step, hFirst, Machine.execute]
  obtain ⟨m₃, hStep₃, hCallers⟩ : ∃ m₃, (m₁.push .nil).step ⟨f, 1, 2⟩ = .next m₃ { frame with ip := 10 } ∧
      m₃.callers = s.machine.callers := by
    simp [m₁, Machine.step, hSecond, Machine.execute, Machine.ret, Machine.peek?, Machine.push,
      Machine.drop]
  let b : Moment := ⟨{ s with machine := m₁ }, some ⟨f, 0, 2⟩, [script],
    (s.machine.store? frame).toList ++ stores⟩
  let c : Moment := ⟨{ s with machine := m₁.push .nil }, some ⟨f, 1, 2⟩, [script],
    (m₁.store? ⟨f, 0, 2⟩).toList ++ b.stores⟩
  have hEnter : Enters 1 { frame with ip := 10 } ⟨s, some frame, [script], stores⟩ b :=
    .call hDecode hv hAmong hStep₁ rfl
  have hPush : Next Machine.CallsOwn b c :=
    .step (.of_not_calls (by simp [Frame.calls, hFirst])) hStep₂
  have hInside : Inside Machine.CallsOwn s.machine.callers.length b c :=
    .next .enter hPush (Option.some_ne_none _) (Nat.lt_succ_self _)
  have hReturn : Next Machine.CallsOwn c
      ⟨{ s with machine := m₃ }, some { frame with ip := 10 }, [script], _⟩ :=
    .step (.of_not_calls (by simp [Frame.calls, hSecond])) hStep₃
  obtain ⟨-, hLeave⟩ := call_respects_caller hReached hEnter hInside
  rcases hLeave _ hReturn with hIn | ⟨_, _, _, _, hFrame, hFail, -⟩ |
    ⟨_, _, _, result, -, -, -, -, hStack, hRunning, -⟩
  · have hDeep := (hIn.during hReached hEnter).2.running_deep.2
    simp [hCallers] at hDeep
  · cases hFrame
    cases hStep₃.symm.trans hFail
  · refine ⟨_, b, c, _, _, result, hReached, hEnter, hInside, hReturn, hSize, ?_, hRunning⟩
    simp only [hSize] at hStack
    exact hStack

end Moment

end Lox
