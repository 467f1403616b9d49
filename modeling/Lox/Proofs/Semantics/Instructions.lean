import Lox.Proofs.Semantics.Mirror

/-!
# Instructions that follow an evaluation

`Machine.Follows`: a run does what an evaluation does. Where the evaluation gives a result, the run comes
to a machine that has it; where it finds a fault, the run fails with it; where its clock runs out, the run
goes on for as many steps. Evaluations in a row are followed by runs in a row (`Machine.Follows.bind`), and
each instruction follows its part of an evaluation.
-/

set_option autoImplicit false

namespace Lox

open Lox.Parser (maxDistance maxLocals)

namespace Machine

/-! ## Runs -/

/-- A run comes to a machine and a frame of a set. -/
inductive Reaches (Q : Machine → Frame → Prop) : Machine → Frame → Prop
  | here {m : Machine} {frame : Frame} : Q m frame → Reaches Q m frame
  | next {m m' : Machine} {frame frame' : Frame} : m.step frame = .next m' frame' →
      Reaches Q m' frame' → Reaches Q m frame

theorem Reaches.bind {Q Q' : Machine → Frame → Prop} {m : Machine} {frame : Frame}
    (h : Reaches Q m frame) (k : ∀ m' frame', Q m' frame' → Reaches Q' m' frame') :
    Reaches Q' m frame := by
  induction h with
  | here hq => exact k _ _ hq
  | next hs _ ih => exact .next hs ih

theorem Reaches.exists {Q : Machine → Frame → Prop} {m : Machine} {frame : Frame}
    (h : Reaches Q m frame) : ∃ m' frame', Q m' frame' := by
  induction h with
  | here hq => exact ⟨_, _, hq⟩
  | next _ _ ih => exact ih

/-- A run goes on for at least so many steps. -/
def Lasts : Nat → Machine → Frame → Prop
  | 0, _, _ => True
  | n + 1, m, frame => ∃ m' frame', m.step frame = .next m' frame' ∧ Lasts n m' frame'

theorem Lasts.mono {n n' : Nat} {m : Machine} {frame : Frame} (h : Lasts n m frame) (hn : n' ≤ n) :
    Lasts n' m frame := by
  induction n' generalizing n m frame with
  | zero => trivial
  | succ n' ih =>
    obtain ⟨n, rfl⟩ : ∃ j, n = j + 1 := ⟨n - 1, by omega⟩
    obtain ⟨m', frame', hs, h⟩ := h
    exact ⟨m', frame', hs, ih h (by omega)⟩

theorem Reaches.lasts {Q : Machine → Frame → Prop} {n : Nat} {m : Machine} {frame : Frame}
    (h : Reaches Q m frame) (k : ∀ m' frame', Q m' frame' → Lasts n m' frame') : Lasts n m frame := by
  induction h with
  | here hq => exact k _ _ hq
  | next hs _ ih => exact Lasts.mono (n := n + 1) ⟨_, _, hs, ih⟩ (Nat.le_succ n)

/-- The next instruction finds the fault that an evaluation stopped with in a state. -/
def Fails (u : Setup) (s : State) (fault : Fault) (m : Machine) (frame : Frame) : Prop :=
  fault.internal = false ∧ ∃ m' frame', m.step frame = .fail m' frame' fault ∧ m'.Mirrors u s ∧
    (frame' :: m'.callers).map (fun frame => frame.function.name.map Str.text) = s.calls

/-- A run does what an evaluation with some clock does. -/
def Follows (u : Setup) (clock : Nat) {α : Type} (Q : α → State → Machine → Frame → Prop) (m : Machine)
    (frame : Frame) : EStateM.Result Stop State α → Prop
  | .ok a s => Reaches (Q a s) m frame
  | .error (.fault fault) s => Reaches (Fails u s fault) m frame
  | .error .timeout _ => Lasts clock m frame

namespace Follows

variable {u : Setup} {clock : Nat} {α β : Type} {Q : α → State → Machine → Frame → Prop}
  {Q' : β → State → Machine → Frame → Prop} {m m' : Machine} {frame frame' : Frame} {s : State}
  {r : EStateM.Result Stop State α}

theorem ok {a : α} (h : Q a s m frame) : Follows u clock Q m frame (.ok a s) := .here h

theorem fail {fault : Fault} (h : Fails u s fault m frame) :
    Follows u clock Q m frame (.error (.fault fault) s) := .here h

/-- Steps before the run do not matter. -/
theorem of_reaches {P : Machine → Frame → Prop} (h : Reaches P m frame)
    (k : ∀ m' frame', P m' frame' → Follows u clock Q m' frame' r) : Follows u clock Q m frame r := by
  cases r with
  | ok a s => exact Reaches.bind h k
  | error stop s =>
    cases stop with
    | fault fault => exact Reaches.bind h k
    | timeout => exact h.lasts k

theorem next (hs : m.step frame = .next m' frame') (h : Follows u clock Q m' frame' r) :
    Follows u clock Q m frame r :=
  of_reaches (P := fun m₁ frame₁ => m₁ = m' ∧ frame₁ = frame') (.next hs (.here ⟨rfl, rfl⟩))
    fun _ _ hEq => hEq.1 ▸ hEq.2 ▸ h

/-- A step takes one unit of the clock. -/
theorem tick (hs : m.step frame = .next m' frame') (h : Follows u clock Q m' frame' r) :
    Follows u (clock + 1) Q m frame r := by
  cases r with
  | ok a s => exact .next hs h
  | error stop s =>
    cases stop with
    | fault fault => exact .next hs h
    | timeout => exact ⟨m', frame', hs, h⟩

theorem mono {clock' : Nat} (h : Follows u clock Q m frame r) (hc : clock' ≤ clock) :
    Follows u clock' Q m frame r := by
  cases r with
  | ok a s => exact h
  | error stop s =>
    cases stop with
    | fault fault => exact h
    | timeout => exact Lasts.mono h hc

/-- Evaluations in a row are followed by runs in a row. -/
theorem bind {x : Eval α} {g : α → Eval β} (h : Follows u clock Q m frame (x s))
    (k : ∀ a s' m' frame', Q a s' m' frame' → Follows u clock Q' m' frame' (g a s')) :
    Follows u clock Q' m frame ((x >>= g) s) := by
  change Follows u clock Q' m frame (EStateM.bind x g s)
  unfold EStateM.bind
  generalize x s = r at h
  cases r with
  | ok a s => exact of_reaches h (k a s)
  | error stop s =>
    cases stop with
    | fault fault => exact h
    | timeout => exact h

end Follows

end Machine

/-! ## Single instructions -/

/-- The datum that a constant is. -/
def Const.datum : Const → Datum
  | number x => .number x
  | string text => .string text
  | function r => .function r

theorem World.Represents.like {w : World} {r : Routine} (hl : r.Legal) (hp : r.Proper) {v : Value}
    {k : Const} (hr : w.Represents v k) (hk : k ∈ r.pool) : w.Like v k.datum := by
  cases hr with
  | number x => exact .number x
  | string h => exact .string h
  | function h =>
    obtain ⟨hp', hl'⟩ := hl.nested hp hk
    exact .function h hl' hp'

namespace Machine.Runs

variable {u : Setup} {c : Call u} {sc : Scope} {m : Machine} {s : State} {ds : List Datum} {ip line : Nat}
  {clock : Nat} {α : Type} {Q : α → State → Machine → Frame → Prop} {r : EStateM.Result Stop State α}
  {d : Datum}

/-- A step executes the instruction that the code has at an offset. -/
theorem step (hm : m.Runs c sc s ds) {op : Opcode} {x : Nat}
    (hAt : c.routine.code.At ip (.one op x line)) (hFits : Instruction.Fits ⟨op, x⟩) :
    m.step (c.frame ip) = m.execute (c.frame (ip + (1 + op.operandSize))) ⟨op, x⟩ :=
  (@Machine.step_at m (c.frame ip) _ _ hm.compiled _ _ hAt hFits).2

/-- An instruction that finds a fault. -/
theorem fails (hm : m.Runs c sc s ds) {m' : Machine} {ip' : Nat} {fault : Fault}
    (hFault : fault.internal = false) (hs : m.step (c.frame ip) = .fail m' (c.frame ip') fault)
    (hMirrors : m'.Mirrors u s) (hCallers : m'.callers = m.callers) : m.Fails u s fault (c.frame ip) := by
  refine ⟨hFault, m', _, hs, hMirrors, ?_⟩
  rw [hCallers, hm.callers, hm.calls]
  rfl

/-- An instruction that pushes a value. -/
theorem pushes (hm : m.Runs c sc s ds) {op : Opcode} {x : Nat} {v : Value}
    (hAt : c.routine.code.At ip (.one op x line)) (hFits : Instruction.Fits ⟨op, x⟩)
    (hExecute : ∀ frame, m.execute frame ⟨op, x⟩ = .next (m.push v) frame)
    (hv : (u.world m.heap).Like v d)
    (k : ∀ m', m'.Runs c sc s (ds ++ [d]) →
      Follows u clock Q m' (c.frame (ip + (1 + op.operandSize))) r) :
    Follows u clock Q m (c.frame ip) r := by
  refine .next ?_ (k _ (hm.push hv))
  rw [hm.step hAt hFits, hExecute]

theorem constant (hm : m.Runs c sc s ds) {i : Nat} {const : Const}
    (hAt : c.routine.code.At ip (.one .constant i line)) (hi : c.routine.pool[i]? = some const)
    (k : ∀ m', m'.Runs c sc s (ds ++ [const.datum]) → Follows u clock Q m' (c.frame (ip + 2)) r) :
    Follows u clock Q m (c.frame ip) r := by
  obtain ⟨v, hv, hr⟩ := hm.compiled.constant hi
  have hLike := hr.like c.legal c.proper (List.mem_of_getElem? hi)
  have hLess : i < 256 := (List.getElem?_eq_some_iff.1 hi).1.trans_le c.legal.constants
  have hStep := hm.step hAt hLess
  refine .next ?_ (k _ (hm.push hLike))
  rw [hStep]
  simp only [execute, Machine.constant, Call.frame, hv]
  rfl

theorem pop (hm : m.Runs c sc s (ds ++ [d])) (hAt : c.routine.code.At ip (.op .pop line))
    (k : ∀ m', m'.Runs c sc s ds → Follows u clock Q m' (c.frame (ip + 1)) r) :
    Follows u clock Q m (c.frame ip) r := by
  obtain ⟨v, hv, -⟩ := hm.peek
  refine .next ?_ (k _ hm.drop)
  rw [hm.step hAt (Instruction.fits_op _)]
  simp only [execute, Machine.pop, List.length_nil] at hv ⊢
  rw [hv]
  rfl

theorem jump (hm : m.Runs c sc s ds) {x : Nat} (hAt : c.routine.code.At ip (.one .jump x line))
    (hx : x ≤ maxDistance) (k : Follows u clock Q m (c.frame (ip + 3 + x)) r) :
    Follows u clock Q m (c.frame ip) r := by
  refine .next ?_ k
  rw [hm.step hAt (Nat.lt_succ_of_le hx)]
  rfl

theorem jumpIfFalse (hm : m.Runs c sc s (ds ++ [d])) {x : Nat}
    (hAt : c.routine.code.At ip (.one .jumpIfFalse x line)) (hx : x ≤ maxDistance)
    (k : Follows u clock Q m (c.frame (if d.isFalsey then ip + 3 + x else ip + 3)) r) :
    Follows u clock Q m (c.frame ip) r := by
  obtain ⟨v, hv, hLike⟩ := hm.peek
  refine .next ?_ k
  rw [hm.step hAt (Nat.lt_succ_of_le hx)]
  simp only [execute, Machine.jumpIfFalse, List.length_nil] at hv ⊢
  rw [hv, ← hLike.isFalsey_eq]
  dsimp only
  split <;> rfl

/-- The way back of a loop takes a unit of the clock. -/
theorem loop (hm : m.Runs c sc s ds) {x : Nat} (hAt : c.routine.code.At ip (.one .loop x line))
    (hx : x ≤ maxDistance) (hIp : x ≤ ip + 3) (k : Follows u clock Q m (c.frame (ip + 3 - x)) r) :
    Follows u (clock + 1) Q m (c.frame ip) r := by
  refine .tick ?_ k
  rw [hm.step hAt (Nat.lt_succ_of_le hx)]
  simp only [execute, Machine.loop]
  exact if_pos hIp

end Machine.Runs

/-! ## Operators -/

/-- A call is at an offset, with some data on the stack that an evaluation gave. -/
def Call.Lands {u : Setup} (c : Call u) (sc : Scope) (ip : Nat) {α : Type} (ds : α → List Datum) (a : α)
    (s : State) (m : Machine) (frame : Frame) : Prop :=
  frame = c.frame ip ∧ m.Runs c sc s (ds a)

namespace Machine.Runs

variable {u : Setup} {c : Call u} {sc : Scope} {m : Machine} {s : State} {ds : List Datum} {ip line : Nat}
  {clock : Nat} {α : Type} {Q : α → State → Machine → Frame → Prop} {r : EStateM.Result Stop State α}
  {a b d : Datum}

/-- The two data on top of the stack. -/
theorem peeks (hm : m.Runs c sc s (ds ++ [a, b])) : ∃ v w, m.peek? 1 = some v ∧ m.peek? 0 = some w ∧
    (u.world m.heap).Like v a ∧ (u.world m.heap).Like w b := by
  obtain ⟨v, hv, hLike⟩ := hm.peek
  rw [List.append_cons] at hm
  obtain ⟨w, hw, hLike'⟩ := hm.peek
  exact ⟨v, w, hv, hw, hLike, hLike'⟩

theorem not (hm : m.Runs c sc s (ds ++ [d])) (hAt : c.routine.code.At ip (.op .not line))
    (k : ∀ m', m'.Runs c sc s (ds ++ [.bool d.isFalsey]) →
      Follows u clock Q m' (c.frame (ip + 1)) r) : Follows u clock Q m (c.frame ip) r := by
  obtain ⟨v, hv, hLike⟩ := hm.peek
  refine .next ?_ (k _ (hm.drop.push (.bool _)))
  rw [hm.step hAt (Instruction.fits_op _)]
  simp only [execute, Machine.not, List.length_nil] at hv ⊢
  rw [hv, ← hLike.isFalsey_eq]
  rfl

theorem equal (hm : m.Runs c sc s (ds ++ [a, b])) (hAt : c.routine.code.At ip (.op .equal line))
    (k : ∀ m', m'.Runs c sc s (ds ++ [.bool (a.equal b)]) →
      Follows u clock Q m' (c.frame (ip + 1)) r) : Follows u clock Q m (c.frame ip) r := by
  obtain ⟨v, w, hv, hw, hLike, hLike'⟩ := hm.peeks
  refine .next ?_ (k _ (hm.drop.push (.bool _)))
  rw [hm.step hAt (Instruction.fits_op _), ← hLike.equal_eq hm.wf (u.distinct _) hLike']
  simp only [execute, Machine.equal, hv, hw]
  rfl

theorem negate (hm : m.Runs c sc s (ds ++ [d])) (hAt : c.routine.code.At ip (.op .negate line)) :
    Follows u clock (c.Lands sc (ip + 1) fun d => ds ++ [d]) m (c.frame ip)
      (UnaryOperator.negate.apply d s) := by
  obtain ⟨v, hv, hLike⟩ := hm.peek
  have hStep := hm.step hAt (Instruction.fits_op _)
  simp only [execute, Machine.negate, List.length_nil] at hv hStep
  rw [hv] at hStep
  cases hLike with
  | number x => exact .next hStep (.ok ⟨rfl, hm.drop.push (.number _)⟩)
  | nil | bool | string | function | native => exact .fail (hm.fails rfl hStep hm.toMirrors rfl)

/-- An operation on two numbers. -/
theorem arithmetic (hm : m.Runs c sc s (ds ++ [a, b])) {op : Opcode} {f : Float → Float → Value}
    {g : Float → Float → Datum} (hSize : op.operandSize = 0) (hAt : c.routine.code.At ip (.op op line))
    (hExecute : ∀ frame, m.execute frame ⟨op, 0⟩ = m.arithmetic frame f)
    (hLike : ∀ w x y, World.Like w (f x y) (g x y)) :
    Follows u clock (c.Lands sc (ip + 1) fun d => ds ++ [d]) m (c.frame ip)
      (Eval.arithmetic g a b s) := by
  obtain ⟨v, w, hv, hw, hLeft, hRight⟩ := hm.peeks
  have hStep := hm.step hAt (Instruction.fits_op _)
  rw [hExecute, Machine.arithmetic, hv, hw, hSize] at hStep
  cases hLeft with
  | number x =>
    cases hRight with
    | number y => exact .next hStep (.ok ⟨rfl, hm.drop.push (hLike _ x y)⟩)
    | nil | bool | string | function | native => exact .fail (hm.fails rfl hStep hm.toMirrors rfl)
  | nil | bool | string | function | native => exact .fail (hm.fails rfl hStep hm.toMirrors rfl)

theorem add (hm : m.Runs c sc s (ds ++ [a, b])) (hAt : c.routine.code.At ip (.op .add line)) :
    Follows u clock (c.Lands sc (ip + 1) fun d => ds ++ [d]) m (c.frame ip) (Eval.add a b s) := by
  obtain ⟨v, w, hv, hw, hLeft, hRight⟩ := hm.peeks
  have hStep := hm.step hAt (Instruction.fits_op _)
  simp only [execute, Machine.add, hv, hw] at hStep
  cases hLeft with
  | number x =>
    cases hRight with
    | number y => exact .next hStep (.ok ⟨rfl, hm.drop.push (.number _)⟩)
    | nil | bool | string | function | native => exact .fail (hm.fails rfl hStep hm.toMirrors rfl)
  | @string t =>
    cases hRight with
    | @string t' =>
      obtain ⟨hWF, hExtends, hMem, hText⟩ := Heap.intern_spec hm.wf (t.text ++ t'.text)
      have hPushed := (hm.extend hWF hExtends).drop.push (.string hMem)
      rw [hText] at hPushed
      exact .next hStep (.ok ⟨rfl, hPushed⟩)
    | nil | bool | number | function | native => exact .fail (hm.fails rfl hStep hm.toMirrors rfl)
  | nil | bool | function | native => exact .fail (hm.fails rfl hStep hm.toMirrors rfl)

theorem print (hm : m.Runs c sc s (ds ++ [d])) (hAt : c.routine.code.At ip (.op .print line))
    (k : ∀ m', m'.Runs c sc { s with printed := s.printed ++ d.text ++ "\n" } ds →
      Follows u clock Q m' (c.frame (ip + 1)) r) : Follows u clock Q m (c.frame ip) r := by
  obtain ⟨v, hv, hLike⟩ := hm.peek
  have hDropped := hm.drop
  obtain ⟨hOutput, hPrinted⟩ := hDropped.toMirrors.print d.text
  have hStep := hm.step hAt (Instruction.fits_op _)
  simp only [execute, Machine.print, List.length_nil] at hv hStep
  rw [hv] at hStep
  dsimp only at hStep
  rw [hLike.text_eq, show (m.drop 1).output.printLine d.text = _ from hOutput] at hStep
  refine .next hStep (k _ ?_)
  exact { toMirrors := hPrinted
          grown := hDropped.grown
          stack := hDropped.stack
          callers := hDropped.callers
          calls := hDropped.calls
          scope := hDropped.scope }

end Machine.Runs

/-! ## Variables -/

/-- Related lists with related changes. -/
theorem forall₂_set {α β : Type} {R : α → β → Prop} {xs : List α} {ys : List β} {x : α} {y : β}
    (h : List.Forall₂ R xs ys) (hxy : R x y) (i : Nat) : List.Forall₂ R (xs.set i x) (ys.set i y) := by
  induction h generalizing i with
  | nil => exact .nil
  | cons hr hrs ih =>
    cases i with
    | zero => exact .cons hxy hrs
    | succ i => exact .cons hr (ih i)

namespace Machine.Runs

variable {u : Setup} {c : Call u} {sc : Scope} {m : Machine} {s : State} {ds : List Datum} {ip line : Nat}
  {clock : Nat} {α : Type} {Q : α → State → Machine → Frame → Prop} {r : EStateM.Result Stop State α}
  {d : Datum}

theorem getLocal (hm : m.Runs c sc s ds) {i : Nat}
    (hAt : c.routine.code.At ip (.one .getLocal (i + 1) line)) (hFits : i + 1 < 256)
    (hd : s.scopes.values[i]? = some d)
    (k : ∀ m', m'.Runs c sc s (ds ++ [d]) → Follows u clock Q m' (c.frame (ip + 2)) r) :
    Follows u clock Q m (c.frame ip) r := by
  have hLess := (List.getElem?_eq_some_iff.1 hd).1
  obtain ⟨v, hv, hLike⟩ := forall₂_getElem? hm.stack (i := c.below.length + (i + 1)) (y := d) (by
    rw [List.getElem?_append_right (Nat.le_add_right ..), Nat.add_sub_cancel_left,
      List.getElem?_cons_succ, List.getElem?_append_left hLess, hd])
  rw [Array.getElem?_toList] at hv
  refine .next ?_ (k _ (hm.push hLike))
  rw [hm.step hAt hFits]
  simp only [execute, Machine.getLocal, Call.frame, hv]
  rfl

theorem setLocal (hm : m.Runs c sc s (ds ++ [d])) {i : Nat} {env : Environment}
    (hAt : c.routine.code.At ip (.one .setLocal (i + 1) line)) (hFits : i + 1 < 256)
    (hi : i < s.scopes.values.length) (hValues : env.values = s.scopes.values.set i d)
    (hScope : env.scope = s.scopes.scope)
    (k : ∀ m', m'.Runs c sc { s with scopes := env } (ds ++ [d]) →
      Follows u clock Q m' (c.frame (ip + 2)) r) : Follows u clock Q m (c.frame ip) r := by
  obtain ⟨v, hv, hLike⟩ := hm.peek
  have hSize : c.below.length + (i + 1) < m.stack.size := by
    have hLength := hm.stack.length_eq
    simp only [Array.length_toList, List.length_append, List.length_cons] at hLength
    omega
  have hStep : m.step (c.frame ip) =
      .next { m with stack := m.stack.setIfInBounds (c.below.length + (i + 1)) v } (c.frame (ip + 2)) := by
    rw [hm.step hAt hFits]
    simp only [execute, Machine.setLocal, List.length_nil] at hv ⊢
    rw [hv]
    exact if_pos hSize
  refine .next hStep (k _ ?_)
  exact {
    toMirrors := hm.toMirrors.congr rfl rfl rfl rfl rfl rfl rfl
    grown := hm.grown
    stack := by
      have hSet := forall₂_set hm.stack hLike (c.below.length + (i + 1))
      rw [List.set_append_right _ _ (Nat.le_add_right ..), Nat.add_sub_cancel_left,
        List.set_cons_succ, List.set_append_left _ _ hi, ← hValues] at hSet
      simpa using hSet
    callers := hm.callers
    calls := hm.calls
    scope := hScope.trans hm.scope }

/-- A name among the constants. -/
theorem name (hm : m.Runs c sc s ds) {i : Nat} {name : String}
    (hi : c.routine.pool[i]? = some (.string name)) (ip : Nat) : ∃ key,
      nameAt (c.frame ip) i = .ok key ∧ .string key ∈ m.heap.objects ∧ key.text = name ∧ i < 256 := by
  obtain ⟨v, hv, hr⟩ := hm.compiled.constant hi
  have hLess : i < 256 := (List.getElem?_eq_some_iff.1 hi).1.trans_le c.legal.constants
  cases hr with
  | string hMem => exact ⟨_, by simp only [nameAt, Call.frame, hv], hMem, rfl, hLess⟩

variable {i : Nat} {name : String}

theorem getGlobal (hm : m.Runs c sc s ds) (hAt : c.routine.code.At ip (.one .getGlobal i line))
    (hi : c.routine.pool[i]? = some (.string name)) :
    Follows u clock (c.Lands sc (ip + 2) fun d => ds ++ [d]) m (c.frame ip)
      (match s.globals name with
        | some d => .ok d s
        | none => .error (.fault (.undefinedVariable name)) s) := by
  obtain ⟨key, hKey, hMem, rfl, hLess⟩ := hm.name hi (ip + 2)
  have hStep := hm.step hAt hLess
  simp only [execute, Machine.getGlobal] at hStep
  rw [show nameAt (c.frame (ip + (1 + Opcode.getGlobal.operandSize))) i = .ok key from hKey] at hStep
  dsimp only at hStep
  have hRel := hm.toMirrors.get? hMem
  generalize s.globals key.text = global at hRel
  generalize m.globals.get? (.string key) = found at hRel hStep
  cases hRel with
  | some hLike => exact .next hStep (.ok ⟨rfl, hm.push hLike⟩)
  | none => exact .fail (hm.fails rfl hStep hm.toMirrors rfl)

theorem defineGlobal (hm : m.Runs c sc s (ds ++ [d]))
    (hAt : c.routine.code.At ip (.one .defineGlobal i line))
    (hi : c.routine.pool[i]? = some (.string name))
    (k : ∀ m', m'.Runs c sc { s with globals := Function.update s.globals name (some d) } ds →
      Follows u clock Q m' (c.frame (ip + 2)) r) : Follows u clock Q m (c.frame ip) r := by
  obtain ⟨key, hKey, hMem, rfl, hLess⟩ := hm.name hi (ip + 2)
  obtain ⟨v, hv, hLike⟩ := hm.peek
  have hStep := hm.step hAt hLess
  simp only [execute, Machine.defineGlobal, List.length_nil] at hv hStep
  rw [show nameAt (c.frame (ip + (1 + Opcode.defineGlobal.operandSize))) i = .ok key from hKey,
    hv] at hStep
  have hSet : { m with globals := (m.globals.set (.string key) v).2 }.Runs c sc
      { s with globals := Function.update s.globals key.text (some d) } (ds ++ [d]) :=
    { toMirrors := hm.toMirrors.set hMem hLike
      grown := hm.grown
      stack := hm.stack
      callers := hm.callers
      calls := hm.calls
      scope := hm.scope }
  exact .next hStep (k _ hSet.drop)

theorem setGlobal (hm : m.Runs c sc s (ds ++ [d])) (hAt : c.routine.code.At ip (.one .setGlobal i line))
    (hi : c.routine.pool[i]? = some (.string name)) :
    Follows u clock (c.Lands sc (ip + 2) fun _ : Unit => ds ++ [d]) m (c.frame ip)
      (match s.globals name with
        | some _ => .ok () { s with globals := Function.update s.globals name (some d) }
        | none => .error (.fault (.undefinedVariable name)) s) := by
  obtain ⟨key, hKey, hMem, rfl, hLess⟩ := hm.name hi (ip + 2)
  obtain ⟨v, hv, hLike⟩ := hm.peek
  have hStep := hm.step hAt hLess
  simp only [execute, Machine.setGlobal, List.length_nil] at hv hStep
  rw [show nameAt (c.frame (ip + (1 + Opcode.setGlobal.operandSize))) i = .ok key from hKey,
    hv] at hStep
  dsimp only at hStep
  have hNew := hm.toMirrors.isNew_iff hMem v
  cases hGlobal : s.globals key.text with
  | none =>
    rw [if_pos (hNew.2 hGlobal)] at hStep
    exact .fail (hm.fails rfl hStep (hm.toMirrors.undo hMem (hNew.2 hGlobal)) rfl)
  | some global =>
    rw [if_neg fun h => by rw [hNew.1 h] at hGlobal; cases hGlobal] at hStep
    refine .next hStep (.ok ⟨rfl, ?_⟩)
    exact { toMirrors := hm.toMirrors.set hMem hLike
            grown := hm.grown
            stack := hm.stack
            callers := hm.callers
            calls := hm.calls
            scope := hm.scope }

end Machine.Runs

/-! ## Calls -/

theorem Routine.scope_scopes {r : Routine} {ds : List Datum} (hLength : ds.length = r.parameters.length) :
    (r.scopes ds).scope = r.scope := by
  unfold Routine.scopes Routine.scope
  split
  · have hNames : (r.parameters.zip ds).map (fun v => (⟨v.1, 1, true⟩ : Local)) =
        r.parameters.map fun p => ⟨p, 1, true⟩ := by
      conv_rhs => rw [← List.map_fst_zip hLength.ge, List.map_map]
      rfl
    simp [Environment.scope, Environment.locals, Scope.function, List.map_reverse, hNames]
  · rfl

theorem Routine.values_scopes {r : Routine} (hp : r.Proper) {ds : List Datum}
    (hLength : ds.length = r.parameters.length) : (r.scopes ds).values = ds := by
  unfold Routine.scopes
  split
  · simp [Environment.values, List.map_snd_zip hLength.le]
  · rename_i hName
    rw [hp.script (by simpa using hName)] at hLength
    rw [List.eq_nil_of_length_eq_zero hLength]
    rfl

namespace Machine.Runs

variable {u : Setup} {c c' : Call u} {sc : Scope} {m : Machine} {s : State} {ds args : List Datum}
  {ip line : Nat} {clock : Nat} {α : Type} {Q : α → State → Machine → Frame → Prop}
  {r : EStateM.Result Stop State α} {d : Datum}

/-- A call of a function that is not refused. The new call has its arguments as variables. -/
theorem enters {r₀ : Routine} (hm : m.Runs c sc s (ds ++ .function r₀ :: args))
    (hAt : c.routine.code.At ip (.one .call args.length line)) (hFits : args.length < 256)
    (hArity : args.length = r₀.parameters.length) (hLive : s.calls.length < maxCalls) :
    ∃ (c' : Call u) (m' : Machine), c'.routine = r₀ ∧
      c'.below = c.below ++ .function c.routine :: (s.scopes.values ++ ds) ∧
      c'.callers = c.frame (ip + 2) :: c.callers ∧ c.heap.Extends c'.heap ∧
      m.step (c.frame ip) = .next m' (c'.frame 0) ∧
      m'.Runs c' r₀.scope { s with scopes := r₀.scopes args, calls := r₀.name :: s.calls } [] := by
  obtain ⟨v, hv, hLike⟩ := hm.peek
  have hStep := hm.step hAt hFits
  cases hLike with
  | @function f _ hc hl hp =>
    have hSize : m.stack.size - args.length - 1 =
        (c.below ++ .function c.routine :: (s.scopes.values ++ ds)).length := by
      rw [← Array.length_toList, hm.stack.length_eq]
      simp only [List.length_append, List.length_cons]
      omega
    have hShape : f.arity = r₀.parameters.length ∧ f.name.map Str.text = r₀.name := by
      obtain ⟨-, -, hArity, hName, -⟩ := hc
      exact ⟨hArity, hName⟩
    have hCount : s.calls.length = m.callers.length + 1 := by
      rw [hm.calls, hm.callers, Call.names, List.length_map, List.length_cons]
    have hRoom : ¬ maxFrames ≤ m.callers.length + 1 := by
      rw [← hCount]
      exact Nat.not_le.2 hLive
    simp only [execute, Machine.call, hv] at hStep
    rw [if_neg (not_not.2 (hArity.trans hShape.1.symm)), if_neg hRoom, hSize] at hStep
    refine ⟨⟨f, r₀, m.heap, hc, hl, hp, c.below ++ .function c.routine :: (s.scopes.values ++ ds),
      c.frame (ip + 2) :: c.callers⟩, _, rfl, rfl, rfl, hm.grown, hStep, ?_⟩
    exact {
      toMirrors := hm.toMirrors.congr rfl rfl rfl rfl rfl rfl rfl
      grown := .refl _
      stack := by
        have hStack := hm.stack
        simp only [Routine.values_scopes hp hArity, List.append_nil]
        simpa using hStack
      callers := by
        dsimp only
        rw [hm.callers]
        rfl
      calls := by
        dsimp only
        rw [hm.calls, ← hShape.2]
        rfl
      scope := Routine.scope_scopes hArity }

/-- A call that returns. Its caller goes on with the variables that it had, and with the result. -/
theorem returns {caller : State} {sc' : Scope} {ip' : Nat} (hm : m.Runs c' sc' s [d])
    (hAt : c'.routine.code.At ip' (.op .ret line)) (hFrom : c'.callers = c.frame ip :: c.callers)
    (hBelow : c'.below = c.below ++ .function c.routine :: (caller.scopes.values ++ ds))
    (hGrown : c.heap.Extends c'.heap) (hCalls : caller.calls = c.names)
    (hScope : caller.scopes.scope = sc)
    (k : ∀ m', m'.Runs c sc { s with scopes := caller.scopes, calls := caller.calls } (ds ++ [d]) →
      Follows u clock Q m' (c.frame ip) r) : Follows u clock Q m (c'.frame ip') r := by
  obtain ⟨v, hv, hLike⟩ := hm.single.peek
  have hStep := hm.step hAt (Instruction.fits_op _)
  have hCallers : (m.drop 1).callers = c.frame ip :: c.callers := hm.callers.trans hFrom
  simp only [execute, Machine.ret, List.length_nil] at hv hStep
  rw [hv] at hStep
  dsimp only at hStep
  rw [hCallers] at hStep
  have hDropped := hm.single.drop
  refine .next hStep (k _ ?_)
  exact {
    toMirrors := hm.toMirrors.congr rfl rfl rfl rfl rfl rfl rfl
    grown := hGrown.trans hm.grown
    stack := by
      have hTake := List.forall₂_take_append _ _ _ hDropped.stack
      rw [← List.append_assoc caller.scopes.values, ← List.cons_append, ← List.append_assoc, ← hBelow]
      simp only [Machine.push, Array.toList_push, Array.toList_shrink]
      exact List.rel_append hTake (.cons hLike .nil)
    callers := rfl
    calls := hCalls
    scope := hScope }

end Machine.Runs

end Lox
