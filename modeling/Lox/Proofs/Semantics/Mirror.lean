import Lox.Proofs.Machine.Globals
import Lox.Proofs.Machine.Safety
import Lox.Proofs.Semantics.Evaluation

/-!
# What the machine holds, as a program sees it

`w.Like v d`: the value `v` of the machine is the datum `d` of the evaluator. A machine mirrors a state of
the evaluator when its globals and its output are those of the state (`Machine.Mirrors`); it runs in a
call when, besides, its stack holds the data of the calls in progress, the variables of the current one in
the slots that the compiler gave them (`Machine.Runs`).
-/

set_option autoImplicit false

namespace Lox

open Lox.Parser (maxLocals)

/-! ## Values and data -/

namespace World

/-- A value is a datum. -/
inductive Like (w : World) : Value → Datum → Prop
  | nil : Like w .nil .nil
  | bool (b : Bool) : Like w (.bool b) (.bool b)
  | number (x : Float) : Like w (.number x) (.number x)
  | string {s : Str} : .string s ∈ w.heap.objects → Like w (.object (.string s)) (.string s.text)
  | function {f : Fn} {r : Routine} : w.Compiled f r → r.Legal → r.Proper →
      Like w (.object (.function f)) (.function r)
  | native {n : Native} : .native n ∈ w.heap.objects → Like w (.object (.native n)) (.native n)

namespace Like

variable {w : World} {v v' : Value} {d d' : Datum}

theorem mono {w' : World} (he : w.Extends w') : w.Like v d → w'.Like v d
  | .nil => .nil
  | .bool b => .bool b
  | .number x => .number x
  | .string h => .string (he.heap.mem h)
  | .function hc hl hp => .function (hc.mono he) hl hp
  | .native h => .native (he.heap.mem h)

theorem isFalsey_eq (h : w.Like v d) : v.isFalsey = d.isFalsey := by cases h <;> rfl

theorem text_eq (h : w.Like v d) : v.text = d.text := by
  cases h with
  | nil | bool | number | string | native => rfl
  | @function f r hc =>
    obtain ⟨-, -, -, hName, -⟩ := hc
    simp only [Value.text, Object.text, Datum.text, ← hName]
    cases f.name <;> rfl

theorem mem {o : Obj} (h : w.Like (.object o) d) : o ∈ w.heap.objects := by
  cases h with
  | string h | native h => exact h
  | function hc =>
    obtain ⟨h, -⟩ := hc
    exact h

/-- Objects with one identity are the same object, so they are the same datum. -/
theorem equal_eq (hw : w.heap.WF) (hd : w.Distinct) (h : w.Like v d) (h' : w.Like v' d') :
    v.equal v' = d.equal d' := by
  have hObjects {o o' : Obj} (hIff : o.id = o'.id ↔ d.equal d' = true) :
      (Value.object o).equal (.object o') = d.equal d' := by
    rw [Value.equal, Bool.eq_iff_iff, beq_iff_eq]
    exact hIff
  have hDiffer {o o' : Obj} (ho : w.Like (.object o) d) (ho' : w.Like (.object o') d')
      (hNe : o ≠ o') (hFalse : d.equal d' = false) :
      (Value.object o).equal (.object o') = d.equal d' := by
    refine hObjects ⟨fun hId => absurd (hw.eq_of_id ho.mem ho'.mem hId) hNe, fun hTrue => ?_⟩
    rw [hFalse] at hTrue
    cases hTrue
  cases h with
  | nil | bool | number => cases h' <;> rfl
  | @string s hs =>
    cases h' with
    | nil | bool | number => rfl
    | @string s' hs' =>
      refine hObjects ?_
      simp only [Datum.equal, beq_iff_eq]
      exact hw.id_eq_iff hs hs'
    | function hc hl hp => exact hDiffer (.string hs) (.function hc hl hp) nofun rfl
    | native hn => exact hDiffer (.string hs) (.native hn) nofun rfl
  | @function f r hc hl hp =>
    cases h' with
    | nil | bool | number => rfl
    | string hs => exact hDiffer (.function hc hl hp) (.string hs) nofun rfl
    | @function f' r' hc' =>
      refine hObjects ?_
      obtain ⟨-, hMade, -⟩ := hc
      obtain ⟨-, hMade', -⟩ := hc'
      simp only [Datum.equal, beq_iff_eq]
      exact (hd _ hMade _ hMade').symm
    | native hn => exact hDiffer (.function hc hl hp) (.native hn) nofun rfl
  | @native n hn =>
    cases h' with
    | nil | bool | number => rfl
    | string hs => exact hDiffer (.native hn) (.string hs) nofun rfl
    | function hc hl hp => exact hDiffer (.native hn) (.function hc hl hp) nofun rfl
    | native => rfl

end Like

end World

/-! ## Variables and slots -/

namespace Environment

/-- The locals that the compiler knows where these scopes are open; slot 0 is that of the function. -/
def locals : Environment → List Local
  | [] => [⟨"", 0, true⟩]
  | vs :: env => vs.map (fun v => ⟨v.1, env.length + 1, true⟩) ++ locals env

/-- The scope that the compiler is in where these scopes are open. -/
def scope (env : Environment) : Scope := ⟨env.locals, env.length⟩

/-- The values of the variables, oldest first, as they are on the stack. -/
def values (env : Environment) : List Datum := (env.flatten.map Prod.snd).reverse

theorem names_locals : ∀ env : Environment,
    env.locals.map Local.name = env.flatten.map Prod.fst ++ [""]
  | [] => rfl
  | vs :: env => by simp [locals, names_locals env, Function.comp_def]

theorem get?_eq (env : Environment) (name : String) : env.get? name = env.flatten.lookup name := by
  induction env with
  | nil => rfl
  | cons vs env ih =>
    rw [get?, List.findSome?_cons, ← get?, ih, List.flatten_cons, List.lookup_append]
    cases vs.lookup name <;> rfl

end Environment

namespace Variables

theorem assign?_append (name : String) (d : Datum) (vs vs' : Variables) :
    assign? name d (vs ++ vs') =
      ((assign? name d vs).map (· ++ vs')).or ((assign? name d vs').map (vs ++ ·)) := by
  induction vs with
  | nil => simp [assign?]
  | cons v vs ih =>
    rw [List.cons_append, assign?, assign?]
    split
    · rfl
    · rw [ih]
      cases assign? name d vs <;> simp [Function.comp_def]

theorem names_assign? {name : String} {d : Datum} {vs vs' : Variables}
    (h : assign? name d vs = some vs') : vs'.map Prod.fst = vs.map Prod.fst := by
  induction vs generalizing vs' with
  | nil => cases h
  | cons v vs ih =>
    rw [assign?] at h
    split at h
    · cases h
      simp [*]
    · obtain ⟨vs₁, h₁, rfl⟩ := Option.map_eq_some_iff.1 h
      simp [ih h₁]

/-- The compiler finds no local of a name where there is no variable of it. -/
theorem resolve?_none {name : String} {vs : Variables} {ls : List Local}
    (hl : ls.map Local.name = vs.map Prod.fst ++ [""]) (hr : Draft.resolve? name ls = none)
    (d : Datum) : vs.lookup name = none ∧ assign? name d vs = none := by
  induction vs generalizing ls with
  | nil => exact ⟨rfl, rfl⟩
  | cons v vs ih =>
    obtain ⟨l, older, rfl, hv, hOlder⟩ := List.map_eq_cons_iff.1 hl
    rw [Draft.resolve?] at hr
    split at hr
    · cases hr
    · rename_i hNe
      rw [hv] at hNe
      obtain ⟨hLookup, hAssign⟩ := ih hOlder hr
      rw [List.lookup_cons, beq_eq_false_iff_ne.2 fun h => hNe h.symm, assign?, if_neg hNe, hAssign]
      exact ⟨hLookup, rfl⟩

/-- The slot that the compiler finds for a name is that of the variable which the name means. -/
theorem resolve?_some {name : String} (hName : name ≠ "") {vs : Variables} {ls : List Local}
    (hl : ls.map Local.name = vs.map Prod.fst ++ [""]) {n : Nat} {l : Local}
    (hr : Draft.resolve? name ls = some (n, l)) :
    ∃ i, n = i + 1 ∧ i < vs.length ∧ vs.lookup name = (vs.map Prod.snd).reverse[i]? ∧
      ∀ d, ∃ vs', assign? name d vs = some vs' ∧
        (vs'.map Prod.snd).reverse = (vs.map Prod.snd).reverse.set i d := by
  induction vs generalizing ls with
  | nil =>
    obtain ⟨l', older, rfl, hv, hOlder⟩ := List.map_eq_cons_iff.1 hl
    obtain rfl := List.map_eq_nil_iff.1 hOlder
    rw [Draft.resolve?, hv, if_neg hName.symm] at hr
    cases hr
  | cons v vs ih =>
    obtain ⟨l', older, rfl, hv, hOlder⟩ := List.map_eq_cons_iff.1 hl
    rw [Draft.resolve?, hv] at hr
    split at hr
    · rename_i hEq
      cases hr
      have hLength : older.length = vs.length + 1 := by simpa using congrArg List.length hOlder
      refine ⟨vs.length, by omega, by simp, ?_, fun d => ⟨(name, d) :: vs, ?_, ?_⟩⟩
      · rw [← hEq, List.lookup_cons_self]
        simp
      · rw [assign?, if_pos hEq]
      · simp
    · rename_i hNe
      obtain ⟨i, rfl, hLess, hLookup, hAssign⟩ := ih hOlder hr
      refine ⟨i, rfl, Nat.lt_succ_of_lt hLess, ?_, fun d => ?_⟩
      · rw [List.lookup_cons, beq_eq_false_iff_ne.2 fun h => hNe h.symm, List.map_cons,
          List.reverse_cons, List.getElem?_append_left (by simpa using hLess)]
        exact hLookup
      · obtain ⟨vs', hAssign, hValues⟩ := hAssign d
        refine ⟨v :: vs', by rw [assign?, if_neg hNe, hAssign]; rfl, ?_⟩
        simp only [List.map_cons, List.reverse_cons, hValues]
        rw [List.set_append_left _ _ (by simpa using hLess)]

end Variables

namespace Environment

theorem set?_eq (name : String) (d : Datum) (env : Environment) :
    (set? name d env).map List.flatten = Variables.assign? name d env.flatten := by
  induction env with
  | nil => rfl
  | cons vs env ih =>
    rw [set?, List.flatten_cons, Variables.assign?_append, ← ih]
    cases vs.assign? name d with
    | some vs' => simp
    | none => cases set? name d env <;> simp

/-- An assignment leaves the scopes their variables. -/
theorem scope_set? {name : String} {d : Datum} {env env' : Environment}
    (h : set? name d env = some env') : env'.scope = env.scope := by
  suffices hAll : env'.length = env.length ∧ env'.locals = env.locals by
    rw [scope, scope, hAll.1, hAll.2]
  induction env generalizing env' with
  | nil => cases h
  | cons vs env ih =>
    rw [set?] at h
    split at h
    · rename_i vs' hAssign
      cases h
      have hNames := Variables.names_assign? hAssign
      refine ⟨rfl, ?_⟩
      have hMap (vs : Variables) : vs.map (fun v => (⟨v.1, env.length + 1, true⟩ : Local)) =
          (vs.map Prod.fst).map fun n => ⟨n, env.length + 1, true⟩ := by simp [Function.comp_def]
      rw [locals, locals, hMap, hMap, hNames]
    · obtain ⟨env₁, h₁, rfl⟩ := Option.map_eq_some_iff.1 h
      obtain ⟨hLength, hLocals⟩ := ih h₁
      simp [locals, hLength, hLocals]

end Environment

/-! ## Machines and states -/

theorem rel_imp {α β : Type} {R R' : α → β → Prop} (h : ∀ a b, R a b → R' a b) {x : Option α}
    {y : Option β} : Option.Rel R x y → Option.Rel R' x y
  | .some hr => .some (h _ _ hr)
  | .none => .none

/-- What is at an index of two related lists. -/
theorem forall₂_getElem? {α β : Type} {R : α → β → Prop} {xs : List α} {ys : List β}
    (h : List.Forall₂ R xs ys) {i : Nat} {y : β} (hy : ys[i]? = some y) :
    ∃ x, xs[i]? = some x ∧ R x y := by
  obtain ⟨hLess, rfl⟩ := List.getElem?_eq_some_iff.1 hy
  have hLess' : i < xs.length := h.length_eq ▸ hLess
  exact ⟨xs[i], List.getElem?_eq_getElem hLess', h.get hLess' hLess⟩

/-- What does not change in a run: the functions compiled, each with its place and its identity, the native
functions with what they compute, and what was printed before. -/
structure Setup where
  made : List (Nat × Nat)
  apart : ∀ a ∈ made, ∀ b ∈ made, a.1 = b.1 ↔ a.2 = b.2
  natives : Array Behaviour
  host : Native → List Datum → Datum
  before : ByteArray

/-- The functions compiled, on a heap. -/
def Setup.world (u : Setup) (heap : Heap) : World := ⟨heap, u.made⟩

theorem Setup.distinct (u : Setup) (heap : Heap) : (u.world heap).Distinct := u.apart

theorem Setup.extends (u : Setup) {heap heap' : Heap} (he : heap.Extends heap') :
    (u.world heap).Extends (u.world heap') := ⟨he, List.suffix_refl _⟩

namespace Machine

/-- What a native function computes. -/
def answer (m : Machine) (n : Native) (arguments : Array Value) : Value :=
  match m.natives[n.entry]? with
  | some behaviour => behaviour m.now arguments
  | none => .nil

/-- A machine has the globals and the output of a state, and native functions that compute what the host
says. -/
structure Mirrors (u : Setup) (m : Machine) (s : State) : Prop where
  globals : ∃ stores, m.Stored stores ∧
    ∀ n, Option.Rel (u.world m.heap).Like (stores.lookup n) (s.globals n)
  output : m.output = ⟨u.before ++ s.printed.toUTF8, .unlimited⟩
  behaviours : m.natives = u.natives
  natives : ∀ heap, heap.WF → m.heap.Extends heap → ∀ n arguments ds, .native n ∈ heap.objects →
    arguments.size = n.arity → List.Forall₂ (u.world heap).Like arguments.toList ds →
    (u.world heap).Like (m.answer n arguments) (u.host n ds)

namespace Mirrors

variable {u : Setup} {m : Machine} {s : State}

theorem wf (h : m.Mirrors u s) : m.heap.WF := by
  obtain ⟨stores, hs, -⟩ := h.globals
  exact hs.heap

/-- The stack, the calls in progress and the log do not matter, nor do scopes. -/
theorem congr (h : m.Mirrors u s) {m' : Machine} {s' : State} (hHeap : m'.heap = m.heap)
    (hGlobals : m'.globals = m.globals) (hOutput : m'.output = m.output)
    (hNatives : m'.natives = m.natives) (hNow : m'.now = m.now) (hs : s'.globals = s.globals)
    (hPrinted : s'.printed = s.printed) : m'.Mirrors u s' where
  globals := by
    obtain ⟨stores, hStored, hLike⟩ := h.globals
    rw [hHeap, hs]
    exact ⟨stores, hStored.congr hHeap hGlobals, hLike⟩
  output := by rw [hOutput, hPrinted, h.output]
  behaviours := hNatives.trans h.behaviours
  natives := by
    have hAnswer : m'.answer = m.answer := by
      unfold answer
      rw [hNatives, hNow]
    rw [hHeap, hAnswer]
    exact h.natives

/-- The heap grows. -/
theorem extend (h : m.Mirrors u s) {heap : Heap} (hw : heap.WF) (he : m.heap.Extends heap) :
    { m with heap }.Mirrors u s where
  globals := by
    obtain ⟨stores, hStored, hLike⟩ := h.globals
    refine ⟨stores, hStored.mono hw he hStored.table fun _ _ => Iff.rfl, fun n => ?_⟩
    exact rel_imp (fun _ _ hLike => hLike.mono (u.extends he)) (hLike n)
  output := h.output
  behaviours := h.behaviours
  natives := fun heap' hw' he' => h.natives heap' hw' (he.trans he')

/-- A text is printed. -/
theorem print (h : m.Mirrors u s) (text : String) :
    m.output.printLine text =
      (none, ⟨u.before ++ (s.printed ++ text ++ "\n").toUTF8, .unlimited⟩) ∧
    { m with output := ⟨u.before ++ (s.printed ++ text ++ "\n").toUTF8, .unlimited⟩ }.Mirrors u
      { s with printed := s.printed ++ text ++ "\n" } := by
  refine ⟨?_, ?_, rfl, h.behaviours, h.natives⟩
  · rw [h.output]
    simp [Output.printLine, Output.write, ByteArray.append_assoc]
  · obtain ⟨stores, hStored, hLike⟩ := h.globals
    exact ⟨stores, hStored.congr rfl rfl, hLike⟩

/-- A name on the heap means a global of the state. -/
theorem get? (h : m.Mirrors u s) {key : Str} (hk : .string key ∈ m.heap.objects) :
    Option.Rel (u.world m.heap).Like (m.globals.get? (.string key)) (s.globals key.text) := by
  obtain ⟨stores, hStored, hLike⟩ := h.globals
  rw [hStored.get? hk]
  exact hLike key.text

/-- A global gets a value. -/
theorem set (h : m.Mirrors u s) {key : Str} (hk : .string key ∈ m.heap.objects) {v : Value} {d : Datum}
    (hv : (u.world m.heap).Like v d) :
    { m with globals := (m.globals.set (.string key) v).2 }.Mirrors u
      { s with globals := Function.update s.globals key.text (some d) } where
  globals := by
    obtain ⟨stores, hStored, hLike⟩ := h.globals
    refine ⟨_, hStored.set hk v, fun n => ?_⟩
    by_cases hn : n = key.text
    · subst hn
      rw [List.lookup_cons_self]
      dsimp only
      rw [Function.update_self]
      exact .some hv
    · rw [List.lookup_cons, beq_eq_false_iff_ne.2 hn]
      dsimp only
      rw [Function.update_of_ne hn]
      exact hLike n
  output := h.output
  behaviours := h.behaviours
  natives := h.natives

/-- A name is new exactly if the state has no such global. -/
theorem isNew_iff (h : m.Mirrors u s) {key : Str} (hk : .string key ∈ m.heap.objects) (v : Value) :
    (m.globals.set (.string key) v).1 = true ↔ s.globals key.text = none := by
  obtain ⟨stores, hStored, hLike⟩ := h.globals
  have hRel := h.get? hk
  rw [Table.set_isNew hStored.table (hStored.knows hk)]
  constructor
  · intro hAbsent
    generalize s.globals key.text = global at hRel
    generalize hGet : m.globals.get? (.string key) = found at hRel
    cases hRel with
    | none => rfl
    | some => exact absurd ((Table.get?_eq_some_iff hStored.table (hStored.knows hk) _).1 hGet) (hAbsent _)
  · intro hNone w hw
    rw [hNone, (Table.get?_eq_some_iff hStored.table (hStored.knows hk) w).2 hw] at hRel
    cases hRel

/-- An assignment to a name that is new is undone. -/
theorem undo (h : m.Mirrors u s) {key : Str} (hk : .string key ∈ m.heap.objects) {v : Value}
    (hNew : (m.globals.set (.string key) v).1 = true) :
    { m with globals := ((m.globals.set (.string key) v).2.delete (.string key)).2 }.Mirrors u s where
  globals := by
    obtain ⟨stores, hStored, hLike⟩ := h.globals
    exact ⟨stores, hStored.undo hk v hNew, hLike⟩
  output := h.output
  behaviours := h.behaviours
  natives := h.natives

end Mirrors

end Machine

/-! ## Calls in progress -/

/-- A call in progress: its function, the heap at its start, the data on the stack below it, and the calls
that wait for it. -/
structure Call (u : Setup) where
  function : Fn
  routine : Routine
  heap : Heap
  compiled : (u.world heap).Compiled function routine
  legal : routine.Legal
  proper : routine.Proper
  below : List Datum
  callers : List Frame

namespace Call

variable {u : Setup}

/-- The call at an offset of its code. -/
def frame (c : Call u) (ip : Nat) : Frame := ⟨c.function, ip, c.below.length⟩

/-- The names of the functions that are being called. -/
def names (c : Call u) : List (Option String) :=
  (c.frame 0 :: c.callers).map fun frame => frame.function.name.map Str.text

end Call

namespace Machine

/-- A machine runs in a call: the variables of the state are in the slots of the call, and some data above
them. -/
structure Runs {u : Setup} (c : Call u) (sc : Scope) (m : Machine) (s : State) (ds : List Datum) :
    Prop extends m.Mirrors u s where
  grown : c.heap.Extends m.heap
  stack : List.Forall₂ (u.world m.heap).Like m.stack.toList
    (c.below ++ .function c.routine :: (s.scopes.values ++ ds))
  callers : m.callers = c.callers
  calls : s.calls = c.names
  scope : s.scopes.scope = sc

theorem peek?_eq (m : Machine) (distance : Nat) :
    m.peek? distance = m.stack.toList.reverse[distance]? := by
  unfold peek?
  split
  · rename_i hLess
    rw [List.getElem?_reverse (by simpa using hLess), ← Array.getElem?_toList]
    rfl
  · rename_i hLess
    rw [List.getElem?_eq_none (by simpa using hLess)]

namespace Runs

variable {u : Setup} {c : Call u} {sc : Scope} {m : Machine} {s : State} {ds ds' : List Datum}
  {v : Value} {d : Datum}

theorem compiled (h : m.Runs c sc s ds) : (u.world m.heap).Compiled c.function c.routine :=
  c.compiled.mono (u.extends h.grown)

/-- A datum alone is one above none. -/
theorem single (h : m.Runs c sc s [d]) : m.Runs c sc s ([] ++ [d]) := h

/-- What is on the stack. -/
theorem peek (h : m.Runs c sc s (ds ++ d :: ds')) :
    ∃ v, m.peek? ds'.length = some v ∧ (u.world m.heap).Like v d := by
  have hReverse := List.rel_reverse h.stack
  rw [peek?_eq]
  refine forall₂_getElem? hReverse ?_
  rw [List.reverse_append, List.reverse_cons, List.reverse_append, List.reverse_append,
    List.reverse_cons]
  simp

theorem push (h : m.Runs c sc s ds) (hv : (u.world m.heap).Like v d) :
    (m.push v).Runs c sc s (ds ++ [d]) :=
  { toMirrors := h.toMirrors.congr rfl rfl rfl rfl rfl rfl rfl
    grown := h.grown
    stack := by
      rw [Machine.push, Array.toList_push, ← List.append_assoc s.scopes.values, ← List.cons_append,
        ← List.append_assoc]
      exact List.rel_append h.stack (.cons hv .nil)
    callers := h.callers
    calls := h.calls
    scope := h.scope }

/-- Data above others are dropped. -/
theorem drop (h : m.Runs c sc s (ds ++ ds')) : (m.drop ds'.length).Runs c sc s ds :=
  { toMirrors := h.toMirrors.congr rfl rfl rfl rfl rfl rfl rfl
    grown := h.grown
    stack := by
      have hSize : m.stack.size - ds'.length =
          (c.below ++ .function c.routine :: (s.scopes.values ++ ds)).length := by
        rw [← Array.length_toList, h.stack.length_eq]
        simp only [List.length_append, List.length_cons]
        omega
      have hStack := h.stack
      rw [← List.append_assoc s.scopes.values, ← List.cons_append, ← List.append_assoc] at hStack
      rw [Machine.drop, Array.toList_shrink, hSize]
      exact List.forall₂_take_append _ _ _ hStack
    callers := h.callers
    calls := h.calls
    scope := h.scope }

/-- The heap grows. -/
theorem extend (h : m.Runs c sc s ds) {heap : Heap} (hw : heap.WF) (he : m.heap.Extends heap) :
    { m with heap }.Runs c sc s ds :=
  { toMirrors := h.toMirrors.extend hw he
    grown := h.grown.trans he
    stack := h.stack.imp fun _ _ hLike => hLike.mono (u.extends he)
    callers := h.callers
    calls := h.calls
    scope := h.scope }

end Runs

end Machine

end Lox
