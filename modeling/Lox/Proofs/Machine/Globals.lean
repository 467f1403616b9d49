import Lox.Proofs.Machine.SafeSessions

/-!
# The law of globals

`m.Stored stores`: the globals of a machine are those that a list of stores says, newest first. Every
instruction keeps it, with what it stores in front, if the name it stores under is on the heap
(`Machine.Stored.step`). An assignment to a name that is not defined files the name and removes it again,
and so stores nothing.
-/

set_option autoImplicit false

namespace Lox

namespace Machine

/-- The globals of a machine are what a list of stores says, newest first. -/
structure Stored (m : Machine) (stores : List (String × Value)) : Prop where
  heap : m.heap.WF
  table : m.globals.WF
  keys : ∀ k v, m.globals.Holds k v → ∃ s, k = .string s ∧ .string s ∈ m.heap.objects
  law : ∀ n v, stores.lookup n = some v ↔ ∃ s, s.text = n ∧ m.globals.Holds (.string s) v

variable {m : Machine} {stores : List (String × Value)}

namespace Stored

theorem knows (h : m.Stored stores) {key : Obj} (hk : key ∈ m.heap.objects) :
    m.globals.Knows key := by
  intro k v hv hId
  obtain ⟨s, rfl, hs⟩ := h.keys k v hv
  exact h.heap.eq_of_id hs hk hId

theorem get? (h : m.Stored stores) {s : Str} (hs : .string s ∈ m.heap.objects) :
    m.globals.get? (.string s) = stores.lookup s.text := by
  refine Option.ext fun v => ?_
  rw [Table.get?_eq_some_iff h.table (h.knows hs), h.law]
  constructor
  · exact fun hv => ⟨s, rfl, hv⟩
  · rintro ⟨s', hText, hv⟩
    obtain ⟨_, hEq, hs'⟩ := h.keys _ _ hv
    cases hEq
    rwa [h.heap.canonical s' s hs' hs hText] at hv

/-- A name means the global that the stores say. -/
theorem global? (h : m.Stored stores) (n : String) : m.global? n = stores.lookup n := by
  unfold Machine.global?
  cases hLookup : m.heap.lookup? n with
  | some s =>
    obtain ⟨hs, rfl⟩ := (Heap.lookup?_eq_some_iff h.heap n s).1 hLookup
    exact h.get? hs
  | none =>
    -- a name that has no string object was never stored
    symm
    rw [Option.bind_none, Option.eq_none_iff_forall_ne_some]
    intro v hv
    obtain ⟨s, hText, hHolds⟩ := (h.law n v).1 hv
    obtain ⟨_, hEq, hs⟩ := h.keys _ _ hHolds
    cases hEq
    exact (Heap.lookup?_eq_none_iff h.heap n).1 hLookup s hs hText

/-- The heap may grow, and the table may change as long as it holds the same. -/
theorem mono (h : m.Stored stores) {m' : Machine} (hWF : m'.heap.WF)
    (hExtends : m.heap.Extends m'.heap) (hTable : m'.globals.WF)
    (hHolds : ∀ k v, m'.globals.Holds k v ↔ m.globals.Holds k v) : m'.Stored stores where
  heap := hWF
  table := hTable
  keys := fun k v hv => by
    obtain ⟨s, hk, hs⟩ := h.keys k v ((hHolds k v).1 hv)
    exact ⟨s, hk, hExtends.mem hs⟩
  law := fun n v => by
    rw [h.law]
    exact exists_congr fun s => and_congr_right fun _ => (hHolds _ v).symm

/-- Only heap and globals matter. -/
theorem congr (h : m.Stored stores) {m' : Machine} (hHeap : m'.heap = m.heap)
    (hGlobals : m'.globals = m.globals) : m'.Stored stores :=
  h.mono (hHeap ▸ h.heap) (hHeap ▸ .refl _) (hGlobals ▸ h.table) fun _ _ => by rw [hGlobals]

/-- A value is stored under a name on the heap. -/
theorem set (h : m.Stored stores) {s : Str} (hs : .string s ∈ m.heap.objects) (v : Value) :
    { m with globals := (m.globals.set (.string s) v).2 }.Stored ((s.text, v) :: stores) where
  heap := h.heap
  table := Table.set_wf h.table (h.knows hs) v
  keys := fun k w hw => by
    rcases (Table.holds_set h.table (h.knows hs) v k w).1 hw with ⟨rfl, -⟩ | ⟨-, hw⟩
    · exact ⟨s, rfl, hs⟩
    · exact h.keys k w hw
  law := fun n w => by
    have hHolds (s' : Str) := Table.holds_set h.table (h.knows hs) v (.string s') w
    have hSame (s' : Str) (hw : m.globals.Holds (.string s') w) (hText : s'.text = s.text) :
        s' = s := by
      obtain ⟨_, hEq, hs'⟩ := h.keys _ _ hw
      cases hEq
      exact h.heap.canonical s' s hs' hs hText
    by_cases hn : n = s.text
    · subst hn
      rw [List.lookup_cons_self]
      constructor
      · rintro ⟨⟩
        exact ⟨s, rfl, (hHolds s).2 (.inl ⟨rfl, rfl⟩)⟩
      · rintro ⟨s', hText, hw⟩
        rcases (hHolds s').1 hw with ⟨-, rfl⟩ | ⟨hId, hw⟩
        · rfl
        · cases hSame s' hw hText
          exact absurd rfl hId
    · rw [List.lookup_cons, beq_eq_false_iff_ne.2 hn]
      dsimp only
      rw [h.law]
      refine exists_congr fun s' => and_congr_right fun hText => ?_
      rw [hHolds]
      constructor
      · intro hw
        refine .inr ⟨fun hId => hn ?_, hw⟩
        cases h.knows hs _ _ hw hId
        exact hText.symm
      · rintro (⟨hEq, -⟩ | ⟨-, hw⟩)
        · cases hEq
          exact absurd hText.symm hn
        · exact hw

/-- A name that is not defined is filed and removed again. -/
theorem undo (h : m.Stored stores) {s : Str} (hs : .string s ∈ m.heap.objects) (v : Value)
    (hNew : (m.globals.set (.string s) v).1 = true) :
    { m with globals := ((m.globals.set (.string s) v).2.delete (.string s)).2 }.Stored stores :=
  h.mono h.heap (.refl _) (Table.undo_wf h.table (h.knows hs) v)
    (Table.holds_undo h.table (h.knows hs) hNew)

end Stored

/-! ## Instructions -/

/-- The name under which the next instruction stores a value, if it is one that does, is on the heap. -/
def Interned (_ : List Fn) (m : Machine) (frame : Frame) : Prop :=
  ∀ op i next s, frame.function.chunk.decode frame.ip = .instruction ⟨op, i⟩ next →
    op = .defineGlobal ∨ op = .setGlobal → nameAt frame i = .ok s → .string s ∈ m.heap.objects

/-- The name under which a machine in order stores a value is on its heap. -/
theorem Running.interned {P : Heap → Value → Prop} {frame : Frame} (h : m.Running P frame)
    (scripts : List Fn) : m.Interned scripts frame := by
  intro op i next s _ _ hName
  obtain ⟨n, -, w, r, -, -, ⟨-, -, -, -, -, -, hAll, -⟩, -, he, -⟩ := h.height
  unfold nameAt at hName
  split at hName
  · rename_i name hGet
    cases hName
    obtain ⟨hi, hGet⟩ := Array.getElem?_eq_some_iff.1 hGet
    have hLess : i < r.pool.length := hAll.length_eq ▸ hi
    have hr := hAll.get hi hLess
    simp only [List.get_eq_getElem, Array.getElem_toList, hGet] at hr
    generalize r.pool[i] = k at hr
    cases hr with
    | string hs => exact he.mem hs
  · cases hName
  · cases hName

/-- What becomes of the globals in a step: what is stored, when the run goes on. -/
def Stores (stores : List (String × Value)) (stored : Option (String × Value)) : Step → Prop
  | .next m _ => m.Stored (stored.toList ++ stores)
  | .halt m | .fail m _ _ => m.Stored stores

/-- An instruction that stores nothing keeps the globals. -/
theorem Stored.execute (h : m.Stored stores) (frame : Frame) {i : Instruction}
    (hDefine : i.op ≠ .defineGlobal) (hSet : i.op ≠ .setGlobal) :
    Stores stores none (m.execute frame i) := by
  obtain ⟨op, operand⟩ := i
  cases op with
  | defineGlobal => exact absurd rfl hDefine
  | setGlobal => exact absurd rfl hSet
  | add =>
    simp only [Machine.execute, add]
    split
    · exact h.congr rfl rfl
    · rename_i a b _ _
      obtain ⟨hWF, hExtends, -⟩ := Heap.intern_spec h.heap (a.text ++ b.text)
      exact h.mono hWF hExtends h.table fun _ _ => Iff.rfl
    · exact h
    · exact h
  | _ =>
    simp only [Machine.execute, constant, pop, getLocal, setLocal, getGlobal, equal, arithmetic, not,
      negate, print, jumpIfFalse, loop, call, ret]
    repeat' split
    all_goals exact h.congr rfl rfl

theorem Stored.defineGlobal (h : m.Stored stores) (frame : Frame) {index : Nat}
    (hName : ∀ s, nameAt frame index = .ok s → .string s ∈ m.heap.objects) :
    Stores stores (match nameAt frame index, m.peek? 0 with
      | .ok name, some value => some (name.text, value)
      | _, _ => none) (m.defineGlobal frame index) := by
  unfold Machine.defineGlobal
  cases hs : nameAt frame index with
  | error fault => exact h
  | ok s =>
    dsimp only
    cases m.peek? 0 with
    | none => exact h
    | some v => exact (h.set (hName s hs) v).congr rfl rfl

theorem Stored.setGlobal (h : m.Stored stores) (frame : Frame) {index : Nat}
    (hName : ∀ s, nameAt frame index = .ok s → .string s ∈ m.heap.objects) :
    Stores stores (match nameAt frame index, m.peek? 0 with
      | .ok name, some value => some (name.text, value)
      | _, _ => none) (m.setGlobal frame index) := by
  unfold Machine.setGlobal
  cases hs : nameAt frame index with
  | error fault => exact h
  | ok s =>
    dsimp only
    cases m.peek? 0 with
    | none => exact h
    | some v =>
      dsimp only
      split
      · rename_i hNew
        exact h.undo (hName s hs) v hNew
      · exact h.set (hName s hs) v

/-- A step stores what its instruction stores, if the run goes on, and nothing else. -/
theorem Stored.step (h : m.Stored stores) {scripts : List Fn} {frame : Frame}
    (hi : m.Interned scripts frame) : Stores stores (m.store? frame) (m.step frame) := by
  unfold Machine.step store?
  cases hDecode : frame.function.chunk.decode frame.ip with
  | outside | unknown | truncated => exact h
  | instruction i next =>
    obtain ⟨op, index⟩ := i
    by_cases hOp : op = .defineGlobal ∨ op = .setGlobal
    · have hName (s : Str) : nameAt frame index = .ok s → .string s ∈ m.heap.objects :=
        hi op index next s hDecode hOp
      dsimp only
      rw [if_pos hOp]
      rcases hOp with rfl | rfl
      · exact h.defineGlobal { frame with ip := next } hName
      · exact h.setGlobal { frame with ip := next } hName
    · dsimp only
      rw [if_neg hOp]
      exact h.execute _ (fun hDefine => hOp (.inl hDefine)) fun hSet => hOp (.inr hSet)

/-- An assignment to a name that is not defined fails. -/
theorem Stored.step_undefined (h : m.Stored stores) {scripts : List Fn} {frame : Frame}
    {index next : Nat} {s : Str} {v : Value} (hi : m.Interned scripts frame)
    (hDecode : frame.function.chunk.decode frame.ip = .instruction ⟨.setGlobal, index⟩ next)
    (hName : nameAt frame index = .ok s) (hPeek : m.peek? 0 = some v)
    (hNone : stores.lookup s.text = none) :
    m.step frame = .fail
      { m with globals := ((m.globals.set (.string s) v).2.delete (.string s)).2 }
      { frame with ip := next } (.undefinedVariable s.text) := by
  have hs := hi _ index next s hDecode (.inr rfl) hName
  have hNew : (m.globals.set (.string s) v).1 = true := by
    rw [Table.set_isNew h.table (h.knows hs)]
    intro w hw
    rw [(h.law s.text w).2 ⟨s, rfl, hw⟩] at hNone
    cases hNone
  have hSame : nameAt { frame with ip := next } index = .ok s := hName
  simp only [Machine.step, hDecode, Machine.execute, Machine.setGlobal, hSame, hPeek, if_pos hNew]

/-- A native function is defined. -/
theorem Stored.defineNative (h : m.Stored stores) (name : String) (arity : Nat)
    (behaviour : Behaviour) : (m.defineNative name arity behaviour).Stored
      ((name, Moment.native m name arity) :: stores) := by
  obtain ⟨hWF, hExtends, -⟩ := Heap.allocNative_spec h.heap name arity m.natives.size
  obtain ⟨hWF', hExtends', hMem, hText⟩ := Heap.intern_spec hWF name
  have hGrown : { m with
      heap := ((m.heap.allocNative name arity m.natives.size).2.intern name).2 }.Stored stores :=
    h.mono hWF' (hExtends.trans hExtends') h.table fun _ _ => Iff.rfl
  have hSet := hGrown.set hMem (Moment.native m name arity)
  rw [hText] at hSet
  exact hSet.congr rfl rfl

end Machine

namespace Moment

theorem stored_start (settings : Settings) (output : Output) :
    (start settings output).session.machine.Stored (start settings output).stores := by
  have hNew : ({ output } : Machine).Stored [] :=
    ⟨Heap.empty_wf, Table.empty_wf, fun k v hv => absurd hv (Table.not_holds_empty k v),
      fun n v => ⟨nofun, fun ⟨s, _, hv⟩ => absurd hv (Table.not_holds_empty _ v)⟩⟩
  change (Session.create settings output).machine.Stored
    (if settings.natives then [("clock", native {} "clock" 0)] else [])
  unfold Session.create
  dsimp only
  split
  · exact hNew.defineNative "clock" 0 .clock
  · exact hNew

theorem Next.stored {a b : Moment} (h : a.session.machine.Stored a.stores)
    (hn : Next Machine.Interned a b) : b.session.machine.Stored b.stores := by
  cases hn with
  | host e => exact h.congr rfl rfl
  | @reserve s _ _ _ =>
    exact h.mono (Heap.reserve_wf h.heap) ⟨List.suffix_refl _, Nat.le_succ _⟩ h.table
      fun _ _ => Iff.rfl
  | define name arity behaviour => exact h.defineNative name arity behaviour
  | @reject s s' scripts stores source problems hLoad =>
    obtain ⟨heap, hCompile, rfl⟩ := Session.load_eq_error hLoad
    obtain ⟨hw, he⟩ := grows_compile source s.machine.heap h.heap
    rw [hCompile] at hw he
    exact h.mono hw he h.table fun _ _ => Iff.rfl
  | @load s s' scripts stores source frame hLoad =>
    obtain ⟨f, heap, log, hCompile, rfl, rfl⟩ := Session.load_eq_ok hLoad
    obtain ⟨hw, he⟩ := grows_compile source s.machine.heap h.heap
    rw [hCompile] at hw he
    exact h.mono hw he h.table fun _ _ => Iff.rfl
  | step hok hStep =>
    have hStores := h.step hok
    rw [hStep] at hStores
    exact hStores
  | halt t hok hStep =>
    have hStores := h.step hok
    rw [hStep] at hStores
    exact hStores.congr rfl rfl
  | fail t hok hStep =>
    have hStores := h.step hok
    rw [hStep] at hStores
    exact hStores.congr rfl rfl

theorem Reached.stored {a : Moment} (h : Reached Machine.Interned a) :
    a.session.machine.Stored a.stores := by
  induction h with
  | start settings output => exact stored_start settings output
  | next _ hn ih => exact hn.stored ih

theorem lookup_cons_eq_none {n : String} {entry : String × Value} {stores : List (String × Value)} :
    (entry :: stores).lookup n = none ↔ n ≠ entry.1 ∧ stores.lookup n = none := by
  rw [List.lookup_cons]
  by_cases hn : n = entry.1
  · simp [hn]
  · simp [beq_eq_false_iff_ne.2 hn, hn]

/-- In a step that goes on, a name that was not defined is stored by the definition of a global. -/
theorem defines_of_step {m m' : Machine} {frame frame' : Frame} {scripts : List Fn}
    {stores : List (String × Value)} {n : String} {v : Value} (h : m.Stored stores)
    (hok : m.Interned scripts frame) (hStep : m.step frame = .next m' frame')
    (hNone : stores.lookup n = none) (hStore : m.store? frame = some (n, v)) :
    ∃ i next s, frame.function.chunk.decode frame.ip = .instruction ⟨.defineGlobal, i⟩ next ∧
      Machine.nameAt frame i = .ok s ∧ s.text = n := by
  unfold Machine.store? at hStore
  cases hDecode : frame.function.chunk.decode frame.ip with
  | outside | unknown | truncated =>
    rw [hDecode] at hStore
    cases hStore
  | instruction i next =>
    obtain ⟨op, index⟩ := i
    rw [hDecode] at hStore
    dsimp only at hStore
    split at hStore
    · rename_i hOp
      split at hStore
      · rename_i s w hName hPeek
        cases hStore
        rcases hOp with rfl | rfl
        · exact ⟨index, next, s, rfl, hName, rfl⟩
        · -- the assignment would have failed
          cases hStep.symm.trans (h.step_undefined hok hDecode hName hPeek hNone)
      · cases hStore
    · cases hStore

/-- What is stored stays stored, and who stores a name first. -/
theorem Next.defines {a b : Moment} (h : a.session.machine.Stored a.stores)
    (hn : Next Machine.Interned a b) (n : String) :
    (a.stores.lookup n ≠ none → b.stores.lookup n ≠ none) ∧
    (a.stores.lookup n = none → b.stores.lookup n ≠ none →
      (∃ arity behaviour, a.running = none ∧
        b.session.machine = a.session.machine.defineNative n arity behaviour) ∨
      ∃ frame i next s, a.running = some frame ∧
        frame.function.chunk.decode frame.ip = .instruction ⟨.defineGlobal, i⟩ next ∧
        Machine.nameAt frame i = .ok s ∧ s.text = n) := by
  cases hn with
  | host | reserve | reject | load | halt | fail => exact ⟨id, fun hNone hSome => absurd hNone hSome⟩
  | define name arity behaviour =>
    refine ⟨fun hSome hNone => hSome (lookup_cons_eq_none.1 hNone).2, fun hNone hSome => .inl ?_⟩
    obtain rfl : n = name := by
      by_contra hNe
      exact hSome (lookup_cons_eq_none.2 ⟨hNe, hNone⟩)
    exact ⟨arity, behaviour, rfl, rfl⟩
  | @step s frame frame' scripts stores m hok hStep =>
    cases hStore : s.machine.store? frame with
    | none => exact ⟨id, fun hNone hSome => absurd hNone hSome⟩
    | some entry =>
      refine ⟨fun hSome hNone => hSome (lookup_cons_eq_none.1 hNone).2, fun hNone hSome => .inr ?_⟩
      obtain ⟨name, v⟩ := entry
      obtain rfl : n = name := by
        by_contra hNe
        exact hSome (lookup_cons_eq_none.2 ⟨hNe, hNone⟩)
      obtain ⟨i, next, str, hDefines⟩ := defines_of_step h hok hStep hNone hStore
      exact ⟨frame, i, next, str, rfl, hDefines⟩

/-- The law of globals. A global has the value stored last under its name, by a definition, by an
assignment that did not fail, or as a native function; it has none if there was no such store. What is
defined stays defined, and only a definition or a native function defines a name. An assignment to a name
that is not defined fails, and every name means what it did. -/
theorem globals_law {a : Moment} (ha : Reached Machine.Interned a) :
    (∀ n, a.session.machine.global? n = a.stores.lookup n) ∧
    (∀ b, Next Machine.Interned a b → ∀ n,
      (a.session.machine.global? n ≠ none → b.session.machine.global? n ≠ none) ∧
      (a.session.machine.global? n = none → b.session.machine.global? n ≠ none →
        (∃ arity behaviour, a.running = none ∧
          b.session.machine = a.session.machine.defineNative n arity behaviour) ∨
        ∃ frame i next s, a.running = some frame ∧
          frame.function.chunk.decode frame.ip = .instruction ⟨.defineGlobal, i⟩ next ∧
          Machine.nameAt frame i = .ok s ∧ s.text = n)) ∧
    ∀ frame i next s v, a.running = some frame → a.session.machine.Interned a.scripts frame →
      frame.function.chunk.decode frame.ip = .instruction ⟨.setGlobal, i⟩ next →
      Machine.nameAt frame i = .ok s → a.session.machine.peek? 0 = some v →
      a.session.machine.global? s.text = none →
      ∃ m frame', a.session.machine.step frame = .fail m frame' (.undefinedVariable s.text) ∧
        (∀ n, m.global? n = a.session.machine.global? n) ∧
        ∀ key, .string key ∈ m.heap.objects →
          m.globals.get? (.string key) = a.session.machine.globals.get? (.string key) := by
  have hStored := ha.stored
  refine ⟨hStored.global?, fun b hn n => ?_, ?_⟩
  · rw [hStored.global?, (hn.stored hStored).global?]
    exact hn.defines hStored n
  · intro frame i next s v hFrame hok hDecode hName hPeek hNone
    rw [hStored.global?] at hNone
    have hStep := hStored.step_undefined hok hDecode hName hPeek hNone
    have hStores := hStored.step hok
    rw [hStep] at hStores
    refine ⟨_, _, hStep, fun n => ?_, fun key hKey => ?_⟩
    · rw [hStores.global?, hStored.global?]
    · rw [hStores.get? hKey, hStored.get? hKey]

/-- A definition, an assignment to what it defines, and an assignment to another name, which fails. -/
theorem globals_law_assigned : ∃ (a : Moment) (frame frame' : Frame) (m : Machine),
    Reached Machine.Interned a ∧ a.running = some frame ∧
    (a.session.machine.global? "a").map Value.text = some "true" ∧
    a.session.machine.global? "b" = none ∧
    (∀ b, Next Machine.Interned a b → b.session.machine.global? "a" ≠ none) ∧
    a.session.machine.step frame = .fail m frame' (.undefinedVariable "b") ∧
    (m.global? "a").map Value.text = some "true" ∧ m.global? "b" = none := by
  -- six instructions lead to the second assignment
  have hFacts : ((early? "var a; a = true; b = false;" 6).map fun e =>
      (e.2.1.function.chunk.decode e.2.1.ip, (Machine.nameAt e.2.1 1).toOption.map Str.text,
        (e.1.machine.peek? 0).map Value.text, (e.1.machine.global? "a").map Value.text,
        (e.1.machine.global? "b").map Value.text)) =
      some (.instruction ⟨.setGlobal, 1⟩ 10, some "b", some "false", some "true", none) := by
    decide +kernel
  obtain ⟨⟨s, frame, script⟩, hEarly, hFacts⟩ := Option.map_eq_some_iff.1 hFacts
  simp only [Prod.mk.injEq, Option.map_eq_none_iff] at hFacts
  obtain ⟨hDecode, hName, hPeek, hDefined, hNone⟩ := hFacts
  obtain ⟨v, hPeek, -⟩ := Option.map_eq_some_iff.1 hPeek
  obtain ⟨name, hName, hText⟩ : ∃ name, Machine.nameAt frame 1 = .ok name ∧ name.text = "b" := by
    cases hEq : Machine.nameAt frame 1 with
    | error =>
      rw [hEq] at hName
      cases hName
    | ok name =>
      rw [hEq] at hName
      exact ⟨name, rfl, Option.some.inj hName⟩
  obtain ⟨stores, hLoyal⟩ : ∃ stores, Reached Machine.Loyal ⟨s, some frame, [script], stores⟩ :=
    Reached.of_early? hEarly fun hCalls count next _ _ _ _ hDecode =>
      absurd hDecode (Frame.ne_call hCalls count next)
  have hInterned := hLoyal.orderly.machine.interned [script]
  have hReached : Reached Machine.Interned ⟨s, some frame, [script], stores⟩ :=
    hLoyal.imp fun ha _ => ha.orderly.machine.interned _
  obtain ⟨-, hNext, hAssign⟩ := globals_law hReached
  obtain ⟨m, frame', hStep, hSame, -⟩ :=
    hAssign frame 1 10 name v rfl hInterned hDecode hName hPeek (by rw [hText]; exact hNone)
  refine ⟨_, frame, frame', m, hReached, rfl, hDefined, hNone, fun b hn => (hNext b hn "a").1 ?_,
    hText ▸ hStep, (congrArg _ (hSame "a")).trans hDefined, (hSame "b").trans hNone⟩
  intro hUndefined
  rw [hUndefined] at hDefined
  cases hDefined

end Moment

end Lox
