import Lox.Proofs.Compiler.Correctness

/-!
# Compiling on two heaps

The compiler finds a name among the constants by the identity of its string object, and identities differ
from heap to heap. `Parser.Twin`: two runs of the compiler, each on a heap of its own, are at the same
token with the same problems, and what they have made is the same but for identities. Every parser keeps
that (`Level.twin_ofDepth`), on malformed sources too, because a heap has one string object for each text.
So the result of `compile` does not depend on the heap (`compile_twin`).

On the way each heap only grows, and the functions that come to it have their names and constants on it
(`Heap.Grown`).
-/

set_option autoImplicit false

namespace Lox

open Lox.Parser (maxArguments maxConstants maxDistance maxLocals maxNesting)

/-! ## Heaps that grow -/

/-- The name and the constants of a function are objects of a heap. -/
structure Function.Rooted (h : Heap) (f : Fn) : Prop where
  name : ∀ s, f.name = some s → .string s ∈ h.objects
  constants : ∀ o, .object o ∈ f.chunk.constants → o ∈ h.objects

theorem Function.Rooted.mono {h h' : Heap} (he : h.Extends h') {f : Fn} (hf : f.Rooted h) : f.Rooted h' :=
  ⟨fun s hs => he.mem (hf.name s hs), fun o ho => he.mem (hf.constants o ho)⟩

/-- `h` comes from `h₀`: objects that are not from there have identities that were not handed out there,
and the names and constants of functions that are not from there are on it. -/
structure Heap.Grown (h₀ h : Heap) : Prop where
  wf : h.WF
  old : h₀.Extends h
  fresh : ∀ o ∈ h.objects, o ∈ h₀.objects ∨ h₀.nextId ≤ o.id
  rooted : ∀ f, .function f ∈ h.objects → .function f ∈ h₀.objects ∨ f.Rooted h

namespace Heap.Grown

variable {h₀ h : Heap}

theorem refl (hw : h.WF) : h.Grown h := ⟨hw, .refl h, fun _ ho => .inl ho, fun _ hf => .inl hf⟩

/-- An object with the next identity is not from `h₀`. -/
theorem fresh_cons (hg : h₀.Grown h) {o : Obj} (hId : o.id = h.nextId) :
    ∀ o' ∈ o :: h.objects, o' ∈ h₀.objects ∨ h₀.nextId ≤ o'.id := by
  intro o' ho'
  rcases List.mem_cons.1 ho' with rfl | ho'
  · exact .inr (hId ▸ hg.old.nextId)
  · exact hg.fresh o' ho'

/-- No function comes to the heap. -/
theorem step (hg : h₀.Grown h) {h' : Heap} (hw : h'.WF) (he : h.Extends h')
    (hNew : h'.objects = h.objects ∨ ∃ o : Obj, o.id = h.nextId ∧ (∀ f, o ≠ .function f) ∧
      h'.objects = o :: h.objects) : h₀.Grown h' where
  wf := hw
  old := hg.old.trans he
  fresh := by
    rcases hNew with hObjects | ⟨o, hId, -, hObjects⟩
    · exact hObjects ▸ hg.fresh
    · exact hObjects ▸ hg.fresh_cons hId
  rooted := fun f hf => by
    have hOld : .function f ∈ h.objects := by
      rcases hNew with hObjects | ⟨o, -, hNone, hObjects⟩
      · rwa [hObjects] at hf
      · rw [hObjects] at hf
        exact (List.mem_cons.1 hf).resolve_left fun hEq => hNone f hEq.symm
    exact (hg.rooted f hOld).imp_right (·.mono he)

theorem intern (hg : h₀.Grown h) (text : String) : h₀.Grown (h.intern text).2 := by
  obtain ⟨hw, he⟩ := h.grows_intern text hg.wf
  refine hg.step hw he ?_
  rcases h.intern_eq text with ⟨s, -, hEq⟩ | ⟨-, hEq⟩
  · exact .inl (by rw [hEq])
  · exact .inr ⟨.string ⟨h.nextId, text, Text.hash text⟩, rfl, nofun, by rw [hEq]; rfl⟩

theorem allocNative (hg : h₀.Grown h) (name : String) (arity entry : Nat) :
    h₀.Grown (h.allocNative name arity entry).2 := by
  obtain ⟨hw, he⟩ := h.grows_allocNative name arity entry hg.wf
  exact hg.step hw he (.inr ⟨.native ⟨h.nextId, name, arity, entry⟩, rfl, nofun, rfl⟩)

theorem reserve (hg : h₀.Grown h) : h₀.Grown h.reserve.2 := by
  obtain ⟨hw, he⟩ := h.grows_reserve hg.wf
  exact hg.step hw he (.inl rfl)

theorem allocFunction (hg : h₀.Grown h) {arity : Nat} {chunk : Chunk Value} {name : Option Str}
    (hf : Function.Rooted h ⟨h.nextId, arity, chunk, name⟩) :
    h₀.Grown (h.allocFunction arity chunk name).2 := by
  obtain ⟨hw, he⟩ := h.grows_allocFunction arity chunk name hg.wf
  refine ⟨hw, hg.old.trans he, hg.fresh_cons rfl, fun g hMem => ?_⟩
  rcases List.mem_cons.1 hMem with hEq | hMem
  · cases hEq
    exact .inr (hf.mono he)
  · exact (hg.rooted g hMem).imp_right (·.mono he)

end Heap.Grown

/-! ## The same on two heaps -/

/-- Two string objects with the same text, each on its heap. -/
structure Str.Twin (h h' : Heap) (s s' : Str) : Prop where
  left : .string s ∈ h.objects
  right : .string s' ∈ h'.objects
  text : s.text = s'.text

mutual

/-- Two constants that are the same but for identities, with their objects each on its heap: the same
number, strings with the same text, or functions that are the same. -/
inductive Value.Twin (h h' : Heap) : Value → Value → Prop
  | number (x : Float) : Value.Twin h h' (.number x) (.number x)
  | string {s s' : Str} : s.Twin h h' s' → Value.Twin h h' (.object (.string s)) (.object (.string s'))
  | function {f f' : Fn} : Function.Twin h h' f f' →
      Value.Twin h h' (.object (.function f)) (.object (.function f'))

/-- Two functions that are the same but for identities, each on its heap: in their parameter count, their
name, their code and its lines, and in their constants. -/
inductive Function.Twin (h h' : Heap) : Fn → Fn → Prop
  | mk {f f' : Fn} : .function f ∈ h.objects → .function f' ∈ h'.objects → f.arity = f'.arity →
      Option.Rel (Str.Twin h h') f.name f'.name → f.chunk.code = f'.chunk.code →
      f.chunk.lines = f'.chunk.lines →
      List.Forall₂ (Value.Twin h h') f.chunk.constants.toList f'.chunk.constants.toList →
      Function.Twin h h' f f'

end

theorem Str.Twin.mono {h₁ h₂ h₁' h₂' : Heap} (he : h₁.Extends h₂) (he' : h₁'.Extends h₂') {s s' : Str}
    (hs : s.Twin h₁ h₁' s') : s.Twin h₂ h₂' s' :=
  ⟨he.mem hs.left, he'.mem hs.right, hs.text⟩

theorem Str.Twin.mono_name {h₁ h₂ h₁' h₂' : Heap} (he : h₁.Extends h₂) (he' : h₁'.Extends h₂')
    {name name' : Option Str} :
    Option.Rel (Str.Twin h₁ h₁') name name' → Option.Rel (Str.Twin h₂ h₂') name name'
  | .some hs => .some (hs.mono he he')
  | .none => .none

theorem Str.Twin.listed_name {h h' : Heap} {name name' : Option Str} :
    Option.Rel (Str.Twin h h') name name' → (∀ s, name = some s → .string s ∈ h.objects) ∧
      ∀ s, name' = some s → .string s ∈ h'.objects
  | .some hs => ⟨fun _ hEq => Option.some.inj hEq ▸ hs.left, fun _ hEq => Option.some.inj hEq ▸ hs.right⟩
  | .none => ⟨nofun, nofun⟩

mutual

theorem Value.Twin.mono {h₁ h₂ h₁' h₂' : Heap} (he : h₁.Extends h₂) (he' : h₁'.Extends h₂')
    {v v' : Value} : v.Twin h₁ h₁' v' → v.Twin h₂ h₂' v'
  | .number x => .number x
  | .string hs => .string (hs.mono he he')
  | .function hf => .function (hf.mono he he')

theorem Function.Twin.mono {h₁ h₂ h₁' h₂' : Heap} (he : h₁.Extends h₂) (he' : h₁'.Extends h₂')
    {f f' : Fn} : f.Twin h₁ h₁' f' → f.Twin h₂ h₂' f'
  | .mk hMem hMem' hArity hName hCode hLines hConstants =>
    .mk (he.mem hMem) (he'.mem hMem') hArity (Str.Twin.mono_name he he' hName) hCode hLines
      (Value.Twin.mono_all he he' hConstants)

theorem Value.Twin.mono_all {h₁ h₂ h₁' h₂' : Heap} (he : h₁.Extends h₂) (he' : h₁'.Extends h₂')
    {vs vs' : List Value} :
    List.Forall₂ (Value.Twin h₁ h₁') vs vs' → List.Forall₂ (Value.Twin h₂ h₂') vs vs'
  | .nil => .nil
  | .cons hv hvs => .cons (hv.mono he he') (Value.Twin.mono_all he he' hvs)

end

/-- The objects among twins are on their heaps. -/
theorem Value.Twin.listed {h h' : Heap} {v v' : Value} (hv : v.Twin h h' v') :
    (∀ o, v = .object o → o ∈ h.objects) ∧ ∀ o, v' = .object o → o ∈ h'.objects := by
  cases hv with
  | number x => exact ⟨nofun, nofun⟩
  | string hs =>
    refine ⟨fun o ho => ?_, fun o ho => ?_⟩
    · cases ho
      exact hs.left
    · cases ho
      exact hs.right
  | function hf =>
    obtain ⟨hMem, hMem'⟩ := hf
    refine ⟨fun o ho => ?_, fun o ho => ?_⟩
    · cases ho
      exact hMem
    · cases ho
      exact hMem'

/-- Of twins, both are the string object of a text or neither is. -/
theorem Value.Twin.hasId {h h' : Heap} (hw : h.WF) (hw' : h'.WF) {s s' : Str} (hs : s.Twin h h' s')
    {v v' : Value} (hv : v.Twin h h' v') : Shows.hasId s.id v = Shows.hasId s'.id v' := by
  cases hv with
  | number x => rfl
  | string ht =>
    refine decide_eq_decide.2 ?_
    calc _ ↔ _ := hw.id_eq_iff ht.left hs.left
      _ ↔ _ := by rw [ht.text, hs.text]
      _ ↔ _ := (hw'.id_eq_iff ht.right hs.right).symm
  | function hf =>
    rename_i f f'
    obtain ⟨hMem, hMem'⟩ := hf
    have hNot : f.id ≠ s.id := fun hId => nomatch hw.eq_of_id hMem hs.left hId
    have hNot' : f'.id ≠ s'.id := fun hId => nomatch hw'.eq_of_id hMem' hs.right hId
    exact (decide_eq_false hNot).trans (decide_eq_false hNot').symm

theorem Value.Twin.findIdx?_hasId {h h' : Heap} (hw : h.WF) (hw' : h'.WF) {s s' : Str}
    (hs : s.Twin h h' s') {vs vs' : Array Value}
    (hvs : List.Forall₂ (Value.Twin h h') vs.toList vs'.toList) :
    vs.findIdx? (Shows.hasId s.id) = vs'.findIdx? (Shows.hasId s'.id) := by
  obtain ⟨vs⟩ := vs
  obtain ⟨vs'⟩ := vs'
  rw [List.findIdx?_toArray, List.findIdx?_toArray]
  dsimp only at hvs
  induction hvs with
  | nil => rfl
  | cons hv _ ih => rw [List.findIdx?_cons, List.findIdx?_cons, hv.hasId hw hw' hs, ih]

theorem mem_of_forall₂ {α β : Type} {R : α → β → Prop} {xs : List α} {ys : List β}
    (h : List.Forall₂ R xs ys) :
    (∀ x ∈ xs, ∃ y, R x y) ∧ ∀ y ∈ ys, ∃ x, R x y := by
  induction h with
  | nil => exact ⟨nofun, nofun⟩
  | cons hxy _ ih =>
    exact ⟨List.forall_mem_cons.2 ⟨⟨_, hxy⟩, ih.1⟩, List.forall_mem_cons.2 ⟨⟨_, hxy⟩, ih.2⟩⟩

/-! ## Two runs of the compiler -/

/-- Two drafts that are the same but for identities. -/
structure Draft.Twin (h h' : Heap) (d d' : Draft) : Prop where
  name : Option.Rel (Str.Twin h h') d.name d'.name
  arity : d.arity = d'.arity
  code : d.chunk.code = d'.chunk.code
  lines : d.chunk.lines = d'.chunk.lines
  constants : List.Forall₂ (Value.Twin h h') d.chunk.constants.toList d'.chunk.constants.toList
  locals : d.locals = d'.locals
  scopeDepth : d.scopeDepth = d'.scopeDepth

namespace Draft.Twin

variable {h h' : Heap} {d d' : Draft}

theorem mono {h₂ h₂' : Heap} (he : h.Extends h₂) (he' : h'.Extends h₂') (hd : d.Twin h h' d') :
    d.Twin h₂ h₂' d' :=
  { hd with name := Str.Twin.mono_name he he' hd.name, constants := Value.Twin.mono_all he he' hd.constants }

theorem size (hd : d.Twin h h' d') : d.size = d'.size := congrArg Array.size hd.code

theorem isScript (hd : d.Twin h h' d') : d.isScript = d'.isScript := by
  have hName := hd.name
  unfold Draft.isScript
  generalize d.name = name, d'.name = name' at hName ⊢
  cases hName <;> rfl

theorem write (hd : d.Twin h h' d') (bytes : List UInt8) {line line' : Nat} (hLine : line = line') :
    (d.write bytes line).Twin h h' (d'.write bytes line') := by
  subst hLine
  obtain ⟨hCode, hLines, hConstants⟩ := Shows.chunk_write bytes line d.chunk
  obtain ⟨hCode', hLines', hConstants'⟩ := Shows.chunk_write bytes line d'.chunk
  refine { hd with code := ?_, lines := ?_, constants := ?_ }
  · exact Array.toList_inj.1 (by rw [Draft.write, Draft.write, hCode, hCode', hd.code])
  · exact Array.toList_inj.1 (by rw [Draft.write, Draft.write, hLines, hLines', hd.lines])
  · rw [Draft.write, Draft.write, hConstants, hConstants']
    exact hd.constants

theorem patch (hd : d.Twin h h' d') (offset value : Nat) :
    (d.patch offset value).Twin h h' (d'.patch offset value) :=
  { hd with code := by rw [Draft.patch, Draft.patch, hd.code] }

theorem addConstant (hd : d.Twin h h' d') {v v' : Value} (hv : v.Twin h h' v') :
    ({ d with chunk := d.chunk.addConstant v } : Draft).Twin h h'
      { d' with chunk := d'.chunk.addConstant v' } := by
  refine { hd with constants := ?_ }
  simp only [Chunk.addConstant, Array.toList_push]
  exact List.rel_append hd.constants (.cons hv .nil)

/-- What the drafts hold is on their heaps. -/
theorem rooted (hd : d.Twin h h' d') (id id' : Nat) :
    Function.Rooted h ⟨id, d.arity, d.chunk, d.name⟩ ∧
      Function.Rooted h' ⟨id', d'.arity, d'.chunk, d'.name⟩ := by
  obtain ⟨hName, hName'⟩ := Str.Twin.listed_name hd.name
  obtain ⟨hLeft, hRight⟩ := mem_of_forall₂ hd.constants
  refine ⟨⟨hName, fun o ho => ?_⟩, ⟨hName', fun o ho => ?_⟩⟩
  · obtain ⟨v', hv⟩ := hLeft _ (Array.mem_toList_iff.2 ho)
    exact hv.listed.1 o rfl
  · obtain ⟨v, hv⟩ := hRight _ (Array.mem_toList_iff.2 ho)
    exact hv.listed.2 o rfl

end Draft.Twin

/-- Two runs of the compiler, each on a heap of its own, have read the same tokens, found the same
problems and made the same but for identities. -/
structure Parser.Twin (h₀ h₀' : Heap) (p p' : Parser) : Prop where
  current : p.current = p'.current
  previous : p.previous = p'.previous
  rest : p.rest = p'.rest
  total : p.total = p'.total
  recovering : p.recovering = p'.recovering
  tooDeep : p.tooDeep = p'.tooDeep
  diagnostics : p.diagnostics = p'.diagnostics
  left : h₀.Grown p.heap
  right : h₀'.Grown p'.heap
  draft : p.draft.Twin p.heap p'.heap p'.draft
  enclosing : List.Forall₂ (Draft.Twin p.heap p'.heap) p.enclosing p'.enclosing

namespace Parser.Twin

variable {h₀ h₀' : Heap} {p p' : Parser}

/-- A choice that both runs make in the same way. -/
theorem ite {c c' : Prop} [Decidable c] [Decidable c'] {a b a' b' : Parser} (hc : c ↔ c')
    (ha : a.Twin h₀ h₀' a') (hb : b.Twin h₀ h₀' b') :
    (if c then a else b).Twin h₀ h₀' (if c' then a' else b') := by
  by_cases hIf : c
  · rw [if_pos hIf, if_pos (hc.1 hIf)]
    exact ha
  · rw [if_neg hIf, if_neg fun h => hIf (hc.2 h)]
    exact hb

/-- What is made of the current function may change in both runs alike. -/
theorem redraft (h : p.Twin h₀ h₀' p') {d d' : Draft} (hd : d.Twin p.heap p'.heap d') :
    ({ p with draft := d } : Parser).Twin h₀ h₀' { p' with draft := d' } := { h with draft := hd }

/-- Both heaps may grow. -/
theorem reheap (h : p.Twin h₀ h₀' p') {heap heap' : Heap} (hg : h₀.Grown heap) (hg' : h₀'.Grown heap')
    (he : p.heap.Extends heap) (he' : p'.heap.Extends heap') :
    ({ p with heap } : Parser).Twin h₀ h₀' { p' with heap := heap' } :=
  { h with
    left := hg
    right := hg'
    draft := h.draft.mono he he'
    enclosing := h.enclosing.imp fun _ _ hd => hd.mono he he' }

/-! ## Tokens and problems -/

theorem check (h : p.Twin h₀ h₀' p') (kind : Token.Kind) : p.check kind = p'.check kind := by
  rw [Parser.check, Parser.check, h.current]

theorem check_iff (h : p.Twin h₀ h₀' p') (kind : Token.Kind) :
    p.check kind = true ↔ p'.check kind = true := by rw [h.check]

theorem report (h : p.Twin h₀ h₀' p') (t : Token) (problem : Problem) :
    (p.report t problem).Twin h₀ h₀' (p'.report t problem) := by
  refine ite ?_ h { h with recovering := rfl, diagnostics := ?_ }
  · rw [h.recovering, h.tooDeep]
  · rw [h.diagnostics]

theorem error (h : p.Twin h₀ h₀' p') (problem : Problem) :
    (p.error problem).Twin h₀ h₀' (p'.error problem) := by
  rw [Parser.error, Parser.error, h.previous]
  exact h.report ..

theorem errorAtCurrent (h : p.Twin h₀ h₀' p') (problem : Problem) :
    (p.errorAtCurrent problem).Twin h₀ h₀' (p'.errorAtCurrent problem) := by
  rw [Parser.errorAtCurrent, Parser.errorAtCurrent, h.current]
  exact h.report ..

theorem shift {ts ts' : List Token} (hts : ts = ts') (h : p.Twin h₀ h₀' p') :
    (Parser.shift ts p).Twin h₀ h₀' (Parser.shift ts' p') := by
  subst hts
  induction ts generalizing p p' with
  | nil => exact { h with rest := rfl }
  | cons t ts ih =>
    unfold Parser.shift
    split
    · exact ih (h.report ..)
    · exact { h with current := rfl, rest := rfl }

theorem advance (h : p.Twin h₀ h₀' p') : p.advance.Twin h₀ h₀' p'.advance :=
  shift h.rest { h with previous := h.current }

theorem consume (h : p.Twin h₀ h₀' p') (kind : Token.Kind) (what : Expected) :
    (p.consume kind what).Twin h₀ h₀' (p'.consume kind what) :=
  ite (h.check_iff kind) h.advance (h.errorAtCurrent _)

theorem start (ts : List Token) (hw : h₀.WF) (hw' : h₀'.WF) :
    (Parser.start ts h₀).Twin h₀ h₀' (Parser.start ts h₀') :=
  advance {
    current := rfl, previous := rfl, rest := rfl, total := rfl, recovering := rfl, tooDeep := rfl
    diagnostics := rfl, left := .refl hw, right := .refl hw', enclosing := .nil
    draft := ⟨.none, rfl, rfl, rfl, .nil, rfl, rfl⟩ }

theorem skipStatement {fuel fuel' : Nat} (hFuel : fuel = fuel') (h : p.Twin h₀ h₀' p') :
    (Parser.skipStatement fuel p).Twin h₀ h₀' (Parser.skipStatement fuel' p') := by
  subst hFuel
  induction fuel generalizing p p' with
  | zero => exact h
  | succ fuel ih => exact ite (by rw [h.check, h.previous, h.current]) h (ih h.advance)

theorem synchronize (h : p.Twin h₀ h₀' p') : p.synchronize.Twin h₀ h₀' p'.synchronize :=
  skipStatement h.total { h with recovering := rfl }

theorem skipToEnd {fuel fuel' : Nat} (hFuel : fuel = fuel') (h : p.Twin h₀ h₀' p') :
    (Parser.skipToEnd fuel p).Twin h₀ h₀' (Parser.skipToEnd fuel' p') := by
  subst hFuel
  induction fuel generalizing p p' with
  | zero => exact h
  | succ fuel ih => exact ite (h.check_iff _) h (ih h.advance)

theorem giveUp (h : p.Twin h₀ h₀' p') : p.giveUp.Twin h₀ h₀' p'.giveUp := by
  have hReport := h.errorAtCurrent .nestingTooDeep
  exact skipToEnd hReport.total { hReport with tooDeep := rfl }

/-! ## Emission -/

theorem writeBytes (h : p.Twin h₀ h₀' p') (bytes : List UInt8) :
    (p.writeBytes bytes).Twin h₀ h₀' (p'.writeBytes bytes) :=
  h.redraft (h.draft.write bytes (congrArg Token.line h.previous))

theorem emitWith (h : p.Twin h₀ h₀' p') (op : Opcode) (operand : Nat) :
    (p.emitWith op operand).Twin h₀ h₀' (p'.emitWith op operand) := h.writeBytes _

theorem emit (h : p.Twin h₀ h₀' p') (op : Opcode) : (p.emit op).Twin h₀ h₀' (p'.emit op) :=
  h.emitWith op 0

theorem emits (ops : List Opcode) (h : p.Twin h₀ h₀' p') :
    (ops.foldl Parser.emit p).Twin h₀ h₀' (ops.foldl Parser.emit p') := by
  induction ops generalizing p p' with
  | nil => exact h
  | cons op ops ih => exact ih (h.emit op)

theorem emitReturn (h : p.Twin h₀ h₀' p') : p.emitReturn.Twin h₀ h₀' p'.emitReturn :=
  (h.emit _).emit _

theorem here (h : p.Twin h₀ h₀' p') : p.here = p'.here := h.draft.size

end Parser.Twin

/-- The runs go on alike and have the same result besides. -/
structure Parser.TwinResult (h₀ h₀' : Heap) {α : Type} (r r' : α × Parser) : Prop where
  result : r.1 = r'.1
  twin : r.2.Twin h₀ h₀' r'.2

theorem Parser.TwinResult.ite {h₀ h₀' : Heap} {α : Type} {c c' : Prop} [Decidable c] [Decidable c']
    {r s r' s' : α × Parser} (hc : c ↔ c') (hr : TwinResult h₀ h₀' r r') (hs : TwinResult h₀ h₀' s s') :
    TwinResult h₀ h₀' (if c then r else s) (if c' then r' else s') := by
  by_cases hIf : c
  · rw [if_pos hIf, if_pos (hc.1 hIf)]
    exact hr
  · rw [if_neg hIf, if_neg fun h => hIf (hc.2 h)]
    exact hs

namespace Parser.Twin

variable {h₀ h₀' : Heap} {p p' : Parser}

/-! ## Constants and jumps -/

theorem makeConstant (h : p.Twin h₀ h₀' p') {v v' : Value} (hv : v.Twin p.heap p'.heap v') :
    Parser.TwinResult h₀ h₀' (p.makeConstant v) (p'.makeConstant v') := by
  have hSize : p.draft.chunk.constants.size = p'.draft.chunk.constants.size := by
    rw [← Array.length_toList, ← Array.length_toList]
    exact h.draft.constants.length_eq
  exact .ite (by rw [hSize]) ⟨hSize, h.redraft (h.draft.addConstant hv)⟩ ⟨rfl, h.error _⟩

theorem emitConstant (h : p.Twin h₀ h₀' p') {v v' : Value} (hv : v.Twin p.heap p'.heap v') :
    (p.emitConstant v).Twin h₀ h₀' (p'.emitConstant v') := by
  obtain ⟨hIndex, hMade⟩ := h.makeConstant hv
  rw [Parser.emitConstant, Parser.emitConstant]
  dsimp only
  rw [hIndex]
  exact hMade.emitWith ..

theorem intern (h : p.Twin h₀ h₀' p') (text : String) :
    (p.intern text).2.Twin h₀ h₀' (p'.intern text).2 ∧
      (p.intern text).1.Twin (p.intern text).2.heap (p'.intern text).2.heap (p'.intern text).1 := by
  obtain ⟨-, he, hMem, hText⟩ := Heap.intern_spec h.left.wf text
  obtain ⟨-, he', hMem', hText'⟩ := Heap.intern_spec h.right.wf text
  exact ⟨h.reheap (h.left.intern text) (h.right.intern text) he he', hMem, hMem',
    hText.trans hText'.symm⟩

theorem nameConstant (h : p.Twin h₀ h₀' p') (name : String) :
    Parser.TwinResult h₀ h₀' (p.nameConstant name) (p'.nameConstant name) := by
  obtain ⟨hIntern, hs⟩ := h.intern name
  have hFind := Value.Twin.findIdx?_hasId hIntern.left.wf hIntern.right.wf hs hIntern.draft.constants
  rw [Shows.nameConstant_eq, Shows.nameConstant_eq, hFind]
  split
  · exact ⟨rfl, hIntern⟩
  · exact hIntern.makeConstant (.string hs)

theorem emitJump (h : p.Twin h₀ h₀' p') (op : Opcode) :
    Parser.TwinResult h₀ h₀' (p.emitJump op) (p'.emitJump op) := by
  have hJump := h.emitWith op maxDistance
  exact ⟨congrArg (· - 2) hJump.here, hJump⟩

theorem patchJump (h : p.Twin h₀ h₀' p') {offset offset' : Nat} (hOffset : offset = offset') :
    (p.patchJump offset).Twin h₀ h₀' (p'.patchJump offset') := by
  rw [Parser.patchJump, Parser.patchJump, h.here, hOffset]
  exact ite .rfl (h.redraft (h.draft.patch ..)) (h.error _)

theorem emitLoop (h : p.Twin h₀ h₀' p') {start start' : Nat} (hStart : start = start') :
    (p.emitLoop start).Twin h₀ h₀' (p'.emitLoop start') := by
  rw [Parser.emitLoop, Parser.emitLoop, h.here, hStart]
  exact ite .rfl (h.emitWith ..) ((h.writeBytes _).error _)

/-! ## Functions -/

theorem beginFunction (h : p.Twin h₀ h₀' p') {name name' : Str} (hs : name.Twin p.heap p'.heap name') :
    (p.beginFunction name).Twin h₀ h₀' (p'.beginFunction name') :=
  { h with
    draft := ⟨.some hs, rfl, rfl, rfl, .nil, rfl, rfl⟩
    enclosing := .cons h.draft h.enclosing }

theorem endFunction (h : p.Twin h₀ h₀' p') :
    p.endFunction.2.Twin h₀ h₀' p'.endFunction.2 ∧
      p.endFunction.1.Twin p.endFunction.2.heap p'.endFunction.2.heap p'.endFunction.1 := by
  have hReturn := h.emitReturn
  have hEnclosing := hReturn.enclosing
  unfold Parser.endFunction
  dsimp only
  generalize p.emitReturn = q, p'.emitReturn = q' at hReturn hEnclosing ⊢
  generalize hOuter : q.enclosing = outer, hOuter' : q'.enclosing = outer' at hEnclosing
  cases hEnclosing with
  | nil =>
    exact ⟨{ hReturn with draft := ⟨.none, rfl, rfl, rfl, .nil, rfl, rfl⟩, enclosing := .nil },
      hReturn.draft⟩
  | cons hd hds => exact ⟨{ hReturn with draft := hd, enclosing := hds }, hReturn.draft⟩

/-- Both runs make a function of their draft. -/
theorem allocFunction {h h' : Heap} (hg : h₀.Grown h) (hg' : h₀'.Grown h') {d d' : Draft}
    (hd : d.Twin h h' d') :
    h₀.Grown (h.allocFunction d.arity d.chunk d.name).2 ∧
      h₀'.Grown (h'.allocFunction d'.arity d'.chunk d'.name).2 ∧
      Function.Twin (h.allocFunction d.arity d.chunk d.name).2
        (h'.allocFunction d'.arity d'.chunk d'.name).2
        (h.allocFunction d.arity d.chunk d.name).1 (h'.allocFunction d'.arity d'.chunk d'.name).1 := by
  obtain ⟨hRooted, hRooted'⟩ := hd.rooted h.nextId h'.nextId
  obtain ⟨-, he, hMem⟩ := Heap.allocFunction_spec hg.wf d.arity d.chunk d.name
  obtain ⟨-, he', hMem'⟩ := Heap.allocFunction_spec hg'.wf d'.arity d'.chunk d'.name
  have hAfter := hd.mono he he'
  exact ⟨hg.allocFunction hRooted, hg'.allocFunction hRooted', .mk hMem hMem' hAfter.arity hAfter.name
    hAfter.code hAfter.lines hAfter.constants⟩

theorem closeFunction (h : p.Twin h₀ h₀' p') : p.closeFunction.Twin h₀ h₀' p'.closeFunction := by
  obtain ⟨hEnd, hd⟩ := h.endFunction
  unfold Parser.closeFunction
  generalize p.endFunction = ended, p'.endFunction = ended' at hEnd hd ⊢
  obtain ⟨d, q⟩ := ended
  obtain ⟨d', q'⟩ := ended'
  dsimp only at hEnd hd ⊢
  obtain ⟨hg, hg', hf⟩ := allocFunction hEnd.left hEnd.right hd
  have he := (Heap.grows_allocFunction _ d.arity d.chunk d.name hEnd.left.wf).2
  have he' := (Heap.grows_allocFunction _ d'.arity d'.chunk d'.name hEnd.right.wf).2
  exact (hEnd.reheap hg hg' he he').emitConstant (.function hf)

/-! ## Scopes and variables -/

theorem beginScope (h : p.Twin h₀ h₀' p') : p.beginScope.Twin h₀ h₀' p'.beginScope :=
  h.redraft { h.draft with scopeDepth := congrArg (· + 1) h.draft.scopeDepth }

theorem global_iff (h : p.Twin h₀ h₀' p') : p.draft.scopeDepth = 0 ↔ p'.draft.scopeDepth = 0 := by
  rw [h.draft.scopeDepth]

theorem dropLocals {ls ls' : List Local} (hls : ls = ls') (h : p.Twin h₀ h₀' p') :
    (Parser.dropLocals ls p).Twin h₀ h₀' (Parser.dropLocals ls' p') := by
  subst hls
  induction ls generalizing p p' with
  | nil => exact h.redraft { h.draft with locals := rfl }
  | cons l ls ih =>
    exact ite (by rw [h.draft.scopeDepth]) (ih (h.emit _)) (h.redraft { h.draft with locals := rfl })

theorem endScope (h : p.Twin h₀ h₀' p') : p.endScope.Twin h₀ h₀' p'.endScope :=
  dropLocals h.draft.locals <|
    h.redraft { h.draft with scopeDepth := congrArg (· - 1) h.draft.scopeDepth }

theorem addLocal (h : p.Twin h₀ h₀' p') {name name' : String} (hName : name = name') :
    (p.addLocal name).Twin h₀ h₀' (p'.addLocal name') := by
  subst hName
  refine ite (by rw [h.draft.locals]) (h.error _) (h.redraft { h.draft with locals := ?_ })
  rw [h.draft.locals, h.draft.scopeDepth]

theorem declareVariable (h : p.Twin h₀ h₀' p') :
    p.declareVariable.Twin h₀ h₀' p'.declareVariable := by
  have hName : p.previous.lexeme = p'.previous.lexeme := by rw [h.previous]
  refine ite h.global_iff h ((ite ?_ (h.error _) h).addLocal hName)
  rw [Draft.declaredHere, Draft.declaredHere, h.draft.locals, h.draft.scopeDepth, hName]

theorem variableName (h : p.Twin h₀ h₀' p') (what : Expected) :
    Parser.TwinResult h₀ h₀' (p.variableName what) (p'.variableName what) := by
  have hDeclared := (h.consume .identifier what).declareVariable
  have hIndex := hDeclared.nameConstant (p.consume .identifier what).declareVariable.previous.lexeme
  nth_rewrite 2 [hDeclared.previous] at hIndex
  exact .ite hDeclared.global_iff hIndex ⟨rfl, hDeclared⟩

theorem markInitialized (h : p.Twin h₀ h₀' p') :
    p.markInitialized.Twin h₀ h₀' p'.markInitialized := by
  refine ite h.global_iff h ?_
  rw [h.draft.locals]
  split
  · exact h
  · exact h.redraft { h.draft with locals := rfl }

theorem defineVariable (h : p.Twin h₀ h₀' p') {index index' : Nat} (hIndex : index = index') :
    (p.defineVariable index).Twin h₀ h₀' (p'.defineVariable index') :=
  hIndex ▸ ite h.global_iff (h.emitWith ..) h.markInitialized

theorem emitGet (h : p.Twin h₀ h₀' p') (ref : Reference) :
    (p.emitGet ref).Twin h₀ h₀' (p'.emitGet ref) := by
  cases ref <;> exact h.emitWith ..

theorem emitSet (h : p.Twin h₀ h₀' p') (ref : Reference) :
    (p.emitSet ref).Twin h₀ h₀' (p'.emitSet ref) := by
  cases ref <;> exact h.emitWith ..

theorem resolve (h : p.Twin h₀ h₀' p') (name : String) :
    Parser.TwinResult h₀ h₀' (p.resolve name) (p'.resolve name) := by
  unfold Parser.resolve
  rw [h.draft.locals]
  split
  · exact ⟨rfl, ite .rfl h (h.error _)⟩
  · obtain ⟨hIndex, hName⟩ := h.nameConstant name
    exact ⟨congrArg Reference.global hIndex, hName⟩

end Parser.Twin

/-- The parsers of a level keep two runs alike. -/
structure Level.Twin (h₀ h₀' : Heap) (inner : Level) : Prop where
  statement : ∀ {p p' : Parser}, p.Twin h₀ h₀' p' → (inner.statement p).Twin h₀ h₀' (inner.statement p')
  operand : ∀ (layer : Precedence) {p p' : Parser}, p.Twin h₀ h₀' p' →
    (inner.operand layer p).Twin h₀ h₀' (inner.operand layer p')
  function : ∀ {p p' : Parser}, p.Twin h₀ h₀' p' → (inner.function p).Twin h₀ h₀' (inner.function p')

namespace Parser.Twin

section
variable {h₀ h₀' : Heap} {inner : Level} (hi : inner.Twin h₀ h₀') {p p' : Parser}
include hi

/-! ## Expressions -/

theorem expression (h : p.Twin h₀ h₀' p') :
    (Parser.expression inner p).Twin h₀ h₀' (Parser.expression inner p') := hi.operand _ h

theorem name (mayAssign : Bool) (h : p.Twin h₀ h₀' p') :
    (Parser.name inner mayAssign p).Twin h₀ h₀' (Parser.name inner mayAssign p') := by
  have hResolve := h.resolve p.previous.lexeme
  unfold Parser.name
  rw [← h.previous]
  generalize p.resolve p.previous.lexeme = r, p'.resolve p.previous.lexeme = r' at hResolve ⊢
  obtain ⟨ref, q⟩ := r
  obtain ⟨ref', q'⟩ := r'
  obtain ⟨hRef, hq⟩ := hResolve
  cases hRef
  exact ite (by rw [hq.check]) ((expression hi hq.advance).emitSet _) (hq.emitGet _)

theorem grouping (h : p.Twin h₀ h₀' p') :
    (Parser.grouping inner p).Twin h₀ h₀' (Parser.grouping inner p') := (expression hi h).consume ..

theorem unary (h : p.Twin h₀ h₀' p') :
    (Parser.unary inner p).Twin h₀ h₀' (Parser.unary inner p') := by
  have hOperand := hi.operand .unary h
  unfold Parser.unary
  rw [h.previous]
  dsimp only
  split
  · exact hOperand.emit _
  · exact hOperand.emit _
  · exact hOperand

omit hi in
theorem number (h : p.Twin h₀ h₀' p') : p.number.Twin h₀ h₀' p'.number := by
  unfold Parser.number
  rw [h.previous]
  exact h.emitConstant (.number _)

omit hi in
theorem string (h : p.Twin h₀ h₀' p') : p.string.Twin h₀ h₀' p'.string := by
  unfold Parser.string
  rw [h.previous]
  obtain ⟨hIntern, hs⟩ := h.intern (String.ofList (p'.previous.lexeme.toList.drop 1).dropLast)
  exact hIntern.emitConstant (.string hs)

omit hi in
theorem literal (h : p.Twin h₀ h₀' p') : p.literal.Twin h₀ h₀' p'.literal := by
  unfold Parser.literal
  rw [h.previous]
  split
  · exact h.emit _
  · exact h.emit _
  · exact h.emit _
  · exact h

theorem leading (mayAssign : Bool) (rule : Leading) (h : p.Twin h₀ h₀' p') :
    (Parser.leading inner mayAssign p rule).Twin h₀ h₀' (Parser.leading inner mayAssign p' rule) := by
  cases rule with
  | grouping => exact grouping hi h
  | unary => exact unary hi h
  | name => exact name hi mayAssign h
  | string => exact h.string
  | number => exact h.number
  | literal => exact h.literal

theorem arguments {fuel fuel' : Nat} (hFuel : fuel = fuel') (count : Nat) (h : p.Twin h₀ h₀' p') :
    Parser.TwinResult h₀ h₀' (Parser.arguments inner fuel count p)
      (Parser.arguments inner fuel' count p') := by
  subst hFuel
  induction fuel generalizing count p p' with
  | zero => exact ⟨rfl, h⟩
  | succ fuel ih =>
    have hOne := expression hi h
    have hMany := ite (Iff.refl (count = maxArguments)) (hOne.error .tooManyArguments) hOne
    exact .ite (hMany.check_iff _) (ih _ hMany.advance) ⟨rfl, hMany⟩

theorem call (h : p.Twin h₀ h₀' p') : (Parser.call inner p).Twin h₀ h₀' (Parser.call inner p') := by
  have hNone : Parser.TwinResult h₀ h₀' (0, p) (0, p') := ⟨rfl, h⟩
  have hArguments := hNone.ite (h.check_iff .rightParen) (arguments hi h.total 0 h)
  unfold Parser.call
  dsimp only
  rw [hArguments.result]
  exact (hArguments.twin.consume ..).emitWith ..

theorem binary (h : p.Twin h₀ h₀' p') :
    (Parser.binary inner p).Twin h₀ h₀' (Parser.binary inner p') := by
  unfold Parser.binary
  rw [h.previous]
  exact (hi.operand _ h).emits _

theorem and (h : p.Twin h₀ h₀' p') : (Parser.and inner p).Twin h₀ h₀' (Parser.and inner p') := by
  have hJump := h.emitJump .jumpIfFalse
  exact (hi.operand _ (hJump.twin.emit _)).patchJump hJump.result

theorem or (h : p.Twin h₀ h₀' p') : (Parser.or inner p).Twin h₀ h₀' (Parser.or inner p') := by
  have hElse := h.emitJump .jumpIfFalse
  have hEnd := hElse.twin.emitJump .jump
  exact (hi.operand _ ((hEnd.twin.patchJump hElse.result).emit _)).patchJump hEnd.result

theorem trailing (rule : Trailing) (h : p.Twin h₀ h₀' p') :
    (Parser.trailing inner p rule).Twin h₀ h₀' (Parser.trailing inner p' rule) := by
  cases rule with
  | call => exact call hi h
  | binary => exact binary hi h
  | and => exact and hi h
  | or => exact or hi h

theorem operators (layer : Precedence) {fuel fuel' : Nat} (hFuel : fuel = fuel')
    (h : p.Twin h₀ h₀' p') :
    (Parser.operators inner layer fuel p).Twin h₀ h₀' (Parser.operators inner layer fuel' p') := by
  subst hFuel
  induction fuel generalizing p p' with
  | zero => exact h
  | succ fuel ih =>
    refine ite (by rw [h.current]) (ih ?_) h
    rw [h.advance.previous]
    split
    · exact trailing hi _ h.advance
    · exact h.advance

theorem operand (layer : Precedence) (h : p.Twin h₀ h₀' p') :
    (Parser.operand inner layer p).Twin h₀ h₀' (Parser.operand inner layer p') := by
  unfold Parser.operand
  dsimp only
  rw [h.advance.previous]
  split
  · exact h.advance.error _
  · rename_i rule _
    have hLeading := leading hi (decide (layer.rank ≤ Precedence.assignment.rank)) rule h.advance
    have hOperators := operators hi layer hLeading.total hLeading
    exact ite (by rw [hOperators.check]) (hOperators.advance.error _) hOperators

/-! ## Statements -/

theorem printStatement (h : p.Twin h₀ h₀' p') :
    (Parser.printStatement inner p).Twin h₀ h₀' (Parser.printStatement inner p') :=
  ((expression hi h).consume ..).emit _

theorem expressionStatement (h : p.Twin h₀ h₀' p') :
    (Parser.expressionStatement inner p).Twin h₀ h₀' (Parser.expressionStatement inner p') :=
  ((expression hi h).consume ..).emit _

theorem returnStatement (h : p.Twin h₀ h₀' p') :
    (Parser.returnStatement inner p).Twin h₀ h₀' (Parser.returnStatement inner p') := by
  have hScript : (if p.draft.isScript then p.error .returnFromScript else p).Twin h₀ h₀'
      (if p'.draft.isScript then p'.error .returnFromScript else p') :=
    ite (by rw [h.draft.isScript]) (h.error _) h
  exact ite (hScript.check_iff _) hScript.advance.emitReturn
    (((expression hi hScript).consume ..).emit _)

theorem varDeclaration (h : p.Twin h₀ h₀' p') :
    (Parser.varDeclaration inner p).Twin h₀ h₀' (Parser.varDeclaration inner p') := by
  have hName := h.variableName .variableName
  have hValue := ite (hName.twin.check_iff .equal) (expression hi hName.twin.advance)
    (hName.twin.emit .pushNil)
  unfold Parser.varDeclaration
  dsimp only
  exact (hValue.consume ..).defineVariable hName.result

theorem funDeclaration (h : p.Twin h₀ h₀' p') :
    (Parser.funDeclaration inner p).Twin h₀ h₀' (Parser.funDeclaration inner p') := by
  have hName := h.variableName .functionName
  exact (hi.function hName.twin.markInitialized).defineVariable hName.result

theorem declaration (h : p.Twin h₀ h₀' p') :
    (Parser.declaration inner p).Twin h₀ h₀' (Parser.declaration inner p') := by
  have hOne := ite (h.check_iff .kwFun) (funDeclaration hi h.advance)
    (ite (h.check_iff .kwVar) (varDeclaration hi h.advance) (hi.statement h))
  exact ite (by rw [hOne.recovering]) hOne.synchronize hOne

theorem declarations {fuel fuel' : Nat} (hFuel : fuel = fuel') (h : p.Twin h₀ h₀' p') :
    (Parser.declarations inner fuel p).Twin h₀ h₀' (Parser.declarations inner fuel' p') := by
  subst hFuel
  induction fuel generalizing p p' with
  | zero => exact h
  | succ fuel ih => exact ite (by rw [h.check, h.check]) h (ih (declaration hi h))

theorem block (h : p.Twin h₀ h₀' p') :
    (Parser.block inner p).Twin h₀ h₀' (Parser.block inner p') :=
  (declarations hi h.total h).consume ..

theorem ifStatement (h : p.Twin h₀ h₀' p') :
    (Parser.ifStatement inner p).Twin h₀ h₀' (Parser.ifStatement inner p') := by
  have hCondition := (expression hi (h.consume .leftParen .parenAfterIf)).consume .rightParen
    .parenAfterCondition
  have hThen := hCondition.emitJump .jumpIfFalse
  have hElse := (hi.statement (hThen.twin.emit .pop)).emitJump .jump
  have hBranch := (hElse.twin.patchJump hThen.result).emit .pop
  exact (ite (hBranch.check_iff .kwElse) (hi.statement hBranch.advance) hBranch).patchJump hElse.result

theorem whileStatement (h : p.Twin h₀ h₀' p') :
    (Parser.whileStatement inner p).Twin h₀ h₀' (Parser.whileStatement inner p') := by
  have hCondition := (expression hi (h.consume .leftParen .parenAfterWhile)).consume .rightParen
    .parenAfterCondition
  have hExit := hCondition.emitJump .jumpIfFalse
  have hBody := (hi.statement (hExit.twin.emit .pop)).emitLoop h.here
  exact (hBody.patchJump hExit.result).emit _

theorem forInitializer (h : p.Twin h₀ h₀' p') :
    (Parser.forInitializer inner p).Twin h₀ h₀' (Parser.forInitializer inner p') :=
  ite (h.check_iff _) h.advance <|
    ite (h.check_iff _) (varDeclaration hi h.advance) (expressionStatement hi h)

theorem forCondition (h : p.Twin h₀ h₀' p') :
    Parser.TwinResult h₀ h₀' (Parser.forCondition inner p) (Parser.forCondition inner p') := by
  have hExit := ((expression hi h).consume .semicolon .semicolonAfterCondition).emitJump .jumpIfFalse
  exact .ite (h.check_iff _) ⟨rfl, h.advance⟩ ⟨congrArg some hExit.result, hExit.twin.emit _⟩

theorem forIncrement {start start' : Nat} (hStart : start = start') (h : p.Twin h₀ h₀' p') :
    Parser.TwinResult h₀ h₀' (Parser.forIncrement inner start p)
      (Parser.forIncrement inner start' p') := by
  have hJump := h.emitJump .jump
  have hClause := ((expression hi hJump.twin).emit .pop).consume .rightParen .parenAfterClauses
  exact .ite (h.check_iff _) ⟨hStart, h.advance⟩
    ⟨hJump.twin.here, (hClause.emitLoop hStart).patchJump hJump.result⟩

theorem forStatement (h : p.Twin h₀ h₀' p') :
    (Parser.forStatement inner p).Twin h₀ h₀' (Parser.forStatement inner p') := by
  have hStart := forInitializer hi (h.beginScope.consume .leftParen .parenAfterFor)
  have hCondition := forCondition hi hStart
  have hIncrement := forIncrement hi hStart.here hCondition.twin
  have hBody := (hi.statement hIncrement.twin).emitLoop hIncrement.result
  unfold Parser.forStatement
  dsimp only
  rw [hCondition.result]
  refine endScope ?_
  split
  · exact (hBody.patchJump rfl).emit _
  · exact hBody

theorem statement (h : p.Twin h₀ h₀' p') :
    (Parser.statement inner p).Twin h₀ h₀' (Parser.statement inner p') := by
  unfold Parser.statement
  rw [h.current]
  split
  · exact printStatement hi h.advance
  · exact forStatement hi h.advance
  · exact ifStatement hi h.advance
  · exact returnStatement hi h.advance
  · exact whileStatement hi h.advance
  · exact (block hi h.advance.beginScope).endScope
  · exact expressionStatement hi h

omit hi in
theorem parameters {fuel fuel' : Nat} (hFuel : fuel = fuel') (h : p.Twin h₀ h₀' p') :
    (Parser.parameters fuel p).Twin h₀ h₀' (Parser.parameters fuel' p') := by
  subst hFuel
  induction fuel generalizing p p' with
  | zero => exact h
  | succ fuel ih =>
    have hArity : ({ p with draft := { p.draft with arity := p.draft.arity + 1 } } : Parser).Twin h₀ h₀'
        { p' with draft := { p'.draft with arity := p'.draft.arity + 1 } } :=
      h.redraft { h.draft with arity := congrArg (· + 1) h.draft.arity }
    have hMany : maxArguments < p.draft.arity + 1 ↔ maxArguments < p'.draft.arity + 1 := by
      rw [h.draft.arity]
    have hLimit := ite hMany (hArity.errorAtCurrent .tooManyParameters) hArity
    have hName := hLimit.variableName .parameterName
    have hOne := hName.twin.defineVariable hName.result
    unfold Parser.parameters
    dsimp only
    exact ite (hOne.check_iff .comma) (ih hOne.advance) hOne

theorem function (h : p.Twin h₀ h₀' p') :
    (Parser.function inner p).Twin h₀ h₀' (Parser.function inner p') := by
  obtain ⟨hIntern, hs⟩ := h.intern p.previous.lexeme
  have hBegin := (hIntern.beginFunction hs).beginScope.consume .leftParen .parenAfterFunctionName
  have hParameters := ite (hBegin.check_iff .rightParen) hBegin (parameters hBegin.total hBegin)
  have hBody := (hParameters.consume .rightParen .parenAfterParameters).consume .leftBrace
    .braceBeforeBody
  rw [Parser.function_eq, Parser.function_eq, ← h.previous]
  exact (block hi hBody).closeFunction

theorem script {fuel fuel' : Nat} (hFuel : fuel = fuel') (h : p.Twin h₀ h₀' p') :
    (Parser.script inner fuel p).Twin h₀ h₀' (Parser.script inner fuel' p') := by
  subst hFuel
  induction fuel generalizing p p' with
  | zero => exact h
  | succ fuel ih => exact ite (h.check_iff _) h.advance (ih (declaration hi h))

end

end Parser.Twin

theorem Level.twin_ofDepth (h₀ h₀' : Heap) (depth : Nat) : (Level.ofDepth depth).Twin h₀ h₀' := by
  induction depth with
  | zero => exact ⟨.giveUp, fun _ => .giveUp, .giveUp⟩
  | succ depth hi => exact ⟨.statement hi, fun layer _ _ => .operand hi layer, .function hi⟩

/-! ## The result -/

theorem Parser.twin_finished (source : String) {h h' : Heap} (hw : h.WF) (hw' : h'.WF) :
    (Parser.finished source h).Twin h h' (Parser.finished source h') := by
  have hStart := Parser.Twin.start (Scanner.tokens source) hw hw'
  have hi := Level.twin_ofDepth h h' maxNesting
  unfold Parser.finished
  -- Without its name the stack of levels would be unfolded.
  generalize Level.ofDepth maxNesting = inner at hi ⊢
  exact Parser.Twin.script hi hStart.total hStart

/-- On two heaps the compiler finds the same problems, or makes functions that are the same but for
identities. -/
theorem compile_twin (source : String) {h h' : Heap} (hw : h.WF) (hw' : h'.WF) :
    (∃ problems, (compile source h).1 = .error problems ∧ (compile source h').1 = .error problems) ∨
    ∃ f f', (compile source h).1 = .ok f ∧ (compile source h').1 = .ok f' ∧
      f.Twin (compile source h).2 (compile source h').2 f' := by
  obtain ⟨hEnd, hDraft⟩ := (Parser.twin_finished source hw hw').endFunction
  obtain ⟨-, -, hf⟩ := Parser.Twin.allocFunction hEnd.left hEnd.right hDraft
  rw [compile_eq_conclude, compile_eq_conclude, Parser.conclude, Parser.conclude]
  dsimp only
  rw [hEnd.diagnostics]
  split
  · exact .inr ⟨_, _, rfl, rfl, hf⟩
  · exact .inl ⟨_, rfl, rfl⟩

/-- The names and constants of the functions that the compiler makes are on the heap. -/
theorem grown_compile (source : String) {h : Heap} (hw : h.WF) : h.Grown (compile source h).2 := by
  obtain ⟨hEnd, hDraft⟩ := (Parser.twin_finished source hw hw).endFunction
  rw [compile_eq_conclude, Parser.conclude]
  dsimp only
  split
  · exact (Parser.Twin.allocFunction hEnd.left hEnd.right hDraft).1
  · exact hEnd.left

/-- What the compiler gives does not depend on what is on the heap: on two heaps it finds the same
problems, or makes functions that are the same but for identities. Either way it only puts objects in
front of those on the heap: a text has the string object it had, and no function changes. -/
theorem compile_on_any_heap (source : String) {h h' : Heap} (hh : h.Reachable) (hh' : h'.Reachable) :
    ((∃ problems, (compile source h).1 = .error problems ∧ (compile source h').1 = .error problems) ∨
      ∃ f f', (compile source h).1 = .ok f ∧ (compile source h').1 = .ok f' ∧
        f.Twin (compile source h).2 (compile source h').2 f') ∧
    h.objects <:+ (compile source h).2.objects ∧
    (∀ text s, h.lookup? text = some s → (compile source h).2.lookup? text = some s) ∧
    ∀ f, .function f ∈ h.objects → ∀ o ∈ (compile source h).2.objects, o.id = f.id → o = .function f := by
  have hg := grown_compile source hh.wf
  refine ⟨compile_twin source hh.wf hh'.wf, hg.old.objects, ?_, ?_⟩
  · intro text s hs
    obtain ⟨hMem, hText⟩ := (Heap.lookup?_eq_some_iff hh.wf text s).1 hs
    exact (Heap.lookup?_eq_some_iff hg.wf text s).2 ⟨hg.old.mem hMem, hText⟩
  · intro f hf o ho hId
    exact hg.wf.eq_of_id ho (hg.old.mem hf) hId

/-- On a heap that has a native function and one of the names, the functions have other identities and
are the same in all else. -/
theorem compile_on_any_heap_used :
    let source := "fun f(a) { return g + a; } var g = \"g\"; print f(g);"
    let used := ((({} : Heap).allocNative "clock" 0 0).2.intern "g").2
    Heap.Reachable {} ∧ used.Reachable ∧ ∃ f f', (compile source {}).1 = .ok f ∧
      (compile source used).1 = .ok f' ∧ f.id ≠ f'.id ∧
      f.Twin (compile source {}).2 (compile source used).2 f' := by
  intro source used
  have hUsed : used.Reachable := .intern "g" (.allocNative "clock" 0 0 .new)
  have hId : (compile source {}).1.toOption.map Function.id = some 3 := by decide +kernel
  have hId' : (compile source used).1.toOption.map Function.id = some 4 := by decide +kernel
  refine ⟨.new, hUsed, ?_⟩
  obtain ⟨⟨problems, hError, -⟩ | ⟨f, f', hf, hf', hTwin⟩, -⟩ := compile_on_any_heap source .new hUsed
  · rw [hError] at hId
    cases hId
  · refine ⟨f, f', hf, hf', fun hSame => ?_, hTwin⟩
    rw [hf] at hId
    rw [hf'] at hId'
    cases (Option.some.inj hId).symm.trans (hSame.trans (Option.some.inj hId'))

end Lox
