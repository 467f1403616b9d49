import Lox.Proofs.Compiler.Phrases
import Lox.Proofs.Heap
import Lox.Proofs.Syntax.Legal

/-!
# What the compiler has made so far

A `View` says what the compiler has written in terms of trees: instructions instead of bytes, and the
constants that values stand for. `Shows w v p`: the state `p` of the compiler looks like the view `v`,
where the world `w` holds the objects behind the constants. A step of the compiler gives the view that
it should where a condition holds, and reports a problem where it does not (`Gives`).
-/

set_option autoImplicit false

namespace Lox

open Lox.Parser (maxArguments maxConstants maxDistance maxLocals)

/-! ## Compiled functions -/

/-- The heap, and the functions made on it in this compilation, newest first: the place of each in the
source, and its identity. -/
structure World where
  heap : Heap
  made : List (Nat × Nat)

namespace World

/-- `w'` is `w` with more objects and more functions. -/
structure Extends (w w' : World) : Prop where
  heap : w.heap.Extends w'.heap
  made : w.made <:+ w'.made

theorem Extends.refl (w : World) : w.Extends w := ⟨.refl _, List.suffix_refl _⟩

theorem Extends.trans {w₁ w₂ w₃ : World} (h : w₁.Extends w₂) (h' : w₂.Extends w₃) :
    w₁.Extends w₃ := ⟨h.heap.trans h'.heap, h.made.trans h'.made⟩

/-- The heap is well formed, and the functions were made in the order of the source, all of them with
at least so many tokens left. -/
structure WF (w : World) (left : Nat) : Prop where
  heap : w.heap.WF
  order : w.made.Pairwise fun a b => a.1 < b.1 ∧ b.2 < a.2
  places : ∀ m ∈ w.made, left ≤ m.1
  ids : ∀ m ∈ w.made, m.2 < w.heap.nextId

/-- No two functions have one place or one identity. -/
def Distinct (w : World) : Prop := ∀ a ∈ w.made, ∀ b ∈ w.made, a.1 = b.1 ↔ a.2 = b.2

theorem WF.distinct {w : World} {left : Nat} (hw : w.WF left) : w.Distinct := by
  intro a ha b hb
  have hOrder : a = b ∨ (a.1 < b.1 ∧ b.2 < a.2) ∨ b.1 < a.1 ∧ a.2 < b.2 := by
    by_cases hEq : a = b
    · exact .inl hEq
    · have hSym : w.made.Pairwise fun a b => (a.1 < b.1 ∧ b.2 < a.2) ∨ b.1 < a.1 ∧ a.2 < b.2 :=
        hw.order.imp .inl
      have : Std.Symm fun a b : Nat × Nat => (a.1 < b.1 ∧ b.2 < a.2) ∨ b.1 < a.1 ∧ a.2 < b.2 :=
        ⟨fun _ _ => Or.symm⟩
      exact .inr (hSym.forall ha hb hEq)
  rcases hOrder with rfl | hOrder
  · simp
  · omega

mutual

/-- A value is the constant that a tree asks for. -/
inductive Represents (w : World) : Value → Const → Prop
  | number (x : Float) : Represents w (.number x) (.number x)
  | string {s : Str} : .string s ∈ w.heap.objects →
      Represents w (.object (.string s)) (.string s.text)
  | function {f : Fn} {r : Routine} : Compiled w f r →
      Represents w (.object (.function f)) (.function r)

/-- A function has the code of a routine, and its name is on the heap. -/
inductive Compiled (w : World) : Fn → Routine → Prop
  | mk {f : Fn} {r : Routine} : .function f ∈ w.heap.objects → (r.place, f.id) ∈ w.made →
      f.arity = r.parameters.length → f.name.map Str.text = r.name →
      f.chunk.code.toList = r.code.bytes → f.chunk.lines.toList = r.code.lines →
      List.Forall₂ (Represents w) f.chunk.constants.toList r.pool →
      (∀ s, f.name = some s → .string s ∈ w.heap.objects) → Compiled w f r

end

mutual

theorem Represents.mono {w w' : World} (he : w.Extends w') {v : Value} {c : Const} :
    w.Represents v c → w'.Represents v c
  | .number x => .number x
  | .string h => .string (he.heap.mem h)
  | .function h => .function (h.mono he)

theorem Compiled.mono {w w' : World} (he : w.Extends w') {f : Fn} {r : Routine} :
    w.Compiled f r → w'.Compiled f r
  | .mk hObject hMade hArity hName hCode hLines hConstants hNamed =>
    .mk (he.heap.mem hObject) (he.made.subset hMade) hArity hName hCode hLines
      (allRepresent_mono he hConstants) fun s hs => he.heap.mem (hNamed s hs)

theorem allRepresent_mono {w w' : World} (he : w.Extends w') {vs : List Value} {k : List Const} :
    List.Forall₂ w.Represents vs k → List.Forall₂ w'.Represents vs k
  | .nil => .nil
  | .cons h hs => .cons (h.mono he) (allRepresent_mono he hs)

end

/-- Among represented constants, a name is what has the identity of its string object. -/
theorem Represents.id_eq_iff {w : World} (hw : w.heap.WF) {o : Obj} {c : Const} {s : Str}
    (hr : w.Represents (.object o) c) (hs : .string s ∈ w.heap.objects) :
    o.id = s.id ↔ Const.isName s.text c = true := by
  cases hr with
  | string h =>
    simp only [Const.isName, decide_eq_true_iff]
    exact hw.id_eq_iff h hs
  | function h =>
    obtain ⟨hMem⟩ := h
    simp only [Const.isName, Bool.false_eq_true, iff_false]
    intro hId
    cases hw.eq_of_id hMem hs hId

end World

/-! ## Scopes -/

/-- The locals of a scope, newest first, are those of the innermost scopes first. -/
structure Scope.WF (sc : Scope) : Prop where
  sorted : sc.locals.Pairwise fun a b => b.depth ≤ a.depth
  bound : ∀ l ∈ sc.locals, l.depth ≤ sc.depth
  slots : sc.locals.length ≤ maxLocals

/-! ## Views -/

/-- Plain tokens and an end token behind them. -/
inductive Token.Closed : List Token → Prop
  | last {t : Token} : t.kind = .eof → Closed [t]
  | cons {t : Token} {ts : List Token} : t.Plain → Closed ts → Closed (t :: ts)

theorem Token.Closed.of_uses {ts rest : List Token} (hc : Token.Closed ts)
    (hu : Token.Uses ts rest) : Token.Closed rest := by
  have hStep {t : Token} {ts : List Token} (hc : Token.Closed (t :: ts)) (ht : t.Plain) :
      Token.Closed ts := by
    cases hc with
    | last h => rw [Plain, h] at ht; cases ht
    | cons _ h => exact h
  induction hu with
  | single h =>
    obtain ⟨t, ht, rfl⟩ := h
    exact hStep hc ht
  | tail _ h ih =>
    obtain ⟨t, ht, rfl⟩ := h
    exact hStep ih ht

/-- What the compiler has made so far of the current function, and what it still has to read. -/
@[ext]
structure View where
  toks : List Token
  /-- The token read last. -/
  last : Token
  total : Nat
  scope : Scope
  code : Code
  pool : List Const
  name : Option Str
  arity : Nat
  enclosing : List Draft

namespace View

/-- Behind the token `t`. -/
@[simps]
def read (v : View) (ts : List Token) (t : Token) : View := { v with toks := ts, last := t }

/-- With more code. -/
@[simps]
def emit (v : View) (c : Code) : View := { v with code := v.code ++ c }

/-- With other code. -/
@[simps]
def recode (v : View) (c : Code) : View := { v with code := c }

/-- With other constants. -/
@[simps]
def repool (v : View) (k : List Const) : View := { v with pool := k }

/-- In another scope. -/
@[simps]
def rescope (v : View) (sc : Scope) : View := { v with scope := sc }

/-- With another number of parameters. -/
@[simps]
def takes (v : View) (n : Nat) : View := { v with arity := n }

/-- At the start of the code of a function. -/
@[simps]
def inside (v : View) (name : Str) (outer : Draft) : View :=
  { v with
    scope := .function []
    code := []
    pool := []
    name := some name
    arity := 0
    enclosing := outer :: v.enclosing }

theorem emit_nil (v : View) : v.emit [] = v := by simp [emit]

theorem emit_emit (v : View) (c c' : Code) : (v.emit c).emit c' = v.emit (c ++ c') := by
  simp [emit]

end View

/-- The compiler has made what a view says, without a problem. -/
structure Shows (w : World) (v : View) (p : Parser) : Prop where
  toks : p.toks = v.toks
  last : p.previous = v.last
  total : p.total = v.total
  clean : p.Clean
  recovering : p.recovering = false
  tooDeep : p.tooDeep = false
  heap : p.heap = w.heap
  locals : p.draft.locals = v.scope.locals
  depth : p.draft.scopeDepth = v.scope.depth
  code : p.draft.chunk.code.toList = v.code.bytes
  lines : p.draft.chunk.lines.toList = v.code.lines
  constants : List.Forall₂ w.Represents p.draft.chunk.constants.toList v.pool
  name : p.draft.name = v.name
  named : ∀ s, v.name = some s → .string s ∈ w.heap.objects
  arity : p.draft.arity = v.arity
  enclosing : p.enclosing = v.enclosing
  closed : Token.Closed v.toks
  fuel : v.toks.length ≤ v.total
  world : w.WF v.toks.length
  scope : v.scope.WF
  fits : v.pool.length ≤ maxConstants

/-- Where `ok` holds, the compiler makes what a view says; where it does not, it reports a problem. -/
def Gives (ok : Prop) (w : World) (v : View) (p : Parser) : Prop :=
  ok ∧ (∃ w', w.Extends w' ∧ Shows w' v p) ∨ ¬ ok ∧ ¬ p.Clean

namespace Gives

variable {ok ok' : Prop} {w : World} {v v' : View} {p p' : Parser}

theorem congr (hp : Gives ok w v p) (h : ok ↔ ok') : Gives ok' w v p := by rwa [← h]

theorem view (hp : Gives ok w v p) (h : v = v') : Gives ok w v' p := h ▸ hp

theorem shows (hp : Gives ok w v p) (h : ok) : ∃ w', w.Extends w' ∧ Shows w' v p := by
  rcases hp with ⟨-, hs⟩ | ⟨hok, -⟩
  · exact hs
  · exact absurd h hok

theorem of_clean (hp : Gives ok w v p) (hc : p.Clean) :
    ok ∧ ∃ w', w.Extends w' ∧ Shows w' v p := by
  rcases hp with h | ⟨-, hNot⟩
  · exact h
  · exact absurd hc hNot

theorem of_shows (h : Shows w v p) : Gives True w v p := .inl ⟨trivial, w, .refl w, h⟩

/-- One step after the other. -/
theorem bind (hp : Gives ok w v p) (hLeads : p.Leads p')
    (h : ∀ w', w.Extends w' → Shows w' v p → Gives ok' w' v' p') : Gives (ok ∧ ok') w v' p' := by
  rcases hp with ⟨hok, w', he, hs⟩ | ⟨hok, hc⟩
  · rcases h w' he hs with ⟨hok', w'', he', hs'⟩ | ⟨hok', hc⟩
    · exact .inl ⟨⟨hok, hok'⟩, w'', he.trans he', hs'⟩
    · exact .inr ⟨fun h => hok' h.2, hc⟩
  · exact .inr ⟨fun h => hok h.1, fun h => hc (hLeads.clean h)⟩

theorem of_extends {w' : World} (he : w.Extends w') (hp : Gives ok w' v p) : Gives ok w v p := by
  rcases hp with ⟨hok, w'', he', hs⟩ | hp
  · exact .inl ⟨hok, w'', he.trans he', hs⟩
  · exact .inr hp

/-- A step that never fails. -/
theorem next (hp : Gives ok w v p) (hLeads : p.Leads p')
    (h : ∀ w', Shows w' v p → Shows w' v' p') : Gives ok w v' p' :=
  (hp.bind hLeads fun w' _ hs => of_shows (h w' hs)).congr (and_iff_left trivial)

/-- A step that succeeds. -/
theorem of_ok {w' : World} (hok : ok) (he : w.Extends w') (hs : Shows w' v p) : Gives ok w v p :=
  .inl ⟨hok, w', he, hs⟩

/-- A step that fails. -/
theorem of_not (hok : ¬ ok) (hc : ¬ p.Clean) : Gives ok w v p := .inr ⟨hok, hc⟩

end Gives

namespace Shows

variable {w : World} {v : View} {p : Parser}

theorem sane (h : Shows w v p) : p.Sane := fun _ => ⟨h.recovering, h.tooDeep⟩

theorem not_clean_error (h : Shows w v p) (problem : Problem) : ¬ (p.error problem).Clean :=
  Parser.not_clean_report h.sane _ _

theorem gives (h : Shows w v p) : Gives True w v p := .of_shows h

theorem view (h : Shows w v p) {v' : View} (hv : v = v') : Shows w v' p := hv ▸ h

/-! ## Tokens -/

theorem shift_of_plain {t : Token} (ts : List Token) (p : Parser)
    (ht : ∀ cause, t.kind ≠ .error cause) :
    Parser.shift (t :: ts) p = { p with current := t, rest := ts } := by
  unfold Parser.shift
  split
  · rename_i hKind
    exact absurd hKind (ht _)
  · rfl

theorem advance (h : Shows w v p) {t : Token} {ts : List Token} (ht : v.toks = t :: ts)
    (hPlain : t.Plain) : Shows w (v.read ts t) p.advance := by
  have hClosed : Token.Closed ts := (ht ▸ h.closed).of_uses (.one hPlain)
  obtain ⟨t', ts', rfl, hKind⟩ : ∃ t' ts', ts = t' :: ts' ∧ ∀ cause, t'.kind ≠ .error cause := by
    cases hClosed with
    | last h => exact ⟨_, _, rfl, by simp [h]⟩
    | cons hp _ =>
      refine ⟨_, _, rfl, fun cause hk => ?_⟩
      rw [Token.Plain, hk] at hp
      cases hp
  have hToks : p.current :: p.rest = t :: t' :: ts' := h.toks.trans ht
  obtain ⟨hCurrent, hRest⟩ := List.cons.inj hToks
  have hAdvance : p.advance = { p with previous := t, current := t', rest := ts' } := by
    have hShift := shift_of_plain ts' { p with previous := p.current } hKind
    rw [← hCurrent]
    exact (congrArg (Parser.shift · { p with previous := p.current }) hRest).trans hShift
  have hLength : (t' :: ts').length ≤ v.toks.length := by
    rw [ht, List.length_cons (a := t)]
    exact Nat.le_succ _
  rw [hAdvance]
  exact { h with
    toks := rfl
    last := rfl
    closed := hClosed
    fuel := hLength.trans h.fuel
    world := { h.world with places := fun m hm => hLength.trans (h.world.places m hm) } }

theorem check (h : Shows w v p) {t : Token} {ts : List Token} (ht : v.toks = t :: ts)
    (kind : Token.Kind) : p.check kind = decide (t.kind = kind) := by
  have hToks : p.current :: p.rest = t :: ts := h.toks.trans ht
  rw [Parser.check, (List.cons.inj hToks).1]

theorem consume (h : Shows w v p) (what : Expected) {t : Token} {ts : List Token}
    {kind : Token.Kind} (ht : v.toks = t :: ts) (hKind : t.kind = kind) (hPlain : kind.plain = true) :
    Shows w (v.read ts t) (p.consume kind what) := by
  rw [Parser.consume, h.check ht, decide_eq_true hKind, if_pos rfl]
  exact h.advance ht (.of_kind hKind hPlain)

/-! ## Emission -/

theorem chunk_write (bytes : List UInt8) (line : Nat) (c : Chunk Value) :
    (bytes.foldl (fun c byte => c.write byte line) c).code.toList = c.code.toList ++ bytes ∧
      (bytes.foldl (fun c byte => c.write byte line) c).lines.toList =
        c.lines.toList ++ List.replicate bytes.length line ∧
      (bytes.foldl (fun c byte => c.write byte line) c).constants = c.constants := by
  induction bytes generalizing c with
  | nil => simp
  | cons b bytes ih =>
    obtain ⟨h₁, h₂, h₃⟩ := ih (c.write b line)
    rw [List.foldl_cons, h₁, h₂, h₃]
    simp [Chunk.write, List.replicate_succ]

theorem emitWith (h : Shows w v p) (op : Opcode) (n : Nat) :
    Shows w (v.emit (.one op n v.last.line)) (p.emitWith op n) := by
  obtain ⟨hCode, hLines, hConstants⟩ :=
    chunk_write (Instruction.encode ⟨op, n⟩) p.previous.line p.draft.chunk
  exact { h with
    code := by
      rw [View.emit_code, Code.bytes_append, Code.bytes_one, ← h.code]
      exact hCode
    lines := by
      rw [View.emit_code, Code.lines_append, Code.lines_one, ← h.lines, ← h.last]
      rw [Instruction.length_encode] at hLines
      exact hLines
    constants := by
      have hOld := h.constants
      rw [← hConstants] at hOld
      exact hOld }

theorem emit (h : Shows w v p) (op : Opcode) :
    Shows w (v.emit (.op op v.last.line)) (p.emit op) := h.emitWith op 0

theorem emitReturn (h : Shows w v p) :
    Shows w (v.emit (.op .pushNil v.last.line ++ .op .ret v.last.line)) p.emitReturn := by
  have h' := (h.emit .pushNil).emit .ret
  rw [View.emit_emit] at h'
  exact h'

theorem here (h : Shows w v p) : p.here = v.code.size := by
  rw [← Code.length_bytes, ← h.code, Array.length_toList]
  rfl

/-! ## Constants -/

theorem length_constants (h : Shows w v p) : p.draft.chunk.constants.size = v.pool.length := by
  rw [← Array.length_toList]
  exact h.constants.length_eq

theorem makeConstant (h : Shows w v p) {value : Value} {c : Const} (hc : w.Represents value c) :
    Gives (v.pool.length + 1 ≤ maxConstants) w (v.repool (v.pool ++ [c]))
      (p.makeConstant value).2 := by
  unfold Parser.makeConstant
  rw [h.length_constants]
  by_cases hRoom : v.pool.length < maxConstants
  · rw [if_pos hRoom]
    refine .inl ⟨hRoom, w, .refl w, { h with constants := ?_, fits := ?_ }⟩
    · simp only [Chunk.addConstant, Array.toList_push]
      exact List.rel_append h.constants (.cons hc .nil)
    · simpa using hRoom
  · rw [if_neg hRoom]
    exact .of_not hRoom (h.not_clean_error _)

theorem makeConstant_index (h : Shows w v p) (value : Value)
    (hRoom : v.pool.length + 1 ≤ maxConstants) : (p.makeConstant value).1 = v.pool.length := by
  have hLess : v.pool.length < maxConstants := hRoom
  simp only [Parser.makeConstant, h.length_constants, if_pos hLess]

theorem emitConstant (h : Shows w v p) {value : Value} {c : Const} (hc : w.Represents value c) :
    Gives (v.pool.length + 1 ≤ maxConstants) w
      ((v.repool (v.pool ++ [c])).emit (.one .constant v.pool.length v.last.line))
      (p.emitConstant value) := by
  rcases h.makeConstant hc with ⟨hRoom, w', he, hs⟩ | ⟨hRoom, hClean⟩
  · have hIndex := h.makeConstant_index value hRoom
    have hs' := hs.emitWith .constant (p.makeConstant value).1
    rw [hIndex] at hs'
    refine .inl ⟨hRoom, w', he, ?_⟩
    unfold Parser.emitConstant
    dsimp only
    rw [hIndex]
    exact hs'
  · exact .inr ⟨hRoom, fun h => hClean ((Parser.writes_emitWith ..).clean h)⟩

/-- The world may grow. -/
theorem extend (h : Shows w v p) {w' : World} (he : w.Extends w') (hw : w'.WF v.toks.length) :
    Shows w' v { p with heap := w'.heap } :=
  { h with
    heap := rfl
    constants := World.allRepresent_mono he h.constants
    named := fun s hs => he.heap.mem (h.named s hs)
    world := hw }

theorem intern (h : Shows w v p) (text : String) :
    ∃ w', w.Extends w' ∧ Shows w' v (p.intern text).2 ∧
      .string (p.intern text).1 ∈ w'.heap.objects ∧ (p.intern text).1.text = text := by
  obtain ⟨hWF, hExtends, hMem, hText⟩ := Heap.intern_spec h.world.heap text
  have hIntern : p.intern text =
      ((w.heap.intern text).1, { p with heap := (w.heap.intern text).2 }) := by
    rw [← h.heap]
    rfl
  have he : w.Extends ⟨(w.heap.intern text).2, w.made⟩ := ⟨hExtends, List.suffix_refl _⟩
  rw [hIntern]
  exact ⟨_, he, h.extend he ⟨hWF, h.world.order, h.world.places, fun m hm =>
    (h.world.ids m hm).trans_le hExtends.nextId⟩, hMem, hText⟩

/-- Whether a value is the object with an identity. -/
def hasId (id : Nat) : Value → Bool
  | .object o => o.id = id
  | _ => false

theorem nameConstant_eq (p : Parser) (name : String) : p.nameConstant name =
    match (p.intern name).2.draft.chunk.constants.findIdx? (hasId (p.intern name).1.id) with
    | some index => (index, (p.intern name).2)
    | none => (p.intern name).2.makeConstant (.object (.string (p.intern name).1)) := rfl

/-- Looking a name up among the constants by its identity finds it by its text. -/
theorem findIdx?_hasId (h : Shows w v p) {s : Str} (hs : .string s ∈ w.heap.objects) :
    p.draft.chunk.constants.findIdx? (hasId s.id) =
      if v.pool.any (Const.isName s.text) then some (Const.nameIndex v.pool s.text) else none := by
  have hConstants := h.constants
  generalize p.draft.chunk.constants = constants, v.pool = k at hConstants ⊢
  obtain ⟨values⟩ := constants
  rw [List.findIdx?_toArray]
  dsimp only at hConstants
  induction hConstants with
  | nil => rfl
  | @cons value c values k hr _ ih =>
    have hIs : hasId s.id value = Const.isName s.text c := by
      cases value with
      | object o => exact Bool.eq_iff_iff.2 (by simpa [hasId] using hr.id_eq_iff h.world.heap hs)
      | number x => cases hr; rfl
      | nil => cases hr
      | bool b => cases hr
    rw [List.findIdx?_cons, hIs, ih, Const.nameIndex, Const.nameIndex, List.findIdx_cons,
      List.any_cons]
    cases Const.isName s.text c with
    | true => rfl
    | false =>
      rw [Bool.false_or, if_neg Bool.false_ne_true]
      cases k.any (Const.isName s.text) <;> rfl

theorem nameConstant (h : Shows w v p) (name : String) :
    Gives ((Const.withName v.pool name).length ≤ maxConstants) w
      (v.repool (Const.withName v.pool name)) (p.nameConstant name).2 ∧
    ((Const.withName v.pool name).length ≤ maxConstants →
      (p.nameConstant name).1 = Const.nameIndex v.pool name) := by
  obtain ⟨w', he, hs, hMem, hText⟩ := h.intern name
  rw [nameConstant_eq, hs.findIdx?_hasId hMem, hText, Const.withName]
  by_cases hAny : v.pool.any (Const.isName name) = true
  · simp only [if_pos hAny]
    exact ⟨.inl ⟨h.fits, w', he, hs⟩, fun _ => trivial⟩
  · have hc : w'.Represents (.object (.string (p.intern name).1)) (.string name) := by
      have hOwn := World.Represents.string hMem
      rwa [hText] at hOwn
    have hIndex : Const.nameIndex v.pool name = v.pool.length :=
      List.findIdx_eq_length_of_false (by simpa using hAny)
    simp only [if_neg hAny, List.length_append, List.length_singleton, hIndex]
    exact ⟨.of_extends he (hs.makeConstant hc), hs.makeConstant_index _⟩

/-! ## Jumps -/

theorem emitJump (h : Shows w v p) (op : Opcode) (hOp : op.operandSize = 2) :
    Shows w (v.emit (.one op maxDistance v.last.line)) (p.emitJump op).2 ∧
      (p.emitJump op).1 = v.code.size + 1 := by
  have hs := h.emitWith op maxDistance
  refine ⟨hs, ?_⟩
  change (p.emitWith op maxDistance).here - 2 = _
  rw [hs.here, View.emit_code, Code.size_append, Code.size_one, hOp]
  omega

theorem set_two {α : Type} (a b : List α) (x y z y' z' : α) :
    ((a ++ x :: y :: z :: b).set (a.length + 1) y').set (a.length + 1 + 1) z' =
      a ++ x :: y' :: z' :: b := by
  induction a with
  | nil => rfl
  | cons _ a ih => simp

theorem bytes_jump {op : Opcode} (hOp : op.operandSize = 2) (n line : Nat) :
    (Code.one op n line).bytes = [op.toByte, (n / 256).toUInt8, n.toUInt8] := by
  rw [Code.bytes_one, Instruction.encode]
  simp only [hOp]

theorem patchJump (h : Shows w v p) (c : Code) (op : Opcode) (line : Nat) (c' : Code) {offset : Nat}
    (hCode : v.code = c ++ .one op maxDistance line ++ c') (hOp : op.operandSize = 2)
    (hOffset : offset = c.size + 1) :
    Gives (c'.size ≤ maxDistance) w (v.recode (c ++ .one op c'.size line ++ c'))
      (p.patchJump offset) := by
  have hDistance : p.here - offset - 2 = c'.size := by
    rw [h.here, hCode, hOffset]
    simp only [Code.size_append, Code.size_one, hOp]
    omega
  unfold Parser.patchJump
  rw [hDistance]
  by_cases hFits : c'.size ≤ maxDistance
  · rw [if_pos hFits]
    refine .inl ⟨hFits, w, .refl w, { h with code := ?_, lines := ?_ }⟩
    · have hBytes := h.code
      simp only [hCode, Code.bytes_append, bytes_jump hOp, List.append_assoc, List.cons_append,
        List.nil_append] at hBytes
      simp only [Draft.patch, Array.toList_setIfInBounds, hBytes, hOffset, View.recode_code,
        Code.bytes_append,
        bytes_jump hOp, List.append_assoc, List.cons_append, List.nil_append,
        ← Code.length_bytes c]
      exact set_two ..
    · have hLines := h.lines
      simp only [hCode, Code.lines_append, Code.lines_one] at hLines
      simp only [Draft.patch, hLines, View.recode_code, Code.lines_append, Code.lines_one]
  · rw [if_neg hFits]
    exact .of_not hFits (h.not_clean_error _)

theorem emitLoop (h : Shows w v p) (c c' : Code) {start : Nat} (hCode : v.code = c ++ c')
    (hStart : start = c.size) :
    Gives (c'.size + 3 ≤ maxDistance) w
      (v.emit (.one .loop (c'.size + 3) v.last.line)) (p.emitLoop start) := by
  have hDistance : p.here + 3 - start = c'.size + 3 := by
    rw [h.here, hCode, hStart, Code.size_append]
    omega
  unfold Parser.emitLoop
  rw [hDistance]
  by_cases hFits : c'.size + 3 ≤ maxDistance
  · rw [if_pos hFits]
    exact .inl ⟨hFits, w, .refl w, h.emitWith .loop _⟩
  · rw [if_neg hFits]
    refine .of_not hFits (Parser.not_clean_report ?_ _ _)
    exact (Parser.writes_writeBytes p _).sane h.sane

/-! ## Scopes -/

theorem beginScope (h : Shows w v p) : Shows w (v.rescope v.scope.enter) p.beginScope :=
  { h with
    depth := congrArg (· + 1) h.depth
    scope := ⟨h.scope.sorted, fun l hl => Nat.le_succ_of_le (h.scope.bound l hl), h.scope.slots⟩ }

/-- Locals that are deeper than the scope around are dropped. -/
theorem dropLocals {sc : Scope} (hsc : sc.WF) :
    ∀ {inner : List Local} {v : View} {p : Parser}, Shows w v p → (∀ l ∈ inner, sc.depth < l.depth) →
      Shows w ((v.rescope sc).emit (Stmt.drops inner.length v.last.line))
        (Parser.dropLocals (inner ++ sc.locals)
          { p with draft := { p.draft with scopeDepth := sc.depth } })
  | [], v, p, h, _ => by
    have hShows : Shows w (v.rescope sc) { p with
        draft := { p.draft with scopeDepth := sc.depth, locals := sc.locals } } :=
      { h with locals := rfl, depth := rfl, scope := hsc }
    have hView : (v.rescope sc).emit (Stmt.drops ([] : List Local).length v.last.line) =
        v.rescope sc := View.emit_nil _
    rw [hView, List.nil_append]
    match hLocals : sc.locals with
    | [] => rw [hLocals] at hShows; exact hShows
    | l :: older =>
      rw [hLocals] at hShows
      have hBound : l.depth ≤ sc.depth := hsc.bound l (hLocals ▸ List.mem_cons_self ..)
      unfold Parser.dropLocals
      rw [if_neg (Nat.not_lt.2 hBound)]
      exact hShows
  | l :: inner, v, p, h, hInner => by
    have hRest := dropLocals hsc (h.emit .pop) fun l hl => hInner l (List.mem_cons_of_mem _ hl)
    rw [List.cons_append]
    unfold Parser.dropLocals
    rw [if_pos (hInner l (List.mem_cons_self ..))]
    have hView : (v.rescope sc).emit (Stmt.drops (l :: inner).length v.last.line) =
        ((v.rescope sc).emit (.op .pop v.last.line)).emit (Stmt.drops inner.length v.last.line) :=
      (View.emit_emit _ (.op .pop v.last.line) (Stmt.drops inner.length v.last.line)).symm
    rw [hView]
    exact hRest

theorem endScope (h : Shows w v p) {sc : Scope} {inner : List Local} (hsc : sc.WF)
    (hLocals : v.scope.locals = inner ++ sc.locals) (hDepth : v.scope.depth = sc.depth + 1)
    (hInner : ∀ l ∈ inner, sc.depth < l.depth) :
    Shows w ((v.rescope sc).emit (Stmt.drops inner.length v.last.line)) p.endScope := by
  have hs := dropLocals hsc h hInner
  rw [← hLocals, ← h.locals] at hs
  have hOuter : sc.depth = p.draft.scopeDepth - 1 := by rw [h.depth, hDepth]; rfl
  rw [hOuter] at hs
  exact hs

/-! ## Variables -/

/-- A name is declared in the innermost scope when one of its locals has it. -/
theorem declaredHere_iff (h : Shows w v p) (name : String) :
    p.draft.declaredHere name = true ↔
      ∃ l ∈ v.scope.locals, l.depth = v.scope.depth ∧ l.name = name := by
  unfold Draft.declaredHere
  rw [h.locals, h.depth]
  have hSorted := h.scope.sorted
  have hBound := h.scope.bound
  generalize v.scope.locals = ls at hSorted hBound ⊢
  induction ls with
  | nil => simp
  | cons l ls ih =>
    obtain ⟨hHead, hTail⟩ := List.pairwise_cons.1 hSorted
    have hl := hBound l (List.mem_cons_self ..)
    have hRest := ih hTail fun l hl => hBound l (List.mem_cons_of_mem _ hl)
    by_cases hDepth : v.scope.depth ≤ l.depth
    · rw [List.takeWhile_cons_of_pos (by simpa using hDepth), List.any_cons, Bool.or_eq_true,
        decide_eq_true_iff, List.exists_mem_cons_iff]
      exact or_congr ⟨fun h => ⟨by omega, h⟩, fun h => h.2⟩ hRest
    · rw [List.takeWhile_cons_of_neg (by simpa using hDepth)]
      simp only [List.any_nil, Bool.false_eq_true, false_iff]
      rintro ⟨l', hMem, hEq, -⟩
      rcases List.mem_cons.1 hMem with rfl | hMem
      · omega
      · have := hHead l' hMem
        omega

theorem declareVariable (h : Shows w v p) :
    Gives (v.scope.MayDeclare v.last.lexeme) w
      (v.rescope (v.scope.declaring v.last.lexeme)) p.declareVariable := by
  unfold Parser.declareVariable Scope.MayDeclare Scope.declaring
  rw [h.depth, h.last]
  by_cases hDepth : v.scope.depth = 0
  · simp only [if_pos hDepth]
    exact .inl ⟨.inl hDepth, w, .refl w, h⟩
  · simp only [if_neg hDepth]
    by_cases hHere : p.draft.declaredHere v.last.lexeme = true
    · rw [if_pos hHere]
      obtain ⟨l, hMem, hl, hName⟩ := (h.declaredHere_iff _).1 hHere
      refine .of_not ?_ fun hc => h.not_clean_error _ ((Parser.writes_addLocal ..).clean hc)
      rintro (h0 | ⟨hNew, -⟩)
      · exact hDepth h0
      · exact hNew l hMem hl hName
    · rw [if_neg hHere]
      have hNew : ∀ l ∈ v.scope.locals, l.depth = v.scope.depth → l.name ≠ v.last.lexeme :=
        fun l hl hd hn => hHere ((h.declaredHere_iff _).2 ⟨l, hl, hd, hn⟩)
      unfold Parser.addLocal
      rw [h.locals, h.depth]
      by_cases hRoom : v.scope.locals.length = maxLocals
      · rw [if_pos hRoom]
        refine .of_not ?_ (h.not_clean_error _)
        rintro (h0 | ⟨-, hLess⟩)
        · exact hDepth h0
        · omega
      · rw [if_neg hRoom]
        have hLess : v.scope.locals.length < maxLocals := lt_of_le_of_ne h.scope.slots hRoom
        refine .inl ⟨.inr ⟨hNew, hLess⟩, w, .refl w, { h with
          locals := rfl
          scope := ⟨List.pairwise_cons.2 ⟨h.scope.bound, h.scope.sorted⟩, ?_, hLess⟩ }⟩
        intro l hl
        rcases List.mem_cons.1 hl with rfl | hl
        · exact Nat.le_refl _
        · exact h.scope.bound l hl

theorem variableName (h : Shows w v p) (what : Expected) {t : Token} {ts : List Token}
    (ht : v.toks = t :: ts) (hKind : t.kind = .identifier) :
    Gives (v.scope.MayDeclare t.lexeme ∧ (v.scope.pool v.pool t.lexeme).length ≤ maxConstants) w
      (((v.read ts t).rescope (v.scope.declaring t.lexeme)).repool (v.scope.pool v.pool t.lexeme))
      (p.variableName what).2 := by
  have hRead : Shows w (v.read ts t) (p.consume .identifier what) :=
    h.consume what ht hKind rfl
  have hDeclare := hRead.declareVariable
  unfold Parser.variableName
  dsimp only
  generalize (p.consume .identifier what).declareVariable = q at hDeclare ⊢
  refine hDeclare.bind ?_ fun w' he hs => ?_
  · split
    · exact (Parser.writes_nameConstant ..).leads
    · exact .refl q
  · have hPrevious : q.previous = t := hs.last
    have hDepth : q.draft.scopeDepth = v.scope.depth :=
      hs.depth.trans (v.scope.depth_declaring t.lexeme)
    rw [hDepth, hPrevious, Scope.pool]
    split
    · exact (hs.nameConstant t.lexeme).1
    · exact hs.gives.congr (iff_of_true trivial h.fits)

theorem variableName_index (h : Shows w v p) (what : Expected) {t : Token} {ts : List Token}
    (ht : v.toks = t :: ts) (hKind : t.kind = .identifier) (hDepth : v.scope.depth = 0)
    (hFits : (v.scope.pool v.pool t.lexeme).length ≤ maxConstants) :
    (p.variableName what).1 = Const.nameIndex v.pool t.lexeme := by
  have hRead : Shows w (v.read ts t) (p.consume .identifier what) :=
    h.consume what ht hKind rfl
  have hDeclare : (p.consume .identifier what).declareVariable = p.consume .identifier what := by
    rw [Parser.declareVariable, if_pos (hRead.depth.trans hDepth)]
  rw [Scope.pool, if_pos hDepth] at hFits
  unfold Parser.variableName
  dsimp only
  rw [hDeclare, if_pos (hRead.depth.trans hDepth), hRead.last]
  exact (hRead.nameConstant t.lexeme).2 hFits

/-- A declared variable counts as initialized. -/
theorem markInitialized (h : Shows w v p) {sc : Scope} {name : String}
    (hsc : v.scope = sc.declaring name ∨ v.scope = sc.declare name) :
    Shows w (v.rescope (sc.declare name)) p.markInitialized := by
  have hDepth : v.scope.depth = sc.depth := by rcases hsc with hsc | hsc <;> simp [hsc]
  unfold Parser.markInitialized
  rw [h.depth, hDepth]
  by_cases h0 : sc.depth = 0
  · rw [if_pos h0]
    rw [Scope.declaring, Scope.declare, if_pos h0, if_pos h0, or_self] at hsc
    rw [Scope.declare, if_pos h0, ← hsc]
    exact h
  · rw [if_neg h0]
    rw [Scope.declaring, Scope.declare, if_neg h0, if_neg h0] at hsc
    rw [Scope.declare, if_neg h0, h.locals]
    have hScope := h.scope
    rcases hsc with hsc | hsc
    · rw [hsc] at hScope ⊢
      exact { h with
        locals := rfl
        depth := h.depth.trans hDepth
        scope := ⟨by simpa [Scope.add] using hScope.sorted, by simpa [Scope.add] using hScope.bound,
          hScope.slots⟩ }
    · rw [hsc] at hScope ⊢
      exact { h with locals := rfl, depth := h.depth.trans hDepth, scope := hScope }

theorem defineVariable (h : Shows w v p) {sc : Scope} {name : String} {k : List Const}
    {index : Nat} (hsc : v.scope = sc.declaring name ∨ v.scope = sc.declare name)
    (hIndex : sc.depth = 0 → index = Const.nameIndex k name) :
    Shows w ((v.rescope (sc.declare name)).emit (sc.define k name v.last.line))
      (p.defineVariable index) := by
  have hMark := h.markInitialized hsc
  have hDepth : p.draft.scopeDepth = sc.depth := by
    rw [h.depth]
    rcases hsc with hsc | hsc <;> simp [hsc]
  unfold Parser.defineVariable Scope.define
  rw [hDepth]
  by_cases h0 : sc.depth = 0
  · rw [if_pos h0, if_pos h0, hIndex h0]
    rw [Scope.declaring, Scope.declare, if_pos h0, if_pos h0, or_self] at hsc
    rw [Scope.declare, if_pos h0, ← hsc]
    exact h.emitWith .defineGlobal _
  · rw [if_neg h0, if_neg h0, View.emit_nil]
    exact hMark

end Shows

/-- A referent as the compiler has it. -/
def Referent.reference : Referent → Parser.Reference
  | slot n => .slot n
  | global index => .global index

namespace Shows

variable {w : World} {v : View} {p : Parser}

theorem resolve (h : Shows w v p) (name : String) :
    Gives (Scope.Usable v.scope.locals name ∧
        (Referent.pool v.scope.locals v.pool name).length ≤ maxConstants) w
      (v.repool (Referent.pool v.scope.locals v.pool name)) (p.resolve name).2 := by
  unfold Parser.resolve Scope.Usable Referent.pool
  rw [h.locals]
  cases hResolve : Draft.resolve? name v.scope.locals with
  | some found =>
    obtain ⟨n, l⟩ := found
    dsimp only
    cases hInit : l.initialized with
    | true =>
      refine .inl ⟨⟨fun n' l' heq => ?_, h.fits⟩, w, .refl w, h⟩
      cases heq
      exact hInit
    | false =>
      refine .of_not (fun hok => ?_) (h.not_clean_error _)
      exact absurd (hok.1 n l rfl) (by simp [hInit])
  | none => exact (h.nameConstant name).1.congr ⟨fun hk => ⟨nofun, hk⟩, fun hk => hk.2⟩

theorem resolve_reference (h : Shows w v p) (name : String)
    (hFits : (Referent.pool v.scope.locals v.pool name).length ≤ maxConstants) :
    (p.resolve name).1 = (Referent.of v.scope.locals v.pool name).reference := by
  unfold Parser.resolve Referent.of
  rw [Referent.pool] at hFits
  rw [h.locals]
  cases hResolve : Draft.resolve? name v.scope.locals with
  | some found => rfl
  | none =>
    rw [hResolve] at hFits
    exact congrArg _ ((h.nameConstant name).2 hFits)

theorem emitGet (h : Shows w v p) (r : Referent) :
    Shows w (v.emit (r.get v.last.line)) (p.emitGet r.reference) := by
  cases r with
  | slot n => exact h.emitWith .getLocal n
  | global index => exact h.emitWith .getGlobal index

theorem emitSet (h : Shows w v p) (r : Referent) :
    Shows w (v.emit (r.set v.last.line)) (p.emitSet r.reference) := by
  cases r with
  | slot n => exact h.emitWith .setLocal n
  | global index => exact h.emitWith .setGlobal index

/-! ## Functions -/

theorem beginFunction (h : Shows w v p) {name : Str} (hMem : .string name ∈ w.heap.objects) :
    Shows w (v.inside name p.draft) (p.beginFunction name).beginScope :=
  { h with
    locals := rfl
    depth := rfl
    code := rfl
    lines := rfl
    constants := .nil
    name := rfl
    named := fun _ hs => Option.some.inj hs ▸ hMem
    arity := rfl
    enclosing := congrArg (p.draft :: ·) h.enclosing
    scope := ⟨by simp [View.inside, Scope.function], by simp [View.inside, Scope.function],
      by simp [View.inside, Scope.function, maxLocals]⟩
    fits := Nat.zero_le _ }

/-- The function object of a finished routine. -/
theorem allocFunction (h : Shows w v p) {r : Routine} (hNew : ∀ m ∈ w.made, r.place < m.1)
    (hArity : v.arity = r.parameters.length) (hName : v.name.map Str.text = r.name)
    (hCode : v.code = r.code) (hPool : v.pool = r.pool) :
    ∃ w', w.Extends w' ∧ w'.WF r.place ∧
      w'.heap = (p.heap.allocFunction p.draft.arity p.draft.chunk p.draft.name).2 ∧
      w'.Compiled (p.heap.allocFunction p.draft.arity p.draft.chunk p.draft.name).1 r := by
  obtain ⟨hWF, hExtends, hMem⟩ := Heap.allocFunction_spec h.world.heap p.draft.arity p.draft.chunk
    p.draft.name
  rw [h.heap]
  set f : Fn := (w.heap.allocFunction p.draft.arity p.draft.chunk p.draft.name).1 with hf
  let w' : World := ⟨(w.heap.allocFunction p.draft.arity p.draft.chunk p.draft.name).2,
    (r.place, f.id) :: w.made⟩
  have he : w.Extends w' := ⟨hExtends, List.suffix_cons ..⟩
  refine ⟨w', he, ⟨hWF, List.pairwise_cons.2 ⟨fun m hm => ⟨hNew m hm, h.world.ids m hm⟩,
    h.world.order⟩, fun m hm => ?_, fun m hm => ?_⟩, rfl, ?_⟩
  · rcases List.mem_cons.1 hm with rfl | hm
    · exact Nat.le_refl _
    · exact (hNew m hm).le
  · rcases List.mem_cons.1 hm with rfl | hm
    · exact Nat.lt_succ_self _
    · exact Nat.lt_succ_of_lt (h.world.ids m hm)
  · refine .mk hMem (List.mem_cons_self ..) (h.arity.trans hArity) ?_ ?_ ?_ ?_ fun s hs => ?_
    · exact (congrArg (Option.map Str.text) h.name).trans hName
    · rw [← hCode]
      exact h.code
    · rw [← hCode]
      exact h.lines
    · rw [← hPool]
      exact World.allRepresent_mono he h.constants
    · exact hExtends.mem (h.named s (h.name.symm.trans hs))

/-- Closing a function makes the routine a constant of the function around it. -/
theorem closeFunction (h : Shows w v p) {w₀ : World} {v₀ : View} {p₀ : Parser}
    (h₀ : Shows w₀ v₀ p₀) (he : w₀.Extends w) {r : Routine}
    (hEnclosing : v.enclosing = p₀.draft :: v₀.enclosing) (hTotal : v.total = v₀.total)
    (hPlace : r.place = v.toks.length) (hNew : ∀ m ∈ w.made, v.toks.length < m.1)
    (hArity : v.arity = r.parameters.length) (hName : v.name.map Str.text = r.name)
    (hCode : v.code ++ (.op .pushNil v.last.line ++ .op .ret v.last.line) = r.code)
    (hPool : v.pool = r.pool) :
    Gives (v₀.pool.length + 1 ≤ maxConstants) w
      (((v₀.read v.toks v.last).repool (v₀.pool ++ [.function r])).emit
        (.one .constant v₀.pool.length v.last.line))
      p.closeFunction := by
  have hs := h.emitReturn
  have hEnd : p.endFunction = (p.emitReturn.draft,
      { p.emitReturn with draft := p₀.draft, enclosing := v₀.enclosing }) := by
    have hOuter : p.emitReturn.enclosing = p₀.draft :: v₀.enclosing := hs.enclosing.trans hEnclosing
    rw [Parser.endFunction]
    dsimp only
    rw [hOuter]
  obtain ⟨w', he', hWorld, hHeap, hCompiled⟩ :=
    hs.allocFunction (hPlace ▸ hNew) hArity hName hCode hPool
  rw [hPlace] at hWorld
  unfold Parser.closeFunction
  rw [hEnd]
  generalize p.emitReturn = q at hs hHeap hCompiled ⊢
  dsimp only
  rw [← hHeap]
  have hOuter : Shows w' (v₀.read v.toks v.last)
      { q with draft := p₀.draft, enclosing := v₀.enclosing, heap := w'.heap } :=
    { hs with
      total := hs.total.trans hTotal
      heap := rfl
      locals := h₀.locals
      depth := h₀.depth
      code := h₀.code
      lines := h₀.lines
      constants := World.allRepresent_mono (he.trans he') h₀.constants
      name := h₀.name
      named := fun s hs => (he.trans he').heap.mem (h₀.named s hs)
      arity := h₀.arity
      enclosing := rfl
      fuel := hs.fuel.trans_eq hTotal
      world := hWorld
      scope := h₀.scope
      fits := h₀.fits }
  exact .of_extends he' (hOuter.emitConstant (.function hCompiled))

end Shows

end Lox
