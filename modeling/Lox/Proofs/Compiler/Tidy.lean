import Lox.Proofs.Compiler.Checked
import Lox.Proofs.Compiler.View
import Lox.Proofs.Scanner.LongestMatch

/-!
# The order that the compiler keeps

`Parser.Tidy`: the tokens are those of a source text, the locals stand in the order of their scopes, there
are no more locals and constants than instructions can name, and the bytes written so far are on lines that
do not go back. Nothing that the compiler does on its own upsets this, and most of it stays in the scope it
is in (`Parser.Keeps`). Scopes are left as they were found, since all locals that were added since are
deeper (`Parser.sure_endScope`).
-/

set_option autoImplicit false

namespace Lox

open Checked
open Lox.Parser (maxArguments maxConstants maxDistance maxLocals)

/-! ## Tokens -/

/-- A token of a source text with so many lines. -/
structure Token.Fit (bound : Nat) (t : Token) : Prop where
  first : 1 ≤ t.line
  last : t.line ≤ bound
  literal : t.kind = .string ∨ t.kind = .number → Lexis.Rule t.kind t.lexeme.toList

/-- A token on the first line, which can stand in place of the placeholder. -/
def Token.first : Token := { kind := .eof, lexeme := "", line := 1 }

namespace Lexis

theorem line_le (before cs : List Char) : line before ≤ line (before ++ cs) := by
  simp only [line, List.count_append]
  omega

/-- What always has the same text is no literal. -/
theorem fixed_kind : ∀ entry ∈ fixed, entry.2 ≠ .string ∧ entry.2 ≠ .number := by decide

theorem Reads.literal {slice behind : List Char} {kind : Token.Kind} {lexeme : String}
    (h : Reads slice behind kind lexeme) (hKind : kind = .string ∨ kind = .number) :
    Rule kind lexeme.toList := by
  cases h with
  | plain hRule => rwa [String.toList_ofList]
  | unexpected | unterminated => simp at hKind

/-- The tokens of the rest of a source text come from its lines, and one after the other. -/
theorem Splits.fit {before rest : List Char} {ts : List Token} (h : Splits before rest ts) :
    (∀ t ∈ ts, t.Fit (line (before ++ rest)) ∧ line before ≤ t.line) ∧
      ts.Pairwise fun t later => t.line ≤ later.line := by
  induction h with
  | @last before gap =>
    refine ⟨fun t ht => ?_, List.pairwise_singleton ..⟩
    obtain rfl := List.mem_singleton.1 ht
    exact ⟨⟨Nat.le_add_right .., Nat.le_refl _, by simp⟩, line_le ..⟩
  | @cons before gap slice behind kind lexeme ts _ _ hReads _ ih =>
    obtain ⟨hFit, hSorted⟩ := ih
    have hWhole : before ++ (gap ++ (slice ++ behind)) = before ++ gap ++ slice ++ behind := by simp
    have hStart : line before ≤ line (before ++ gap ++ slice) := by
      rw [List.append_assoc]
      exact line_le ..
    rw [hWhole]
    refine ⟨List.forall_mem_cons.2 ⟨?_, fun t ht => ?_⟩, .cons (fun t ht => (hFit t ht).2) hSorted⟩
    · exact ⟨⟨Nat.le_add_right .., line_le .., hReads.literal⟩, hStart⟩
    · exact ⟨(hFit t ht).1, hStart.trans (hFit t ht).2⟩

end Lexis

/-! ## Lines -/

/-- Every byte of a chunk has a line, the lines do not go back, and there are none but those up to
`bound`. -/
structure Chunk.Lined (bound : Nat) (c : Chunk Value) : Prop where
  size : c.lines.size = c.code.size
  ascending : c.lines.toList.Pairwise (· ≤ ·)
  range : ∀ n ∈ c.lines.toList, 1 ≤ n ∧ n ≤ bound

namespace Chunk.Lined

variable {bound : Nat} {c : Chunk Value}

theorem mono (h : c.Lined bound) {bound' : Nat} (hb : bound ≤ bound') : c.Lined bound' :=
  ⟨h.size, h.ascending, fun n hn => ⟨(h.range n hn).1, (h.range n hn).2.trans hb⟩⟩

/-- Bytes are written on a line that is not before the last one. -/
theorem write (h : c.Lined bound) {line : Nat} (hFirst : 1 ≤ line) (hLine : bound ≤ line)
    (bytes : List UInt8) : (bytes.foldl (fun c byte => c.write byte line) c).Lined line := by
  obtain ⟨hCode, hLines, -⟩ := Shows.chunk_write bytes line c
  have hLast : ∀ n ∈ List.replicate bytes.length line, n = line := fun n => List.eq_of_mem_replicate
  refine ⟨?_, ?_, fun n hn => ?_⟩
  · rw [← Array.length_toList, hLines, ← Array.length_toList, hCode]
    simp [h.size]
  · rw [hLines, List.pairwise_append]
    refine ⟨h.ascending, List.pairwise_replicate.2 (.inr (Nat.le_refl _)), fun n hn n' hn' => ?_⟩
    rw [hLast n' hn']
    exact (h.range n hn).2.trans hLine
  · rw [hLines, List.mem_append] at hn
    rcases hn with hn | hn
    · exact ⟨(h.range n hn).1, (h.range n hn).2.trans hLine⟩
    · rw [hLast n hn]
      exact ⟨hFirst, Nat.le_refl _⟩

end Chunk.Lined

/-- The chunk of a function, and those of all functions in it, are lined. -/
inductive Function.Lined (bound : Nat) : Fn → Prop
  | mk {f : Fn} : f.chunk.Lined bound →
      (∀ g, .object (.function g) ∈ f.chunk.constants → Lined bound g) → Lined bound f

/-- A value is no function, or one that is lined. -/
def Value.Lined (bound : Nat) (v : Value) : Prop := ∀ f, v = .object (.function f) → f.Lined bound

theorem Value.lined_string (bound : Nat) (s : Str) : (Value.object (.string s)).Lined bound :=
  fun _ hf => by cases hf

theorem Value.lined_number (bound : Nat) (x : Float) : (Value.number x).Lined bound :=
  fun _ hf => by cases hf

/-! ## Drafts -/

/-- A draft in order, whose last byte is not behind a line. -/
structure Draft.Tidy (bound line : Nat) (d : Draft) : Prop where
  sorted : d.locals.Pairwise fun l older => older.depth ≤ l.depth
  shallow : ∀ l ∈ d.locals, l.depth ≤ d.scopeDepth
  slots : d.locals.length ≤ maxLocals
  constants : d.chunk.constants.size ≤ maxConstants
  lined : d.chunk.Lined line
  functions : ∀ v ∈ d.chunk.constants, v.Lined bound

namespace Draft.Tidy

variable {bound line : Nat} {d : Draft}

theorem mono (h : d.Tidy bound line) {line' : Nat} (hLine : line ≤ line') : d.Tidy bound line' :=
  { h with lined := h.lined.mono hLine }

theorem write (h : d.Tidy bound line) (hFirst : 1 ≤ line) (bytes : List UInt8) :
    (d.write bytes line).Tidy bound line := by
  obtain ⟨-, -, hConstants⟩ := Shows.chunk_write bytes line d.chunk
  have hLined := h.lined.write hFirst (Nat.le_refl _) bytes
  refine ⟨h.sorted, h.shallow, h.slots, ?_, hLined, ?_⟩
  · rw [Draft.write, hConstants]
    exact h.constants
  · rw [Draft.write, hConstants]
    exact h.functions

theorem patch (h : d.Tidy bound line) (offset value : Nat) : (d.patch offset value).Tidy bound line := by
  refine ⟨h.sorted, h.shallow, h.slots, h.constants, ⟨?_, h.lined.ascending, h.lined.range⟩, h.functions⟩
  have hSize := h.lined.size
  simp only [Draft.patch, Array.size_setIfInBounds]
  exact hSize

theorem addConstant (h : d.Tidy bound line) {v : Value} (hv : v.Lined bound)
    (hRoom : d.chunk.constants.size < maxConstants) :
    { d with chunk := d.chunk.addConstant v }.Tidy bound line := by
  refine ⟨h.sorted, h.shallow, h.slots, ?_, ⟨h.lined.size, h.lined.ascending, h.lined.range⟩, ?_⟩
  · simp only [Chunk.addConstant, Array.size_push]
    exact hRoom
  · intro v' hv'
    rcases Array.mem_push.1 hv' with hv' | rfl
    · exact h.functions v' hv'
    · exact hv

end Draft.Tidy

theorem Draft.tidy_new (bound : Nat) {line : Nat} (name : Option Str) :
    ({ name } : Draft).Tidy bound line where
  sorted := List.pairwise_singleton ..
  shallow := fun l hl => by
    rw [List.mem_singleton.1 hl]
  slots := Nat.le_of_ble_eq_true rfl
  constants := Nat.zero_le _
  lined := ⟨rfl, .nil, fun _ hn => absurd hn List.not_mem_nil⟩
  functions := fun _ hv => by simp at hv

theorem Draft.size_write (d : Draft) (bytes : List UInt8) (line : Nat) :
    (d.write bytes line).size = d.size + bytes.length := by
  obtain ⟨hCode, -⟩ := Shows.chunk_write bytes line d.chunk
  rw [Draft.size, Draft.write, ← Array.length_toList, hCode, List.length_append, Array.length_toList]
  rfl

namespace Parser

/-- The state of the compiler is in order. -/
structure Tidy (bound : Nat) (p : Parser) : Prop where
  tokens : ∀ t ∈ p.previous :: p.current :: p.rest, t.Fit bound
  forward : (p.previous :: p.current :: p.rest).Pairwise fun t later => t.line ≤ later.line
  draft : p.draft.Tidy bound p.previous.line

/-- All locals are initialized. -/
def Settled (p : Parser) : Prop := ∀ l ∈ p.draft.locals, l.initialized = true

/-- `q` comes after `p` in the same scope, with some more locals. -/
structure Adds (new : List Local) (p q : Parser) : Prop where
  scopeDepth : q.draft.scopeDepth = p.draft.scopeDepth
  locals : q.draft.locals = new ++ p.draft.locals
  enclosing : q.enclosing = p.enclosing
  depth : q.depth = p.depth
  here : p.here ≤ q.here
  line : p.previous.line ≤ q.previous.line

/-- `q` comes after `p` in the same scope, with the same locals. -/
abbrev Keeps : Parser → Parser → Prop := Adds []

variable {bound : Nat} {p q r : Parser} {new : List Local}

theorem Adds.trans {more : List Local} (h : p.Adds new q) (h' : q.Adds more r) :
    p.Adds (more ++ new) r where
  scopeDepth := h'.scopeDepth.trans h.scopeDepth
  locals := by rw [h'.locals, h.locals, List.append_assoc]
  enclosing := h'.enclosing.trans h.enclosing
  depth := h'.depth.trans h.depth
  here := h.here.trans h'.here
  line := h.line.trans h'.line

theorem Keeps.refl (p : Parser) : p.Keeps p := ⟨rfl, rfl, rfl, rfl, Nat.le_refl _, Nat.le_refl _⟩

theorem Keeps.trans (h : p.Keeps q) (h' : q.Keeps r) : p.Keeps r := Adds.trans h h'

theorem Keeps.sameScope (h : p.Keeps q) : p.SameScope q := ⟨h.scopeDepth, h.locals, h.enclosing⟩

/-- A step from a state in order leads to a state in order in the same scope. -/
structure Leaves (bound : Nat) (p q : Parser) : Prop where
  intro ::
  apply : p.Tidy bound → q.Tidy bound ∧ p.Keeps q

namespace Leaves

theorem refl (p : Parser) : Leaves bound p p := ⟨fun hp => ⟨hp, .refl p⟩⟩

theorem trans (h : Leaves bound p q) (h' : Leaves bound q r) : Leaves bound p r := by
  refine ⟨fun hp => ?_⟩
  obtain ⟨hq, hk⟩ := h.apply hp
  obtain ⟨hr, hk'⟩ := h'.apply hq
  exact ⟨hr, hk.trans hk'⟩

theorem ite {c : Prop} [Decidable c] (hq : Leaves bound p q) (hr : Leaves bound p r) :
    Leaves bound p (if c then q else r) := by
  split
  · exact hq
  · exact hr

end Leaves

/-! ## Problems and tokens -/

/-- What is neither a token nor written does not matter. -/
theorem leaves_aside (p : Parser) (total : Nat) (recovering tooDeep : Bool)
    (diagnostics : Array Diagnostic) (heap : Heap) :
    Leaves bound p { p with total, recovering, tooDeep, diagnostics, heap } :=
  ⟨fun hp => ⟨⟨hp.tokens, hp.forward, hp.draft⟩, ⟨rfl, rfl, rfl, rfl, Nat.le_refl _, Nat.le_refl _⟩⟩⟩

theorem leaves_report (p : Parser) (t : Token) (problem : Problem) :
    Leaves bound p (p.report t problem) :=
  .ite (.refl p) (leaves_aside ..)

theorem leaves_error (p : Parser) (problem : Problem) : Leaves bound p (p.error problem) :=
  leaves_report ..

theorem leaves_errorAtCurrent (p : Parser) (problem : Problem) :
    Leaves bound p (p.errorAtCurrent problem) := leaves_report ..

theorem rest_report (p : Parser) (t : Token) (problem : Problem) :
    (p.report t problem).rest = p.rest := (writes_report p t problem).rest

theorem leaves_shift : ∀ (ts : List Token) (p : Parser), ts.Sublist p.rest →
    Leaves bound p (shift ts p)
  | [], p, _ => by
    refine ⟨fun hp => ?_⟩
    have hSub : (p.previous :: p.current :: []).Sublist (p.previous :: p.current :: p.rest) :=
      ((List.nil_sublist _).cons_cons _).cons_cons _
    exact ⟨⟨fun t ht => hp.tokens t (hSub.subset ht), hp.forward.sublist hSub, hp.draft⟩,
      ⟨rfl, rfl, rfl, rfl, Nat.le_refl _, Nat.le_refl _⟩⟩
  | t :: ts, p, hRest => by
    unfold shift
    split
    · refine (leaves_report p t _).trans (leaves_shift ts _ ?_)
      rw [rest_report]
      exact (List.sublist_cons_self t ts).trans hRest
    · refine ⟨fun hp => ?_⟩
      have hSub : (p.previous :: t :: ts).Sublist (p.previous :: p.current :: p.rest) :=
        (hRest.cons _).cons_cons _
      exact ⟨⟨fun t' ht => hp.tokens t' (hSub.subset ht), hp.forward.sublist hSub, hp.draft⟩,
        ⟨rfl, rfl, rfl, rfl, Nat.le_refl _, Nat.le_refl _⟩⟩

theorem leaves_advance (p : Parser) : Leaves bound p p.advance := by
  have hRead : Leaves bound p { p with previous := p.current } := by
    refine ⟨fun hp => ?_⟩
    have hLine := List.rel_of_pairwise_cons hp.forward (List.mem_cons_self ..)
    have hBehind := hp.forward.of_cons
    refine ⟨⟨fun t ht => hp.tokens t ?_, ?_, hp.draft.mono hLine⟩,
      ⟨rfl, rfl, rfl, rfl, Nat.le_refl _, hLine⟩⟩
    · rcases List.mem_cons.1 ht with rfl | ht
      · exact List.mem_cons_of_mem _ (List.mem_cons_self ..)
      · exact List.mem_cons_of_mem _ ht
    · refine .cons (fun t ht => ?_) hBehind
      rcases List.mem_cons.1 ht with rfl | ht
      · exact Nat.le_refl _
      · exact List.rel_of_pairwise_cons hBehind ht
  exact hRead.trans (leaves_shift _ _ (List.Sublist.refl _))

theorem leaves_consume (p : Parser) (kind : Token.Kind) (what : Expected) :
    Leaves bound p (p.consume kind what) := .ite (leaves_advance p) (leaves_errorAtCurrent ..)

theorem leaves_skipStatement : ∀ (fuel : Nat) (p : Parser), Leaves bound p (skipStatement fuel p)
  | 0, p => .refl p
  | fuel + 1, p => .ite (.refl p) ((leaves_advance p).trans (leaves_skipStatement fuel _))

theorem leaves_synchronize (p : Parser) : Leaves bound p p.synchronize :=
  (leaves_aside p p.total false p.tooDeep p.diagnostics p.heap).trans (leaves_skipStatement ..)

theorem leaves_skipToEnd : ∀ (fuel : Nat) (p : Parser), Leaves bound p (skipToEnd fuel p)
  | 0, p => .refl p
  | fuel + 1, p => .ite (.refl p) ((leaves_advance p).trans (leaves_skipToEnd fuel _))

theorem leaves_giveUp (p : Parser) : Leaves bound p p.giveUp :=
  (leaves_errorAtCurrent p _).trans <|
    (leaves_aside _ _ _ true _ _).trans (leaves_skipToEnd ..)

/-! ## Emission -/

/-- The draft changes, but not its locals. -/
theorem leaves_redraft {d : Draft} (hDraft : p.Tidy bound → d.Tidy bound p.previous.line)
    (hDepth : d.scopeDepth = p.draft.scopeDepth) (hLocals : d.locals = p.draft.locals)
    (hSize : p.draft.size ≤ d.size) : Leaves bound p { p with draft := d } :=
  ⟨fun hp => ⟨⟨hp.tokens, hp.forward, hDraft hp⟩,
    ⟨hDepth, hLocals, rfl, rfl, hSize, Nat.le_refl _⟩⟩⟩

theorem Tidy.first (hp : p.Tidy bound) : 1 ≤ p.previous.line :=
  (hp.tokens _ (List.mem_cons_self ..)).first

theorem leaves_writeBytes (p : Parser) (bytes : List UInt8) : Leaves bound p (p.writeBytes bytes) := by
  refine leaves_redraft (fun hp => hp.draft.write hp.first bytes) rfl rfl ?_
  rw [Draft.size_write]
  exact Nat.le_add_right ..

theorem leaves_emitWith (p : Parser) (op : Opcode) (operand : Nat) :
    Leaves bound p (p.emitWith op operand) := leaves_writeBytes ..

theorem leaves_emit (p : Parser) (op : Opcode) : Leaves bound p (p.emit op) := leaves_emitWith ..

theorem leaves_emitReturn (p : Parser) : Leaves bound p p.emitReturn :=
  (leaves_emit p _).trans (leaves_emit ..)

theorem leaves_intern (p : Parser) (text : String) : Leaves bound p (p.intern text).2 :=
  leaves_aside ..

theorem leaves_makeConstant (p : Parser) {v : Value} (hv : v.Lined bound) :
    Leaves bound p (p.makeConstant v).2 := by
  unfold makeConstant
  dsimp only
  split
  · rename_i hRoom
    exact leaves_redraft (fun hp => hp.draft.addConstant hv hRoom) rfl rfl (Nat.le_refl _)
  · exact leaves_error ..

theorem makeConstant_lt (p : Parser) (v : Value) : (p.makeConstant v).1 < 256 := by
  unfold makeConstant
  dsimp only
  split
  · assumption
  · exact Nat.zero_lt_succ 255

theorem leaves_nameConstant (p : Parser) (name : String) : Leaves bound p (p.nameConstant name).2 := by
  unfold nameConstant
  dsimp only
  split
  · exact leaves_intern ..
  · exact (leaves_intern ..).trans (leaves_makeConstant _ (Value.lined_string _ _))

theorem nameConstant_lt (hp : p.Tidy bound) (name : String) : (p.nameConstant name).1 < 256 := by
  unfold nameConstant
  dsimp only
  split
  · rename_i index hIndex
    exact (Array.findIdx?_eq_some_iff_findIdx_eq.1 hIndex).1.trans_le hp.draft.constants
  · exact makeConstant_lt ..

theorem leaves_patchJump (p : Parser) (offset : Nat) : Leaves bound p (p.patchJump offset) := by
  unfold patchJump
  dsimp only
  refine .ite (leaves_redraft (fun hp => hp.draft.patch ..) rfl rfl ?_) (leaves_error ..)
  simp [Draft.size, Draft.patch]

theorem leaves_emitLoop (p : Parser) (start : Nat) : Leaves bound p (p.emitLoop start) :=
  .ite (leaves_emitWith ..) ((leaves_writeBytes ..).trans (leaves_error ..))

theorem leaves_emitGet (p : Parser) (ref : Reference) : Leaves bound p (p.emitGet ref) := by
  cases ref <;> exact leaves_emitWith ..

theorem leaves_emitSet (p : Parser) (ref : Reference) : Leaves bound p (p.emitSet ref) := by
  cases ref <;> exact leaves_emitWith ..

theorem leaves_literal (p : Parser) : Leaves bound p p.literal := by
  unfold literal
  split
  · exact leaves_emit ..
  · exact leaves_emit ..
  · exact leaves_emit ..
  · exact .refl p

theorem leaves_emits : ∀ (ops : List Opcode) (p : Parser), Leaves bound p (ops.foldl emit p)
  | [], p => .refl p
  | op :: ops, p => (leaves_emit p op).trans (leaves_emits ops _)

/-! ## Scopes -/

/-- `q` comes after `p` in the same scope, with some more locals that belong to it and are initialized. -/
structure Declares (new : List Local) (p q : Parser) : Prop extends p.Adds new q where
  ready : ∀ l ∈ new, l.depth = p.draft.scopeDepth ∧ l.initialized = true

/-- The locals that were declared between `p` and `q` belong to the scope of both. -/
def Fills (p q : Parser) : Prop := ∃ new, p.Declares new q

/-- At most one local was declared between `p` and `q`. -/
def FillsOne (p q : Parser) : Prop := ∃ new, new.length ≤ 1 ∧ p.Declares new q

theorem Declares.settled (h : p.Declares new q) (hs : p.Settled) : q.Settled := by
  intro l hl
  rw [h.locals, List.mem_append] at hl
  rcases hl with hl | hl
  · exact (h.ready l hl).2
  · exact hs l hl

theorem Declares.trans {more : List Local} (h : p.Declares new q) (h' : q.Declares more r) :
    p.Declares (more ++ new) r := by
  refine ⟨h.toAdds.trans h'.toAdds, fun l hl => ?_⟩
  rcases List.mem_append.1 hl with hl | hl
  · rw [← h.scopeDepth]
    exact h'.ready l hl
  · exact h.ready l hl

theorem Keeps.declares (h : p.Keeps q) : p.Declares [] q := ⟨h, fun _ hl => absurd hl List.not_mem_nil⟩

theorem Keeps.settled (h : p.Keeps q) (hs : p.Settled) : q.Settled := h.declares.settled hs

theorem Keeps.fills (h : p.Keeps q) : p.Fills q := ⟨[], h.declares⟩

theorem Keeps.fillsOne (h : p.Keeps q) : p.FillsOne q := ⟨[], Nat.zero_le 1, h.declares⟩

namespace Fills

theorem settled (h : p.Fills q) (hs : p.Settled) : q.Settled := by
  obtain ⟨new, hNew⟩ := h
  exact hNew.settled hs

theorem trans (h : p.Fills q) (h' : q.Fills r) : p.Fills r := by
  obtain ⟨new, hNew⟩ := h
  obtain ⟨more, hMore⟩ := h'
  exact ⟨more ++ new, hNew.trans hMore⟩

end Fills

namespace FillsOne

theorem fills (h : p.FillsOne q) : p.Fills q := by
  obtain ⟨new, -, hNew⟩ := h
  exact ⟨new, hNew⟩

theorem keeps (h : p.FillsOne q) (h' : q.Keeps r) : p.FillsOne r := by
  obtain ⟨new, hOne, hNew⟩ := h
  exact ⟨new, hOne, hNew.trans h'.declares⟩

theorem after (h : p.Keeps q) (h' : q.FillsOne r) : p.FillsOne r := by
  obtain ⟨new, hOne, hNew⟩ := h'
  refine ⟨new, hOne, ?_⟩
  have hBoth := h.declares.trans hNew
  rwa [List.append_nil] at hBoth

theorem oneMore (h : p.FillsOne q) : p.OneMore q := by
  obtain ⟨new, hOne, hNew⟩ := h
  refine ⟨hNew.scopeDepth, ?_, hNew.enclosing⟩
  rw [hNew.locals]
  match new, hOne with
  | [], _ => exact .inl rfl
  | [l], _ => exact .inr ⟨l, rfl⟩

end FillsOne

theorem Tidy.beginScope (hp : p.Tidy bound) : p.beginScope.Tidy bound where
  tokens := hp.tokens
  forward := hp.forward
  draft := { hp.draft with shallow := fun l hl => Nat.le_succ_of_le (hp.draft.shallow l hl) }

/-- The locals that are deeper than the scope are in front of the others. Only they are dropped, with a
pop for each. -/
theorem dropLocals_append : ∀ (new old : List Local) (p : Parser),
    (∀ l ∈ new, p.draft.scopeDepth < l.depth) → (∀ l ∈ old, l.depth ≤ p.draft.scopeDepth) →
    dropLocals (new ++ old) p =
      (List.replicate new.length .pop).foldl emit { p with draft := { p.draft with locals := old } }
  | [], [], _, _, _ => rfl
  | [], l :: old, p, _, hOld => if_neg (Nat.not_lt.2 (hOld l (List.mem_cons_self ..)))
  | l :: new, old, p, hNew, hOld => by
    obtain ⟨hFirst, hNew⟩ := List.forall_mem_cons.1 hNew
    rw [List.cons_append, dropLocals, if_pos hFirst, dropLocals_append new old (p.emit .pop) hNew hOld]
    rfl

/-- What was declared in a scope is gone when it is left. -/
theorem Fills.endScope (hp : p.Tidy bound) (h : p.beginScope.Fills q) (hq : q.Tidy bound) :
    1 ≤ q.draft.scopeDepth ∧ q.endScope.Tidy bound ∧ p.Keeps q.endScope := by
  obtain ⟨new, hNew⟩ := h
  have hDepth : q.draft.scopeDepth = p.draft.scopeDepth + 1 := hNew.scopeDepth
  have hLocals : q.draft.locals = new ++ p.draft.locals := hNew.locals
  let left : Parser :=
    { q with draft := { q.draft with scopeDepth := p.draft.scopeDepth, locals := p.draft.locals } }
  have hEnd : q.endScope = (List.replicate new.length .pop).foldl emit left := by
    unfold Parser.endScope
    rw [hDepth, Nat.add_sub_cancel, hLocals]
    refine dropLocals_append new p.draft.locals _ (fun l hl => ?_) hp.draft.shallow
    rw [(hNew.ready l hl).1]
    exact Nat.lt_succ_self _
  have hLeft : left.Tidy bound := by
    refine ⟨hq.tokens, hq.forward, { hq.draft with sorted := ?_, shallow := ?_, slots := ?_ }⟩
    · exact hp.draft.sorted
    · exact hp.draft.shallow
    · exact hp.draft.slots
  have hBack : p.Keeps left := ⟨rfl, rfl, hNew.enclosing, hNew.depth, hNew.here, hNew.line⟩
  obtain ⟨hTidy, hKeeps⟩ := (leaves_emits (List.replicate new.length .pop) left).apply hLeft
  rw [hEnd]
  exact ⟨by omega, hTidy, hBack.trans hKeeps⟩

/-! ## Functions -/

theorem Tidy.lined (hp : p.Tidy bound) {f : Fn} (hf : f.chunk = p.draft.chunk) : f.Lined bound := by
  have hLast := (hp.tokens _ (List.mem_cons_self ..)).last
  refine .mk ?_ fun g hg => ?_
  · rw [hf]
    exact hp.draft.lined.mono hLast
  · rw [hf] at hg
    exact hp.draft.functions _ hg g rfl

theorem Tidy.beginFunction (hp : p.Tidy bound) (name : Str) :
    (p.beginFunction name).beginScope.Tidy bound :=
  Tidy.beginScope ⟨hp.tokens, hp.forward, Draft.tidy_new bound (some name)⟩

theorem settled_beginFunction (p : Parser) (name : Str) : (p.beginFunction name).beginScope.Settled :=
  List.forall_mem_singleton.2 rfl

theorem endFunction_cons {outer : Draft} {enclosing : List Draft} (h : p.enclosing = outer :: enclosing) :
    p.endFunction = (p.emitReturn.draft, { p.emitReturn with draft := outer, enclosing }) := by
  have hReturn : p.emitReturn.enclosing = outer :: enclosing := h
  unfold endFunction
  dsimp only
  rw [hReturn]

/-- Behind a function the compiler is back in the function around it. -/
theorem Fills.endFunction {name : Str} (hp : p.Tidy bound)
    (h : (p.beginFunction name).beginScope.Fills q) (hq : q.Tidy bound) :
    q.endFunction.2.Tidy bound ∧ p.Keeps q.endFunction.2 ∧
      ∀ f : Fn, f.chunk = q.endFunction.1.chunk → f.Lined bound := by
  obtain ⟨new, hNew⟩ := h
  obtain ⟨hTidy, hKeeps⟩ := (leaves_emitReturn q).apply hq
  have hLine : p.previous.line ≤ q.emitReturn.previous.line := hNew.line.trans hKeeps.line
  rw [endFunction_cons hNew.enclosing]
  refine ⟨⟨hTidy.tokens, hTidy.forward, hp.draft.mono hLine⟩, ?_, fun f hf => hTidy.lined hf⟩
  exact ⟨rfl, rfl, rfl, hNew.depth, Nat.le_refl _, hLine⟩

/-! ## Declarations of variables -/

/-- `q` comes after `p` with the name of a variable, which is a new local where `p` is in a scope and has
room for one. -/
def Names (p q : Parser) : Prop :=
  p.Keeps q ∨ p.draft.scopeDepth ≠ 0 ∧ ∃ l, l.depth = p.draft.scopeDepth ∧ p.Adds [l] q

theorem Names.keeps (h : p.Names q) (h' : q.Keeps r) : p.Names r := by
  rcases h with h | ⟨hScope, l, hl, h⟩
  · exact .inl (h.trans h')
  · exact .inr ⟨hScope, l, hl, h.trans h'⟩

theorem Names.after (h : p.Keeps q) (h' : q.Names r) : p.Names r := by
  rcases h' with h' | ⟨hScope, l, hl, h'⟩
  · exact .inl (h.trans h')
  · rw [h.scopeDepth] at hScope hl
    exact .inr ⟨hScope, l, hl, Adds.trans h h'⟩

theorem leaves_addLocal (hScope : p.draft.scopeDepth ≠ 0) (hp : p.Tidy bound) (name : String) :
    (p.addLocal name).Tidy bound ∧ p.Names (p.addLocal name) := by
  unfold addLocal
  split
  · obtain ⟨hTidy, hKeeps⟩ := (leaves_error p .tooManyLocals).apply hp
    exact ⟨hTidy, .inl hKeeps⟩
  · rename_i hRoom
    have hSlots := hp.draft.slots
    refine ⟨⟨hp.tokens, hp.forward, { hp.draft with sorted := ?_, shallow := ?_, slots := ?_ }⟩,
      .inr ⟨hScope, _, rfl, rfl, rfl, rfl, rfl, Nat.le_refl _, Nat.le_refl _⟩⟩
    · exact .cons hp.draft.shallow hp.draft.sorted
    · exact List.forall_mem_cons.2 ⟨Nat.le_refl _, hp.draft.shallow⟩
    · exact Nat.lt_of_le_of_ne hSlots hRoom

theorem leaves_declareVariable (hp : p.Tidy bound) :
    p.declareVariable.Tidy bound ∧ p.Names p.declareVariable := by
  unfold declareVariable
  split
  · exact ⟨hp, .inl (.refl p)⟩
  · rename_i hScope
    dsimp only
    split
    · obtain ⟨hTidy, hKeeps⟩ := (leaves_error p .duplicateLocal).apply hp
      obtain ⟨hTidy, hNames⟩ := leaves_addLocal (hKeeps.scopeDepth ▸ hScope) hTidy p.previous.lexeme
      exact ⟨hTidy, .after hKeeps hNames⟩
    · exact leaves_addLocal hScope hp _

theorem Settled.markInitialized (hs : p.Settled) : p.markInitialized = p := by
  unfold Parser.markInitialized
  split
  · rfl
  · split
    · rfl
    · rename_i l older hLocals
      have hFirst : l.initialized = true := hs l (by rw [hLocals]; exact List.mem_cons_self ..)
      have hSame : { l with initialized := true } = l := by rw [← hFirst]
      rw [hSame, ← hLocals]

/-- A variable that was named becomes a local that is initialized. -/
theorem Names.markInitialized (hs : p.Settled) (h : p.Names q) (hq : q.Tidy bound) :
    q.markInitialized.Tidy bound ∧ p.FillsOne q.markInitialized := by
  rcases h with h | ⟨hScope, l, hl, h⟩
  · have hSettled : q.Settled := h.settled hs
    rw [hSettled.markInitialized]
    exact ⟨hq, h.fillsOne⟩
  · have hLocals : q.draft.locals = l :: p.draft.locals := h.locals
    have hSorted := hq.draft.sorted
    have hShallow := hq.draft.shallow
    have hSlots := hq.draft.slots
    rw [hLocals] at hSorted hShallow hSlots
    unfold Parser.markInitialized
    rw [if_neg (h.scopeDepth ▸ hScope), hLocals]
    refine ⟨⟨hq.tokens, hq.forward, { hq.draft with sorted := ?_, shallow := ?_, slots := hSlots }⟩,
      [{ l with initialized := true }], Nat.le_refl 1,
      ⟨h.scopeDepth, rfl, h.enclosing, h.depth, h.here, h.line⟩, ?_⟩
    · exact .cons (fun l' hl' => List.rel_of_pairwise_cons hSorted hl') hSorted.of_cons
    · exact List.forall_mem_cons.2 (List.forall_mem_cons.1 hShallow)
    · exact List.forall_mem_singleton.2 ⟨hl, rfl⟩

theorem leaves_defineVariable (hs : p.Settled) (index : Nat) :
    Leaves bound p (p.defineVariable index) := by
  unfold defineVariable
  split
  · exact leaves_emitWith ..
  · rw [hs.markInitialized]
    exact .refl p

theorem Names.defineVariable (hs : p.Settled) (h : p.Names q) (hq : q.Tidy bound) (index : Nat) :
    (q.defineVariable index).Tidy bound ∧ p.FillsOne (q.defineVariable index) := by
  unfold Parser.defineVariable
  split
  · rename_i hScope
    rcases h with h | ⟨hInside, l, -, h⟩
    · obtain ⟨hTidy, hKeeps⟩ := (leaves_emitWith q .defineGlobal index).apply hq
      exact ⟨hTidy, (h.trans hKeeps).fillsOne⟩
    · exact absurd (h.scopeDepth ▸ hScope) hInside
  · exact h.markInitialized hs hq

end Parser

end Lox
