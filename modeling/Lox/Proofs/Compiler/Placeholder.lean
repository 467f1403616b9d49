import Lox.Proofs.Compiler.Checked
import Lox.Proofs.Compiler.Counters
import Lox.Proofs.Scanner

/-!
# Before the first token

Before the compiler has read a token, a placeholder stands where the token read last would be. Nothing is
reported at it and nothing is written on its line: every construct reads a token first, so that any other
token could stand there (`compile_primed`, `checkedCompile_primed`).
-/

set_option autoImplicit false

namespace Lox

namespace Parser

/-- A parser in front of the first of some tokens, with a token in place of the placeholder. -/
def primed (t : Token) (ts : List Token) (heap : Heap) : Parser :=
  { unread ts heap with current := t, previous := t }

/-- What a function makes of a parser does not depend on the token read last. -/
def Ahead {α : Type} (f : Parser → α) (p : Parser) : Prop := ∀ t, f { p with previous := t } = f p

/-! ## Reading the first token -/

theorem shift_previous (ts : List Token) (p : Parser) (t : Token) :
    shift ts { p with previous := t } = { shift ts p with previous := t } := by
  induction ts generalizing p with
  | nil => rfl
  | cons t' ts ih =>
    have hReport (problem : Problem) :
        report { p with previous := t } t' problem = { p.report t' problem with previous := t } := by
      unfold report
      dsimp only
      split <;> rfl
    unfold shift
    split
    · rw [hReport, ih]
    · rfl

theorem shift_current {ts : List Token} (ht : Token.Terminated ts) (p : Parser) (t : Token) :
    shift ts { p with current := t } = shift ts p := by
  induction ht generalizing p with
  | last hKind =>
    unfold shift
    rw [hKind]
  | @cons t' ts _ _ ih =>
    have hReport (problem : Problem) :
        report { p with current := t } t' problem = { p.report t' problem with current := t } := by
      unfold report
      dsimp only
      split <;> rfl
    unfold shift
    split
    · rw [hReport, ih]
    · rfl

theorem advance_primed {ts : List Token} (ht : Token.Terminated ts) (t : Token) (heap : Heap) :
    (primed t ts heap).advance = { start ts heap with previous := t } := by
  have hCurrent := shift_current ht { unread ts heap with previous := t } t
  have hPrevious := shift_previous ts { unread ts heap with previous := Parser.placeholder } t
  exact hCurrent.trans hPrevious

/-! ## Constructs read a token first -/

section

variable {p : Parser}

/-- One level deeper. -/
def deeper (p : Parser) (h : p.depth < maxNesting) : Parser :=
  { p with depth := ⟨p.depth + 1, p.succ_depth_lt h⟩ }

/-- One level less deep. -/
def shallower (p : Parser) : Parser := { p with depth := ⟨p.depth - 1, p.pred_depth_lt⟩ }

theorem ahead_nested {construct : Parser → Parser} (hRoom : p.depth < maxNesting)
    (h : Ahead construct (p.deeper hRoom)) : Ahead (nested construct) p := by
  intro t
  unfold nested
  rw [dif_pos hRoom, dif_pos hRoom]
  exact congrArg shallower (h t)

theorem ahead_expression (inner : Level) (hRoom : p.depth < maxNesting) :
    Ahead (expression inner.counted) p :=
  ahead_nested hRoom fun _ => rfl

theorem ahead_statement (inner : Level) (hRoom : p.depth < maxNesting) :
    Ahead (statement inner.counted) p := by
  intro t
  unfold statement
  dsimp only
  split
  case h_7 =>
    unfold expressionStatement
    rw [ahead_expression inner hRoom t]
  all_goals rfl

theorem ahead_declaration (inner : Level) (hRoom : p.depth.val + 1 < maxNesting) :
    Ahead (declaration inner.counted.counted) p := by
  intro t
  have hOuter : p.depth < maxNesting := Nat.lt_of_succ_lt hRoom
  have hStatement : inner.counted.counted.statement { p with previous := t } =
      inner.counted.counted.statement p := ahead_nested hOuter (ahead_statement inner hRoom) t
  unfold declaration
  rw [hStatement]
  rfl

theorem ahead_script (inner : Level) (hRoom : p.depth.val + 1 < maxNesting) (fuel : Nat) :
    Ahead (script inner.counted.counted (fuel + 1)) p := by
  intro t
  unfold script
  rw [ahead_declaration inner hRoom t]
  rfl

/-! ## Checked constructs -/

variable {accepts : String → Prop}

theorem ahead_keeping {construct : Parser → Part Parser} (h : Ahead construct p) :
    Ahead (keeping construct) p := by
  intro t
  have hScope : SameScope { p with previous := t } = SameScope p := by
    funext q
    exact propext ⟨fun h => ⟨h.scopeDepth, h.locals, h.enclosing⟩,
      fun h => ⟨h.scopeDepth, h.locals, h.enclosing⟩⟩
  unfold keeping
  rw [h t, hScope]
  rfl

theorem ahead_checkedNested {construct : Parser → Part Parser} (hRoom : p.depth < maxNesting)
    (h : Ahead construct (p.deeper hRoom)) : Ahead (checkedNested construct) p := by
  intro t
  unfold checkedNested
  rw [dif_pos hRoom, dif_pos hRoom]
  exact congrArg (fun q : Part Parser => q >>= fun q => do
    Checked.require (0 < q.depth.val)
    return q.shallower) (h t)

theorem ahead_checkedExpression (inner : CheckedLevel) (hRoom : p.depth < maxNesting) :
    Ahead (checkedExpression (inner.counted accepts)) p :=
  ahead_keeping (ahead_checkedNested hRoom fun _ => rfl)

theorem ahead_checkedStatement (inner : CheckedLevel) (hRoom : p.depth < maxNesting) :
    Ahead (checkedStatement (inner.counted accepts)) p := by
  intro t
  unfold checkedStatement
  dsimp only
  split
  case h_7 =>
    unfold checkedExpressionStatement
    rw [ahead_checkedExpression inner hRoom t]
  all_goals rfl

theorem ahead_checkedDeclaration (inner : CheckedLevel) (hRoom : p.depth.val + 1 < maxNesting) :
    Ahead (checkedDeclaration ((inner.counted accepts).counted accepts)) p := by
  intro t
  have hOuter : p.depth < maxNesting := Nat.lt_of_succ_lt hRoom
  have hStatement : ((inner.counted accepts).counted accepts).statement { p with previous := t } =
      ((inner.counted accepts).counted accepts).statement p :=
    ahead_keeping (ahead_checkedNested hOuter (ahead_checkedStatement inner hRoom)) t
  have hMore : OneMore { p with previous := t } = OneMore p := by
    funext q
    exact propext ⟨fun h => ⟨h.scopeDepth, h.locals, h.enclosing⟩,
      fun h => ⟨h.scopeDepth, h.locals, h.enclosing⟩⟩
  unfold checkedDeclaration
  rw [hStatement, hMore]
  rfl

variable (accepts) in
theorem ahead_checkedScript (inner : CheckedLevel) (hRoom : p.depth.val + 1 < maxNesting) (fuel : Nat) :
    Ahead (checkedScript ((inner.counted accepts).counted accepts) (fuel + 1)) p := by
  intro t
  unfold checkedScript
  rw [ahead_checkedDeclaration inner hRoom t]
  rfl

end

/-! ## The whole source -/

/-- Nothing is nested before the first token is read. -/
theorem room_start (ts : List Token) (heap : Heap) : (start ts heap).depth.val + 1 < maxNesting := by
  rw [← recount_start ts heap]
  change (0 : Fin (maxNesting + 1)).val + 1 < maxNesting
  decide

theorem total_start (ts : List Token) (heap : Heap) : (start ts heap).total = ts.length := by
  rw [← recount_start ts heap]
  rfl

end Parser

open Lox.Parser

theorem Token.Terminated.exists_length {ts : List Token} (h : Token.Terminated ts) :
    ∃ n, ts.length = n + 1 := by
  cases h with
  | last => exact ⟨0, rfl⟩
  | cons => exact ⟨_, rfl⟩

/-- The compiler does the same with any token in place of the placeholder. -/
theorem compile_primed (t : Token) (source : String) (heap : Heap) :
    compile source heap = (script Level.outermost (Scanner.tokens source).length
      (primed t (Scanner.tokens source) heap).advance).conclude := by
  have ht := Scanner.terminated_tokens source
  obtain ⟨n, hn⟩ := ht.exists_length
  have hScript := ahead_script (Level.tooDeep.stack 255) (room_start (Scanner.tokens source) heap) n t
  unfold compile Level.outermost
  dsimp only
  rw [total_start, advance_primed ht, hn]
  exact congrArg conclude hScript.symm

theorem checkedCompile_primed (t : Token) (accepts : String → Prop) (source : String) (heap : Heap) :
    checkedCompile accepts source heap = (checkedScript (CheckedLevel.outermost accepts)
      (Scanner.tokens source).length (primed t (Scanner.tokens source) heap).advance).bind
        fun p => .some p.conclude := by
  have ht := Scanner.terminated_tokens source
  obtain ⟨n, hn⟩ := ht.exists_length
  have hScript := ahead_checkedScript accepts (CheckedLevel.tooDeep.stack accepts 255)
    (room_start (Scanner.tokens source) heap) n t
  unfold checkedCompile CheckedLevel.outermost
  dsimp only
  rw [total_start, advance_primed ht, hn]
  exact congrArg (·.bind fun p => .some p.conclude) hScript.symm

end Lox
