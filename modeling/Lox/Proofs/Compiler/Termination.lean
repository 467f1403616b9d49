import Lox.Proofs.Compiler.Correctness

/-!
# The compiler comes to an end

Every loop of the compiler ends because its own test fails and not because its rounds are used up, and
constructs nest no deeper than the counter allows: with more rounds and more levels the compiler gives the
same result (`compile_terminates`). The reason is that a round of a loop reads a token (`Parser.Halts`),
on malformed sources too, and that nothing below the counted levels is ever used.
-/

set_option autoImplicit false

namespace Lox

open Lox.Parser (maxNesting)

namespace Parser

/-- `p'` is behind a construct that starts at `p`: the counter has its old value again, and the tokens
that are left are the last ones of those before. -/
structure Returns (p p' : Parser) : Prop where
  depth : p'.depth = p.depth
  fed : p'.Fed
  toks : p'.toks <:+ p.toks

/-- At a state of the compiler all constructs of a level return and all loops end. A loop with a test
behind its round starts with one round. -/
structure Halts (inner : Level) (p : Parser) : Prop where
  statement : p.Returns (inner.statement p)
  operand : ∀ layer, layer ≠ .none → p.Returns (inner.operand layer p)
  function : p.Returns (inner.function p)
  declaration : p.Returns (p.declaration inner)
  /-- In front of the end token a declaration reads a token. -/
  reads : p.check .eof = false → (p.declaration inner).toks <:+ p.rest
  operators : ∀ layer, layer ≠ .none →
    Loop.Ends (binds layer) (readOperator inner) p (operators inner layer p.total p)
  arguments : Loop.Ends (·.2.check .comma) (nextArgument inner) (readArgument inner 0 p)
    (arguments inner p.total 0 p)
  parameters : Loop.Ends (·.check .comma) nextParameter p.countParameter.readParameter
    (parameters p.total p)
  block : Loop.Ends inBlock (Parser.declaration inner) p (declarations inner p.total p)
  synchronize : Loop.Ends skips advance { p with recovering := false } p.synchronize
  giveUp : Loop.Ends unfinished advance { p.errorAtCurrent .nestingTooDeep with tooDeep := true }
    p.giveUp
  script : ∃ last, Loop.Ends unfinished (Parser.declaration inner) p last ∧
    script inner p.total p = last.advance

theorem Tracks.returns {ts : List Token} {n : Nat} {p p' q : Parser}
    (h : Tracks ts p.total p.depth n p' q) (ht : ts <:+ p.toks) : p.Returns q where
  depth := h.depth
  fed := ⟨h.toks ▸ h.terminated, by rw [h.toks, h.total']; exact h.narrow.rounds'⟩
  toks := by
    rw [h.toks]
    exact h.suffix.trans ht

theorem Fed.halts {p : Parser} (h : p.Fed) (below : Level) {height : Nat}
    (hHeight : maxNesting < p.depth + height) : p.Halts (below.stack height) := by
  have hDepth := p.depth.isLt
  have hi : (Level.ofDepth (maxNesting - p.depth)).Tracks p.total p.depth p.total (below.stack height) :=
    Level.tracks_stack below (by omega) (by omega)
  have hSelf := Tracks.refl h
  have hQuiet := hSelf.map ({ · with recovering := false }) rfl rfl rfl
  have hReport := hSelf.errorAtCurrent .nestingTooDeep
  have hDeep := hReport.map ({ · with tooDeep := true }) rfl rfl rfl
  have hRounds : p.rest.length < p.total := h.rounds
  have hRounds' : (p.errorAtCurrent .nestingTooDeep).rest.length ≤
      (p.errorAtCurrent .nestingTooDeep).total := hReport.total.symm ▸ hReport.rest_length_lt.1.le
  have hDeclaration := hSelf.declaration hi
  refine {
    statement := (hi.statement hSelf).returns p.behind_suffix
    operand := fun layer hLayer => (hi.operand layer hLayer hSelf).returns p.behind_suffix
    function := (hi.function hSelf).returns List.suffix_rfl
    declaration := hDeclaration.returns p.behind_suffix
    reads := fun hEnd => ?_
    operators := fun layer hLayer => (hSelf.operators hi hLayer hRounds.le hRounds.le).1
    arguments := (hSelf.arguments hi 0 hRounds hRounds).1
    parameters := (hSelf.parameters hRounds hRounds).1
    block := (hSelf.declarations hi hRounds.le hRounds.le).1
    synchronize := (hQuiet.skipStatement hRounds.le hRounds.le).1
    giveUp := (hDeep.skipToEnd hRounds' hRounds').1
    script := (hSelf.script hi hRounds hRounds).1 }
  rw [hDeclaration.toks, ← behind_eq_rest hEnd]
  exact hDeclaration.suffix

end Parser

/-- The compiler gives a result on every source text. With more rounds for its loops and more levels of
constructs, over whatever level, the result is the same; so no loop ends for want of rounds, and no
construct is compiled deeper than the counter allows. The counter starts at 0 and never exceeds its
limit, and wherever the compiler is, each construct leaves the counter as it was, a declaration reads a
token unless only the end token is left, and all loops end. -/
theorem compile_terminates (source : String) (heap : Heap) :
    (∀ (below : Level) (height rounds : Nat), maxNesting < height →
      (Scanner.tokens source).length ≤ rounds →
        compileWithin (below.stack height) rounds source heap = compile source heap) ∧
    (Parser.start (Scanner.tokens source) heap).Fed ∧
    (Parser.start (Scanner.tokens source) heap).depth = 0 ∧
    ∀ p : Parser, p.depth ≤ maxNesting ∧ (p.Fed → ∀ (below : Level) (height : Nat),
      maxNesting < p.depth + height → p.Halts (below.stack height)) := by
  refine ⟨fun below height rounds hHeight hRounds => ?_, ?_, ?_, fun p => ⟨?_, ?_⟩⟩
  · rw [compileWithin_eq_conclude below hHeight source hRounds, compile_eq_conclude]
  · exact Parser.fed_start (Scanner.terminated_tokens source) heap
  · rw [← Parser.recount_start]
    rfl
  · exact Nat.le_of_lt_succ p.depth.isLt
  · intro hFed below height hHeight
    exact hFed.halts below hHeight

/-- A malformed source text, and the compiler in front of it with a counter that is full. -/
theorem compile_terminates_malformed :
    let source := r"{ fun f(a, { print (1 + ;"
    let p := { Parser.start (Scanner.tokens source) {} with depth := Fin.last maxNesting }
    maxNesting < 300 ∧ (Scanner.tokens source).length ≤ 20 ∧
      compileWithin (Level.tooDeep.stack 300) 20 source {} = compile source {} ∧
      p.Fed ∧ p.check .eof = false ∧ maxNesting < p.depth + 1 ∧ p.Halts (Level.tooDeep.stack 1) := by
  intro source p
  obtain ⟨hSame, hFed, -, hHalts⟩ := compile_terminates source {}
  have hFed' : p.Fed := ⟨hFed.terminated, hFed.rounds⟩
  exact ⟨by decide, by decide, hSame _ _ _ (by decide) (by decide), hFed', by decide,
    Nat.lt_succ_self _, (hHalts p).2 hFed' _ _ (Nat.lt_succ_self _)⟩

end Lox
