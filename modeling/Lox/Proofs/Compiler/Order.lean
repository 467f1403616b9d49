import Lox.Proofs.Compiler.Correctness
import Lox.Proofs.Compiler.Course
import Lox.Proofs.Compiler.Tidy
import Lox.Proofs.Scanner.LongestMatch

/-!
# Problems in the order of the source

The compiler reports problems line by line, and that constructs nest too deep as the last of them
(`diagnostics_in_order`). Lines go up because a problem is reported at the token to be read next or at the
one read last; the latter is not in front of a problem, unless the compiler is quiet anyway
(`Parser.Ordered.read`).
-/

set_option autoImplicit false

namespace Lox

theorem Problem.message_nestingTooDeep {problem : Problem} (h : problem.message = "Nesting too deep.") :
    problem = .nestingTooDeep := by
  cases problem with
  | nestingTooDeep => rfl
  | scan cause => cases cause <;> exact absurd h (by decide)
  | expected what => cases what <;> exact absurd h (by decide)
  | _ => exact absurd h (by decide)

namespace Parser

/-! ## Lists of problems -/

/-- The problems reported so far are in order: where the compiler is quiet there is one, their lines do not
go back, and nothing was reported after that constructs nest too deep. -/
structure Listed (p : Parser) : Prop where
  sane : p.Sane
  sorted : p.diagnostics.toList.Pairwise fun d later => d.line ≤ later.line
  shallow : p.tooDeep = false → ∀ d ∈ p.diagnostics.toList, d.problem ≠ .nestingTooDeep
  last : ∀ d ∈ p.diagnostics.toList.dropLast, d.problem ≠ .nestingTooDeep

/-- Whether problems are not reported. -/
def Quiet (p : Parser) : Prop := p.recovering = true ∨ p.tooDeep = true

variable {p : Parser} {t : Token} {problem : Problem}

theorem report_cases (p : Parser) (t : Token) (problem : Problem) :
    p.Quiet ∧ p.report t problem = p ∨ p.tooDeep = false ∧ p.report t problem =
      { p with recovering := true, diagnostics := p.diagnostics.push (.ofToken t problem) } := by
  unfold report Quiet
  split
  · rename_i h
    exact .inl ⟨by simpa using h, rfl⟩
  · rename_i h
    exact .inr ⟨by simp at h; exact h.2, rfl⟩

theorem quiet_report (p : Parser) (t : Token) (problem : Problem) : (p.report t problem).Quiet := by
  rcases p.report_cases t problem with ⟨hQuiet, hEq⟩ | ⟨-, hEq⟩
  · rwa [hEq]
  · rw [hEq]
    exact .inl rfl

theorem previous_report (p : Parser) (t : Token) (problem : Problem) :
    (p.report t problem).previous = p.previous := by
  rcases p.report_cases t problem with ⟨-, hEq⟩ | ⟨-, hEq⟩ <;> rw [hEq]

theorem mem_report {d : Diagnostic} (hd : d ∈ (p.report t problem).diagnostics.toList) :
    d ∈ p.diagnostics.toList ∨ d.line = t.line := by
  rcases p.report_cases t problem with ⟨-, hEq⟩ | ⟨-, hEq⟩
  · rw [hEq] at hd
    exact .inl hd
  · rw [hEq, Array.toList_push, List.mem_append, List.mem_singleton] at hd
    rcases hd with hd | rfl
    · exact .inl hd
    · exact .inr rfl

namespace Listed

theorem push (h : p.Listed) (problem : Problem) (hDeep : p.tooDeep = false)
    (hLine : ∀ d ∈ p.diagnostics.toList, d.line ≤ t.line) :
    (p.diagnostics.push (.ofToken t problem)).toList.Pairwise (fun d later => d.line ≤ later.line) ∧
      ∀ d ∈ (p.diagnostics.push (.ofToken t problem)).toList.dropLast, d.problem ≠ .nestingTooDeep := by
  rw [Array.toList_push, List.dropLast_concat]
  refine ⟨List.pairwise_append.2 ⟨h.sorted, List.pairwise_singleton .., fun d hd later hLater => ?_⟩,
    h.shallow hDeep⟩
  obtain rfl := List.mem_singleton.1 hLater
  exact hLine d hd

/-- A problem behind the others. -/
theorem report (h : p.Listed) (hNew : problem ≠ .nestingTooDeep)
    (hLine : ∀ d ∈ p.diagnostics.toList, d.line ≤ t.line) : (p.report t problem).Listed := by
  have hSane := (writes_report p t problem).sane h.sane
  rcases p.report_cases t problem with ⟨-, hEq⟩ | ⟨hDeep, hEq⟩
  · rwa [hEq]
  · obtain ⟨hSorted, hLast⟩ := h.push problem hDeep hLine
    rw [hEq] at hSane ⊢
    refine ⟨hSane, hSorted, fun _ d hd => ?_, hLast⟩
    rw [Array.toList_push, List.mem_append, List.mem_singleton] at hd
    rcases hd with hd | rfl
    · exact h.shallow hDeep d hd
    · exact hNew

/-- The last problem. -/
theorem giveUp (h : p.Listed) (hLine : ∀ d ∈ p.diagnostics.toList, d.line ≤ t.line) :
    { p.report t .nestingTooDeep with tooDeep := true }.Listed := by
  have hSome := not_clean_report h.sane t .nestingTooDeep
  rcases p.report_cases t .nestingTooDeep with ⟨-, hEq⟩ | ⟨hDeep, hEq⟩
  · rw [hEq] at hSome ⊢
    exact ⟨fun hc => absurd hc hSome, h.sorted, fun hFalse => absurd hFalse (by simp), h.last⟩
  · obtain ⟨hSorted, hLast⟩ := h.push .nestingTooDeep hDeep hLine
    rw [hEq] at hSome ⊢
    exact ⟨fun hc => absurd hc hSome, hSorted, fun hFalse => absurd hFalse (by simp), hLast⟩

end Listed

/-! ## Tokens -/

/-- A parser that is to make the first of some tokens current that is no error token. -/
structure Shifting (bound : Nat) (ts : List Token) (p : Parser) : Prop extends Listed p where
  tokens : ts.Pairwise fun t later => t.line ≤ later.line
  fit : ∀ t ∈ ts, 1 ≤ t.line ∧ t.line ≤ bound
  previous : 1 ≤ p.previous.line ∧ p.previous.line ≤ bound ∧ ∀ t ∈ ts, p.previous.line ≤ t.line
  problems : ∀ d ∈ p.diagnostics.toList, 1 ≤ d.line ∧ ∀ t ∈ ts, d.line ≤ t.line
  read : p.Quiet ∨ ∀ d ∈ p.diagnostics.toList, d.line ≤ p.previous.line

/-- The problems reported so far are in order, and so are the tokens; no problem lies behind the token to be
read next, and none behind the token read last where that may have a problem. -/
structure Ordered (bound : Nat) (b : Bool) (p : Parser) : Prop extends Listed p where
  tokens : (p.previous :: p.current :: p.rest).Pairwise fun t later => t.line ≤ later.line
  fit : ∀ t ∈ p.previous :: p.current :: p.rest, 1 ≤ t.line ∧ t.line ≤ bound
  terminated : p.rest = [] ∨ Token.Terminated p.rest
  problems : ∀ d ∈ p.diagnostics.toList, 1 ≤ d.line ∧ d.line ≤ p.current.line
  read : b = true → p.Quiet ∨ ∀ d ∈ p.diagnostics.toList, d.line ≤ p.previous.line

variable {bound : Nat} {b : Bool} {ts : List Token}

namespace Shifting

/-- An error token is reported. -/
theorem report (h : p.Shifting bound (t :: ts)) (hNew : problem ≠ .nestingTooDeep) :
    (p.report t problem).Shifting bound ts := by
  obtain ⟨hFirst, hTokens⟩ := List.pairwise_cons.1 h.tokens
  obtain ⟨hFit, hFits⟩ := List.forall_mem_cons.1 h.fit
  refine ⟨h.toListed.report hNew fun d hd => (h.problems d hd).2 t List.mem_cons_self, hTokens, hFits, ?_,
    fun d hd => ?_, .inl (p.quiet_report t problem)⟩
  · rw [previous_report]
    exact ⟨h.previous.1, h.previous.2.1, fun t' ht' => h.previous.2.2 t' (List.mem_cons_of_mem t ht')⟩
  · rcases mem_report hd with hd | hEq
    · exact ⟨(h.problems d hd).1, fun t' ht' => (h.problems d hd).2 t' (List.mem_cons_of_mem t ht')⟩
    · rw [hEq]
      exact ⟨hFit.1, hFirst⟩

/-- A token that is no error token becomes current. -/
theorem current (h : p.Shifting bound (t :: ts)) (hEnd : ts = [] ∨ Token.Terminated ts) :
    { p with current := t, rest := ts }.Ordered bound true where
  toListed := ⟨h.sane, h.sorted, h.shallow, h.last⟩
  tokens := .cons h.previous.2.2 h.tokens
  fit := List.forall_mem_cons.2 ⟨⟨h.previous.1, h.previous.2.1⟩, h.fit⟩
  terminated := hEnd
  problems := fun d hd => ⟨(h.problems d hd).1, (h.problems d hd).2 t List.mem_cons_self⟩
  read := fun _ => h.read

theorem shift (h : p.Shifting bound ts) (hEnd : Token.Terminated ts) : (shift ts p).Ordered bound true := by
  induction hEnd generalizing p with
  | @last t hKind =>
    unfold Parser.shift
    rw [hKind]
    exact h.current (.inl rfl)
  | @cons t ts _ hEnd ih =>
    unfold Parser.shift
    split
    · exact ih (h.report (by simp))
    · exact h.current (.inr hEnd)

end Shifting

namespace Ordered

theorem behind (h : p.Ordered bound b) : ∀ t ∈ p.rest, p.current.line ≤ t.line :=
  (List.pairwise_cons.1 (List.pairwise_cons.1 h.tokens).2).1

theorem advance (h : p.Ordered bound b) : p.advance.Ordered bound true := by
  obtain ⟨-, hTokens⟩ := List.pairwise_cons.1 h.tokens
  obtain ⟨-, hFits⟩ := List.forall_mem_cons.1 h.fit
  obtain ⟨hCurrent, hFit⟩ := List.forall_mem_cons.1 hFits
  have hListed : { p with previous := p.current }.Listed := ⟨h.sane, h.sorted, h.shallow, h.last⟩
  have hRead : ∀ d ∈ p.diagnostics.toList, d.line ≤ p.current.line := fun d hd => (h.problems d hd).2
  unfold Parser.advance
  rcases h.terminated with hNil | hEnd
  · -- Behind the end the current token stays, and it has been read.
    rw [hNil] at hTokens ⊢
    exact
      { toListed := ⟨h.sane, h.sorted, h.shallow, h.last⟩
        tokens := .cons (List.forall_mem_singleton.2 (Nat.le_refl _)) hTokens
        fit := List.forall_mem_cons.2 ⟨hCurrent, List.forall_mem_singleton.2 hCurrent⟩
        terminated := .inl rfl
        problems := h.problems
        read := fun _ => .inr hRead }
  · have hShifting : { p with previous := p.current }.Shifting bound p.rest :=
      ⟨hListed, (List.pairwise_cons.1 hTokens).2, hFit, ⟨hCurrent.1, hCurrent.2, h.behind⟩,
        fun d hd => ⟨(h.problems d hd).1, fun t ht => (hRead d hd).trans (h.behind t ht)⟩, .inr hRead⟩
    exact hShifting.shift hEnd

/-- A problem was reported at one of the two tokens at hand. -/
theorem reported (h : p.Ordered bound b) (ht : t = p.previous ∨ t = p.current) {q : Parser}
    (hListed : q.Listed) (hQuiet : q.Quiet) (hPrevious : q.previous = p.previous)
    (hCurrent : q.current = p.current) (hRest : q.rest = p.rest)
    (hProblems : q.diagnostics = (p.report t problem).diagnostics) : q.Ordered bound true := by
  have hLine : 1 ≤ t.line ∧ t.line ≤ p.current.line := by
    rcases ht with rfl | rfl
    · exact ⟨(h.fit _ List.mem_cons_self).1, (List.pairwise_cons.1 h.tokens).1 _ List.mem_cons_self⟩
    · exact ⟨(h.fit _ (by simp)).1, Nat.le_refl _⟩
  refine ⟨hListed, ?_, ?_, ?_, fun d hd => ?_, fun _ => .inl hQuiet⟩
  · rw [hPrevious, hCurrent, hRest]
    exact h.tokens
  · rw [hPrevious, hCurrent, hRest]
    exact h.fit
  · rw [hRest]
    exact h.terminated
  · rw [hCurrent]
    rw [hProblems] at hd
    rcases mem_report hd with hd | hEq
    · exact h.problems d hd
    · rwa [hEq]

theorem report (h : p.Ordered bound b) (ht : t = p.previous ∨ t = p.current)
    (hListed : (p.report t problem).Listed) : (p.report t problem).Ordered bound true :=
  h.reported ht hListed (p.quiet_report t problem) (p.previous_report t problem)
    (writes_report p t problem).current (writes_report p t problem).rest rfl

/-- Each move keeps the order. -/
theorem course {p' : Parser} {b' : Bool} (h : p.Ordered bound b) (hc : Course b p b' p') :
    p'.Ordered bound b' := by
  induction hc with
  | refl => exact h
  | advance _ ih => exact ih.advance
  | errorAtCurrent hNew _ ih =>
    exact ih.report (.inr rfl) (ih.toListed.report hNew fun d hd => (ih.problems d hd).2)
  | @error q problem hNew _ ih =>
    refine ih.report (.inl rfl) ?_
    rcases ih.read rfl with hQuiet | hRead
    · -- Nothing is reported.
      have hSame : q.report q.previous problem = q := by
        unfold Parser.report
        rw [if_pos (by simpa [Quiet] using hQuiet)]
      rw [hSame]
      exact ih.toListed
    · exact ih.toListed.report hNew hRead
  | recover _ ih =>
    exact ⟨⟨fun hClean => ⟨rfl, (ih.sane hClean).2⟩, ih.sorted, ih.shallow, ih.last⟩, ih.tokens, ih.fit,
      ih.terminated, ih.problems, fun hb => absurd hb (by simp)⟩
  | @giveUp _ q _ ih =>
    have hw := writes_report q q.current .nestingTooDeep
    exact ih.reported (.inr rfl) (ih.toListed.giveUp fun d hd => (ih.problems d hd).2) (.inr rfl)
      (q.previous_report q.current .nestingTooDeep) hw.current hw.rest rfl
  | make depth heap draft enclosing _ ih =>
    exact ⟨⟨ih.sane, ih.sorted, ih.shallow, ih.last⟩, ih.tokens, ih.fit, ih.terminated, ih.problems, ih.read⟩
  | loosen _ ih => exact { ih with read := fun hb => absurd hb (by simp) }

end Ordered

/-! ## The whole source -/

/-- Before the first token is read. -/
theorem ordered_primed (source : String) (heap : Heap) :
    (primed .first (Scanner.tokens source) heap).Ordered (Lexis.line source.toList) false := by
  have hSplits : Lexis.Splits [] source.toList (Scanner.tokens source) :=
    Scanner.splits_list (Scanner.ofSource source) rfl
  obtain ⟨hFit, hSorted⟩ := hSplits.fit
  have hFirst : ∀ t ∈ Scanner.tokens source, 1 ≤ t.line := fun t ht => (hFit t ht).1.first
  have hOne : 1 ≤ 1 ∧ 1 ≤ Lexis.line source.toList := ⟨Nat.le_refl 1, Nat.le_add_right ..⟩
  exact
    { sane := fun _ => ⟨rfl, rfl⟩
      sorted := .nil
      shallow := by simp [primed, unread]
      last := by simp [primed, unread]
      tokens := .cons (List.forall_mem_cons.2 ⟨Nat.le_refl 1, hFirst⟩) (.cons hFirst hSorted)
      fit := List.forall_mem_cons.2 ⟨hOne, List.forall_mem_cons.2 ⟨hOne, fun t ht =>
        ⟨(hFit t ht).1.first, (hFit t ht).1.last⟩⟩⟩
      terminated := .inr (Scanner.terminated_tokens source)
      problems := by simp [primed, unread]
      read := fun hb => absurd hb (by simp) }

/-- No move takes a problem back. -/
theorem Course.clean {b' : Bool} {p' : Parser} (h : Course b p b' p') (hc : p'.Clean) : p.Clean := by
  induction h with
  | refl => exact hc
  | advance _ ih => exact ih ((leads_advance _).clean hc)
  | errorAtCurrent _ _ ih => exact ih ((writes_errorAtCurrent ..).clean hc)
  | error _ _ ih => exact ih ((writes_error ..).clean hc)
  | recover _ ih => exact ih hc
  | @giveUp _ q _ ih => exact ih ((writes_errorAtCurrent q .nestingTooDeep).clean hc)
  | make _ _ _ _ _ ih => exact ih hc
  | loosen _ ih => exact ih hc

/-- On no course is the compiler quiet without a problem. -/
theorem Course.sane {b' : Bool} {p' : Parser} (h : Course b p b' p') (hs : p.Sane) : p'.Sane := by
  induction h with
  | refl => exact hs
  | advance _ ih => exact (leads_advance _).sane ih
  | errorAtCurrent _ _ ih => exact (writes_errorAtCurrent ..).sane ih
  | error _ _ ih => exact (writes_error ..).sane ih
  | recover _ ih => exact fun hClean => ⟨rfl, (ih hClean).2⟩
  | @giveUp _ q _ ih => exact fun hClean => absurd hClean (not_clean_report ih q.current .nestingTooDeep)
  | make _ _ _ _ _ ih => exact ih
  | loosen _ ih => exact ih

/-- A source text without a problem compiles, and one with problems has them all. -/
theorem conclude_cases (p : Parser) : p.Clean ∧ (∃ f, p.conclude.1 = .ok f) ∨
    ¬ p.Clean ∧ p.conclude.1 = .error p.diagnostics.toList := by
  obtain ⟨-, -, hDiagnostics⟩ := p.endFunction_spec
  unfold conclude
  dsimp only
  rw [hDiagnostics]
  split
  · rename_i hEmpty
    exact .inl ⟨Array.isEmpty_iff.1 hEmpty, _, rfl⟩
  · rename_i hEmpty
    exact .inr ⟨fun hClean => hEmpty (Array.isEmpty_iff.2 hClean), rfl⟩

end Parser

/-- The problems of a source text that does not compile come in the order of its lines, and that constructs
nest too deep is the last one. Every error token is a problem. Every construct, at any depth and in any state,
is a course of the compiler, and so is a whole source text; and at every moment of such a course, when the
compiler is quiet there is a problem already, so that the source text does not compile. -/
theorem diagnostics_in_order (source : String) (heap : Heap) :
    (∀ problems, (compile source heap).1 = .error problems →
      problems ≠ [] ∧ (problems.Pairwise fun d later => d.line ≤ later.line) ∧
      (∀ d ∈ problems, 1 ≤ d.line ∧ d.line ≤ 1 + source.toList.count '\n') ∧
      ∀ d ∈ problems.dropLast, d.problem.message ≠ "Nesting too deep.") ∧
    (∀ t ∈ Scanner.tokens source, ∀ cause, t.kind = .error cause →
      ∃ problems, (compile source heap).1 = .error problems) ∧
    (∀ height, (Level.tooDeep.stack height).Course ∧
      ∀ b p, Parser.Course b p false (Parser.declaration (Level.tooDeep.stack height) p)) ∧
    ∃ last, Parser.Course false (.unread (Scanner.tokens source) heap) false last ∧
      compile source heap = last.conclude ∧
      ∀ b p, Parser.Course false (.unread (Scanner.tokens source) heap) b p →
        p.recovering = true ∨ p.tooDeep = true → p.diagnostics ≠ #[] ∧
          (Parser.Course b p false last → ∃ problems, (compile source heap).1 = .error problems) := by
  obtain ⟨last, hCourse, hCompile⟩ := Parser.course_compile Parser.placeholder source heap
  obtain ⟨last', hCourse', hCompile'⟩ := Parser.course_compile .first source heap
  have hOrdered := (Parser.ordered_primed source heap).course hCourse'
  refine ⟨fun problems hProblems => ?_, fun t ht cause hKind => ?_, fun height => ?_, last, hCourse, hCompile,
    fun b p hNow hQuiet => ?_⟩
  · rw [hCompile'] at hProblems
    rcases last'.conclude_cases with ⟨-, f, hOk⟩ | ⟨hNot, hError⟩
    · cases hOk.symm.trans hProblems
    cases hError.symm.trans hProblems
    refine ⟨fun hNil => hNot (Array.toList_eq_nil_iff.1 hNil), hOrdered.sorted, fun d hd => ?_,
      fun d hd hMessage => hOrdered.last d hd (Problem.message_nestingTooDeep hMessage)⟩
    obtain ⟨hFirst, hLast⟩ := hOrdered.problems d hd
    exact ⟨hFirst, hLast.trans (hOrdered.fit last'.current (by simp)).2⟩
  · cases hResult : (compile source heap).1 with
    | error problems => exact ⟨problems, rfl⟩
    | ok f =>
      obtain ⟨r, hd⟩ := derives_of_compile hResult
      exact absurd hKind (hd.closed.ne_error t ht cause)
  · exact ⟨Level.course_stack height, fun _ => Parser.course_declaration (Level.course_stack height)⟩
  · have hSome : ¬ p.Clean := by
      intro hClean
      obtain ⟨hRecovering, hDeep⟩ := hNow.sane (fun _ => ⟨rfl, rfl⟩) hClean
      rw [hRecovering, hDeep] at hQuiet
      simp at hQuiet
    refine ⟨hSome, fun hRest => ?_⟩
    rw [hCompile]
    rcases last.conclude_cases with ⟨hClean, -⟩ | ⟨-, hError⟩
    · exact absurd (hRest.clean hClean) hSome
    · exact ⟨_, hError⟩

-- An error token that is skipped on the way to the next statement is a problem too, and hides those of the
-- next statement.
example : checkSource "print );\nvar 1 @;\nprint 2" = .error [⟨1, .lexeme ")", .expectedExpression⟩,
    ⟨2, .lexeme "1", .expected .variableName⟩, ⟨2, .unplaced, .scan .unexpectedCharacter⟩] := by
  decide +kernel

end Lox
