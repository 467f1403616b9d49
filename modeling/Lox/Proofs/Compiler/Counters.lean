import Lox.Proofs.Compiler.Phrases

/-!
# The counters of the compiler

Two numbers hold the compiler back: how deep constructs may nest and how many rounds a loop may have.
`Parser.Tracks`: two runs are at the same place but for these counters, and the tokens end with an end
token before the rounds of either are used up. Every parser keeps that, also on malformed sources, and a
statement, an operand or a declaration is tracked in fewer tokens than it started with. So the counter
of the nesting can be left out: a stack of counted levels, whatever is below it, does what
`Level.ofDepth` does, and has the counter back at its old value afterwards (`Level.tracks_stack`).
-/

set_option autoImplicit false

namespace Lox

/-! ## Loops -/

namespace Loop

variable {σ τ : Type}

/-- A loop that goes on while a test holds comes from `s` to `s'`. -/
inductive Ends (test : σ → Bool) (body : σ → σ) : σ → σ → Prop
  | done {s : σ} : test s = false → Ends test body s s
  | next {s s' : σ} : test s = true → Ends test body (body s) s' → Ends test body s s'

theorem Ends.test_eq_false {test : σ → Bool} {body : σ → σ} {s s' : σ} (h : Ends test body s s') :
    test s' = false := by
  induction h with
  | done h => exact h
  | next _ _ ih => exact ih

/-- The loop with at most `fuel` rounds. -/
def run (test : σ → Bool) (body : σ → σ) : Nat → σ → σ
  | 0, s => s
  | fuel + 1, s => if test s then run test body fuel (body s) else s

theorem run_of_stop {test : σ → Bool} {body : σ → σ} {s : σ} (h : test s = false) (fuel : Nat) :
    run test body fuel s = s := by
  cases fuel with
  | zero => rfl
  | succ fuel => simp [run, h]

theorem run_of_go {test : σ → Bool} {body : σ → σ} {s : σ} (h : test s = true) (fuel : Nat) :
    run test body (fuel + 1) s = run test body fuel (body s) := if_pos h

/-- Two loops that go along with each other, and whose rounds use something up, end with each other. -/
theorem ends_run {test : σ → Bool} {body : σ → σ} {test' : τ → Bool} {body' : τ → τ}
    (R : σ → τ → Prop) (size : σ → Nat) (hTest : ∀ {s t}, R s t → test s = test' t)
    (hBody : ∀ {s t}, R s t → test s = true → R (body s) (body' t) ∧ size (body s) < size s)
    (fuel fuel' : Nat) {s : σ} {t : τ} (h : R s t) (hFuel : size s ≤ fuel) (hFuel' : size s ≤ fuel') :
    Ends test' body' t (run test' body' fuel' t) ∧
      R (run test body fuel s) (run test' body' fuel' t) := by
  induction fuel generalizing fuel' s t with
  | zero =>
    have hStop : test s = false := by
      by_contra hGo
      have hLess := (hBody h (eq_true_of_ne_false hGo)).2
      omega
    have hStop' := (hTest h).symm.trans hStop
    rw [run_of_stop hStop, run_of_stop hStop']
    exact ⟨.done hStop', h⟩
  | succ fuel ih =>
    cases hGo : test s with
    | false =>
      have hStop' := (hTest h).symm.trans hGo
      rw [run_of_stop hGo, run_of_stop hStop']
      exact ⟨.done hStop', h⟩
    | true =>
      obtain ⟨hNext, hLess⟩ := hBody h hGo
      obtain ⟨fuel', rfl⟩ : ∃ rest, fuel' = rest + 1 := ⟨fuel' - 1, by omega⟩
      have hGo' := (hTest h).symm.trans hGo
      obtain ⟨hEnds, hRel⟩ := ih fuel' hNext (by omega) (by omega)
      rw [run_of_go hGo, run_of_go hGo']
      exact ⟨.next hGo' hEnds, hRel⟩

/-- A loop that makes a step and then finds out whether to go on, once it has ended. -/
theorem eq_run_of_repeat {ι : Type} (go : Nat → ι → σ) (step : ι → σ) (test : σ → Bool) (again : σ → ι)
    (hGo : ∀ fuel i, go (fuel + 1) i = if test (step i) then go fuel (again (step i)) else step i)
    (fuel : Nat) (i : ι) (h : test (run test (fun s => step (again s)) fuel (step i)) = false) :
    go (fuel + 1) i = run test (fun s => step (again s)) fuel (step i) := by
  induction fuel generalizing i with
  | zero =>
    rw [run] at h ⊢
    rw [hGo, h, if_neg Bool.false_ne_true]
  | succ fuel ih =>
    rw [hGo]
    cases hMore : test (step i) with
    | false => rw [run_of_stop hMore, if_neg Bool.false_ne_true]
    | true =>
      rw [run_of_go hMore] at h ⊢
      rw [if_pos rfl]
      exact ih _ h

end Loop

namespace Parser

/-! ## Two runs with their own counters -/

/-- The same with other counters. -/
def recount (p : Parser) (depth : Fin (maxNesting + 1)) (total : Nat) : Parser :=
  { p with depth, total }

/-- The tokens behind the next one. The end token stays when it is read. -/
def behind (p : Parser) : List Token := if p.check .eof then p.toks else p.rest

theorem behind_suffix (p : Parser) : p.behind <:+ p.toks := by
  unfold behind
  split
  · exact List.suffix_rfl
  · exact List.suffix_cons ..

theorem behind_eq_rest {p : Parser} (h : p.check .eof = false) : p.behind = p.rest :=
  if_neg (by simp [h])

/-- `q` is `p` with counters of its own. Their tokens are terminated and come from `ts`, and neither the
loops of `p` nor those of `q` have fewer rounds than there are tokens in `ts`. -/
structure Tracks (ts : List Token) (m : Nat) (d : Fin (maxNesting + 1)) (n : Nat) (p q : Parser) :
    Prop where
  eq : q = p.recount d n
  total : p.total = m
  terminated : Token.Terminated p.toks
  suffix : p.toks <:+ ts
  rounds : ts.length ≤ m
  rounds' : ts.length ≤ n

/-- The runs are alike and have the same result besides. -/
structure TracksResult (ts : List Token) (m : Nat) (d : Fin (maxNesting + 1)) (n : Nat) {α : Type}
    (r r' : α × Parser) : Prop where
  result : r'.1 = r.1
  tracks : Tracks ts m d n r.2 r'.2

theorem TracksResult.ite {ts : List Token} {m n : Nat} {d : Fin (maxNesting + 1)} {α : Type}
    {c c' : Prop} [Decidable c] [Decidable c'] {r s r' s' : α × Parser} (hc : c' ↔ c)
    (hr : TracksResult ts m d n r r') (hs : TracksResult ts m d n s s') :
    TracksResult ts m d n (if c then r else s) (if c' then r' else s') := by
  by_cases hIf : c
  · rw [if_pos hIf, if_pos (hc.2 hIf)]
    exact hr
  · rw [if_neg hIf, if_neg fun h => hIf (hc.1 h)]
    exact hs

namespace Tracks

variable {ts : List Token} {m n : Nat} {d : Fin (maxNesting + 1)} {p q p' q' : Parser}

theorem ite {c c' : Prop} [Decidable c] [Decidable c'] {a b a' b' : Parser} (hc : c' ↔ c)
    (ha : Tracks ts m d n a a') (hb : Tracks ts m d n b b') :
    Tracks ts m d n (if c then a else b) (if c' then a' else b') := by
  by_cases hIf : c
  · rw [if_pos hIf, if_pos (hc.2 hIf)]
    exact ha
  · rw [if_neg hIf, if_neg fun h => hIf (hc.1 h)]
    exact hb

theorem current (h : Tracks ts m d n p q) : q.current = p.current := by rw [h.eq]; rfl

theorem previous (h : Tracks ts m d n p q) : q.previous = p.previous := by rw [h.eq]; rfl

theorem draft (h : Tracks ts m d n p q) : q.draft = p.draft := by rw [h.eq]; rfl

theorem heap (h : Tracks ts m d n p q) : q.heap = p.heap := by rw [h.eq]; rfl

theorem depth (h : Tracks ts m d n p q) : q.depth = d := by rw [h.eq]; rfl

theorem total' (h : Tracks ts m d n p q) : q.total = n := by rw [h.eq]; rfl

theorem toks (h : Tracks ts m d n p q) : q.toks = p.toks := by rw [h.eq]; rfl

theorem check (h : Tracks ts m d n p q) (kind : Token.Kind) : q.check kind = p.check kind := by
  rw [Parser.check, Parser.check, h.current]

theorem check_iff (h : Tracks ts m d n p q) (kind : Token.Kind) :
    q.check kind = true ↔ p.check kind = true := by rw [h.check]

/-- What is tracked behind the next token is tracked as before. -/
theorem of (h' : Tracks p.behind m d n p' q') (h : Tracks ts m d n p q) : Tracks ts m d n p' q' :=
  { h' with
    suffix := h'.suffix.trans (p.behind_suffix.trans h.suffix)
    rounds := h.rounds
    rounds' := h.rounds' }

/-- A state is tracked in its own tokens. -/
theorem narrow (h : Tracks ts m d n p q) : Tracks p.toks m d n p q :=
  { h with
    suffix := List.suffix_rfl
    rounds := h.suffix.length_le.trans h.rounds
    rounds' := h.suffix.length_le.trans h.rounds' }

theorem rest_length_lt (h : Tracks ts m d n p q) : p.rest.length < m ∧ p.rest.length < n :=
  ⟨h.narrow.rounds, h.narrow.rounds'⟩

/-- A round that reads a token. -/
theorem round (h : Tracks ts m d n p q) (hEnd : p.check .eof = false)
    (h' : Tracks p.behind m d n p' q') : Tracks ts m d n p' q' ∧ p'.rest.length < p.rest.length := by
  refine ⟨h'.of h, ?_⟩
  have hLess := h'.suffix.length_le
  rw [behind_eq_rest hEnd] at hLess
  exact hLess

/-- Neither run reads a token. -/
theorem map (h : Tracks ts m d n p q) (f : Parser → Parser) (hToks : (f p).toks = p.toks)
    (hTotal : (f p).total = p.total) (hEq : f (p.recount d n) = (f p).recount d n) :
    Tracks ts m d n (f p) (f q) where
  eq := by rw [h.eq, hEq]
  total := hTotal.trans h.total
  terminated := hToks ▸ h.terminated
  suffix := hToks ▸ h.suffix
  rounds := h.rounds
  rounds' := h.rounds'

theorem made (h : Tracks ts m d n p q) (draft : Draft) (enclosing : List Draft) :
    Tracks ts m d n { p with draft, enclosing } { q with draft, enclosing } :=
  h.map (fun p => { p with draft, enclosing }) rfl rfl rfl

theorem redraft (h : Tracks ts m d n p q) (draft : Draft) :
    Tracks ts m d n { p with draft } { q with draft } := h.map (fun p => { p with draft }) rfl rfl rfl

theorem reheap (h : Tracks ts m d n p q) (heap : Heap) :
    Tracks ts m d n { p with heap } { q with heap } := h.map (fun p => { p with heap }) rfl rfl rfl

end Tracks

/-! ## Tokens and problems -/

theorem report_recount (p : Parser) (t : Token) (problem : Problem) (d : Fin (maxNesting + 1))
    (n : Nat) : (p.recount d n).report t problem = (p.report t problem).recount d n := by
  unfold report recount
  dsimp only
  split <;> rfl

theorem shift_recount (ts : List Token) (p : Parser) (d : Fin (maxNesting + 1)) (n : Nat) :
    shift ts (p.recount d n) = (shift ts p).recount d n := by
  induction ts generalizing p with
  | nil => rfl
  | cons t ts ih =>
    unfold shift
    split
    · rw [report_recount, ih]
    · rfl

theorem advance_recount (p : Parser) (d : Fin (maxNesting + 1)) (n : Nat) :
    (p.recount d n).advance = p.advance.recount d n :=
  shift_recount p.rest { p with previous := p.current } d n

/-- What is read next comes from the tokens that follow, of which the last is the end token. -/
theorem shift_toks {ts : List Token} (ht : Token.Terminated ts) (p : Parser) :
    (shift ts p).toks <:+ ts ∧ Token.Terminated (shift ts p).toks := by
  induction ht generalizing p with
  | last h =>
    unfold shift
    rw [h]
    exact ⟨List.suffix_rfl, .last h⟩
  | @cons t ts h ht ih =>
    unfold shift
    split
    · obtain ⟨hSuffix, hTerminated⟩ := ih (p.report t (.scan _))
      exact ⟨hSuffix.trans (List.suffix_cons ..), hTerminated⟩
    · exact ⟨List.suffix_rfl, .cons h ht⟩

theorem advance_toks {p : Parser} (ht : Token.Terminated p.toks) :
    p.advance.toks <:+ p.behind ∧ Token.Terminated p.advance.toks := by
  cases hEnd : p.check .eof with
  | true =>
    have hRest : p.rest = [] := by
      have hKind : p.current.kind = .eof := of_decide_eq_true hEnd
      generalize hToks : p.toks = toks at ht
      cases ht with
      | last _ => exact (List.cons.inj hToks).2
      | cons hNot _ => exact absurd ((List.cons.inj hToks).1 ▸ hKind) hNot
    have hAdvance : p.advance.toks = p.toks := by
      rw [advance, hRest, Parser.toks, Parser.toks, hRest]
      rfl
    rw [hAdvance, behind, hEnd, if_pos rfl]
    exact ⟨List.suffix_rfl, ht⟩
  | false =>
    have hRest : Token.Terminated p.rest := by
      have hKind : p.current.kind ≠ .eof := of_decide_eq_false hEnd
      generalize hToks : p.toks = toks at ht
      cases ht with
      | last h => exact absurd ((List.cons.inj hToks).1 ▸ h) hKind
      | cons _ h => exact (List.cons.inj hToks).2 ▸ h
    rw [behind_eq_rest hEnd]
    exact shift_toks hRest _

namespace Tracks

variable {ts : List Token} {m n : Nat} {d : Fin (maxNesting + 1)} {p q p' q' : Parser}

theorem error (h : Tracks ts m d n p q) (problem : Problem) :
    Tracks ts m d n (p.error problem) (q.error problem) :=
  h.map (·.error problem) (writes_error ..).toks (writes_error ..).total (report_recount ..)

theorem errorAtCurrent (h : Tracks ts m d n p q) (problem : Problem) :
    Tracks ts m d n (p.errorAtCurrent problem) (q.errorAtCurrent problem) :=
  h.map (·.errorAtCurrent problem) (writes_errorAtCurrent ..).toks (writes_errorAtCurrent ..).total
    (report_recount ..)

theorem advance (h : Tracks ts m d n p q) : Tracks p.behind m d n p.advance q.advance where
  eq := by rw [h.eq, advance_recount]
  total := (leads_advance p).total.trans h.total
  terminated := (advance_toks h.terminated).2
  suffix := (advance_toks h.terminated).1
  rounds := p.behind_suffix.length_le.trans h.narrow.rounds
  rounds' := p.behind_suffix.length_le.trans h.narrow.rounds'

theorem next (h : Tracks ts m d n p q) : Tracks ts m d n p.advance q.advance := h.advance.of h

theorem consume (h : Tracks ts m d n p q) (kind : Token.Kind) (what : Expected) :
    Tracks ts m d n (p.consume kind what) (q.consume kind what) :=
  ite (h.check_iff kind) h.next (h.errorAtCurrent _)

/-- Loops of which each round reads a token. -/
theorem loop {test test' : Parser → Bool} {body body' : Parser → Parser}
    (hTest : ∀ {p q : Parser}, Tracks ts m d n p q → test p = test' q)
    (hEnd : ∀ {p : Parser}, test p = true → p.check .eof = false)
    (hBody : ∀ {p q : Parser}, Tracks ts m d n p q → Tracks p.behind m d n (body p) (body' q))
    (h : Tracks ts m d n p q) {fuel fuel' : Nat} (hFuel : p.rest.length ≤ fuel)
    (hFuel' : p.rest.length ≤ fuel') :
    Loop.Ends test' body' q (Loop.run test' body' fuel' q) ∧
      Tracks ts m d n (Loop.run test body fuel p) (Loop.run test' body' fuel' q) :=
  Loop.ends_run (Tracks ts m d n) (fun p => p.rest.length) hTest
    (fun h hGo => h.round (hEnd hGo) (hBody h)) fuel fuel' h hFuel hFuel'

end Tracks

/-! ## Recovery -/

/-- Whether the end token is still to come. -/
def unfinished (p : Parser) : Bool := !p.check .eof

theorem not_end_of_unfinished {p : Parser} (h : p.unfinished = true) : p.check .eof = false :=
  Bool.not_eq_true' _ ▸ h

theorem skipToEnd_eq_run (fuel : Nat) (p : Parser) :
    skipToEnd fuel p = Loop.run unfinished advance fuel p := by
  induction fuel generalizing p with
  | zero => rfl
  | succ fuel ih =>
    unfold skipToEnd Loop.run unfinished
    cases p.check .eof with
    | true => rfl
    | false => exact ih _

/-- Whether the compiler skips the next token after a problem. -/
def skips (p : Parser) : Bool :=
  !(p.check .eof || p.previous.kind = .semicolon || startsStatement p.current.kind)

theorem not_end_of_skips {p : Parser} (h : p.skips = true) : p.check .eof = false := by
  unfold skips at h
  cases hEnd : p.check .eof with
  | true => simp [hEnd] at h
  | false => rfl

theorem skipStatement_eq_run (fuel : Nat) (p : Parser) :
    skipStatement fuel p = Loop.run skips advance fuel p := by
  induction fuel generalizing p with
  | zero => rfl
  | succ fuel ih =>
    unfold skipStatement Loop.run skips
    cases p.check .eof || p.previous.kind = .semicolon || startsStatement p.current.kind with
    | true => rfl
    | false => exact ih _

namespace Tracks

variable {ts : List Token} {m n : Nat} {d : Fin (maxNesting + 1)} {p q : Parser}

theorem unfinished (h : Tracks ts m d n p q) : p.unfinished = q.unfinished := by
  rw [Parser.unfinished, Parser.unfinished, h.check]

theorem skips (h : Tracks ts m d n p q) : p.skips = q.skips := by
  unfold Parser.skips
  rw [h.check, h.previous, h.current]

theorem skipStatement (h : Tracks ts m d n p q) {fuel fuel' : Nat} (hFuel : p.rest.length ≤ fuel)
    (hFuel' : p.rest.length ≤ fuel') :
    Loop.Ends Parser.skips Parser.advance q (Parser.skipStatement fuel' q) ∧
      Tracks ts m d n (Parser.skipStatement fuel p) (Parser.skipStatement fuel' q) := by
  rw [skipStatement_eq_run, skipStatement_eq_run]
  exact loop Tracks.skips not_end_of_skips Tracks.advance h hFuel hFuel'

theorem skipToEnd (h : Tracks ts m d n p q) {fuel fuel' : Nat} (hFuel : p.rest.length ≤ fuel)
    (hFuel' : p.rest.length ≤ fuel') :
    Loop.Ends Parser.unfinished Parser.advance q (Parser.skipToEnd fuel' q) ∧
      Tracks ts m d n (Parser.skipToEnd fuel p) (Parser.skipToEnd fuel' q) := by
  rw [skipToEnd_eq_run, skipToEnd_eq_run]
  exact loop Tracks.unfinished not_end_of_unfinished Tracks.advance h hFuel hFuel'

theorem synchronize (h : Tracks ts m d n p q) : Tracks ts m d n p.synchronize q.synchronize := by
  have hQuiet := h.map ({ · with recovering := false }) rfl rfl rfl
  obtain ⟨hRounds, hRounds'⟩ := hQuiet.rest_length_lt
  refine (hQuiet.skipStatement ?_ ?_).2
  · rw [h.total]
    exact hRounds.le
  · rw [h.total']
    exact hRounds'.le

/-- On the way to the end token at least one token is read, unless it is the only one left. -/
theorem skipToEnd_behind (h : Tracks ts m d n p q) {fuel fuel' : Nat} (hFuel : p.rest.length < fuel)
    (hFuel' : p.rest.length < fuel') :
    Tracks p.behind m d n (Parser.skipToEnd fuel p) (Parser.skipToEnd fuel' q) := by
  obtain ⟨fuel, rfl⟩ : ∃ rest, fuel = rest + 1 := ⟨fuel - 1, by omega⟩
  obtain ⟨fuel', rfl⟩ : ∃ rest, fuel' = rest + 1 := ⟨fuel' - 1, by omega⟩
  rw [Parser.skipToEnd, Parser.skipToEnd, h.check]
  cases hEnd : p.check .eof with
  | true =>
    rw [if_pos rfl, if_pos rfl, behind, hEnd, if_pos rfl]
    exact h.narrow
  | false =>
    obtain ⟨-, hLess⟩ := h.round hEnd h.advance
    rw [if_neg Bool.false_ne_true, if_neg Bool.false_ne_true]
    exact (h.advance.skipToEnd (by omega) (by omega)).2

theorem giveUp (h : Tracks ts m d n p q) : Tracks p.behind m d n p.giveUp q.giveUp := by
  have hReport := h.errorAtCurrent .nestingTooDeep
  have hDeep := hReport.map ({ · with tooDeep := true }) rfl rfl rfl
  have hw := writes_errorAtCurrent p .nestingTooDeep
  have hBehind : behind { p.errorAtCurrent .nestingTooDeep with tooDeep := true } = p.behind := by
    unfold behind Parser.check Parser.toks
    dsimp only
    rw [hw.current, hw.rest]
  obtain ⟨hRounds, hRounds'⟩ := hDeep.rest_length_lt
  rw [← hBehind]
  exact hDeep.skipToEnd_behind (hReport.total.symm ▸ hRounds) (hReport.total'.symm ▸ hRounds')

/-! ## Emission -/

theorem emitWith (h : Tracks ts m d n p q) (op : Opcode) (operand : Nat) :
    Tracks ts m d n (p.emitWith op operand) (q.emitWith op operand) :=
  h.map (·.emitWith op operand) rfl rfl rfl

theorem emit (h : Tracks ts m d n p q) (op : Opcode) : Tracks ts m d n (p.emit op) (q.emit op) :=
  h.emitWith op 0

theorem emits (ops : List Opcode) (h : Tracks ts m d n p q) :
    Tracks ts m d n (ops.foldl Parser.emit p) (ops.foldl Parser.emit q) := by
  induction ops generalizing p q with
  | nil => exact h
  | cons op ops ih => exact ih (h.emit op)

theorem emitReturn (h : Tracks ts m d n p q) : Tracks ts m d n p.emitReturn q.emitReturn :=
  (h.emit _).emit _

theorem here (h : Tracks ts m d n p q) : q.here = p.here := by rw [Parser.here, h.draft]; rfl

theorem makeConstant (h : Tracks ts m d n p q) (v : Value) :
    TracksResult ts m d n (p.makeConstant v) (q.makeConstant v) := by
  unfold Parser.makeConstant
  rw [h.draft]
  exact .ite .rfl ⟨rfl, h.redraft _⟩ ⟨rfl, h.error _⟩

theorem emitConstant (h : Tracks ts m d n p q) (v : Value) :
    Tracks ts m d n (p.emitConstant v) (q.emitConstant v) := by
  have hMade := h.makeConstant v
  unfold Parser.emitConstant
  dsimp only
  rw [hMade.result]
  exact hMade.tracks.emitWith ..

theorem intern (h : Tracks ts m d n p q) (text : String) :
    TracksResult ts m d n (p.intern text) (q.intern text) := by
  unfold Parser.intern
  rw [h.heap]
  exact ⟨rfl, h.reheap _⟩

theorem nameConstant (h : Tracks ts m d n p q) (name : String) :
    TracksResult ts m d n (p.nameConstant name) (q.nameConstant name) := by
  have hIntern := h.intern name
  unfold Parser.nameConstant
  dsimp only
  rw [hIntern.result, hIntern.tracks.draft]
  split
  · exact ⟨rfl, hIntern.tracks⟩
  · exact hIntern.tracks.makeConstant _

theorem emitJump (h : Tracks ts m d n p q) (op : Opcode) :
    TracksResult ts m d n (p.emitJump op) (q.emitJump op) := by
  have hJump := h.emitWith op maxDistance
  exact ⟨congrArg (· - 2) hJump.here, hJump⟩

theorem patchJump (h : Tracks ts m d n p q) (offset : Nat) :
    Tracks ts m d n (p.patchJump offset) (q.patchJump offset) := by
  unfold Parser.patchJump
  rw [h.here, h.draft]
  exact ite .rfl (h.redraft _) (h.error _)

theorem emitLoop (h : Tracks ts m d n p q) (start : Nat) :
    Tracks ts m d n (p.emitLoop start) (q.emitLoop start) := by
  have hWrite : Tracks ts m d n (p.writeBytes [Opcode.loop.toByte])
      (q.writeBytes [Opcode.loop.toByte]) := h.map (·.writeBytes _) rfl rfl rfl
  unfold Parser.emitLoop
  rw [h.here]
  exact ite .rfl (h.emitWith ..) (hWrite.error _)

/-! ## Functions, scopes and variables -/

theorem endFunction (h : Tracks ts m d n p q) :
    TracksResult ts m d n p.endFunction q.endFunction := by
  have hReturn := h.emitReturn
  have hEnclosing : q.emitReturn.enclosing = p.emitReturn.enclosing := by rw [hReturn.eq]; rfl
  unfold Parser.endFunction
  dsimp only
  rw [hEnclosing]
  split
  · exact ⟨hReturn.draft, hReturn.made ..⟩
  · exact ⟨hReturn.draft, hReturn.made ..⟩

theorem closeFunction (h : Tracks ts m d n p q) :
    Tracks ts m d n p.closeFunction q.closeFunction := by
  have hEnd := h.endFunction
  unfold Parser.closeFunction
  dsimp only
  rw [hEnd.result, hEnd.tracks.heap]
  exact (hEnd.tracks.reheap _).emitConstant _

theorem beginScope (h : Tracks ts m d n p q) : Tracks ts m d n p.beginScope q.beginScope :=
  h.map (·.beginScope) rfl rfl rfl

theorem dropLocals (ls : List Local) (h : Tracks ts m d n p q) :
    Tracks ts m d n (Parser.dropLocals ls p) (Parser.dropLocals ls q) := by
  induction ls generalizing p q with
  | nil => exact h.map (Parser.dropLocals []) rfl rfl rfl
  | cons l ls ih =>
    unfold Parser.dropLocals
    rw [h.draft]
    exact ite .rfl (ih (h.emit _)) (h.redraft _)

theorem endScope (h : Tracks ts m d n p q) : Tracks ts m d n p.endScope q.endScope := by
  unfold Parser.endScope
  rw [h.draft]
  exact (h.redraft _).dropLocals _

theorem declareVariable (h : Tracks ts m d n p q) :
    Tracks ts m d n p.declareVariable q.declareVariable := by
  have hAdd {p q : Parser} (h : Tracks ts m d n p q) (name : String) :
      Tracks ts m d n (p.addLocal name) (q.addLocal name) := by
    unfold Parser.addLocal
    rw [h.draft]
    exact ite .rfl (h.error _) (h.redraft _)
  unfold Parser.declareVariable
  rw [h.draft, h.previous]
  exact ite .rfl h (hAdd (ite .rfl (h.error _) h) _)

theorem variableName (h : Tracks ts m d n p q) (what : Expected) :
    TracksResult ts m d n (p.variableName what) (q.variableName what) := by
  have hDeclared := (h.consume .identifier what).declareVariable
  unfold Parser.variableName
  dsimp only
  rw [hDeclared.draft, hDeclared.previous]
  exact .ite .rfl (hDeclared.nameConstant _) ⟨rfl, hDeclared⟩

theorem markInitialized (h : Tracks ts m d n p q) :
    Tracks ts m d n p.markInitialized q.markInitialized := by
  unfold Parser.markInitialized
  rw [h.draft]
  refine ite .rfl h ?_
  split
  · exact h
  · exact h.redraft _

theorem defineVariable (h : Tracks ts m d n p q) (index : Nat) :
    Tracks ts m d n (p.defineVariable index) (q.defineVariable index) := by
  unfold Parser.defineVariable
  rw [h.draft]
  exact ite .rfl (h.emitWith ..) h.markInitialized

theorem emitGet (h : Tracks ts m d n p q) (ref : Reference) :
    Tracks ts m d n (p.emitGet ref) (q.emitGet ref) := by
  cases ref <;> exact h.emitWith ..

theorem emitSet (h : Tracks ts m d n p q) (ref : Reference) :
    Tracks ts m d n (p.emitSet ref) (q.emitSet ref) := by
  cases ref <;> exact h.emitWith ..

theorem resolve (h : Tracks ts m d n p q) (name : String) :
    TracksResult ts m d n (p.resolve name) (q.resolve name) := by
  unfold Parser.resolve
  rw [h.draft]
  split
  · exact ⟨rfl, ite .rfl h (h.error _)⟩
  · obtain ⟨hIndex, hName⟩ := h.nameConstant name
    exact ⟨congrArg Reference.global hIndex, hName⟩

end Tracks

end Parser

/-- The parsers of two levels keep runs alike. A statement and an operand read at least one token,
unless only the end token is left. -/
structure Level.Tracks (m : Nat) (d : Fin (Parser.maxNesting + 1)) (n : Nat) (inner inner' : Level) :
    Prop where
  statement : ∀ {ts : List Token} {p q : Parser}, p.Tracks ts m d n q →
    Parser.Tracks p.behind m d n (inner.statement p) (inner'.statement q)
  operand : ∀ (layer : Precedence), layer ≠ .none → ∀ {ts : List Token} {p q : Parser},
    Parser.Tracks ts m d n p q →
      Parser.Tracks p.behind m d n (inner.operand layer p) (inner'.operand layer q)
  function : ∀ {ts : List Token} {p q : Parser}, Parser.Tracks ts m d n p q →
    Parser.Tracks ts m d n (inner.function p) (inner'.function q)

namespace Parser

/-! ## The loops over operators, arguments and parameters -/

/-- Reads an operator and what it does with the operand in front of it. -/
def readOperator (inner : Level) (p : Parser) : Parser :=
  match p.advance.previous.kind.trailing? with
  | some rule => trailing inner p.advance rule
  | none => p.advance

/-- Whether the next token is an operator that binds at least so tightly. -/
def binds (layer : Precedence) (p : Parser) : Bool := layer.rank ≤ p.current.kind.precedence.rank

theorem operators_eq_run (inner : Level) (layer : Precedence) (fuel : Nat) (p : Parser) :
    operators inner layer fuel p = Loop.run (binds layer) (readOperator inner) fuel p := by
  induction fuel generalizing p with
  | zero => rfl
  | succ fuel ih =>
    cases hBinds : p.binds layer with
    | true =>
      rw [Loop.run_of_go hBinds, ← ih]
      exact if_pos (of_decide_eq_true hBinds)
    | false =>
      rw [Loop.run_of_stop hBinds]
      exact if_neg (of_decide_eq_false hBinds)

/-- The end token is no operator. -/
theorem not_end_of_binds {layer : Precedence} (hLayer : layer ≠ .none) {p : Parser}
    (h : p.binds layer = true) : p.check .eof = false := by
  refine decide_eq_false fun hEnd => hLayer (Precedence.rank_injective ?_)
  have hRank : layer.rank ≤ p.current.kind.precedence.rank := of_decide_eq_true h
  rw [hEnd] at hRank
  exact Nat.le_zero.1 hRank

theorem not_end_of_comma {p : Parser} (h : p.check .comma = true) : p.check .eof = false := by
  have hKind : p.current.kind = .comma := of_decide_eq_true h
  exact decide_eq_false (by rw [hKind]; decide)

/-- Reads an argument, `count` of which were read. -/
def readArgument (inner : Level) (count : Nat) (p : Parser) : Nat × Parser :=
  let p := expression inner p
  (count + 1, if count = maxArguments then p.error .tooManyArguments else p)

/-- Reads an argument behind a comma. -/
def nextArgument (inner : Level) (read : Nat × Parser) : Nat × Parser :=
  readArgument inner read.1 read.2.advance

/-- Reads a parameter behind a comma. -/
def nextParameter (p : Parser) : Parser := p.advance.countParameter.readParameter

theorem arguments_eq_run (inner : Level) (fuel count : Nat) (p : Parser)
    (h : (Loop.run (·.2.check .comma) (nextArgument inner) fuel
      (readArgument inner count p)).2.check .comma = false) :
    arguments inner (fuel + 1) count p =
      Loop.run (·.2.check .comma) (nextArgument inner) fuel (readArgument inner count p) :=
  Loop.eq_run_of_repeat (fun fuel (read : Nat × Parser) => arguments inner fuel read.1 read.2)
    (fun read => readArgument inner read.1 read.2)
    (·.2.check .comma) (fun read => (read.1, read.2.advance)) (fun _ _ => rfl) fuel (count, p) h

theorem parameters_eq_run (fuel : Nat) (p : Parser)
    (h : (Loop.run (·.check .comma) nextParameter fuel p.countParameter.readParameter).check .comma =
      false) :
    parameters (fuel + 1) p =
      Loop.run (·.check .comma) nextParameter fuel p.countParameter.readParameter :=
  Loop.eq_run_of_repeat parameters (fun p => p.countParameter.readParameter) (·.check .comma) advance
    parameters_succ fuel p h

/-! ## The loops over declarations -/

/-- Whether neither the closing brace of a block nor the end token is next. -/
def inBlock (p : Parser) : Bool := !(p.check .rightBrace || p.check .eof)

theorem not_end_of_inBlock {p : Parser} (h : p.inBlock = true) : p.check .eof = false := by
  unfold inBlock at h
  cases hEnd : p.check .eof with
  | true => simp [hEnd] at h
  | false => rfl

theorem declarations_eq_run (inner : Level) (fuel : Nat) (p : Parser) :
    declarations inner fuel p = Loop.run inBlock (declaration inner) fuel p := by
  induction fuel generalizing p with
  | zero => rfl
  | succ fuel ih =>
    unfold declarations Loop.run inBlock
    cases p.check .rightBrace || p.check .eof with
    | true => rfl
    | false => exact ih _

theorem script_eq_run (inner : Level) (fuel : Nat) (p : Parser)
    (h : (Loop.run unfinished (declaration inner) fuel p).unfinished = false) :
    script inner (fuel + 1) p = (Loop.run unfinished (declaration inner) fuel p).advance := by
  induction fuel generalizing p with
  | zero => exact if_pos (Bool.not_eq_false' _ ▸ h)
  | succ fuel ih =>
    cases hMore : p.unfinished with
    | false =>
      rw [Loop.run_of_stop hMore]
      exact if_pos (Bool.not_eq_false' _ ▸ hMore)
    | true =>
      rw [Loop.run_of_go hMore] at h ⊢
      rw [script, not_end_of_unfinished hMore, if_neg Bool.false_ne_true]
      exact ih _ h

namespace Tracks

variable {ts : List Token} {m n : Nat} {d : Fin (maxNesting + 1)} {p q : Parser}

theorem readParameter (h : Tracks ts m d n p q) :
    Tracks ts m d n p.countParameter.readParameter q.countParameter.readParameter := by
  have hCount := h.map (·.countParameter) rfl rfl rfl
  have hLimit : Tracks ts m d n
      (if maxArguments < p.countParameter.draft.arity then
        p.countParameter.errorAtCurrent .tooManyParameters else p.countParameter)
      (if maxArguments < q.countParameter.draft.arity then
        q.countParameter.errorAtCurrent .tooManyParameters else q.countParameter) :=
    ite (by rw [hCount.draft]) (hCount.errorAtCurrent _) hCount
  have hName := hLimit.variableName .parameterName
  unfold Parser.readParameter
  dsimp only
  rw [hName.result]
  exact hName.tracks.defineVariable _

theorem parameters (h : Tracks ts m d n p q) {fuel fuel' : Nat} (hFuel : p.rest.length < fuel)
    (hFuel' : p.rest.length < fuel') :
    Loop.Ends (·.check .comma) nextParameter q.countParameter.readParameter
        (Parser.parameters fuel' q) ∧
      Tracks ts m d n (Parser.parameters fuel p) (Parser.parameters fuel' q) := by
  obtain ⟨fuel, rfl⟩ : ∃ rest, fuel = rest + 1 := ⟨fuel - 1, by omega⟩
  obtain ⟨fuel', rfl⟩ : ∃ rest, fuel' = rest + 1 := ⟨fuel' - 1, by omega⟩
  have hShorter : p.countParameter.readParameter.rest.length ≤ p.rest.length :=
    Nat.le_of_succ_le_succ h.narrow.readParameter.suffix.length_le
  obtain ⟨hEnds, hLoop⟩ : Loop.Ends (·.check .comma) nextParameter q.countParameter.readParameter
      (Loop.run (·.check .comma) nextParameter fuel' q.countParameter.readParameter) ∧ _ :=
    loop (fun h => (h.check .comma).symm) not_end_of_comma (fun h => h.advance.readParameter)
      h.readParameter (hShorter.trans (Nat.le_of_lt_succ hFuel))
      (hShorter.trans (Nat.le_of_lt_succ hFuel'))
  have hStop := hEnds.test_eq_false
  have hStop' := (hLoop.check .comma).symm.trans hStop
  rw [parameters_eq_run fuel p hStop', parameters_eq_run fuel' q hStop]
  exact ⟨hEnds, hLoop⟩

section
variable {inner inner' : Level} (hi : inner.Tracks m d n inner')
include hi

theorem statement_inner (h : Tracks ts m d n p q) :
    Tracks ts m d n (inner.statement p) (inner'.statement q) := (hi.statement h).of h

theorem operand_inner (layer : Precedence) (hLayer : layer ≠ .none) (h : Tracks ts m d n p q) :
    Tracks ts m d n (inner.operand layer p) (inner'.operand layer q) := (hi.operand layer hLayer h).of h

/-! ## Expressions -/

theorem expression (h : Tracks ts m d n p q) :
    Tracks ts m d n (Parser.expression inner p) (Parser.expression inner' q) :=
  operand_inner hi .assignment nofun h

theorem name (mayAssign : Bool) (h : Tracks ts m d n p q) :
    Tracks ts m d n (Parser.name inner mayAssign p) (Parser.name inner' mayAssign q) := by
  have hResolve := h.resolve p.previous.lexeme
  unfold Parser.name
  dsimp only
  rw [h.previous, hResolve.result, hResolve.tracks.check]
  exact ite .rfl ((expression hi hResolve.tracks.next).emitSet _) (hResolve.tracks.emitGet _)

theorem unary (h : Tracks ts m d n p q) :
    Tracks ts m d n (Parser.unary inner p) (Parser.unary inner' q) := by
  have hOperand := operand_inner hi .unary nofun h
  unfold Parser.unary
  rw [h.previous]
  dsimp only
  split
  · exact hOperand.emit _
  · exact hOperand.emit _
  · exact hOperand

omit hi in
theorem string (h : Tracks ts m d n p q) : Tracks ts m d n p.string q.string := by
  have hText := h.intern (String.ofList (p.previous.lexeme.toList.drop 1).dropLast)
  unfold Parser.string
  dsimp only
  rw [h.previous, hText.result]
  exact hText.tracks.emitConstant _

omit hi in
theorem literal (h : Tracks ts m d n p q) : Tracks ts m d n p.literal q.literal := by
  unfold Parser.literal
  rw [h.previous]
  split
  · exact h.emit _
  · exact h.emit _
  · exact h.emit _
  · exact h

theorem leading (mayAssign : Bool) (rule : Leading) (h : Tracks ts m d n p q) :
    Tracks ts m d n (Parser.leading inner mayAssign p rule)
      (Parser.leading inner' mayAssign q rule) := by
  cases rule with
  | grouping => exact (expression hi h).consume ..
  | unary => exact unary hi h
  | name => exact name hi mayAssign h
  | string => exact h.string
  | number =>
    unfold Parser.leading Parser.number
    rw [h.previous]
    exact h.emitConstant _
  | literal => exact h.literal

theorem readArgument (count : Nat) (h : Tracks ts m d n p q) :
    TracksResult ts m d n (Parser.readArgument inner count p)
      (Parser.readArgument inner' count q) :=
  ⟨rfl, ite .rfl ((expression hi h).error _) (expression hi h)⟩

theorem arguments (count : Nat) (h : Tracks ts m d n p q) {fuel fuel' : Nat}
    (hFuel : p.rest.length < fuel) (hFuel' : p.rest.length < fuel') :
    Loop.Ends (·.2.check .comma) (nextArgument inner') (Parser.readArgument inner' count q)
        (Parser.arguments inner' fuel' count q) ∧
      TracksResult ts m d n (Parser.arguments inner fuel count p)
        (Parser.arguments inner' fuel' count q) := by
  obtain ⟨fuel, rfl⟩ : ∃ rest, fuel = rest + 1 := ⟨fuel - 1, by omega⟩
  obtain ⟨fuel', rfl⟩ : ∃ rest, fuel' = rest + 1 := ⟨fuel' - 1, by omega⟩
  have hShorter : (Parser.readArgument inner count p).2.rest.length ≤ p.rest.length :=
    Nat.le_of_succ_le_succ (readArgument hi count h.narrow).tracks.suffix.length_le
  have hTest {r r' : Nat × Parser} (h : TracksResult ts m d n r r') :
      r.2.check .comma = r'.2.check .comma := (h.tracks.check .comma).symm
  have hBody {r r' : Nat × Parser} (h : TracksResult ts m d n r r') (hMore : r.2.check .comma = true) :
      TracksResult ts m d n (nextArgument inner r) (nextArgument inner' r') ∧
        (nextArgument inner r).2.rest.length < r.2.rest.length := by
    have hRead := readArgument hi r.1 h.tracks.advance
    obtain ⟨hNext, hLess⟩ := h.tracks.round (not_end_of_comma hMore) hRead.tracks
    unfold nextArgument
    rw [h.result]
    exact ⟨⟨hRead.result, hNext⟩, hLess⟩
  obtain ⟨hEnds, hLoop⟩ := Loop.ends_run (TracksResult ts m d n) (fun r => r.2.rest.length) hTest hBody
    fuel fuel' (readArgument hi count h) (hShorter.trans (Nat.le_of_lt_succ hFuel))
    (hShorter.trans (Nat.le_of_lt_succ hFuel'))
  have hStop := hEnds.test_eq_false
  rw [arguments_eq_run inner fuel count p ((hTest hLoop).trans hStop),
    arguments_eq_run inner' fuel' count q hStop]
  exact ⟨hEnds, hLoop⟩

theorem call (h : Tracks ts m d n p q) :
    Tracks ts m d n (Parser.call inner p) (Parser.call inner' q) := by
  obtain ⟨hRounds, hRounds'⟩ := h.rest_length_lt
  have hArguments : TracksResult ts m d n
      (if p.check .rightParen then (0, p) else Parser.arguments inner p.total 0 p)
      (if q.check .rightParen then (0, q) else Parser.arguments inner' q.total 0 q) := by
    rw [h.total, h.total']
    exact .ite (h.check_iff _) ⟨rfl, h⟩ (arguments hi 0 h hRounds hRounds').2
  unfold Parser.call
  dsimp only
  rw [hArguments.result]
  exact (hArguments.tracks.consume ..).emitWith ..

theorem binary (h : Tracks ts m d n p q) :
    Tracks ts m d n (Parser.binary inner p) (Parser.binary inner' q) := by
  have hLayer : p.previous.kind.precedence.next ≠ .none := by
    cases p.previous.kind.precedence <;> nofun
  unfold Parser.binary
  rw [h.previous]
  exact (operand_inner hi _ hLayer h).emits _

theorem and (h : Tracks ts m d n p q) :
    Tracks ts m d n (Parser.and inner p) (Parser.and inner' q) := by
  have hJump := h.emitJump .jumpIfFalse
  unfold Parser.and
  dsimp only
  rw [hJump.result]
  exact (operand_inner hi .and nofun (hJump.tracks.emit _)).patchJump _

theorem or (h : Tracks ts m d n p q) :
    Tracks ts m d n (Parser.or inner p) (Parser.or inner' q) := by
  have hElse := h.emitJump .jumpIfFalse
  have hEnd := hElse.tracks.emitJump .jump
  unfold Parser.or
  dsimp only
  rw [hElse.result, hEnd.result]
  exact (operand_inner hi .or nofun ((hEnd.tracks.patchJump _).emit _)).patchJump _

theorem readOperator (h : Tracks ts m d n p q) :
    Tracks p.behind m d n (Parser.readOperator inner p) (Parser.readOperator inner' q) := by
  unfold Parser.readOperator
  rw [h.advance.previous]
  split
  · rename_i rule _
    cases rule with
    | call => exact call hi h.advance
    | binary => exact binary hi h.advance
    | and => exact and hi h.advance
    | or => exact or hi h.advance
  · exact h.advance

theorem operators {layer : Precedence} (hLayer : layer ≠ .none) (h : Tracks ts m d n p q)
    {fuel fuel' : Nat} (hFuel : p.rest.length ≤ fuel) (hFuel' : p.rest.length ≤ fuel') :
    Loop.Ends (binds layer) (Parser.readOperator inner') q
        (Parser.operators inner' layer fuel' q) ∧
      Tracks ts m d n (Parser.operators inner layer fuel p)
        (Parser.operators inner' layer fuel' q) := by
  rw [operators_eq_run, operators_eq_run]
  refine loop (fun h => ?_) (not_end_of_binds hLayer) (readOperator hi) h hFuel hFuel'
  rw [binds, binds, h.current]

theorem operand {layer : Precedence} (hLayer : layer ≠ .none) (h : Tracks ts m d n p q) :
    Tracks p.behind m d n (Parser.operand inner layer p) (Parser.operand inner' layer q) := by
  unfold Parser.operand
  dsimp only
  rw [h.advance.previous]
  split
  · exact h.advance.error _
  · rename_i rule _
    have hLeading := leading hi (decide (layer.rank ≤ Precedence.assignment.rank)) rule h.advance
    obtain ⟨hRounds, hRounds'⟩ := hLeading.rest_length_lt
    rw [hLeading.total, hLeading.total']
    have hOperators := (operators hi hLayer hLeading hRounds.le hRounds'.le).2
    exact ite (by rw [hOperators.check]) (hOperators.next.error _) hOperators

/-! ## Statements -/

theorem expressionStatement (h : Tracks ts m d n p q) :
    Tracks p.behind m d n (Parser.expressionStatement inner p)
      (Parser.expressionStatement inner' q) :=
  ((hi.operand .assignment nofun h).consume ..).emit _

theorem returnStatement (h : Tracks ts m d n p q) :
    Tracks ts m d n (Parser.returnStatement inner p) (Parser.returnStatement inner' q) := by
  have hScript : Tracks ts m d n (if p.draft.isScript then p.error .returnFromScript else p)
      (if q.draft.isScript then q.error .returnFromScript else q) :=
    ite (by rw [h.draft]) (h.error _) h
  exact ite (hScript.check_iff _) hScript.next.emitReturn
    (((expression hi hScript).consume ..).emit _)

theorem varDeclaration (h : Tracks ts m d n p q) :
    Tracks ts m d n (Parser.varDeclaration inner p) (Parser.varDeclaration inner' q) := by
  have hName := h.variableName .variableName
  have hValue := ite (hName.tracks.check_iff .equal) (expression hi hName.tracks.next)
    (hName.tracks.emit .pushNil)
  unfold Parser.varDeclaration
  dsimp only
  rw [hName.result]
  exact (hValue.consume ..).defineVariable _

theorem funDeclaration (h : Tracks ts m d n p q) :
    Tracks ts m d n (Parser.funDeclaration inner p) (Parser.funDeclaration inner' q) := by
  have hName := h.variableName .functionName
  unfold Parser.funDeclaration
  dsimp only
  rw [hName.result]
  exact (hi.function hName.tracks.markInitialized).defineVariable _

/-- A declaration reads at least one token, unless only the end token is left. -/
theorem declaration (h : Tracks ts m d n p q) :
    Tracks p.behind m d n (Parser.declaration inner p) (Parser.declaration inner' q) := by
  have hOne := ite (h.check_iff .kwFun) (funDeclaration hi h.advance)
    (ite (h.check_iff .kwVar) (varDeclaration hi h.advance) (hi.statement h))
  refine ite ?_ hOne.synchronize hOne
  rw [hOne.eq]
  rfl

theorem declarations (h : Tracks ts m d n p q) {fuel fuel' : Nat} (hFuel : p.rest.length ≤ fuel)
    (hFuel' : p.rest.length ≤ fuel') :
    Loop.Ends Parser.inBlock (Parser.declaration inner') q (Parser.declarations inner' fuel' q) ∧
      Tracks ts m d n (Parser.declarations inner fuel p) (Parser.declarations inner' fuel' q) := by
  rw [declarations_eq_run, declarations_eq_run]
  refine loop (fun h => ?_) not_end_of_inBlock (declaration hi) h hFuel hFuel'
  rw [inBlock, inBlock, h.check, h.check]

theorem block (h : Tracks ts m d n p q) :
    Tracks ts m d n (Parser.block inner p) (Parser.block inner' q) := by
  obtain ⟨hRounds, hRounds'⟩ := h.rest_length_lt
  unfold Parser.block
  rw [h.total, h.total']
  exact (declarations hi h hRounds.le hRounds'.le).2.consume ..

theorem ifStatement (h : Tracks ts m d n p q) :
    Tracks ts m d n (Parser.ifStatement inner p) (Parser.ifStatement inner' q) := by
  have hCondition := (expression hi (h.consume .leftParen .parenAfterIf)).consume .rightParen
    .parenAfterCondition
  have hThen := hCondition.emitJump .jumpIfFalse
  have hElse := (statement_inner hi (hThen.tracks.emit .pop)).emitJump .jump
  have hBranch (jump : Nat) := (hElse.tracks.patchJump jump).emit .pop
  unfold Parser.ifStatement
  dsimp only
  rw [hThen.result, hElse.result]
  refine (ite ?_ (statement_inner hi (hBranch _).next) (hBranch _)).patchJump _
  exact (hBranch _).check_iff .kwElse

theorem whileStatement (h : Tracks ts m d n p q) :
    Tracks ts m d n (Parser.whileStatement inner p) (Parser.whileStatement inner' q) := by
  have hCondition := (expression hi (h.consume .leftParen .parenAfterWhile)).consume .rightParen
    .parenAfterCondition
  have hExit := hCondition.emitJump .jumpIfFalse
  unfold Parser.whileStatement
  dsimp only
  rw [h.here, hExit.result]
  exact (((statement_inner hi (hExit.tracks.emit .pop)).emitLoop _).patchJump _).emit _

theorem forInitializer (h : Tracks ts m d n p q) :
    Tracks ts m d n (Parser.forInitializer inner p) (Parser.forInitializer inner' q) :=
  ite (h.check_iff _) h.next <|
    ite (h.check_iff _) (varDeclaration hi h.next) ((expressionStatement hi h).of h)

theorem forCondition (h : Tracks ts m d n p q) :
    TracksResult ts m d n (Parser.forCondition inner p) (Parser.forCondition inner' q) := by
  have hExit := ((expression hi h).consume .semicolon .semicolonAfterCondition).emitJump .jumpIfFalse
  exact .ite (h.check_iff _) ⟨rfl, h.next⟩ ⟨congrArg some hExit.result, hExit.tracks.emit _⟩

theorem forIncrement (start : Nat) (h : Tracks ts m d n p q) :
    TracksResult ts m d n (Parser.forIncrement inner start p)
      (Parser.forIncrement inner' start q) := by
  have hJump := h.emitJump .jump
  have hClause := ((expression hi hJump.tracks).emit .pop).consume .rightParen .parenAfterClauses
  refine .ite (h.check_iff _) ⟨rfl, h.next⟩ ⟨hJump.tracks.here, ?_⟩
  dsimp only
  rw [hJump.result]
  exact (hClause.emitLoop _).patchJump _

theorem forStatement (h : Tracks ts m d n p q) :
    Tracks ts m d n (Parser.forStatement inner p) (Parser.forStatement inner' q) := by
  have hStart := forInitializer hi (h.beginScope.consume .leftParen .parenAfterFor)
  rw [forStatement_eq, forStatement_eq]
  dsimp only
  generalize Parser.forInitializer inner _ = p₁, Parser.forInitializer inner' _ = q₁ at hStart ⊢
  have hCondition := forCondition hi hStart
  generalize Parser.forCondition inner p₁ = tested, Parser.forCondition inner' q₁ = tested'
    at hCondition ⊢
  have hIncrement := forIncrement hi p₁.here hCondition.tracks
  rw [hStart.here, hCondition.result, hIncrement.result]
  have hBody := (statement_inner hi hIncrement.tracks).emitLoop
    (Parser.forIncrement inner p₁.here tested.2).1
  refine endScope ?_
  cases tested.1 with
  | none => exact hBody
  | some exitJump => exact (hBody.patchJump exitJump).emit _

theorem statement (h : Tracks ts m d n p q) :
    Tracks p.behind m d n (Parser.statement inner p) (Parser.statement inner' q) := by
  unfold Parser.statement
  rw [h.current]
  split
  · exact ((expression hi h.advance).consume ..).emit _
  · exact forStatement hi h.advance
  · exact ifStatement hi h.advance
  · exact returnStatement hi h.advance
  · exact whileStatement hi h.advance
  · exact (block hi h.advance.beginScope).endScope
  · exact expressionStatement hi h

theorem function (h : Tracks ts m d n p q) :
    Tracks ts m d n (Parser.function inner p) (Parser.function inner' q) := by
  have hIntern := h.intern p.previous.lexeme
  have hBegin (name : Str) : Tracks ts m d n
      (((p.intern p.previous.lexeme).2.beginFunction name).beginScope.consume .leftParen
        .parenAfterFunctionName)
      (((q.intern p.previous.lexeme).2.beginFunction name).beginScope.consume .leftParen
        .parenAfterFunctionName) :=
    (hIntern.tracks.map (·.beginFunction name) rfl rfl rfl).beginScope.consume ..
  rw [function_eq, function_eq]
  dsimp only
  rw [h.previous, hIntern.result]
  replace hBegin := hBegin (p.intern p.previous.lexeme).1
  refine (block hi (((ite (hBegin.check_iff _) hBegin ?_).consume ..).consume ..)).closeFunction
  obtain ⟨hRounds, hRounds'⟩ := hBegin.rest_length_lt
  rw [hBegin.total, hBegin.total']
  exact (hBegin.parameters hRounds hRounds').2

theorem script (h : Tracks ts m d n p q) {fuel fuel' : Nat} (hFuel : p.rest.length < fuel)
    (hFuel' : p.rest.length < fuel') :
    (∃ last, Loop.Ends Parser.unfinished (Parser.declaration inner') q last ∧
        Parser.script inner' fuel' q = last.advance) ∧
      Tracks ts m d n (Parser.script inner fuel p) (Parser.script inner' fuel' q) := by
  obtain ⟨fuel, rfl⟩ : ∃ rest, fuel = rest + 1 := ⟨fuel - 1, by omega⟩
  obtain ⟨fuel', rfl⟩ : ∃ rest, fuel' = rest + 1 := ⟨fuel' - 1, by omega⟩
  obtain ⟨hEnds, hLoop⟩ := loop Tracks.unfinished not_end_of_unfinished (declaration hi) h
    (Nat.le_of_lt_succ hFuel) (Nat.le_of_lt_succ hFuel')
  have hStop := hEnds.test_eq_false
  rw [script_eq_run inner fuel p (hLoop.unfinished.trans hStop), script_eq_run inner' fuel' q hStop]
  exact ⟨⟨_, hEnds, rfl⟩, hLoop.next⟩

end

end Tracks

/-! ## Levels -/

theorem nested_of_lt (construct : Parser → Parser) (p : Parser) {d : Fin (maxNesting + 1)}
    (hd : d < maxNesting) (n : Nat) : nested construct (p.recount d n) =
      let q := construct (p.recount ⟨d + 1, Nat.succ_lt_succ hd⟩ n)
      { q with depth := ⟨q.depth - 1, Nat.sub_lt_of_lt q.depth.isLt⟩ } := dif_pos hd

/-- Inside a counted construct the counter is one higher, and behind it the counter is back. -/
theorem Tracks.nested {ts ts' : List Token} {m n : Nat} {d : Fin (maxNesting + 1)}
    (construct construct' : Parser → Parser) {p q : Parser} (hd : d < maxNesting)
    (hc : ∀ {q : Parser}, Tracks ts m ⟨d + 1, Nat.succ_lt_succ hd⟩ n p q →
      Tracks ts' m ⟨d + 1, Nat.succ_lt_succ hd⟩ n (construct p) (construct' q))
    (h : Tracks ts m d n p q) : Tracks ts' m d n (construct p) (q.nested construct') := by
  have hInside := hc { h with eq := rfl }
  refine { hInside with eq := ?_ }
  rw [h.eq, nested_of_lt construct' p hd, hInside.eq]
  rfl

/-- Where the counter is full, a counted construct gives up. -/
theorem Tracks.nested_of_full {ts : List Token} {m n : Nat} {d : Fin (maxNesting + 1)} {p q : Parser}
    (construct : Parser → Parser) (hd : ¬ d < maxNesting) (h : Tracks ts m d n p q) :
    Tracks p.behind m d n p.giveUp (q.nested construct) := by
  have hFull : ¬ q.depth < maxNesting := h.depth ▸ hd
  rw [Parser.nested, dif_neg hFull]
  exact h.giveUp

end Parser

namespace Level

variable {m n : Nat} {d : Fin (Parser.maxNesting + 1)}

theorem tracks_tooDeep (inner : Level) (hd : ¬ d < Parser.maxNesting) :
    tooDeep.Tracks m d n inner.counted where
  statement h := h.nested_of_full _ hd
  operand _ _ _ _ _ h := h.nested_of_full _ hd
  function h := (h.nested_of_full _ hd).of h

theorem tracks_around {inner inner' : Level} (hd : d < Parser.maxNesting)
    (hi : inner.Tracks m ⟨d + 1, Nat.succ_lt_succ hd⟩ n inner') :
    inner.around.Tracks m d n inner'.counted := by
  rw [around, counted]
  refine ⟨fun h => ?_, fun layer hLayer _ _ _ h => ?_, fun h => ?_⟩
  all_goals dsimp only
  · exact h.nested (.statement inner) (.statement inner') hd (.statement hi)
  · exact h.nested (.operand inner layer) (.operand inner' layer) hd (.operand hi hLayer)
  · exact h.nested (.function inner) (.function inner') hd (.function hi)

/-- Counted levels over whatever level do what the levels without a counter do, if there are more of
them than the counter has still to count. -/
theorem tracks_stack (below : Level) {depth height : Nat} (hd : d + depth = Parser.maxNesting)
    (hHeight : depth < height) : (ofDepth depth).Tracks m d n (below.stack height) := by
  induction depth generalizing d height with
  | zero =>
    obtain ⟨height, rfl⟩ : ∃ rest, height = rest + 1 := ⟨height - 1, by omega⟩
    exact tracks_tooDeep _ (by omega)
  | succ depth ih =>
    obtain ⟨height, rfl⟩ : ∃ rest, height = rest + 1 := ⟨height - 1, by omega⟩
    exact tracks_around (by omega) (ih (by dsimp only; omega) (by omega))

end Level

/-! ## From the first token to the result -/

namespace Parser

/-- The tokens end with an end token, and a loop has as many rounds as there are tokens. -/
structure Fed (p : Parser) : Prop where
  terminated : Token.Terminated p.toks
  rounds : p.toks.length ≤ p.total

theorem Tracks.refl {p : Parser} (h : p.Fed) : Tracks p.toks p.total p.depth p.total p p :=
  ⟨rfl, rfl, h.terminated, List.suffix_rfl, h.rounds, h.rounds⟩

theorem recount_start (ts : List Token) (heap : Heap) :
    (start ts heap).recount 0 ts.length = start ts heap :=
  (advance_recount (unread ts heap) 0 ts.length).symm

theorem fed_start {ts : List Token} (ht : Token.Terminated ts) (heap : Heap) :
    (start ts heap).Fed := by
  obtain ⟨hSuffix, hTerminated⟩ := shift_toks ht (unread ts heap)
  rw [← recount_start]
  exact ⟨hTerminated, hSuffix.length_le⟩

theorem conclude_recount (p : Parser) (d : Fin (maxNesting + 1)) (n : Nat) :
    (p.recount d n).conclude = p.conclude := by
  obtain ⟨_, _, _, _, _, _, _, _, _, _, enclosing⟩ := p
  cases enclosing <;> rfl

end Parser

end Lox
