import Lox.Compiler
import Lox.Proofs.Compiler.Counters
import Lox.Proofs.Compiler.Functions
import Lox.Proofs.Scanner

/-!
# What the compiler accepts and makes

The compiler accepts a source text exactly when its tokens derive a script that is legal and not
nested too deep (`compile_ok_iff_accepted`), and then makes the functions of the derived tree. One
direction reads a derivation off a run without problems (`Parser.derives_script`), the other follows
a derivation and finds that nothing but the static rules can stop the compiler
(`Stmt.DerivesList.runs`).
-/

set_option autoImplicit false

namespace Lox

open Lox.Parser (maxArguments maxConstants maxDistance maxLocals maxNesting)

/-- Some tokens derive a script that breaks no static rule. -/
structure Routine.Accepted (r : Routine) (ts : List Token) : Prop where
  derives : r.DerivesScript ts
  legal : r.Legal
  nesting : Stmt.nestingOfAll r.body ≤ maxNesting

/-! ## From the first token to the last -/

theorem Token.Closed.of_uses_before {ts rest : List Token} (hu : Token.Uses ts rest)
    (hc : Token.Closed rest) : Token.Closed ts := by
  induction hu using Relation.TransGen.head_induction_on with
  | single h =>
    obtain ⟨t, ht, rfl⟩ := h
    exact .cons ht hc
  | head h _ ih =>
    obtain ⟨t, ht, rfl⟩ := h
    exact .cons ht ih

theorem Routine.DerivesScript.closed {r : Routine} {ts : List Token} (hd : r.DerivesScript ts) :
    Token.Closed ts := by
  obtain ⟨hBody, hEnd⟩ := hd
  rcases hBody.uses with rfl | hUses
  · exact .last hEnd
  · exact .of_uses_before hUses (.last hEnd)

/-- The view in front of some tokens. -/
def View.start (ts : List Token) : View where
  toks := ts
  last := Parser.placeholder
  total := ts.length
  scope := .script
  code := []
  pool := []
  name := none
  arity := 0
  enclosing := []

theorem shows_start {ts : List Token} {w : World} (hw : w.WF ts.length) (hc : Token.Closed ts) :
    Shows w (.start ts) (Parser.start ts w.heap) := by
  obtain ⟨t, ts', rfl, hKind⟩ : ∃ t ts', ts = t :: ts' ∧ ∀ cause, t.kind ≠ .error cause := by
    cases hc with
    | last h => exact ⟨_, _, rfl, by simp [h]⟩
    | cons hp _ =>
      refine ⟨_, _, rfl, fun cause hk => ?_⟩
      rw [Token.Plain, hk] at hp
      cases hp
  have hStart : Parser.start (t :: ts') w.heap = _ := Shows.shift_of_plain ts' _ hKind
  rw [hStart]
  exact {
    toks := rfl, last := rfl, total := rfl, clean := rfl, recovering := rfl, tooDeep := rfl
    heap := rfl, locals := rfl, depth := rfl, code := rfl, lines := rfl, constants := .nil
    name := rfl, arity := rfl, enclosing := rfl, closed := hc, fuel := le_rfl
    named := fun _ hs => by cases hs
    world := hw
    scope := ⟨by simp [View.start, Scope.script], by simp [View.start, Scope.script],
      by simp [View.start, Scope.script, maxLocals]⟩
    fits := Nat.zero_le _ }

/-- Behind the end token the compiler stays there. -/
theorem Shows.advance_end {w : World} {v : View} {p : Parser} (h : Shows w v p) {t : Token}
    (ht : v.toks = [t]) : Shows w (v.read [t] t) p.advance := by
  obtain ⟨hCurrent, hRest⟩ := List.cons.inj (h.toks.trans ht)
  have hAdvance : p.advance = { p with previous := t, rest := [] } := by
    rw [Parser.advance, hRest, hCurrent]
    rfl
  rw [hAdvance]
  exact { h with
    toks := by rw [Parser.toks, hCurrent]; rfl
    last := rfl
    closed := ht ▸ h.closed
    fuel := ht ▸ h.fuel
    world := ht ▸ h.world }

theorem Stmt.loops_script (inner : Level) : Stmt.Loops inner (Parser.script inner) := by
  intro fuel p _ hEnd
  rw [Parser.script, hEnd, if_neg Bool.false_ne_true]

theorem Routine.goodList_iff {body : List Stmt} {line : Nat} :
    Stmt.GoodList maxNesting false .script [] body ↔
      (Routine.script body line).Legal ∧ Stmt.nestingOfAll body ≤ maxNesting := by
  constructor
  · rintro ⟨hl, hk, hn⟩
    exact ⟨⟨hl, Nat.zero_le _, List.nodup_nil, hk⟩, hn⟩
  · rintro ⟨⟨hl, -, -, hk⟩, hn⟩
    exact ⟨hl, hk, hn⟩

/-- The run of the compiler over the tokens of a script. -/
theorem Routine.DerivesScript.runs {r : Routine} {ts : List Token} (hd : r.DerivesScript ts)
    {w : World} (hw : w.WF ts.length) :
    ∃ (v : View), v.toks.length = 1 ∧ v.arity = r.parameters.length ∧ v.name.map Str.text = r.name ∧
      v.code ++ (.op .pushNil v.last.line ++ .op .ret v.last.line) = r.code ∧ v.pool = r.pool ∧
      v.enclosing = [] ∧
      Gives (r.Legal ∧ Stmt.nestingOfAll r.body ≤ maxNesting) w v
        (Parser.script (Level.ofDepth maxNesting) (Parser.start ts w.heap).total
          (Parser.start ts w.heap)) := by
  have hShows := shows_start hw hd.closed
  obtain ⟨hBody, hEnd⟩ := hd
  rename_i body last
  obtain ⟨before, hr⟩ := hBody.runs
  obtain ⟨fuel, q, hEq, hLeft, hg⟩ := hr maxNesting _ (Stmt.loops_script _) _ _ _ _ hShows rfl
    (hShows.total.symm ▸ hShows.fuel)
  refine ⟨(Stmt.afterAll body (.start ts) [last] last), rfl, rfl, rfl, ?_, rfl, rfl, ?_⟩
  · simp [Routine.code, Routine.scope, Routine.script, View.start]
  rw [hEq]
  refine (hg.next (Parser.leads_script (Level.leads_ofDepth maxNesting) fuel q) fun w hs => ?_).congr
    Routine.goodList_iff
  obtain ⟨fuel, rfl⟩ : ∃ fuel', fuel = fuel' + 1 := ⟨fuel - 1, by
    have hOne := hLeft hs.clean
    rw [List.length_singleton] at hOne
    omega⟩
  have hCheck : q.check .eof = true := by rw [hs.check rfl, decide_eq_true hEnd]
  rw [Parser.script, hCheck, if_pos rfl]
  exact hs.advance_end rfl

/-! ## The result -/

/-- The compiler at the end of a source text. -/
def Parser.finished (source : String) (heap : Heap) : Parser :=
  let p := Parser.start (Scanner.tokens source) heap
  Parser.script (Level.ofDepth maxNesting) p.total p

/-- Compiles a source text with the constructs of a level, and with loops of at most so many rounds. -/
def compileWithin (inner : Level) (rounds : Nat) (source : String) (heap : Heap) :
    Except (List Diagnostic) Fn × Heap :=
  let p := Parser.start (Scanner.tokens source) heap
  (Parser.script inner rounds (p.recount ⟨0, Nat.succ_pos maxNesting⟩ rounds)).conclude

theorem compileWithin_eq (inner : Level) (rounds : Nat) (source : String) (heap : Heap) :
    compileWithin inner rounds source heap =
      let p := Parser.start (Scanner.tokens source) heap
      (Parser.script inner rounds (p.recount 0 rounds)).conclude := rfl

/-- With levels and rounds enough it does not matter how many there are, nor what is below. -/
theorem compileWithin_eq_conclude (below : Level) {height rounds : Nat} (hHeight : maxNesting < height)
    (source : String) (hRounds : (Scanner.tokens source).length ≤ rounds) (heap : Heap) :
    compileWithin (below.stack height) rounds source heap =
      (Parser.finished source heap).conclude := by
  have hFed := Parser.fed_start (Scanner.terminated_tokens source) heap
  have hTotal := congrArg Parser.total (Parser.recount_start (Scanner.tokens source) heap)
  rw [compileWithin_eq]
  unfold Parser.finished
  dsimp only
  generalize Parser.start (Scanner.tokens source) heap = p at hFed hTotal ⊢
  have hToks : p.toks.length ≤ rounds := hFed.rounds.trans (hTotal.symm.trans_le hRounds)
  have hTracks : p.Tracks p.toks p.total 0 rounds (p.recount 0 rounds) :=
    { Parser.Tracks.refl hFed with eq := rfl, rounds' := hToks }
  have hi : (Level.ofDepth maxNesting).Tracks p.total 0 rounds (below.stack height) :=
    Level.tracks_stack below (Nat.zero_add _) hHeight
  -- Without its name the stack of levels would be unfolded.
  generalize Level.ofDepth maxNesting = inner at hi ⊢
  rw [(hTracks.script hi hFed.rounds hToks).2.eq, Parser.conclude_recount]

theorem compile_eq_compileWithin (source : String) (heap : Heap) :
    compile source heap =
      compileWithin Level.outermost (Scanner.tokens source).length source heap := by
  have hStart := Parser.recount_start (Scanner.tokens source) heap
  rw [compileWithin_eq]
  unfold compile
  dsimp only
  rw [hStart, ← congrArg Parser.total hStart]
  rfl

theorem compile_eq_conclude (source : String) (heap : Heap) :
    compile source heap = (Parser.finished source heap).conclude := by
  rw [compile_eq_compileWithin]
  exact compileWithin_eq_conclude .tooDeep (Nat.lt_succ_self _) source le_rfl heap

theorem Parser.endFunction_spec (p : Parser) : p.endFunction.1 = p.emitReturn.draft ∧
    p.endFunction.2.heap = p.emitReturn.heap ∧ p.endFunction.2.diagnostics = p.diagnostics := by
  unfold Parser.endFunction
  dsimp only
  split <;> exact ⟨rfl, rfl, rfl⟩

theorem compile_of_clean {source : String} {heap : Heap} (h : (Parser.finished source heap).Clean) :
    compile source heap =
      let p := (Parser.finished source heap).emitReturn
      let made := p.heap.allocFunction p.draft.arity p.draft.chunk p.draft.name
      (.ok made.1, made.2) := by
  obtain ⟨hDraft, hHeap, hDiagnostics⟩ := Parser.endFunction_spec (Parser.finished source heap)
  have hEmpty : (Parser.finished source heap).endFunction.2.diagnostics.isEmpty = true := by
    rw [hDiagnostics, h]
    rfl
  rw [compile_eq_conclude, Parser.conclude]
  dsimp only
  rw [if_pos hEmpty, ← hDraft, ← hHeap]

theorem compile_of_not_clean {source : String} {heap : Heap}
    (h : ¬ (Parser.finished source heap).Clean) :
    ∃ problems, compile source heap =
      (.error problems, (Parser.finished source heap).emitReturn.heap) := by
  obtain ⟨-, hHeap, hDiagnostics⟩ := Parser.endFunction_spec (Parser.finished source heap)
  have hSome : ¬ (Parser.finished source heap).endFunction.2.diagnostics.isEmpty = true := by
    rw [hDiagnostics, Array.isEmpty_iff]
    exact h
  refine ⟨(Parser.finished source heap).endFunction.2.diagnostics.toList, ?_⟩
  rw [compile_eq_conclude, Parser.conclude]
  dsimp only
  rw [if_neg hSome, ← hHeap]

/-- From the tokens of a derived script the compiler makes the functions of the tree, unless it
breaks a static rule. The functions made before have places behind all the tokens. -/
theorem Routine.DerivesScript.compile_in {r : Routine} {source : String}
    (hd : r.DerivesScript (Scanner.tokens source)) {w₀ : World}
    (hw₀ : w₀.WF (Scanner.tokens source).length) :
    r.Accepted (Scanner.tokens source) ∧ (∃ (w : World) (f : Fn), w₀.Extends w ∧ w.WF 0 ∧
        w.Compiled f r ∧ compile source w₀.heap = (.ok f, w.heap)) ∨
      ¬ r.Accepted (Scanner.tokens source) ∧ ∀ f, (compile source w₀.heap).1 ≠ .ok f := by
  have hPlace : r.place = 0 := by cases hd; rfl
  obtain ⟨v, hToks, hArity, hName, hCode, hPool, -, hg⟩ := hd.runs hw₀
  change Gives _ _ _ (Parser.finished source w₀.heap) at hg
  rcases hg with ⟨hok, w, he, hs⟩ | ⟨hok, hNot⟩
  · have hNew : ∀ m ∈ w.made, r.place < m.1 := fun m hm => by
      have hLeft := hs.world.places m hm
      omega
    obtain ⟨w', he', hWorld, hHeap, hCompiled⟩ :=
      hs.emitReturn.allocFunction hNew hArity hName hCode hPool
    refine .inl ⟨⟨hd, hok.1, hok.2⟩, w', _, he.trans he', hPlace ▸ hWorld, hCompiled, ?_⟩
    rw [compile_of_clean hs.clean, hHeap]
  · obtain ⟨problems, hEq⟩ := compile_of_not_clean hNot
    refine .inr ⟨fun ha => hok ⟨ha.legal, ha.nesting⟩, fun f => ?_⟩
    rw [hEq]
    nofun

theorem Routine.DerivesScript.compile {r : Routine} {source : String}
    (hd : r.DerivesScript (Scanner.tokens source)) {heap : Heap} (hh : heap.WF) :
    r.Accepted (Scanner.tokens source) ∧ (∃ (w : World) (f : Fn), heap.Extends w.heap ∧ w.WF 0 ∧
        w.Compiled f r ∧ compile source heap = (.ok f, w.heap)) ∨
      ¬ r.Accepted (Scanner.tokens source) ∧ ∀ f, (compile source heap).1 ≠ .ok f := by
  have hNone : World.WF ⟨heap, []⟩ (Scanner.tokens source).length := ⟨hh, .nil, nofun, nofun⟩
  rcases hd.compile_in hNone with ⟨ha, w, f, he, hw⟩ | hNot
  · exact .inl ⟨ha, w, f, he.heap, hw⟩
  · exact .inr hNot

theorem Parser.ready_start {ts : List Token} {heap : Heap} (ht : Token.Terminated ts)
    (hc : (Parser.start ts heap).Clean) :
    (Parser.start ts heap).toks = ts ∧ (Parser.start ts heap).Ready := by
  obtain ⟨t, ts', rfl⟩ : ∃ t ts', ts = t :: ts' := by cases ht <;> exact ⟨_, _, rfl⟩
  have hEq : Parser.start (t :: ts') heap =
      { Parser.unread (t :: ts') heap with current := t, rest := ts' } :=
    Parser.shift_eq_of_clean (fun _ => ⟨rfl, rfl⟩) (Nat.le_succ _) hc
  rw [hEq]
  exact ⟨rfl, fun _ => ⟨rfl, rfl⟩, ht, le_rfl⟩

/-- What is compiled without a problem is derived. -/
theorem derives_of_compile {source : String} {heap : Heap} {f : Fn}
    (h : (compile source heap).1 = .ok f) :
    ∃ r : Routine, r.DerivesScript (Scanner.tokens source) := by
  have hClean : (Parser.finished source heap).Clean := by
    by_contra hNot
    obtain ⟨problems, hEq⟩ := compile_of_not_clean hNot
    rw [hEq] at h
    cases h
  have hStart := (Parser.leads_script (Level.leads_ofDepth maxNesting) _ _).clean hClean
  obtain ⟨hToks, hReady⟩ := Parser.ready_start (Scanner.terminated_tokens source) hStart
  have hScript := Parser.derives_script (Level.sound_ofDepth maxNesting) _ _ hReady.fuel hReady hClean
  rwa [hToks] at hScript

theorem Parser.grows_start (ts : List Token) (heap : Heap) :
    heap.Grows (Parser.start ts heap).heap := (Parser.leads_advance (Parser.unread ts heap)).heap

/-- The compiler keeps the objects on the heap, also when it finds problems. -/
theorem grows_compile (source : String) (heap : Heap) : heap.Grows (compile source heap).2 := by
  have hScript : heap.Grows (Parser.finished source heap).heap :=
    (Parser.grows_start _ _).trans (Parser.leads_script (Level.leads_ofDepth maxNesting) _ _).heap
  have hEnd := hScript.trans (Parser.writes_emitReturn _).heap
  by_cases hClean : (Parser.finished source heap).Clean
  · rw [compile_of_clean hClean]
    exact hEnd.trans (Heap.grows_allocFunction _ _ _ _)
  · obtain ⟨problems, hEq⟩ := compile_of_not_clean hClean
    rw [hEq]
    dsimp only
    exact hEnd

/-- What the compiler makes is the functions of an accepted tree. -/
theorem compiled_of_compile {source : String} {heap heap' : Heap} {f : Fn} (hh : heap.WF)
    (h : compile source heap = (.ok f, heap')) :
    ∃ (w : World) (r : Routine), r.Accepted (Scanner.tokens source) ∧ r.Proper ∧ w.heap = heap' ∧
      w.WF 0 ∧ w.Compiled f r := by
  obtain ⟨r, hd⟩ := derives_of_compile (congrArg Prod.fst h)
  rcases hd.compile hh with ⟨ha, w, f', -, hw, hCompiled, hEq⟩ | ⟨-, hNot⟩
  · cases h.symm.trans hEq
    exact ⟨w, r, ha, hd.proper (Scanner.named_tokens source), rfl, hw, hCompiled⟩
  · exact absurd (congrArg Prod.fst h) (hNot f)

/-- Derived tokens are no error tokens. -/
theorem Token.Closed.ne_error {ts : List Token} (hc : Token.Closed ts) :
    ∀ t ∈ ts, ∀ cause, t.kind ≠ .error cause := by
  induction hc with
  | last h => simp [h]
  | cons hp _ ih =>
    intro t ht cause hk
    rcases List.mem_cons.1 ht with rfl | ht
    · rw [Token.Plain, hk] at hp
      cases hp
    · exact ih t ht cause hk

/-- The compiler accepts a source text exactly when its tokens, none of which is an error token,
derive a script that breaks no static rule; and then it makes the functions of every derived tree,
whose code is that of the tree. -/
theorem compile_ok_iff_accepted (source : String) {heap : Heap} (hh : heap.Reachable) :
    ((∃ f, (compile source heap).1 = .ok f) ↔
      (∀ t ∈ Scanner.tokens source, ∀ cause, t.kind ≠ .error cause) ∧
        ∃ r : Routine, r.Accepted (Scanner.tokens source)) ∧
    ∀ f, (compile source heap).1 = .ok f → ∀ r : Routine, r.DerivesScript (Scanner.tokens source) →
      ∃ made, World.Compiled ⟨(compile source heap).2, made⟩ f r := by
  refine ⟨⟨?_, ?_⟩, ?_⟩
  · rintro ⟨f, hf⟩
    obtain ⟨r, hd⟩ := derives_of_compile hf
    rcases hd.compile hh.wf with ⟨ha, -⟩ | ⟨-, hNot⟩
    · exact ⟨hd.closed.ne_error, r, ha⟩
    · exact absurd hf (hNot f)
  · rintro ⟨-, r, ha⟩
    rcases ha.derives.compile hh.wf with ⟨-, w, f, -, -, -, hEq⟩ | ⟨hNot, -⟩
    · exact ⟨f, by rw [hEq]⟩
    · exact absurd ha hNot
  · intro f hf r hd
    rcases hd.compile hh.wf with ⟨-, w, f', -, -, hCompiled, hEq⟩ | ⟨-, hNot⟩
    · rw [hEq] at hf ⊢
      cases hf
      exact ⟨w.made, hCompiled⟩
    · exact absurd hf (hNot f)

theorem compile_ok_iff_accepted_print : Heap.Reachable {} ∧
    ∃ f made, (compile "var a = 1; print a;" {}).1 = .ok f ∧
      World.Compiled ⟨(compile "var a = 1; print a;" {}).2, made⟩ f
        (.script [.var ⟨"a", 1, some (.number (Token.numberValue ⟨.number, "1", 1⟩) 1), 1⟩,
          .print (.name "a" 1) 1] 1) := by
  have hTokens : Scanner.tokens "var a = 1; print a;" =
      [⟨.kwVar, "var", 1⟩, ⟨.identifier, "a", 1⟩, ⟨.equal, "=", 1⟩, ⟨.number, "1", 1⟩,
        ⟨.semicolon, ";", 1⟩, ⟨.kwPrint, "print", 1⟩, ⟨.identifier, "a", 1⟩, ⟨.semicolon, ";", 1⟩,
        ⟨.eof, "", 1⟩] := by decide
  have hLoose {e : Expr} {ts rest : List Token} (h : e.Derives .primary ts rest) :
      e.DerivesWhole ts rest := h.loosen (by decide) (by decide)
  obtain ⟨r, hd, rfl⟩ : ∃ r : Routine, r.DerivesScript (Scanner.tokens "var a = 1; print a;") ∧
      r = .script [.var ⟨"a", 1, some (.number (Token.numberValue ⟨.number, "1", 1⟩) 1), 1⟩,
        .print (.name "a" 1) 1] 1 := by
    rw [hTokens]
    refine ⟨_, .mk (.cons (.var ?_ (.set ?_ ?_ (hLoose (.number ?_)) ?_))
      (.cons (.statement (.print ?_ (hLoose (.name ?_)) ?_)) .nil)) ?_, ?_⟩ <;> rfl
  obtain ⟨hIff, hCompiled⟩ := compile_ok_iff_accepted "var a = 1; print a;" .new
  obtain ⟨f, hf⟩ := hIff.2 ⟨hd.closed.ne_error, _, hd,
    ⟨⟨⟨Or.inl rfl, trivial⟩, nofun, trivial⟩, by decide, by decide, by decide⟩, by decide⟩
  obtain ⟨made, hc⟩ := hCompiled f hf _ hd
  exact ⟨.new, f, made, hf, hc⟩

end Lox
