import Lox.Proofs.Composition.Natives
import Lox.Proofs.Composition.Scripts
import Lox.Proofs.Composition.Worlds
import Lox.Proofs.Scanner.Join
import Lox.Proofs.Semantics.Preservation

/-!
# One source text after the other

Interpreting two source texts, one after the other, comes to the same as interpreting the text that has
both, with a line break between them (`Moment.interpret_append`). A session that is idle holds data
(`Session.Holds`), and interpreting a text does with them what the evaluator does with its tree
(`Session.Holds.follows`). So the two ways differ as the evaluations of two scripts and of the joint script
do, which is in lines and places only. Native functions that see lines can tell them apart, and so can a
function that a rejected text left (`Session.texts_differ`).
-/

set_option autoImplicit false

namespace Lox

open Relabelling (bare before gap)

/-! ## What can be seen of globals -/

/-- The type of a datum, as it is named. -/
def Datum.typeName : Datum → String
  | nil => "nil"
  | bool _ => "bool"
  | number _ => "number"
  | string _ => "string"
  | function _ => "function"
  | native _ => "native"

theorem World.Like.typeName_eq {w : World} {v : Value} {d : Datum} (h : w.Like v d) :
    v.typeName = d.typeName := by cases h <;> rfl

@[simp] theorem Datum.typeName_relabel {φ : Relabelling} (d : Datum) :
    (d.relabel φ).typeName = d.typeName := by cases d <;> rfl

/-- The type and the printed text of a value. -/
def Value.face (v : Value) : String × String := (v.typeName, v.text)

/-- The type and the printed text of a datum. -/
def Datum.face (d : Datum) : String × String := (d.typeName, d.text)

theorem Machine.Mirrors.face_global? {u : Setup} {m : Machine} {σ : State} (h : m.Mirrors u σ)
    (name : String) : (m.global? name).map Value.face = (σ.globals name).map Datum.face := by
  obtain ⟨stores, hStored, hLike⟩ := h.globals
  have hRel := hLike name
  rw [hStored.global?]
  generalize stores.lookup name = v?, σ.globals name = d? at hRel
  cases hRel with
  | none => rfl
  | some hLike => exact congrArg some (Prod.ext hLike.typeName_eq hLike.text_eq)

theorem State.face_relabel {φ : Relabelling} (σ : State) (name : String) :
    ((σ.relabel φ).globals name).map Datum.face = (σ.globals name).map Datum.face := by
  have hFace : Datum.face ∘ Datum.relabel φ = Datum.face := by
    funext d
    simp [Datum.face]
  rw [State.relabel, Option.map_map, hFace]

/-! ## Idle sessions -/

/-- What an idle session holds: its globals are the data of a state, in a world, and its output is what was
written before and what the state printed. Its native functions are deterministic, and each object that
they may return is a datum. -/
structure Session.Holds (written : ByteArray) (owned : Obj → Prop) (base : Obj → Datum) (w : World)
    (s : Session) (σ : State) : Prop where
  heap : s.machine.heap = w.heap
  world : w.WF 0
  machine : s.machine.Rests
  state : σ.Rests
  globals : ∃ stores, s.machine.Stored stores ∧ ∀ n, Option.Rel w.Like (stores.lookup n) (σ.globals n)
  output : s.machine.output = ⟨written ++ σ.printed.toUTF8, .unlimited⟩
  natives : ∀ b ∈ s.machine.natives, b.Deterministic owned
  base : ∀ o, owned o → w.Like (.object o) (base o)

theorem rel_map {α β γ : Type} {R : α → β → Prop} {R' : α → γ → Prop} {g : β → γ}
    (h : ∀ a b, R a b → R' a (g b)) {x : Option α} {y : Option β} :
    Option.Rel R x y → Option.Rel R' x (y.map g)
  | .some hr => .some (h _ _ hr)
  | .none => .none

namespace Session

variable {written : ByteArray} {owned : Obj → Prop} {base : Obj → Datum} {w : World} {s : Session}
  {σ : State}

/-- Interpreting a text follows the evaluation of its tree, with the functions of the session in places
behind the text. When it has come to an end, the session holds what the evaluation left. -/
theorem Holds.follows (h : s.Holds written owned base w σ) {source : String} {r : Routine}
    (ha : r.Accepted (Scanner.tokens source)) {n : Nat} (hn : (Scanner.tokens source).length = n) :
    ∃ (u : Setup) (heap : Heap), u.before = written ∧
      (∀ clock, s.Follows u heap clock source
        (r.evaluate (hostOf s.machine.natives owned fun o => (base o).relabel (before n)) clock
          (σ.relabel (before n)))) ∧
      ∀ (s' : Session) (σ' : State), s'.machine.Mirrors u σ' → s'.machine.Rests → σ'.Rests →
        heap.Extends s'.machine.heap → s'.machine.natives = s.machine.natives ∧
        s'.Holds written owned (fun o => (base o).relabel (before n)) ⟨s'.machine.heap, u.made⟩ σ' := by
  have hw₀ : (w.shift n).WF (Scanner.tokens source).length := by
    rw [hn]
    simpa using h.world.shift n
  rcases ha.derives.compile_in hw₀ with ⟨-, w', f, he, hw', hCompiled, hCompile⟩ | ⟨hNot, -⟩
  swap
  · exact absurd ha hNot
  have hMoves : w.Moves (before n) w' := (w.moves_shift n).extends he
  have hGrown : s.machine.heap.Extends w'.heap := h.heap ▸ he.heap
  have hBase {heap : Heap} (hHeap : w'.heap.Extends heap) (o : Obj) (ho : owned o) :
      World.Like ⟨heap, w'.made⟩ (.object o) ((base o).relabel (before n)) :=
    ((h.base o ho).relabel hMoves).mono ⟨hHeap, List.suffix_refl _⟩
  let u : Setup := ⟨w'.made, hw'.distinct, s.machine.natives,
    hostOf s.machine.natives owned fun o => (base o).relabel (before n), written⟩
  refine ⟨u, w'.heap, rfl, fun clock => ?_, fun s' σ' hm' hRests' hσ' hGrown' => ?_⟩
  · have hName : r.name = none := by
      cases ha.derives
      rfl
    have hMirrors : { s.machine with heap := w'.heap }.Mirrors u (σ.relabel (before n)) :=
      { globals := by
          obtain ⟨stores, hStored, hLike⟩ := h.globals
          exact ⟨stores, hStored.mono hw'.heap hGrown hStored.table fun _ _ => Iff.rfl,
            fun name => rel_map (fun _ _ hLike => hLike.relabel hMoves) (hLike name)⟩
        output := h.output
        behaviours := rfl
        natives := fun heap hw hHeap n _ _ _ _ hArgs =>
          Machine.like_hostOf h.natives hw (u.distinct heap) (hBase hHeap) rfl n hArgs }
    have hCompiled' : (u.world w'.heap).Compiled f r := hCompiled
    refine Session.follows h.machine ?_ hCompiled' hName ha.legal
      (ha.derives.proper (Scanner.named_tokens source)) hMirrors ?_ clock
    · rw [h.heap]
      exact hCompile
    · exact ⟨congrArg (Environment.relabel _) h.state.scopes, h.state.calls⟩
  · refine ⟨hm'.behaviours, rfl, hw'.extend hm'.wf hGrown', hRests', hσ', hm'.globals, hm'.output, ?_,
      hBase hGrown'⟩
    rw [hm'.behaviours]
    exact h.natives

end Session

/-! ## Sessions that come to the same -/

/-- Two outcomes are the same up to lines: both without a fault, or with the same fault in calls of the same
functions. -/
inductive Outcome.Same : Outcome → Outcome → Prop
  | ok : Same .ok .ok
  | failed {e e' : RuntimeError} : e.fault = e'.fault →
      e.trace.map TracePoint.name = e'.trace.map TracePoint.name → Same (.failed e) (.failed e')

/-- Two interpretations came to the same: they have printed the same in total, have ended in the same way,
and every global has the same type and the same printed text. -/
structure Session.Resembles (x y : Outcome × Session) : Prop where
  output : x.2.machine.output.written = y.2.machine.output.written
  outcome : x.1.Same y.1
  globals : ∀ name, (x.2.machine.global? name).map Value.face = (y.2.machine.global? name).map Value.face

namespace Session

/-- Machines that mirror states which differ in lines and places only. -/
theorem resembles_of_mirrors {u u' : Setup} (hu : u.before = u'.before) {s s' : Session} {σ σ' : State}
    (hm : s.machine.Mirrors u σ) (hm' : s'.machine.Mirrors u' σ') {φ ψ : Relabelling}
    (hσ : σ.relabel φ = σ'.relabel ψ) {outcome outcome' : Outcome} (ho : outcome.Same outcome') :
    Resembles (outcome, s) (outcome', s') where
  output := by
    have hPrinted : (σ.relabel φ).printed = (σ'.relabel ψ).printed := congrArg State.printed hσ
    change σ.printed = σ'.printed at hPrinted
    dsimp only
    rw [hm.output, hm'.output, hu, hPrinted]
  outcome := ho
  globals := fun name => by
    dsimp only
    rw [hm.face_global?, hm'.face_global?, ← State.face_relabel (φ := φ), hσ, State.face_relabel]

/-- Two interpretations follow evaluations that differ in lines and places only. If one has come to an end
with some fuel, the other comes to the same end. -/
theorem resembles_of_follows {u u' : Setup} (hu : u.before = u'.before) {s s' : Session}
    {source source' : String} {heap heap' : Heap} {clock : Nat} {result result' : Evaluated}
    (h : s.Follows u heap clock source result) (h' : s'.Follows u' heap' clock source' result')
    {φ ψ : Relabelling} (hResult : Eval.relabel φ (Completion.relabel φ) result =
      Eval.relabel ψ (Completion.relabel ψ) result')
    {fuel : Nat} (hFuel : fuel ≤ clock) (hEnd : (s.interpret source fuel).1 ≠ .unfinished) :
    (∃ fuel', (s'.interpret source' fuel').1 ≠ .unfinished) ∧
      ∀ fuel', (s'.interpret source' fuel').1 ≠ .unfinished →
        Resembles (s.interpret source fuel) (s'.interpret source' fuel') := by
  match result, result', h, h' with
  | .ok _ σ, .ok _ σ', ⟨_, s₁, hm, _, _, hEnds⟩, ⟨_, s₂, hm', _, _, hEnds'⟩ =>
    refine ⟨hEnds'.ended nofun, fun fuel' hEnd' => ?_⟩
    rw [hEnds.unique hEnd, hEnds'.unique hEnd']
    injection hResult with _ hσ
    exact resembles_of_mirrors hu hm hm' hσ .ok
  | .error (.fault fault) σ, .error (.fault fault') σ', ⟨s₁, trace, hm, _, hTrace, hEnds⟩,
      ⟨s₂, trace', hm', _, hTrace', hEnds'⟩ =>
    refine ⟨hEnds'.ended nofun, fun fuel' hEnd' => ?_⟩
    rw [hEnds.unique hEnd, hEnds'.unique hEnd']
    injection hResult with hStop hσ
    injection hStop with hFault
    have hCalls : (σ.relabel φ).calls = (σ'.relabel ψ).calls := congrArg State.calls hσ
    change σ.calls = σ'.calls at hCalls
    exact resembles_of_mirrors hu hm hm' hσ (.failed hFault (by rw [hTrace, hTrace', hCalls]))
  | .error .timeout σ, _, h, _ => exact absurd (h fuel hFuel) hEnd
  | .ok _ _, .error _ _, _, _ | .error _ _, .ok _ _, _, _ => cases hResult
  | .error (.fault _) _, .error .timeout _, _, _ =>
    injection hResult with hStop
    cases hStop

/-- A text that was interpreted without a fault: its evaluation ends normally too, and the session then holds
what it left. -/
theorem Holds.ended {written : ByteArray} {owned : Obj → Prop} {base : Obj → Datum} {w : World}
    {s : Session} {σ : State} (h : s.Holds written owned base w σ) {source : String} {r : Routine}
    (ha : r.Accepted (Scanner.tokens source)) {n : Nat} (hn : (Scanner.tokens source).length = n)
    {fuel : Nat} {s' : Session} (hOk : s.interpret source fuel = (.ok, s')) {clock : Nat}
    (hClock : fuel ≤ clock) :
    ∃ w' σ', r.evaluate (hostOf s.machine.natives owned fun o => (base o).relabel (before n)) clock
        (σ.relabel (before n)) = .ok .normal σ' ∧ s'.machine.natives = s.machine.natives ∧
      s'.Holds written owned (fun o => (base o).relabel (before n)) w' σ' := by
  obtain ⟨u, heap, -, hFollows, hHolds⟩ := h.follows ha hn
  have hResult := hFollows clock
  have hEnd : (s.interpret source fuel).1 ≠ .unfinished := by
    rw [hOk]
    nofun
  have hName : r.name = none := by
    cases ha.derives
    rfl
  generalize hEq : r.evaluate _ clock _ = result at hResult
  match result, hResult with
  | .ok c σ', ⟨hσ', s₁, hm, hRests, hGrown, hEnds⟩ =>
    obtain rfl := ha.legal.normal hName hEq
    cases hOk.symm.trans (hEnds.unique hEnd)
    exact ⟨_, σ', rfl, hHolds s' σ' hm hRests (hσ' rfl) hGrown⟩
  | .error (.fault fault) σ', ⟨s₁, trace, _, _, _, hEnds⟩ => cases hOk.symm.trans (hEnds.unique hEnd)
  | .error .timeout σ', hBusy => exact absurd (hBusy fuel hClock) hEnd

/-- The two ways from one session follow evaluations that differ in lines and places only. -/
theorem Holds.follows_append {written : ByteArray} {owned : Obj → Prop} {base : Obj → Datum} {w : World}
    {s : Session} {σ : State} (h : s.Holds written owned base w σ) {source₁ source₂ source : String}
    {r₁ r₂ : Routine} {count lines : Nat} (ha₁ : r₁.Accepted (Scanner.tokens source₁))
    (ha₂ : r₂.Accepted (Scanner.tokens source₂))
    (ha : (r₁.join r₂ count lines).Accepted (Scanner.tokens source))
    (hCount : (Scanner.tokens source₂).length = count + 1)
    (hLength : (Scanner.tokens source).length = (Scanner.tokens source₁).length + count)
    {fuel : Nat} {s' : Session} (hOk : s.interpret source₁ fuel = (.ok, s')) {clock : Nat}
    (hClock : fuel ≤ clock) :
    ∃ (u u' : Setup) (heap heap' : Heap) (result result' : Evaluated), u.before = u'.before ∧
      s'.Follows u heap clock source₂ result ∧ s.Follows u' heap' clock source result' ∧
      Eval.relabel bare (Completion.relabel bare) result =
        Eval.relabel (gap count) (Completion.relabel (gap count)) result' := by
  obtain ⟨w', σ₁, hFirst, hNatives, h'⟩ := h.ended ha₁ rfl hOk hClock
  obtain ⟨u, heap, hu, hFollows, -⟩ := h'.follows ha₂ hCount
  obtain ⟨u', heap', hu', hFollows', -⟩ := h.follows ha hLength
  refine ⟨u, u', heap, heap', _, _, hu.trans hu'.symm, hFollows clock, hFollows' clock, ?_⟩
  have hJoint (d : Datum) : d.relabel (before ((Scanner.tokens source₁).length + count)) =
      (d.relabel (before (Scanner.tokens source₁).length)).relabel (before count) := by
    rw [Datum.relabel_relabel, Relabelling.comp_before]
  have hState : σ.relabel (before ((Scanner.tokens source₁).length + count)) =
      (σ.relabel (before (Scanner.tokens source₁).length)).relabel (before count) := by
    rw [State.relabel_relabel, Relabelling.comp_before]
  have hBare (d : Datum) : ((d.relabel (before (Scanner.tokens source₁).length)).relabel
      (before (count + 1))).relabel bare =
      ((d.relabel (before (Scanner.tokens source₁).length)).relabel (before count)).relabel (gap count) := by
    rw [Datum.relabel_relabel, Datum.relabel_relabel (φ := before count),
      Relabelling.comp_gap_before le_rfl]
  have hHost := hostEchoes_hostOf Relabelling.injective_bare s.machine.natives owned fun o =>
    ((base o).relabel (before (Scanner.tokens source₁).length)).relabel (before (count + 1))
  simp only [hBare] at hHost
  simp only [hNatives, hJoint, hState]
  exact (Routine.evaluate_join ha₂.derives hCount lines
    (hostEchoes_hostOf (Relabelling.injective_before count) _ owned _) hHost
    (hostEchoes_hostOf (Relabelling.injective_gap count) _ owned _) hFirst).symm

end Session

/-! ## Two texts and one -/

/-- A tree of a text that compiles is accepted. -/
theorem Routine.DerivesScript.accepted {r : Routine} {source : String}
    (hd : r.DerivesScript (Scanner.tokens source)) {heap : Heap} (hh : heap.WF) {f : Fn}
    (hCompile : (Lox.compile source heap).1 = .ok f) : r.Accepted (Scanner.tokens source) := by
  rcases hd.compile hh with ⟨ha, -⟩ | ⟨-, hNot⟩
  · exact ha
  · exact absurd hCompile (hNot f)

/-- A text that was interpreted without a fault compiles. -/
theorem Session.compile_of_interpret {s s' : Session} {source : String} {fuel : Nat}
    (h : s.interpret source fuel = (.ok, s')) : ∃ f, (compile source s.machine.heap).1 = .ok f := by
  rcases s.load_cases source with ⟨problems, heap, -, hLoad⟩ | ⟨f, heap, log, hCompile, -⟩
  · unfold Session.interpret at h
    rw [hLoad] at h
    cases h
  · exact ⟨f, by rw [hCompile]⟩

/-- Two texts that compile, one behind the other, have the joint tree of their trees. -/
theorem derives_append {source₁ source₂ : String} {r₁ r₂ : Routine}
    (hd₁ : r₁.DerivesScript (Scanner.tokens source₁)) (hd₂ : r₂.DerivesScript (Scanner.tokens source₂)) :
    ∃ count lines, (Scanner.tokens source₂).length = count + 1 ∧
      (Scanner.tokens (source₁ ++ "\n" ++ source₂)).length = (Scanner.tokens source₁).length + count ∧
      (r₁.join r₂ count lines).DerivesScript (Scanner.tokens (source₁ ++ "\n" ++ source₂)) := by
  obtain ⟨ts, e, hTokens₁, hTokens⟩ :=
    Scanner.tokens_append (fun t ht => hd₁.closed.ne_error t ht .unterminatedString) source₂
  obtain ⟨count, hCount⟩ : ∃ count, (Scanner.tokens source₂).length = count + 1 := by
    refine Nat.exists_eq_add_one.2 ?_
    generalize Scanner.tokens source₂ = ts₂ at hd₂
    cases hd₂ with
    | mk hBody => exact hBody.length_le
  refine ⟨count, e.line, hCount, ?_, ?_⟩
  · rw [hTokens, hTokens₁]
    simp only [List.length_append, List.length_map, List.length_singleton, hCount]
    omega
  · rw [hTokens₁] at hd₁
    rw [hTokens]
    exact hd₁.join hd₂ hCount e.line

namespace Moment

variable {s : Session} {scripts : List Fn} {stores : List (String × Value)}

/-- An idle session without foreign objects holds data. -/
theorem Reached.holds (h : Reached Machine.Faithful ⟨s, none, scripts, stores⟩)
    (hNatives : ∀ b ∈ s.machine.natives, b.Deterministic (s.machine.Owns scripts))
    (hRoom : s.machine.output.room = .unlimited) :
    ∃ base σ, s.Holds s.machine.output.written (s.machine.Owns scripts) base (.stock s.machine.heap) σ := by
  have hStored := h.own_stored
  obtain ⟨hScripts, hIdle⟩ := h.own
  have hh := hIdle.heap
  have hBase (o : Obj) : ∃ d, s.machine.Owns scripts o →
      (World.stock s.machine.heap).Like (.object o) d := by
    by_cases ho : s.machine.Owns scripts o
    · obtain ⟨d, hd⟩ := (ho.own hScripts).like hh
      exact ⟨d, fun _ => hd⟩
    · exact ⟨.nil, fun h => absurd h ho⟩
  have hGlobals (n : String) : ∃ d, Option.Rel (World.stock s.machine.heap).Like (stores.lookup n) d := by
    cases hLookup : stores.lookup n with
    | none => exact ⟨none, .none⟩
    | some v =>
      obtain ⟨key, -, hHolds⟩ := (hStored.law n v).1 hLookup
      obtain ⟨d, hd⟩ := (hIdle.values _ v hHolds).like hh
      exact ⟨some d, .some hd⟩
  choose base hBase using hBase
  choose globals hGlobals using hGlobals
  refine ⟨base, { globals }, rfl, World.stock_wf hh, ⟨hIdle.stack, hIdle.callers⟩, ⟨rfl, rfl⟩,
    ⟨stores, hStored, hGlobals⟩, ?_, hNatives, hBase⟩
  generalize s.machine.output = output at hRoom
  obtain ⟨written, room⟩ := output
  cases hRoom
  simp

/-- Interpreting a text without a fault, and then another one, comes to the same as interpreting both with a
line break between them: one way comes to an end if the other does, and then both have printed the same,
ended in the same way up to lines, and left every global with the same type and the same printed text.
Native functions may look at all of their arguments but line numbers, and return what they find there or what
the machine owns. -/
theorem interpret_append (h : Reached Machine.Faithful ⟨s, none, scripts, stores⟩)
    (hNatives : ∀ b ∈ s.machine.natives, b.Deterministic (s.machine.Owns scripts))
    (hRoom : s.machine.output.room = .unlimited) {source₁ source₂ : String} {f₂ f : Fn}
    (hCompile₂ : (compile source₂ s.machine.heap).1 = .ok f₂)
    (hCompile : (compile (source₁ ++ "\n" ++ source₂) s.machine.heap).1 = .ok f)
    {fuel₁ : Nat} {s' : Session} (hOk : s.interpret source₁ fuel₁ = (.ok, s')) :
    ((∃ fuel, (s'.interpret source₂ fuel).1 ≠ .unfinished) ↔
      ∃ fuel, (s.interpret (source₁ ++ "\n" ++ source₂) fuel).1 ≠ .unfinished) ∧
    ∀ fuel fuel', (s'.interpret source₂ fuel).1 ≠ .unfinished →
      (s.interpret (source₁ ++ "\n" ++ source₂) fuel').1 ≠ .unfinished →
      Session.Resembles (s'.interpret source₂ fuel)
        (s.interpret (source₁ ++ "\n" ++ source₂) fuel') := by
  obtain ⟨base, σ, hHolds⟩ := h.holds hNatives hRoom
  have hh : s.machine.heap.WF := hHolds.world.heap
  obtain ⟨f₁, hCompile₁⟩ := Session.compile_of_interpret hOk
  obtain ⟨r₁, hd₁⟩ := derives_of_compile hCompile₁
  obtain ⟨r₂, hd₂⟩ := derives_of_compile hCompile₂
  obtain ⟨count, lines, hCount, hLength, hd⟩ := derives_append hd₁ hd₂
  have hBoth {clock : Nat} (hClock : fuel₁ ≤ clock) := hHolds.follows_append (hd₁.accepted hh hCompile₁)
    (hd₂.accepted hh hCompile₂) (hd.accepted hh hCompile) hCount hLength hOk hClock
  refine ⟨⟨?_, ?_⟩, ?_⟩
  · rintro ⟨fuel, hEnd⟩
    obtain ⟨u, u', _, _, _, _, hu, hFollows, hFollows', hResult⟩ := hBoth (le_max_left fuel₁ fuel)
    exact (Session.resembles_of_follows hu hFollows hFollows' hResult (le_max_right fuel₁ fuel) hEnd).1
  · rintro ⟨fuel, hEnd⟩
    obtain ⟨u, u', _, _, _, _, hu, hFollows, hFollows', hResult⟩ := hBoth (le_max_left fuel₁ fuel)
    exact (Session.resembles_of_follows hu.symm hFollows' hFollows hResult.symm (le_max_right fuel₁ fuel)
      hEnd).1
  · intro fuel fuel' hEnd hEnd'
    obtain ⟨u, u', _, _, _, _, hu, hFollows, hFollows', hResult⟩ := hBoth (le_max_left fuel₁ fuel)
    exact (Session.resembles_of_follows hu hFollows hFollows' hResult (le_max_right fuel₁ fuel) hEnd).2 fuel'
      hEnd'

end Moment

namespace Sample

/-- The first constant of a function. -/
def firstConstant : Behaviour := fun _ args => ((args.getD 0 .nil).constant? 0).getD .nil

theorem deterministic_firstConstant (owned : Obj → Prop) : firstConstant.Deterministic owned := by
  intro R hR now now' args args' h
  have hRel := (Behaviour.corresponds_getD h 0).rel_constant? hR 0
  simp only [firstConstant]
  generalize (args.getD 0 .nil).constant? 0 = v, (args'.getD 0 .nil).constant? 0 = v' at hRel
  cases hRel with
  | none => exact .nil
  | some hv => exact hv

/-- A session in which `first` returns its argument, and `constant` looks into a function. -/
def hosted : Session where
  settings := { natives := false }
  machine := (Machine.defineNative {} "first" 1 .first).defineNative "constant" 1 firstConstant

/-- A function, and a global that gets the name which the function reads. -/
def declarations : String := "fun f() { return h; } var g = constant(f);"

/-- What was declared, and a fault. -/
def uses : String := "print g; print f == first(f); f();"

end Sample

open Sample

/-- The fault is in a call on line 1 of the second text, and on line 2 of both. -/
theorem Moment.interpret_append_fault : ∃ s', hosted.interpret declarations 60 = (.ok, s') ∧
    (s'.interpret uses 60).1 = .failed ⟨.undefinedVariable "h", [⟨1, some "f"⟩, ⟨1, none⟩]⟩ ∧
    (hosted.interpret (declarations ++ "\n" ++ uses) 60).1 =
      .failed ⟨.undefinedVariable "h", [⟨1, some "f"⟩, ⟨2, none⟩]⟩ ∧
    (s'.interpret uses 60).2.machine.output.written = "h\ntrue\n".toUTF8 ∧
    Session.Resembles (s'.interpret uses 60) (hosted.interpret (declarations ++ "\n" ++ uses) 60) := by
  have hReached : Reached Machine.Faithful ⟨hosted, none, [], _⟩ :=
    ((Reached.start { natives := false } {}).next (.define "first" 1 .first)).next
      (.define "constant" 1 firstConstant)
  have hOk : (hosted.interpret declarations 60).1 = .ok := by decide +kernel
  have hFault : ((hosted.interpret declarations 60).2.interpret uses 60).1 =
      .failed ⟨.undefinedVariable "h", [⟨1, some "f"⟩, ⟨1, none⟩]⟩ := by decide +kernel
  have hFault' : (hosted.interpret (declarations ++ "\n" ++ uses) 60).1 =
      .failed ⟨.undefinedVariable "h", [⟨1, some "f"⟩, ⟨2, none⟩]⟩ := by decide +kernel
  have hWritten : ((hosted.interpret declarations 60).2.interpret uses 60).2.machine.output.written =
      "h\ntrue\n".toUTF8 := by decide +kernel
  have hCompile : (compile uses hosted.machine.heap).1.isOk ∧
      (compile (declarations ++ "\n" ++ uses) hosted.machine.heap).1.isOk := by decide +kernel
  have hNatives : ∀ b ∈ hosted.machine.natives, b.Deterministic (hosted.machine.Owns []) := by
    have hAll : hosted.machine.natives = #[.first, firstConstant] := rfl
    rw [hAll]
    simp only [List.mem_toArray, List.forall_mem_cons, List.not_mem_nil, false_imp_iff, implies_true, and_true]
    exact ⟨Behaviour.deterministic_library _ _ (by simp), deterministic_firstConstant _⟩
  obtain ⟨f₂, hf₂⟩ := exists_of_isOk hCompile.1
  obtain ⟨f, hf⟩ := exists_of_isOk hCompile.2
  have hInterpret : hosted.interpret declarations 60 = (.ok, (hosted.interpret declarations 60).2) :=
    Prod.ext hOk rfl
  refine ⟨_, hInterpret, hFault, hFault', hWritten, ?_⟩
  refine (interpret_append hReached hNatives rfl hf₂ hf hInterpret).2 60 60 ?_ ?_
  · rw [hFault]
    nofun
  · rw [hFault']
    nofun

/-! ## Native functions that tell the two ways apart -/

/-- Two texts compile, and run without a fault, alone and together; one after the other they print something
else than together. -/
def Session.Differs (s : Session) (source₁ source₂ : String) (apart together : String) : Prop :=
  (compile source₂ s.machine.heap).1.isOk ∧ (s.interpret source₁ 60).1 = .ok ∧
  ((s.interpret source₁ 60).2.interpret source₂ 60).1 = .ok ∧
  ((s.interpret source₁ 60).2.interpret source₂ 60).2.machine.output.written = apart.toUTF8 ∧
  (s.interpret (source₁ ++ "\n" ++ source₂) 60).1 = .ok ∧
  (s.interpret (source₁ ++ "\n" ++ source₂) 60).2.machine.output.written = together.toUTF8 ∧
  apart ≠ together

instance (s : Session) (source₁ source₂ apart together : String) :
    Decidable (s.Differs source₁ source₂ apart together) := inferInstanceAs (Decidable (_ ∧ _))

namespace Sample

/-- Whether the code of a function starts on line 1. -/
def onLineOne : Behaviour := fun _ args =>
  match (args.getD 0 .nil).asFunction? with
  | some f => .bool (f.chunk.lines[0]? == some 1)
  | none => .nil

/-- A session whose native function sees line numbers. -/
def watching : Session where
  settings := { natives := false }
  machine := Machine.defineNative {} "onLineOne" 1 onLineOne

/-- The function drops itself, and then stores what is below it: the script that calls it. -/
def keeping : String := "fun keep() { ); var a = x = ); }"

end Sample

/-- A native function that computes from its arguments, but from their lines too, and one that returns a
function which a rejected text left. -/
theorem Session.texts_differ :
    ((∀ b ∈ watching.machine.natives, ∀ now now' args, b now args = b now' args ∧
        ∀ o, b now args ≠ .object o) ∧
      watching.Differs "var a = 1;" "fun f() {} print onLineOne(f);" "true\n" "false\n") ∧
    Leaves keeping ∧
      (leaving keeping).Differs "var x; left()();" "var y = x; left()(); print x == y;" "false\n"
        "true\n" := by
  refine ⟨⟨?_, by decide +kernel⟩, leaves_of_rejected (by decide +kernel) (by decide +kernel),
    by decide +kernel⟩
  intro b hb now now' args
  obtain rfl : b = onLineOne := Array.mem_singleton.1 hb
  refine ⟨rfl, fun o => ?_⟩
  unfold onLineOne
  split <;> nofun

end Lox
