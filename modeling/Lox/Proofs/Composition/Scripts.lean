import Lox.Proofs.Composition.Echo
import Lox.Proofs.Syntax.Splice

/-!
# One script after the other

A script that two scripts make, one behind the other, does what the first one does and then what the second
one does (`Routine.evaluate_join`): but for the lines, and for the places of functions. In the joint script
the functions of the first one are closer to the end than if it had come to its end before the second one was
read, because one end token is missing.
-/

set_option autoImplicit false

namespace Lox

open Relabelling (before behind)

/-! ## Scripts do not return -/

namespace Eval

/-- A computation that does not end with a return. -/
def Quiet (x : Eval Completion) : Prop := ∀ s c s', x s = .ok c s' → c = .normal

namespace Quiet

theorem normal : Quiet (pure .normal) := by
  intro s c s' h
  cases h
  rfl

theorem timeout : Quiet (throw .timeout) := nofun

theorem bind {α : Type} (x : Eval α) {f : α → Eval Completion} (hf : ∀ a, Quiet (f a)) :
    Quiet (x >>= f) := by
  intro s c s' h
  change EStateM.bind x f s = .ok c s' at h
  unfold EStateM.bind at h
  split at h
  · exact hf _ _ c s' h
  · cases h

theorem andThen {x y : Eval Completion} (hx : Quiet x) (hy : Quiet y) : Quiet (Eval.andThen x y) := by
  intro s c s' h
  change EStateM.bind x _ s = .ok c s' at h
  unfold EStateM.bind at h
  split at h
  · rename_i hEnd
    rw [hx _ _ _ hEnd] at h
    exact hy _ c s' h
  · cases h

theorem ite {p : Prop} [Decidable p] {x y : Eval Completion} (hx : Quiet x) (hy : Quiet y) :
    Quiet (if p then x else y) := by
  split
  · exact hx
  · exact hy

theorem rounds (test : Eval Bool) {body : Eval Completion} (hBody : Quiet body) (step : Eval Unit) :
    ∀ n, Quiet (Eval.rounds test body step n)
  | 0 => timeout
  | n + 1 => .bind test fun _ => .ite (.andThen hBody (.bind step fun _ => rounds test hBody step n)) normal

theorem leaving : Quiet Eval.leaving := .bind _ fun _ => .normal

end Quiet

end Eval

section

open Eval

variable {call : Datum → List Datum → Eval Datum} {clock : Nat}

mutual

/-- A statement that is legal outside of functions does not return. -/
theorem Stmt.quiet : ∀ (s : Stmt) {sc : Scope} {k : List Const}, s.Legal false sc k →
    Quiet (s.exec call clock)
  | .expression _ _, _, _, _ | .var _, _, _, _ | .function _ _ _ _ _, _, _, _ => .bind _ fun _ => .normal
  | .print _ _, _, _, _ => .bind _ fun _ => .bind _ fun _ => .normal
  | .block body _, _, _, hBody => .bind _ fun _ => .andThen (Stmt.quietAll body hBody) .leaving
  | .ifThen _ _ body, _, _, ⟨_, hBody, _⟩ => .bind _ fun _ => .ite .normal (body.quiet hBody)
  | .ifElse _ _ body other, _, _, ⟨_, hBody, hOther, _⟩ =>
    .bind _ fun _ => .ite (other.quiet hOther) (body.quiet hBody)
  | .whileLoop _ _ body, _, _, ⟨_, hBody, _⟩ => .rounds _ (body.quiet hBody) _ clock
  | .forLoop _ _ _ _ _ body, _, _, ⟨_, _, _, hBody, _⟩ =>
    .bind _ fun _ => .bind _ fun _ => .andThen (.rounds _ (body.quiet hBody) _ clock) .leaving
  | .ret _ _, _, _, ⟨hFunction, _⟩ => nomatch hFunction

theorem Stmt.quietAll : ∀ (ss : List Stmt) {sc : Scope} {k : List Const}, Stmt.LegalList false sc k ss →
    Quiet (Stmt.execAll call clock ss)
  | [], _, _, _ => .normal
  | s :: ss, _, _, ⟨h, hs⟩ => .andThen (s.quiet h) (Stmt.quietAll ss hs)

end

theorem Eval.andThen_ok {x y : Eval Completion} {s s' : State} (h : x s = .ok .normal s') :
    andThen x y s = y s' := by
  change EStateM.bind x _ s = _
  unfold EStateM.bind
  rw [h]

theorem Eval.andThen_assoc (x y z : Eval Completion) :
    andThen (andThen x y) z = andThen x (andThen y z) := by
  unfold andThen
  rw [bind_assoc]
  congr 1
  funext c
  cases c with
  | normal => rfl
  | returned d => exact pure_bind _ _

theorem Stmt.execAll_append (ss ss' : List Stmt) : Stmt.execAll call clock (ss ++ ss') =
    andThen (Stmt.execAll call clock ss) (Stmt.execAll call clock ss') := by
  induction ss with
  | nil => exact (pure_bind _ _).symm
  | cons s ss ih => rw [List.cons_append, execAll, execAll, ih, andThen_assoc]

end

/-- The script of a legal routine ends normally, if it ends. -/
theorem Routine.Legal.normal {r : Routine} (hl : r.Legal) (hName : r.name = none)
    {host : Native → List Datum → Datum} {clock : Nat} {s s' : State} {c : Completion}
    (h : r.evaluate host clock s = .ok c s') : c = .normal := by
  have hBody := hl.body
  rw [hName] at hBody
  exact Stmt.quietAll r.body hBody s c s' h

/-! ## Places and lines -/

namespace Relabelling

/-- Without lines. -/
def bare : Relabelling := ⟨id, fun _ => 0⟩

/-- Without lines, and with room for one more token behind so many. -/
def gap (count : Nat) : Relabelling := ⟨fun place => if place < count then place else place + 1, fun _ => 0⟩

theorem injective_before (count : Nat) : Function.Injective (before count).place :=
  fun _ _ => Nat.add_right_cancel

theorem injective_bare : Function.Injective bare.place := Function.injective_id

theorem injective_gap (count : Nat) : Function.Injective (gap count).place := by
  intro p q h
  simp only [gap] at h
  split at h <;> split at h <;> omega

theorem comp_before (n m : Nat) : (before m).comp (before n) = before (n + m) := by
  simp only [comp, before, mk.injEq]
  exact ⟨funext fun p => Nat.add_assoc p n m, rfl⟩

/-- What is not among the first so many places moves by one. -/
theorem comp_gap_before {count n : Nat} (hn : count ≤ n) :
    (gap count).comp (before n) = bare.comp (before (n + 1)) := by
  have hPlace : (gap count).place ∘ (before n).place = bare.place ∘ (before (n + 1)).place := by
    funext p
    change (if p + n < count then p + n else p + n + 1) = p + (n + 1)
    rw [if_neg (by omega)]
    rfl
  rw [comp, comp, hPlace]
  rfl

end Relabelling

open Relabelling (bare gap)

/-- The second script in the joint one is the second script, but for the lines. -/
theorem Routine.DerivesScript.relabel_behind {r : Routine} {ts : List Token} (hd : r.DerivesScript ts)
    {count : Nat} (hCount : ts.length = count + 1) (lines : Nat) :
    Stmt.relabelAll (gap count) (Stmt.relabelAll (behind lines) r.body) = Stmt.relabelAll bare r.body := by
  obtain @⟨_, body, last, hBody, -⟩ := hd
  rw [Stmt.relabelAll_relabelAll]
  refine hBody.relabel_congr (φ := (gap count).comp (behind lines)) (ψ := bare) rfl (fun p hp => ?_)
    hCount.le
  change (if p < count then p else p + 1) = p
  rw [if_pos (by omega)]

/-- Two scripts, one behind the other, do what the first one does and then what the second one does. -/
theorem Routine.evaluate_join {r₁ r₂ : Routine} {ts : List Token} (hd : r₂.DerivesScript ts) {count : Nat}
    (hCount : ts.length = count + 1) (lines : Nat) {host₁ host₂ host₃ host : Native → List Datum → Datum}
    (hHost₁ : HostEchoes (before count) host₁ host₃) (hHost₂ : HostEchoes bare host₂ host)
    (hHost₃ : HostEchoes (gap count) host₃ host) {clock : Nat} {s s₁ : State}
    (hFirst : r₁.evaluate host₁ clock s = .ok .normal s₁) :
    Eval.relabel (gap count) (Completion.relabel (gap count))
        ((r₁.join r₂ count lines).evaluate host₃ clock (s.relabel (before count))) =
      Eval.relabel bare (Completion.relabel bare)
        (r₂.evaluate host₂ clock (s₁.relabel (before (count + 1)))) := by
  have hBefore := Stmt.execAll_relabel (Relabelling.injective_before count) hHost₁ clock r₁.body s
  rw [show Stmt.execAll (Datum.call host₁ clock) clock r₁.body s = .ok .normal s₁ from hFirst] at hBefore
  have hJoin : (r₁.join r₂ count lines).evaluate host₃ clock (s.relabel (before count)) =
      Stmt.execAll (Datum.call host₃ clock) clock (Stmt.relabelAll (behind lines) r₂.body)
        (s₁.relabel (before count)) := by
    change Stmt.execAll _ clock (_ ++ _) _ = _
    rw [Stmt.execAll_append]
    exact Eval.andThen_ok hBefore
  rw [hJoin, ← Stmt.execAll_relabel (Relabelling.injective_gap count) hHost₃, hd.relabel_behind hCount,
    State.relabel_relabel, Relabelling.comp_gap_before le_rfl, ← State.relabel_relabel,
    Stmt.execAll_relabel Relabelling.injective_bare hHost₂]
  rfl

end Lox
