import Lox.Proofs.Compiler.Phrases
import Lox.Proofs.Syntax.Proper

/-!
# The tokens of a source text

The scanner reaches the end of every source text: its tokens end with the end token, and have no
other end token among them. No identifier is empty.
-/

set_option autoImplicit false

namespace Lox.Scanner

theorem length_skipGap (comment : Bool) (cs : List Char) (line : Nat) :
    (skipGap comment cs line).rest.length ≤ cs.length := by
  fun_induction skipGap comment cs line <;> simp_all <;> omega

/-- A token takes at least one character. -/
theorem one_le_classify (c : Char) (rest : List Char) : 1 ≤ (classify c rest).2 := by
  unfold classify
  dsimp only
  repeat' split
  all_goals simp only [Nat.le_refl] <;> omega

/-- The next token is the end token, or the scanner gets on. -/
theorem next_lt (s : Scanner) : s.next.1.kind = .eof ∨ s.next.2.rest.length < s.rest.length := by
  have hGap := length_skipGap false s.rest s.line
  unfold next
  match hs : skipGap false s.rest s.line with
  | ⟨[], line⟩ => exact .inl rfl
  | ⟨c :: rest, line⟩ =>
    have hOne := one_le_classify c rest
    rw [hs] at hGap
    simp only [List.length_cons] at hGap
    refine .inr ?_
    simp only [List.length_drop, List.length_cons]
    omega

theorem terminated_collect : ∀ (fuel : Nat) (found : Array Token) (s : Scanner),
    s.rest.length < fuel →
      ∃ ts, (collect fuel found s).1.toList = found.toList ++ ts ∧ Token.Terminated ts
  | 0, _, _, h => absurd h (Nat.not_lt_zero _)
  | fuel + 1, found, s, h => by
    have hNext := s.next_lt
    unfold collect
    generalize s.next = read at hNext ⊢
    obtain ⟨t, s'⟩ := read
    dsimp only at hNext ⊢
    split
    · rename_i hKind
      exact ⟨[t], by simp, .last hKind⟩
    · rename_i hKind
      obtain ⟨ts, hEq, hTerminated⟩ := terminated_collect fuel (found.push t) s' (by
        have := hNext.resolve_left hKind
        omega)
      exact ⟨t :: ts, by simp [hEq], .cons hKind hTerminated⟩

/-- The tokens of a source text end with its only end token. -/
theorem terminated_tokens (source : String) : Token.Terminated (tokens source) := by
  obtain ⟨ts, hEq, hTerminated⟩ :=
    terminated_collect (source.toList.length + 1) #[] (ofSource source) (Nat.lt_succ_self _)
  have hTokens : tokens source = ts := hEq.trans (List.nil_append ts)
  exact hTokens ▸ hTerminated

/-- An identifier has its first character. -/
theorem next_named (s : Scanner) (h : s.next.1.kind = .identifier) : s.next.1.lexeme ≠ "" := by
  revert h
  unfold next
  match skipGap false s.rest s.line with
  | ⟨[], line⟩ => exact nofun
  | ⟨c :: rest, line⟩ =>
    obtain ⟨size, hSize⟩ : ∃ size, (classify c rest).2 = size + 1 :=
      ⟨_, (Nat.succ_pred_eq_of_pos (one_le_classify c rest)).symm⟩
    intro hKind
    dsimp only at hKind ⊢
    rw [hKind, hSize, List.take_succ_cons]
    simp

theorem named_collect : ∀ (fuel : Nat) (found : Array Token) (s : Scanner),
    Token.Named found.toList → Token.Named (collect fuel found s).1.toList
  | 0, _, _, h => h
  | fuel + 1, found, s, h => by
    have hNext := s.next_named
    unfold collect
    generalize s.next = read at hNext ⊢
    obtain ⟨t, s'⟩ := read
    have hPush : Token.Named (found.push t).toList := by
      intro u hu
      rw [Array.toList_push, List.mem_append, List.mem_singleton] at hu
      rcases hu with hu | rfl
      · exact h u hu
      · exact hNext
    dsimp only
    split
    · exact hPush
    · exact named_collect fuel (found.push t) s' hPush

/-- The identifiers of a source text are not empty. -/
theorem named_tokens (source : String) : Token.Named (tokens source) :=
  named_collect _ #[] (ofSource source) nofun

end Lox.Scanner
