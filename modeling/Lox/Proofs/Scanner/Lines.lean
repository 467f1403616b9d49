import Lox.Proofs.Scanner.LongestMatch

/-!
# The scanner goes line by line

A text can be cut at every newline that is not inside of a string: its tokens are those of the two parts, the
second part on later lines (`Scanner.tokens_over_lines`). An unterminated string takes all the rest of its
text and ends on the last line of it (`Lexis.Splits.line_of_unterminated`), so a text that goes on behind one
has other tokens.
-/

set_option autoImplicit false

namespace Lox

/-- An unterminated string ends on the last line. -/
theorem Lexis.Splits.line_of_unterminated {before cs : List Char} {ts : List Token} (h : Splits before cs ts)
    {t : Token} (ht : t ∈ ts) (hKind : t.kind = .error .unterminatedString) :
    t.line = line (before ++ cs) := by
  induction h with
  | last =>
    obtain rfl := List.mem_singleton.1 ht
    cases hKind
  | @cons before gap slice behind kind lexeme ts _ _ hReads _ ih =>
    rcases List.mem_cons.1 ht with rfl | ht
    · obtain rfl : kind = .error .unterminatedString := hKind
      cases hReads with
      | plain hRule => cases hRule.plain
      | unterminated => rw [List.append_nil, List.append_assoc]
    · rw [ih ht, List.append_assoc, List.append_assoc]

namespace Scanner

/-- A token that stays when a text goes on behind a newline is no unterminated string. -/
theorem ne_unterminated_of_joined {source₁ source₂ : String} {t : Token} (ht : t ∈ tokens source₁)
    (hJoined : t ∈ tokens (source₁ ++ "\n" ++ source₂)) : t.kind ≠ .error .unterminatedString := by
  intro hKind
  -- it would end on the last line of the first text, and on that of both
  have hFirst := (splits_tokens source₁).line_of_unterminated ht hKind
  have hBoth := (splits_tokens _).line_of_unterminated hJoined hKind
  rw [toList_newline_append] at hBoth
  simp only [List.nil_append, Lexis.line, List.count_append, List.count_cons_self] at hFirst hBoth
  omega

/-- The tokens of two texts with a newline between them are those of the first text without its end token and
then those of the second one, on lines counted from behind the newline. This is so exactly if the first text
has no unterminated string; other errors stay where they are. -/
theorem tokens_over_lines (source₁ source₂ : String) :
    ∃ ts, tokens source₁ = ts ++ [⟨.eof, "", 1 + source₁.toList.count '\n'⟩] ∧
      ((∀ t ∈ tokens source₁, t.kind ≠ .error .unterminatedString) ↔
        tokens (source₁ ++ "\n" ++ source₂) =
          ts ++ (tokens source₂).map fun t => { t with line := t.line + (1 + source₁.toList.count '\n') }) := by
  obtain ⟨ts, hLast⟩ := (splits_tokens source₁).last_eof
  refine ⟨ts, hLast.symm, fun hErrors => ?_, fun hJoined t ht => ?_⟩
  · obtain ⟨ts', e, hEq, hJoined⟩ := tokens_append hErrors source₂
    obtain ⟨rfl, hEnd⟩ := List.append_inj' (hLast.trans hEq) rfl
    obtain rfl := List.singleton_inj.1 hEnd
    exact hJoined
  · rw [← hLast] at ht
    rcases List.mem_append.1 ht with hFront | hEnd
    · have hStays : t ∈ tokens (source₁ ++ "\n" ++ source₂) := by
        rw [hJoined]
        exact List.mem_append_left _ hFront
      exact ne_unterminated_of_joined (hLast ▸ ht) hStays
    · obtain rfl := List.mem_singleton.1 hEnd
      intro hKind
      cases hKind

/-- The newline parts two slashes. The first text has a character that starts no token, a dot behind a number,
and a quote in a comment; the second one has a string over two lines. -/
theorem tokens_over_lines_slashes :
    let source₁ := "@ 1.// \"\n2 /"
    let source₂ := "/ 5\n\"a\nb\""
    (∀ t ∈ tokens source₁, t.kind ≠ .error .unterminatedString) ∧
    tokens (source₁ ++ "\n" ++ source₂) =
      [⟨.error .unexpectedCharacter, "Unexpected character.", 1⟩, ⟨.number, "1", 1⟩, ⟨.dot, ".", 1⟩,
        ⟨.number, "2", 2⟩, ⟨.slash, "/", 2⟩, ⟨.slash, "/", 3⟩, ⟨.number, "5", 3⟩, ⟨.string, "\"a\nb\"", 5⟩,
        ⟨.eof, "", 5⟩] := by
  intro source₁ source₂
  have hErrors : ∀ t ∈ tokens source₁, t.kind ≠ .error .unterminatedString := by decide +kernel
  obtain ⟨ts, hFirst, hIff⟩ := tokens_over_lines source₁ source₂
  have hTokens : tokens source₁ = [⟨.error .unexpectedCharacter, "Unexpected character.", 1⟩, ⟨.number, "1", 1⟩,
      ⟨.dot, ".", 1⟩, ⟨.number, "2", 2⟩, ⟨.slash, "/", 2⟩] ++ [⟨.eof, "", 2⟩] := by decide +kernel
  have hSecond : tokens source₂ = [⟨.slash, "/", 1⟩, ⟨.number, "5", 1⟩, ⟨.string, "\"a\nb\"", 3⟩,
      ⟨.eof, "", 3⟩] := by decide +kernel
  have hCount : source₁.toList.count '\n' = 1 := by decide +kernel
  obtain ⟨rfl, -⟩ := List.append_inj' (hFirst.symm.trans hTokens) rfl
  refine ⟨hErrors, (hIff.1 hErrors).trans ?_⟩
  rw [hSecond, hCount]
  rfl

end Scanner

end Lox
