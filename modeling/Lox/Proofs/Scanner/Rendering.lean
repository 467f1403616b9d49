import Lox.Proofs.Scanner.LongestMatch

/-!
# Layout carries no meaning

The lexemes of a source text can be laid out anew, with any gaps between them that start with a blank
(`Lexis.Spaced`). A blank ends every token that is not an error, and starts none, so the tokens are the same
again (`Lexis.Splits.relaid`). Single spaces are one such layout (`Scanner.tokens_of_rendering`).
-/

set_option autoImplicit false

namespace Lox

/-- What a token says apart from where it stands. -/
def Token.word (t : Token) : Token.Kind × String := (t.kind, t.lexeme)

namespace Lexis

/-- The characters that end every token but a string. -/
def Blank (c : Char) : Prop := c ∈ [' ', '\t', '\r', '\n']

instance (c : Char) : Decidable (Blank c) := inferInstanceAs (Decidable (c ∈ _))

/-- A text is some lexemes in order, with gaps around them. Behind a lexeme comes a blank, or nothing. -/
inductive Spaced : List String → List Char → Prop
  | nil {gap : List Char} : Gap gap [] → Spaced [] gap
  | cons {lexeme : String} {lexemes : List String} {gap behind : List Char} :
      Gap gap (lexeme.toList ++ behind) → (∀ c ∈ behind.head?, Blank c) → Spaced lexemes behind →
      Spaced (lexeme :: lexemes) (gap ++ (lexeme.toList ++ behind))

/-! ## Blanks and tokens -/

theorem fixed_not_blank : ∀ entry ∈ fixed, ∀ c ∈ entry.1.toList, ¬ Blank c := by
  have hAll : ∀ entry ∈ fixed, entry.1.toList.all fun c => ¬ Blank c := by decide +kernel
  simpa [List.all_eq_true] using hAll

theorem Blank.cases {c : Char} (h : Blank c) : c = ' ' ∨ c = '\t' ∨ c = '\r' ∨ c = '\n' := by
  simpa [Blank] using h

theorem Digit.not_blank {c : Char} (h : Digit c) : ¬ Blank c := by
  intro hBlank
  rcases hBlank.cases with rfl | rfl | rfl | rfl <;> revert h <;> decide

theorem Letter.not_blank {c : Char} (h : Letter c) : ¬ Blank c := by
  intro hBlank
  rcases hBlank.cases with rfl | rfl | rfl | rfl <;> revert h <;> decide

namespace Rule

variable {kind : Token.Kind} {slice behind : List Char}

/-- Only a string has a blank in it. -/
theorem not_blank {c : Char} {cs : List Char} (h : Rule kind (c :: cs)) (hc : c ≠ '"') :
    ∀ d ∈ c :: cs, ¬ Blank d := by
  intro d hd
  rcases h.first with ⟨text, hMem, hText, -⟩ | ⟨-, hQuote, -⟩ | ⟨-, hDigit, hCases⟩ |
    ⟨-, hLetter, hParts, -⟩
  · exact fixed_not_blank _ hMem d (hText ▸ hd)
  · exact absurd hQuote hc
  · rcases List.mem_cons.1 hd with rfl | hd
    · exact hDigit.not_blank
    · rcases hCases with hAll | ⟨whole, c', cs', rfl, hWhole, hPlaces⟩
      · exact (hAll d hd).not_blank
      · rcases List.mem_append.1 hd with hd | hd
        · exact (hWhole d hd).not_blank
        · rcases List.mem_cons.1 hd with rfl | hd
          · decide
          · exact (hPlaces d hd).not_blank
  · rcases List.mem_cons.1 hd with rfl | hd
    · exact hLetter.not_blank
    · exact (hParts d hd).elim Letter.not_blank Digit.not_blank

/-- A blank ends a token. -/
theorem longest_of_blank (h : Rule kind slice) (hb : ∀ c ∈ behind.head?, Blank c) :
    Longest slice behind := by
  obtain ⟨c, cs, rfl⟩ := List.exists_cons_of_ne_nil h.ne_nil
  by_cases hc : c = '"'
  · subst hc
    obtain ⟨body, rfl, hBody⟩ := h.of_quote
    exact string_longest hBody behind
  · intro kind' more hSome hPrefix hRule
    obtain ⟨d, more, rfl⟩ := List.exists_cons_of_ne_nil hSome
    obtain ⟨rest, rfl⟩ := hPrefix
    exact hRule.not_blank hc d (by simp) (hb d rfl)

/-- A token with a blank behind it starts no gap. -/
theorem not_startsGap (h : Rule kind slice) (hb : ∀ c ∈ behind.head?, Blank c) :
    ¬ StartsGap (slice ++ behind) := by
  have hQuote : ¬ Blank '"' := by decide
  have hSlash : ∀ entry ∈ Lexis.fixed, entry.1.toList.head? = some '/' → entry.1.toList = ['/'] := by
    decide +kernel
  obtain ⟨c, cs, rfl⟩ := List.exists_cons_of_ne_nil h.ne_nil
  rintro (⟨d, hd, hPrefix⟩ | hPrefix)
  · obtain ⟨rfl, -⟩ := List.cons_prefix_cons.1 hPrefix
    by_cases hc : d = '"'
    · exact hQuote (hc ▸ hd)
    · exact h.not_blank hc d List.mem_cons_self hd
  · obtain ⟨rfl, hRest⟩ := List.cons_prefix_cons.1 hPrefix
    obtain ⟨entry, hEntry, hText⟩ := h.of_symbol (by decide)
    -- the second slash would stand behind the first, where only a blank may
    have hOne := hSlash entry hEntry (by rw [hText]; rfl)
    rw [hText] at hOne
    obtain rfl := (List.cons.inj hOne).2
    obtain ⟨rest, rfl⟩ := hRest
    exact absurd (hb '/' rfl) (by decide)

end Rule

/-! ## Layouts -/

namespace Spaced

variable {lexemes : List String} {text : List Char}

theorem blank {c : Char} (hc : Blank c) (h : Spaced lexemes text) : Spaced lexemes (c :: text) := by
  cases h with
  | nil hGap => exact .nil (.blank hc hGap)
  | cons hGap hBehind hRest => exact .cons (.blank hc hGap) hBehind hRest

/-- A lexeme, a space, and other lexemes. -/
theorem space (lexeme : String) (h : Spaced lexemes text) :
    Spaced (lexeme :: lexemes) (lexeme.toList ++ ' ' :: text) :=
  .cons .nil (fun c hc => by cases hc; decide) (h.blank (by decide))

/-- Lexemes with single spaces between them. -/
theorem intercalate (lexemes : List String) : Spaced lexemes (" ".intercalate lexemes).toList := by
  induction lexemes with
  | nil => exact .nil .nil
  | cons lexeme lexemes ih =>
    cases lexemes with
    | nil =>
      have hOne : Spaced [lexeme] ([] ++ (lexeme.toList ++ [])) := .cons .nil (by simp) (.nil .nil)
      simpa using hOne
    | cons next lexemes => simpa using ih.space lexeme

/-- Lexemes with single spaces between them and a space at the end. -/
theorem intercalate_end (lexemes : List String) :
    Spaced lexemes (" ".intercalate (lexemes ++ [""])).toList := by
  induction lexemes with
  | nil => exact .nil .nil
  | cons lexeme lexemes ih =>
    rw [List.cons_append, String.intercalate_cons_of_ne_nil (by simp)]
    simpa using ih.space lexeme

end Spaced

/-- The lexemes of a text without errors can be laid out in any way, and give the same tokens. -/
theorem Splits.relaid {before cs : List Char} {ts : List Token} (h : Splits before cs ts)
    (hErrors : ∀ t ∈ ts, ∀ cause, t.kind ≠ .error cause) (before' : List Char) {text : List Char}
    (hText : Spaced (ts.dropLast.map Token.lexeme) text) :
    ∃ ts', Splits before' text ts' ∧ ts'.map Token.word = ts.map Token.word := by
  induction h generalizing before' text with
  | last =>
    cases hText with
    | nil hGap => exact ⟨_, .last hGap, rfl⟩
  | @cons before gap slice behind kind lexeme ts _ _ hReads hRest ih =>
    obtain ⟨hKind, hErrors⟩ := List.forall_mem_cons.1 hErrors
    have hSome : ts ≠ [] := by
      rintro rfl
      simpa using hRest.last_eof
    rw [List.dropLast_cons_of_ne_nil hSome, List.map_cons] at hText
    cases hText with
    | @cons _ _ gap' behind' hGap' hBehind hSpaced =>
      have hRule : Rule kind lexeme.toList := by
        cases hReads with
        | plain hRule => rwa [String.toList_ofList]
        | unexpected | unterminated => exact absurd rfl (hKind _)
      have hRead : Reads lexeme.toList behind' kind lexeme := by
        have hPlain := Reads.plain hRule (hRule.longest_of_blank hBehind)
        rwa [String.ofList_toList] at hPlain
      obtain ⟨ts', hSplits, hWords⟩ := ih hErrors (before' ++ gap' ++ lexeme.toList) hSpaced
      refine ⟨_, .cons hGap' (hRule.not_startsGap hBehind) hRead hSplits, ?_⟩
      rw [List.map_cons, List.map_cons, hWords]
      rfl

end Lexis

namespace Scanner

open Lexis

/-- The scanner gives the words of a text again for every layout of its lexemes. -/
theorem words_of_spaced {source : String} (hErrors : ∀ t ∈ tokens source, ∀ cause, t.kind ≠ .error cause)
    {text : String} (hText : Spaced ((tokens source).dropLast.map Token.lexeme) text.toList) :
    (tokens text).map Token.word = (tokens source).map Token.word := by
  obtain ⟨ts, hNew, hWords⟩ := (splits_tokens source).relaid hErrors [] hText
  rw [(splits_tokens text).unique hNew, hWords]

/-- If no token of a source text is an error, its lexemes joined by single spaces give the same kinds and
lexemes, whether the empty lexeme of the end token is joined or not. So does every other layout of them:
no two tokens become one when they are parted, and none becomes two. -/
theorem tokens_of_rendering (source : String)
    (hErrors : ∀ t ∈ tokens source, ∀ cause, t.kind ≠ .error cause) :
    let words := (tokens source).map Token.word
    let lexemes := (tokens source).dropLast.map Token.lexeme
    (tokens (" ".intercalate ((tokens source).map Token.lexeme))).map Token.word = words ∧
    (tokens (" ".intercalate lexemes)).map Token.word = words ∧
    ∀ text : String, Spaced lexemes text.toList → (tokens text).map Token.word = words := by
  intro words lexemes
  have hAll : (tokens source).map Token.lexeme = lexemes ++ [""] := by
    have hSplits : Splits [] source.toList (tokens source) := splits_list (ofSource source) rfl
    obtain ⟨ts, hTokens⟩ := hSplits.last_eof
    simp only [lexemes, ← hTokens, List.map_append, List.dropLast_concat]
    rfl
  refine ⟨?_, words_of_spaced hErrors (.intercalate lexemes), fun text => words_of_spaced hErrors⟩
  rw [hAll]
  exact words_of_spaced hErrors (.intercalate_end lexemes)

/-- Tokens that touch, a comment, a newline in a string, and a dot that is no fraction. -/
theorem tokens_of_rendering_touching :
    let source := "a==-1.x// y\n\"/\n/\"!= /2.5"
    (∀ t ∈ tokens source, ∀ cause, t.kind ≠ .error cause) ∧
    " ".intercalate ((tokens source).dropLast.map Token.lexeme) = "a == - 1 . x \"/\n/\" != / 2.5" ∧
    (tokens "a == - 1 . x \"/\n/\" != / 2.5").map Token.word = (tokens source).map Token.word := by
  intro source
  have hErrors : ∀ t ∈ tokens source, ∀ cause, t.kind ≠ .error cause := by
    have hAll : ∀ t ∈ tokens source, t.kind.plain = true ∨ t.kind = .eof := by decide +kernel
    intro t ht cause hKind
    rcases hAll t ht with h | h <;> rw [hKind] at h <;> cases h
  have hText : " ".intercalate ((tokens source).dropLast.map Token.lexeme) =
      "a == - 1 . x \"/\n/\" != / 2.5" := by decide +kernel
  exact ⟨hErrors, hText, hText ▸ (tokens_of_rendering source hErrors).2.1⟩

end Scanner

end Lox
