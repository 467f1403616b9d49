import Lox.Proofs.Syntax.Grammar

/-!
# The lexical rules

What a source text is made of, said without a scanner. A text splits into gaps and slices by turns
(`Splits`): a gap is blanks and comments, and each slice is one token, the longest that any rule allows
there (`Reads`). A stretch that no rule allows is an error. A text splits in at most one way
(`Splits.unique`).
-/

set_option autoImplicit false

namespace Lox.Lexis

/-- The tokens that always have the same text. -/
def fixed : List (String × Token.Kind) :=
  [("(", .leftParen), (")", .rightParen), (r"{", .leftBrace), (r"}", .rightBrace), (",", .comma),
    (".", .dot), (";", .semicolon), ("-", .minus), ("+", .plus), ("/", .slash), ("*", .star), ("!", .bang),
    ("!=", .bangEqual), ("=", .equal), ("==", .equalEqual), (">", .greater), (">=", .greaterEqual),
    ("<", .less), ("<=", .lessEqual),
    ("and", .kwAnd), ("class", .kwClass), ("else", .kwElse), ("false", .kwFalse), ("for", .kwFor),
    ("fun", .kwFun), ("if", .kwIf), ("nil", .kwNil), ("or", .kwOr), ("print", .kwPrint),
    ("return", .kwReturn), ("super", .kwSuper), ("this", .kwThis), ("true", .kwTrue), ("var", .kwVar),
    ("while", .kwWhile)]

/-- The sixteen keywords, which are the words among them. -/
def keywords : List (String × Token.Kind) := fixed.drop 19

/-- A character stands between two others in the order of their codes, or is one of them. -/
def Between (low high c : Char) : Prop := low.toNat ≤ c.toNat ∧ c.toNat ≤ high.toNat

/-- The characters that an identifier may start with. -/
def Letter (c : Char) : Prop := Between 'a' 'z' c ∨ Between 'A' 'Z' c ∨ c = '_'

def Digit (c : Char) : Prop := Between '0' '9' c

instance (low high c : Char) : Decidable (Between low high c) := inferInstanceAs (Decidable (_ ∧ _))

instance (c : Char) : Decidable (Letter c) := inferInstanceAs (Decidable (_ ∨ _))

instance (c : Char) : Decidable (Digit c) := inferInstanceAs (Decidable (Between '0' '9' c))

/-- The texts that a token of a kind may have. -/
inductive Rule : Token.Kind → List Char → Prop
  | fixed {text : String} {kind : Token.Kind} : (text, kind) ∈ fixed → Rule kind text.toList
  | string {body : List Char} : '"' ∉ body → Rule .string ('"' :: (body ++ ['"']))
  | whole {c : Char} {cs : List Char} : (∀ d ∈ c :: cs, Digit d) → Rule .number (c :: cs)
  | fraction {c c' : Char} {cs cs' : List Char} : (∀ d ∈ c :: cs, Digit d) → (∀ d ∈ c' :: cs', Digit d) →
      Rule .number (c :: (cs ++ '.' :: c' :: cs'))
  | identifier {c : Char} {cs : List Char} : Letter c → (∀ d ∈ cs, Letter d ∨ Digit d) →
      (∀ entry ∈ Lexis.fixed, entry.1.toList ≠ c :: cs) → Rule .identifier (c :: cs)

/-- What may stand between tokens, in front of the rest of a text: blanks, and comments that run to the
end of their line. -/
inductive Gap : List Char → List Char → Prop
  | nil {behind : List Char} : Gap [] behind
  | blank {c : Char} {gap behind : List Char} : c ∈ [' ', '\t', '\r', '\n'] → Gap gap behind →
      Gap (c :: gap) behind
  | comment {body gap behind : List Char} : '\n' ∉ body → (∀ c ∈ (gap ++ behind).head?, c = '\n') →
      Gap gap behind → Gap ('/' :: '/' :: (body ++ gap)) behind

/-- A text starts with a blank or with a comment. -/
def StartsGap (cs : List Char) : Prop :=
  (∃ c ∈ [' ', '\t', '\r', '\n'], [c] <+: cs) ∨ ['/', '/'] <+: cs

/-- No rule allows a slice and more of what stands behind it. -/
def Longest (slice behind : List Char) : Prop :=
  ∀ kind more, more ≠ [] → more <+: behind → ¬ Rule kind (slice ++ more)

/-- The kind and the text of the token that a slice of a source text stands for, with `behind` behind
it. -/
inductive Reads : List Char → List Char → Token.Kind → String → Prop
  | plain {kind : Token.Kind} {slice behind : List Char} : Rule kind slice → Longest slice behind →
      Reads slice behind kind (String.ofList slice)
  /-- No token starts with this character. -/
  | unexpected {c : Char} {behind : List Char} : (∀ kind cs, ¬ Rule kind (c :: cs)) →
      Reads [c] behind (.error .unexpectedCharacter) "Unexpected character."
  /-- There is no second quote in all the rest of the source text. -/
  | unterminated {body : List Char} : '"' ∉ body →
      Reads ('"' :: body) [] (.error .unterminatedString) "Unterminated string."

/-- The line on which a text ends. -/
def line (cs : List Char) : Nat := 1 + cs.count '\n'

/-- The tokens of the rest of a source text, which has `before` in front of it. -/
inductive Splits : List Char → List Char → List Token → Prop
  | last {before gap : List Char} : Gap gap [] → Splits before gap [⟨.eof, "", line (before ++ gap)⟩]
  | cons {before gap slice behind : List Char} {kind : Token.Kind} {lexeme : String} {ts : List Token} :
      Gap gap (slice ++ behind) → ¬ StartsGap (slice ++ behind) → Reads slice behind kind lexeme →
      Splits (before ++ gap ++ slice) behind ts →
      Splits before (gap ++ (slice ++ behind)) (⟨kind, lexeme, line (before ++ gap ++ slice)⟩ :: ts)

/-! ## Rules by the first character -/

/-- What always has the same text starts with no digit and with no quote, and is a word when it starts
with a letter. -/
theorem fixed_first : ∀ entry ∈ fixed, entry.1.toList ≠ [] ∧ ∀ c ∈ entry.1.toList.head?,
    ¬ Digit c ∧ c ≠ '"' ∧ (Letter c → ∀ d ∈ entry.1.toList.tail, Letter d ∨ Digit d) := by
  have hAll : ∀ entry ∈ fixed, entry.1.toList ≠ [] ∧ entry.1.toList.head?.all fun c =>
      ¬ Digit c ∧ c ≠ '"' ∧ (Letter c → entry.1.toList.tail.all fun d => Letter d ∨ Digit d) := by
    decide +kernel
  simpa [Option.all_eq_true, imp_iff_not_or] using hAll

theorem fixed_unique : ∀ entry ∈ fixed, ∀ entry' ∈ fixed, entry.1 = entry'.1 → entry.2 = entry'.2 := by
  decide +kernel

theorem Letter.not_digit {c : Char} (h : Letter c) : ¬ Digit c := by
  have hCodes : 'a'.toNat = 97 ∧ 'A'.toNat = 65 ∧ '9'.toNat = 57 := by decide
  unfold Letter Between at h
  unfold Digit Between
  rcases h with h | h | rfl
  · omega
  · omega
  · decide

theorem Letter.ne_quote {c : Char} (h : Letter c) : c ≠ '"' := by
  rintro rfl
  revert h
  decide

theorem Digit.ne_quote {c : Char} (h : Digit c) : c ≠ '"' := by
  rintro rfl
  revert h
  decide

/-- A character that starts neither a word nor a number nor a string. -/
def Symbol (c : Char) : Prop := ¬ Letter c ∧ ¬ Digit c ∧ c ≠ '"'

instance (c : Char) : Decidable (Symbol c) := inferInstanceAs (Decidable (_ ∧ _))

theorem fixed_head : ∀ entry ∈ fixed, ∀ c ∈ entry.1.toList.head?, Letter c ∨
    c ∈ ['(', ')', '{', '}', ',', '.', ';', '-', '+', '/', '*', '!', '=', '>', '<'] := by
  have hAll : ∀ entry ∈ fixed, entry.1.toList.head?.all fun c => Letter c ∨
      c ∈ ['(', ')', '{', '}', ',', '.', ';', '-', '+', '/', '*', '!', '=', '>', '<'] := by
    decide +kernel
  simpa [Option.all_eq_true] using hAll

theorem fixed_symbols : ∀ entry ∈ fixed.take 19, ∀ c ∈ entry.1.toList.head?, Symbol c := by
  have hAll : ∀ entry ∈ fixed.take 19, entry.1.toList.head?.all fun c => Symbol c := by decide +kernel
  simpa [Option.all_eq_true] using hAll

namespace Rule

variable {kind kind' : Token.Kind} {c : Char} {cs slice : List Char}

theorem ne_nil (h : Rule kind slice) : slice ≠ [] := by
  cases h with
  | fixed hMem => exact (fixed_first _ hMem).1
  | string | whole | fraction | identifier => exact List.cons_ne_nil _ _

/-- The first character of a token says which rule it goes by. -/
theorem first (h : Rule kind (c :: cs)) :
    (∃ text, (text, kind) ∈ Lexis.fixed ∧ text.toList = c :: cs ∧ ¬ Digit c ∧ c ≠ '"' ∧
      (Letter c → ∀ d ∈ cs, Letter d ∨ Digit d)) ∨
    (kind = .string ∧ c = '"' ∧ ∃ body, cs = body ++ ['"'] ∧ '"' ∉ body) ∨
    (kind = .number ∧ Digit c ∧ ((∀ d ∈ cs, Digit d) ∨ ∃ whole c' cs', cs = whole ++ '.' :: c' :: cs' ∧
      (∀ d ∈ whole, Digit d) ∧ ∀ d ∈ c' :: cs', Digit d)) ∨
    (kind = .identifier ∧ Letter c ∧ (∀ d ∈ cs, Letter d ∨ Digit d) ∧
      ∀ entry ∈ Lexis.fixed, entry.1.toList ≠ c :: cs) := by
  generalize hs : c :: cs = slice at h
  cases h with
  | fixed hMem =>
    obtain ⟨hDigit, hQuote, hWord⟩ := (fixed_first _ hMem).2 c (by simp [← hs])
    simp only [← hs, List.tail_cons] at hWord
    exact .inl ⟨_, hMem, rfl, hDigit, hQuote, hWord⟩
  | string hBody =>
    cases hs
    exact .inr (.inl ⟨rfl, rfl, _, rfl, hBody⟩)
  | whole hDigits =>
    cases hs
    obtain ⟨hFirst, hRest⟩ := List.forall_mem_cons.1 hDigits
    exact .inr (.inr (.inl ⟨rfl, hFirst, .inl hRest⟩))
  | fraction hDigits hDigits' =>
    cases hs
    obtain ⟨hFirst, hRest⟩ := List.forall_mem_cons.1 hDigits
    exact .inr (.inr (.inl ⟨rfl, hFirst, .inr ⟨_, _, _, rfl, hRest, hDigits'⟩⟩))
  | identifier hLetter hParts hOther =>
    cases hs
    exact .inr (.inr (.inr ⟨rfl, hLetter, hParts, hOther⟩))

/-- A token that starts with a symbol always has the same text. -/
theorem of_symbol (h : Rule kind (c :: cs)) (hc : Symbol c) :
    ∃ entry ∈ Lexis.fixed, entry.1.toList = c :: cs := by
  obtain ⟨hLetter, hDigit, hQuote⟩ := hc
  rcases h.first with ⟨text, hMem, hText, -⟩ | ⟨-, h, -⟩ | ⟨-, h, -⟩ | ⟨-, h, -⟩
  · exact ⟨_, hMem, hText⟩
  · exact absurd h hQuote
  · exact absurd h hDigit
  · exact absurd h hLetter

/-- What a token that starts with a quote goes on with. -/
theorem of_quote (h : Rule kind ('"' :: cs)) : ∃ body, cs = body ++ ['"'] ∧ '"' ∉ body := by
  rcases h.first with ⟨text, -, -, -, hQuote, -⟩ | ⟨-, -, h⟩ | ⟨-, hDigit, -⟩ | ⟨-, hLetter, -⟩
  · exact absurd rfl hQuote
  · exact h
  · exact absurd rfl hDigit.ne_quote
  · exact absurd rfl hLetter.ne_quote

/-- What a token that starts with a digit goes on with. -/
theorem of_digit (h : Rule kind (c :: cs)) (hc : Digit c) :
    (∀ d ∈ cs, Digit d) ∨ ∃ whole c' cs', cs = whole ++ '.' :: c' :: cs' ∧
      (∀ d ∈ whole, Digit d) ∧ ∀ d ∈ c' :: cs', Digit d := by
  rcases h.first with ⟨text, -, -, hDigit, -⟩ | ⟨-, rfl, -⟩ | ⟨-, -, h⟩ | ⟨-, hLetter, -⟩
  · exact absurd hc hDigit
  · exact absurd rfl hc.ne_quote
  · exact h
  · exact absurd hc hLetter.not_digit

/-- What a token that starts with a letter goes on with. -/
theorem of_letter (h : Rule kind (c :: cs)) (hc : Letter c) : ∀ d ∈ cs, Letter d ∨ Digit d := by
  rcases h.first with ⟨text, -, -, -, -, h⟩ | ⟨-, rfl, -⟩ | ⟨-, hDigit, -⟩ | ⟨-, -, h, -⟩
  · exact h hc
  · exact absurd rfl hc.ne_quote
  · exact absurd hDigit hc.not_digit
  · exact h

theorem plain (h : Rule kind slice) : kind.plain = true := by
  have hAll : ∀ entry ∈ Lexis.fixed, entry.2.plain = true := by decide
  cases h with
  | fixed hMem => exact hAll _ hMem
  | string | whole | fraction | identifier => rfl

/-- A text is a token of one kind only. -/
theorem kind_unique (h : Rule kind slice) (h' : Rule kind' slice) : kind = kind' := by
  obtain ⟨c, cs, rfl⟩ := List.exists_cons_of_ne_nil h.ne_nil
  rcases h.first with ⟨text, hMem, hText, hDigit, hQuote, -⟩ | ⟨rfl, rfl, -⟩ | ⟨rfl, hDigit, -⟩ |
    ⟨rfl, hLetter, -, hOther⟩
  · rcases h'.first with ⟨text', hMem', hText', -⟩ | ⟨rfl, rfl, -⟩ | ⟨rfl, hDigit', -⟩ | ⟨rfl, -, -, hOther⟩
    · exact fixed_unique _ hMem _ hMem' (String.toList_injective (hText.trans hText'.symm))
    · exact absurd rfl hQuote
    · exact absurd hDigit' hDigit
    · exact absurd hText (hOther _ hMem)
  · rcases h'.first with ⟨text, -, -, -, hQuote, -⟩ | ⟨rfl, -⟩ | ⟨rfl, hDigit, -⟩ | ⟨rfl, hLetter, -⟩
    · exact absurd rfl hQuote
    · rfl
    · exact absurd rfl hDigit.ne_quote
    · exact absurd rfl hLetter.ne_quote
  · rcases h'.first with ⟨text, -, -, hDigit', -⟩ | ⟨rfl, rfl, -⟩ | ⟨rfl, -⟩ | ⟨rfl, hLetter, -⟩
    · exact absurd hDigit hDigit'
    · exact absurd rfl hDigit.ne_quote
    · rfl
    · exact absurd hDigit hLetter.not_digit
  · rcases h'.first with ⟨text, hMem, hText, -⟩ | ⟨rfl, rfl, -⟩ | ⟨rfl, hDigit, -⟩ | ⟨rfl, -⟩
    · exact absurd hText (hOther _ hMem)
    · exact absurd rfl hLetter.ne_quote
    · exact absurd hDigit hLetter.not_digit
    · rfl

end Rule

/-! ## One way to split -/

/-- Where a run of elements with a property ends is settled by what stands behind it. -/
theorem append_unique {α : Type} {p : α → Prop} {a a' b b' : List α} (ha : ∀ x ∈ a, p x)
    (ha' : ∀ x ∈ a', p x) (hb : ∀ x ∈ b.head?, ¬ p x) (hb' : ∀ x ∈ b'.head?, ¬ p x)
    (h : a ++ b = a' ++ b') : a = a' ∧ b = b' := by
  induction a generalizing a' with
  | nil =>
    cases a' with
    | nil => exact ⟨rfl, h⟩
    | cons x a' =>
      obtain rfl : b = x :: (a' ++ b') := h
      exact absurd (ha' x List.mem_cons_self) (hb x rfl)
  | cons x a ih =>
    cases a' with
    | nil =>
      obtain rfl : x :: (a ++ b) = b' := h
      exact absurd (ha x List.mem_cons_self) (hb' x rfl)
    | cons y a' =>
      obtain ⟨rfl, hTail⟩ := List.cons.inj h
      obtain ⟨rfl, rfl⟩ := ih (List.forall_mem_cons.1 ha).2 (List.forall_mem_cons.1 ha').2 hTail
      exact ⟨rfl, rfl⟩

/-- A string ends at its second quote. -/
theorem Rule.string_longest {body : List Char} (hBody : '"' ∉ body) (behind : List Char) :
    Longest ('"' :: (body ++ ['"'])) behind := by
  intro kind more hSome _ hRule
  obtain ⟨body', hEq, hBody'⟩ := hRule.of_quote
  have hText : body ++ '"' :: more = body' ++ ['"'] := by simpa using hEq
  have hNot {cs : List Char} (h : '"' ∉ cs) : ∀ c ∈ cs, c ≠ '"' := fun c hc hQuote => h (hQuote ▸ hc)
  obtain ⟨-, hMore⟩ := append_unique (hNot hBody) (hNot hBody') (by simp) (by simp) hText
  exact hSome (List.cons.inj hMore).2

namespace Gap

variable {gap gap' behind behind' : List Char}

theorem startsGap (h : Gap gap behind) (hSome : gap ≠ []) : StartsGap (gap ++ behind) := by
  cases h with
  | nil => exact absurd rfl hSome
  | blank hc => exact .inl ⟨_, hc, by simp⟩
  | comment => exact .inr (by simp)

/-- A gap ends where no other gap starts. -/
theorem unique (h : Gap gap behind) (h' : Gap gap' behind') (hEnd : ¬ StartsGap behind)
    (hEnd' : ¬ StartsGap behind') (hEq : gap ++ behind = gap' ++ behind') : gap = gap' := by
  induction h generalizing gap' with
  | nil =>
    rw [List.nil_append] at hEq
    by_contra hSome
    exact hEnd (hEq ▸ h'.startsGap (Ne.symm hSome))
  | @blank c gap behind hc h ih =>
    cases h' with
    | nil =>
      have hStarts := (Gap.blank hc h).startsGap (List.cons_ne_nil _ _)
      exact absurd (hEq ▸ hStarts : StartsGap ([] ++ _)) hEnd'
    | blank hc' h' =>
      obtain ⟨rfl, hTail⟩ := List.cons.inj hEq
      rw [ih h' hEnd hTail]
    | comment =>
      obtain ⟨rfl, -⟩ := List.cons.inj hEq
      exact absurd hc (by decide)
  | @comment body gap behind hBody hLine h ih =>
    cases h' with
    | nil =>
      have hStarts := (Gap.comment hBody hLine h).startsGap (List.cons_ne_nil _ _)
      exact absurd (hEq ▸ hStarts : StartsGap ([] ++ _)) hEnd'
    | blank hc' h' =>
      obtain ⟨rfl, -⟩ := List.cons.inj hEq
      exact absurd hc' (by decide)
    | @comment body' gap' _ hBody' hLine' h' =>
      have hTail : body ++ (gap ++ behind) = body' ++ (gap' ++ behind') := by simpa using hEq
      obtain ⟨rfl, hRest⟩ := append_unique (p := (· ≠ '\n')) (fun x hx hn => hBody (hn ▸ hx))
        (fun x hx hn => hBody' (hn ▸ hx)) (fun x hx => not_not.2 (hLine x hx))
        (fun x hx => not_not.2 (hLine' x hx)) hTail
      rw [ih h' hEnd hRest]

end Gap

namespace Reads

variable {slice slice' behind behind' : List Char} {kind kind' : Token.Kind} {lexeme lexeme' : String}

theorem ne_nil (h : Reads slice behind kind lexeme) : slice ≠ [] := by
  cases h with
  | plain hRule => exact hRule.ne_nil
  | unexpected | unterminated => exact List.cons_ne_nil _ _

theorem kind_ne_eof (h : Reads slice behind kind lexeme) : kind ≠ .eof := by
  rintro rfl
  cases h with
  | plain hRule => cases hRule.plain

theorem lexeme_of_error {cause : ScanError} (h : Reads slice behind (.error cause) lexeme) :
    lexeme = cause.message := by
  cases h with
  | plain hRule => cases hRule.plain
  | unexpected | unterminated => rfl

theorem lexeme_of_plain (h : Reads slice behind kind lexeme) (hKind : ∀ cause, kind ≠ .error cause) :
    lexeme = String.ofList slice := by
  cases h with
  | plain => rfl
  | unexpected | unterminated => exact absurd rfl (hKind _)

/-- What starts with a token has no character in front that starts none. -/
theorem not_unexpected {c : Char} (hNone : ∀ kind cs, ¬ Rule kind (c :: cs)) (h : Rule kind slice)
    (hEq : slice ++ behind = c :: behind') : False := by
  obtain ⟨d, cs, rfl⟩ := List.exists_cons_of_ne_nil h.ne_nil
  obtain ⟨rfl, -⟩ := List.cons.inj hEq
  exact hNone _ _ h

/-- What starts with a token has no quote without a partner in front. -/
theorem not_unterminated {body : List Char} (hBody : '"' ∉ body) (h : Rule kind slice)
    (hEq : slice ++ behind = '"' :: body) : False := by
  obtain ⟨d, cs, rfl⟩ := List.exists_cons_of_ne_nil h.ne_nil
  obtain ⟨rfl, rfl⟩ := List.cons.inj hEq
  obtain ⟨body, rfl, -⟩ := h.of_quote
  exact hBody (by simp)

theorem length_le (hl : Longest slice behind) (h : Rule kind slice')
    (hEq : slice ++ behind = slice' ++ behind') : slice'.length ≤ slice.length := by
  by_contra hMore
  have hPrefix : slice <+: slice' :=
    List.prefix_of_prefix_length_le ⟨behind, hEq⟩ (List.prefix_append ..) (by omega)
  obtain ⟨more, rfl⟩ := hPrefix
  rw [List.append_assoc, List.append_cancel_left_eq] at hEq
  refine hl kind more ?_ ⟨behind', hEq.symm⟩ h
  rintro rfl
  simp at hMore

/-- A text starts with at most one token. -/
theorem unique (h : Reads slice behind kind lexeme) (h' : Reads slice' behind' kind' lexeme')
    (hEq : slice ++ behind = slice' ++ behind') : slice = slice' ∧ kind = kind' ∧ lexeme = lexeme' := by
  have hString : Rule .string ['"', '"'] := .string (List.not_mem_nil)
  cases h with
  | plain hRule hLongest =>
    cases h' with
    | plain hRule' hLongest' =>
      have hLe := length_le hLongest hRule' hEq
      have hLe' := length_le hLongest' hRule hEq.symm
      obtain ⟨rfl, -⟩ := List.append_inj hEq (by omega)
      exact ⟨rfl, hRule.kind_unique hRule', rfl⟩
    | unexpected hNone => exact (not_unexpected hNone hRule hEq).elim
    | unterminated hBody => exact (not_unterminated hBody hRule (by simpa using hEq)).elim
  | unexpected hNone =>
    cases h' with
    | plain hRule' => exact (not_unexpected hNone hRule' hEq.symm).elim
    | unexpected =>
      obtain ⟨rfl, -⟩ := List.cons.inj hEq
      exact ⟨rfl, rfl, rfl⟩
    | unterminated =>
      obtain ⟨rfl, -⟩ := List.cons.inj hEq
      exact (hNone _ _ hString).elim
  | unterminated hBody =>
    cases h' with
    | plain hRule' => exact (not_unterminated hBody hRule' (by simpa using hEq.symm)).elim
    | unexpected hNone =>
      obtain ⟨rfl, -⟩ := List.cons.inj hEq
      exact (hNone _ _ hString).elim
    | unterminated =>
      rw [List.append_nil, List.append_nil] at hEq
      exact ⟨hEq, rfl, rfl⟩

end Reads

/-- The last token is the end token, on the last line. -/
theorem Splits.last_eof {before cs : List Char} {ts : List Token} (h : Splits before cs ts) :
    [⟨.eof, "", line (before ++ cs)⟩] <:+ ts := by
  induction h with
  | last => exact List.suffix_refl _
  | cons _ _ _ _ ih =>
    rw [List.append_assoc, List.append_assoc] at ih
    exact ih.trans (List.suffix_cons ..)

/-- A text splits in at most one way. -/
theorem Splits.unique {before cs : List Char} {ts ts' : List Token} (h : Splits before cs ts)
    (h' : Splits before cs ts') : ts = ts' := by
  have hNothing : ¬ StartsGap [] := by simp [StartsGap]
  induction h generalizing ts' with
  | @last before gap hGap =>
    generalize hcs : gap = cs at h'
    cases h' with
    | last => rfl
    | @cons _ gap' slice behind kind lexeme ts hGap' hEnd hReads =>
      have hEq : gap = gap' := hGap.unique hGap' hNothing hEnd (by simpa using hcs)
      have hSlice : slice = [] := by simp_all
      exact absurd hSlice hReads.ne_nil
  | @cons before gap slice behind kind lexeme ts hGap hEnd hReads _ ih =>
    generalize hcs : gap ++ (slice ++ behind) = cs at h'
    cases h' with
    | last hGap' =>
      have hEq : gap = cs := hGap.unique hGap' hEnd hNothing (by simpa using hcs)
      have hSlice : slice = [] := by simp_all
      exact absurd hSlice hReads.ne_nil
    | @cons _ gap' slice' behind' kind' lexeme' ts' hGap' hEnd' hReads' hRest' =>
      obtain rfl := hGap.unique hGap' hEnd hEnd' hcs
      have hText := List.append_cancel_left hcs
      obtain ⟨rfl, rfl, rfl⟩ := hReads.unique hReads' hText
      obtain rfl := List.append_cancel_left hText
      rw [ih hRest']

end Lox.Lexis
