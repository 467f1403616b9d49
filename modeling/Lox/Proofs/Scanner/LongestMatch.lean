import Lox.Proofs.Scanner.Join
import Lox.Proofs.Scanner.Lexis

/-!
# The scanner goes by the lexical rules

The tokens that the scanner gives are those into which the source text splits (`Scanner.splits_list`):
it skips a gap whole, takes the longest token behind it (`Scanner.next_spec`), and so loses nothing. A word
is a keyword where the trie comes to its end, which is where the table of keywords has it
(`Scanner.ofWord_eq_lookup`).
-/

set_option autoImplicit false

namespace Lox.Scanner

open Lexis

/-! ## Characters -/

theorem isDigit_iff {c : Char} : c.isDigit = true ↔ Digit c := by
  simp [Char.isDigit, Digit, Between, UInt32.le_iff_toNat_le]

theorem isWordStart_iff {c : Char} : isWordStart c = true ↔ Letter c := by
  simp [isWordStart, Char.isAlpha, Char.isUpper, Char.isLower, Letter, Between, UInt32.le_iff_toNat_le]
  tauto

theorem isWordPart_iff {c : Char} : isWordPart c = true ↔ Letter c ∨ Digit c := by
  simp [isWordPart, isWordStart_iff, isDigit_iff]

/-- The elements in front that pass a test, and the rest. -/
theorem takeWhile_spec {p : Char → Bool} {P : Char → Prop} (hp : ∀ c, p c = true ↔ P c) (cs : List Char) :
    ∃ run behind, cs = run ++ behind ∧ cs.takeWhile p = run ∧ cs.drop run.length = behind ∧
      (∀ c ∈ run, P c) ∧ ∀ c ∈ behind.head?, ¬ P c := by
  induction cs with
  | nil => exact ⟨[], [], by simp⟩
  | cons c cs ih =>
    by_cases hc : p c = true
    · obtain ⟨run, behind, rfl, hTake, hDrop, hRun, hEnd⟩ := ih
      refine ⟨c :: run, behind, rfl, ?_, hDrop, ?_, hEnd⟩
      · rw [List.takeWhile_cons, if_pos hc, hTake]
      · exact List.forall_mem_cons.2 ⟨(hp c).1 hc, hRun⟩
    · refine ⟨[], c :: cs, rfl, ?_, rfl, by simp, ?_⟩
      · rw [List.takeWhile_cons, if_neg hc]
      · intro d hd
        cases hd
        exact fun hP => hc ((hp c).2 hP)

/-! ## Gaps -/

/-- What is skipped is a gap, in front of which stands the rest of a comment when one is open. -/
theorem gap_skipGap (comment : Bool) (cs : List Char) (line : Nat) :
    ∃ body gap, cs = body ++ (gap ++ (skipGap comment cs line).rest) ∧
      Gap gap (skipGap comment cs line).rest ∧
      if comment then '\n' ∉ body ∧ ∀ c ∈ (gap ++ (skipGap comment cs line).rest).head?, c = '\n'
      else body = [] := by
  fun_induction skipGap comment cs line with
  | case1 comment line => exact ⟨[], [], rfl, .nil, by simp⟩
  | case2 comment rest line ih =>
    obtain ⟨body, gap, hRest, hGap, rfl⟩ := ih
    refine ⟨[], '\n' :: gap, congrArg _ hRest, .blank (by decide) hGap, ?_⟩
    simp
  | case3 c rest line hc ih =>
    obtain ⟨body, gap, hRest, hGap, hBody, hEnd⟩ := ih
    have hBody' := List.not_mem_cons_of_ne_of_not_mem (Ne.symm hc) hBody
    exact ⟨c :: body, gap, congrArg _ hRest, hGap, hBody', hEnd⟩
  | case4 comment c rest line hc hOpen hBlank ih =>
    obtain ⟨body, gap, hRest, hGap, rfl⟩ := ih
    have hMem : c = ' ' ∨ c = '\t' ∨ c = '\r' := by simpa [or_assoc] using hBlank
    refine ⟨[], c :: gap, congrArg _ hRest, .blank ?_ hGap, ?_⟩
    · rcases hMem with rfl | rfl | rfl <;> decide
    · simp [hOpen]
  | case5 comment c rest line hc hOpen hBlank hSlash ih =>
    obtain ⟨body, gap, hRest, hGap, hBody, hEnd⟩ := ih
    obtain ⟨rfl, hHead⟩ : c = '/' ∧ rest.head? = some '/' := by simpa using hSlash
    rw [hRest] at hHead
    -- the second slash is no end of line, so it is part of the comment
    cases body with
    | nil => exact absurd (hEnd '/' hHead) (by decide)
    | cons d body =>
      obtain rfl : d = '/' := by simpa using hHead
      refine ⟨[], '/' :: '/' :: (body ++ gap), ?_, .comment ?_ hEnd hGap, ?_⟩
      · simpa using hRest
      · exact fun h => hBody (List.mem_cons_of_mem _ h)
      · simp [hOpen]
  | case6 comment c rest line hc hOpen hBlank hSlash =>
    refine ⟨[], [], rfl, .nil, ?_⟩
    simp [hOpen]

theorem not_startsGap_skipGap (comment : Bool) (cs : List Char) (line : Nat) :
    ¬ StartsGap (skipGap comment cs line).rest := by
  fun_induction skipGap comment cs line with
  | case1 => simp [StartsGap]
  | case2 _ _ _ ih | case3 _ _ _ _ ih | case4 _ _ _ _ _ _ _ ih | case5 _ _ _ _ _ _ _ _ ih => exact ih
  | case6 comment c rest line hc hOpen hBlank hSlash =>
    rintro (⟨d, hd, hPrefix⟩ | hPrefix)
    · obtain ⟨rfl, -⟩ := List.cons_prefix_cons.1 hPrefix
      simp_all
    · obtain ⟨rfl, hTail⟩ := List.cons_prefix_cons.1 hPrefix
      obtain ⟨tail, rfl⟩ := hTail
      simp at hSlash

theorem lines_skipGap (comment : Bool) (cs : List Char) (line : Nat) :
    (skipGap comment cs line).line + (skipGap comment cs line).rest.count '\n' =
      line + cs.count '\n' := by
  fun_induction skipGap comment cs line with
  | case1 => rfl
  | case2 comment rest line ih =>
    rw [ih, List.count_cons_self]
    omega
  | case3 c rest line hc ih | case4 comment c rest line hc hOpen hBlank ih
  | case5 comment c rest line hc hOpen hBlank hSlash ih =>
    rw [ih, List.count_cons_of_ne hc]
  | case6 => rfl

/-! ## Tokens with one text -/

section

variable {c : Char} {rest behind : List Char} {kind : Token.Kind}

/-- The start of a text is a token of a kind and a number of characters. -/
def Takes (cs : List Char) (taken : Token.Kind × Nat) : Prop :=
  ∃ slice behind lexeme, cs = slice ++ behind ∧ slice.length = taken.2 ∧ Reads slice behind taken.1 lexeme

/-- The one token that starts with a symbol. -/
theorem takes_symbol (hc : Symbol c) (hMem : (String.ofList [c], kind) ∈ Lexis.fixed)
    (hOnly : ∀ entry ∈ Lexis.fixed, entry.1.toList.head? = some c → entry.1.toList = [c]) :
    Takes (c :: rest) (kind, 1) := by
  refine ⟨[c], rest, _, rfl, rfl, .plain (by simpa using Rule.fixed hMem) ?_⟩
  intro kind' more hSome _ hRule
  obtain ⟨entry, hEntry, hText⟩ := hRule.of_symbol hc
  have hOne := hOnly entry hEntry (by rw [hText]; rfl)
  rw [hText] at hOne
  exact hSome (List.cons.inj hOne).2

/-- The two tokens that start with a symbol, one of which goes on with `=`. -/
theorem takes_orEqual {kind' : Token.Kind} (hc : Symbol c)
    (hMem : (String.ofList [c], kind) ∈ Lexis.fixed) (hMem' : (String.ofList [c, '='], kind') ∈ Lexis.fixed)
    (hOnly : ∀ entry ∈ Lexis.fixed, entry.1.toList.head? = some c →
      entry.1.toList = [c] ∨ entry.1.toList = [c, '=']) :
    Takes (c :: rest) (if rest.head? == some '=' then (kind', 2) else (kind, 1)) := by
  have hMore {kind : Token.Kind} {more : List Char} (hRule : Rule kind (c :: more)) :
      more = [] ∨ more = ['='] := by
    obtain ⟨entry, hEntry, hText⟩ := hRule.of_symbol hc
    have hCases := hOnly entry hEntry (by rw [hText]; rfl)
    simpa [hText] using hCases
  split
  · rename_i hHead
    obtain ⟨behind, rfl⟩ : ∃ behind, rest = '=' :: behind := by
      cases rest with
      | nil => simp at hHead
      | cons d rest => exact ⟨rest, by simpa using hHead⟩
    refine ⟨[c, '='], behind, _, rfl, rfl, .plain (by simpa using Rule.fixed hMem') ?_⟩
    intro kind more hSome _ hRule
    rcases hMore hRule with h | h
    · cases h
    · exact hSome (List.cons.inj h).2
  · rename_i hHead
    refine ⟨[c], rest, _, rfl, rfl, .plain (by simpa using Rule.fixed hMem) ?_⟩
    intro kind more hSome hPrefix hRule
    obtain ⟨behind, rfl⟩ := hPrefix
    rcases hMore hRule with rfl | rfl
    · exact hSome rfl
    · simp at hHead

/-! ## Strings -/

theorem takes_string (rest : List Char) :
    Takes ('"' :: rest) (match rest.drop (rest.takeWhile (· != '"')).length with
      | [] => (.error .unterminatedString, (rest.takeWhile (· != '"')).length + 1)
      | _ :: _ => (.string, (rest.takeWhile (· != '"')).length + 2)) := by
  obtain ⟨body, behind, rfl, hTake, hDrop, hBody, hEnd⟩ :=
    takeWhile_spec (p := (· != '"')) (P := (· ≠ '"')) (by simp) rest
  have hNot : '"' ∉ body := fun h => hBody '"' h rfl
  rw [hTake, hDrop]
  cases behind with
  | nil => exact ⟨'"' :: body, [], _, by simp, rfl, .unterminated hNot⟩
  | cons d behind =>
    obtain rfl : d = '"' := not_not.1 (hEnd d rfl)
    exact ⟨'"' :: (body ++ ['"']), behind, _, by simp, by simp,
      .plain (.string hNot) (Rule.string_longest hNot behind)⟩

/-! ## Numbers -/

/-- A fraction is a dot and all the digits behind it, or there is no digit behind a dot. -/
theorem fraction_spec (cs : List Char) :
    (fraction cs = [] ∧ ∀ c cs', cs = '.' :: c :: cs' → ¬ Digit c) ∨
      ∃ c cs' behind, fraction cs = '.' :: c :: cs' ∧ cs = '.' :: c :: cs' ++ behind ∧
        (∀ d ∈ c :: cs', Digit d) ∧ ∀ d ∈ behind.head?, ¬ Digit d := by
  unfold fraction
  split
  · rename_i digits
    obtain ⟨run, behind, rfl, hTake, -, hRun, hEnd⟩ := takeWhile_spec (@isDigit_iff) digits
    rw [hTake]
    cases run with
    | nil =>
      refine .inl ⟨rfl, fun c cs' hEq => ?_⟩
      obtain rfl := (List.cons.inj hEq).2
      exact hEnd c rfl
    | cons c cs' => exact .inr ⟨c, cs', behind, rfl, rfl, hRun, hEnd⟩
  · rename_i hDot
    exact .inl ⟨rfl, fun c cs' hEq => absurd hEq (hDot _)⟩

theorem takes_number (hc : Digit c) :
    Takes (c :: rest) (.number, 1 + (rest.takeWhile Char.isDigit).length +
      (fraction (rest.drop (rest.takeWhile Char.isDigit).length)).length) := by
  have hDot : ¬ Digit '.' := by decide
  obtain ⟨whole, tail, rfl, hTake, hDrop, hWhole, hTail⟩ := takeWhile_spec (@isDigit_iff) rest
  rw [hTake, hDrop]
  rcases fraction_spec tail with ⟨hNone, hNoDigit⟩ | ⟨c', cs', behind, hFraction, rfl, hDigits, hEnd⟩
  · refine ⟨c :: whole, tail, _, rfl, ?_, .plain (.whole (List.forall_mem_cons.2 ⟨hc, hWhole⟩)) ?_⟩
    · simp only [hNone, List.length_cons, List.length_nil]
      omega
    · intro kind more hSome hPrefix hRule
      obtain ⟨d, more, rfl⟩ := List.exists_cons_of_ne_nil hSome
      obtain ⟨behind, rfl⟩ := hPrefix
      rcases hRule.of_digit hc with hAll | ⟨whole', c', cs', hEq, hWhole', hDigits⟩
      · exact hTail d rfl (hAll d (by simp))
      · have hMoreEnd : ∀ x ∈ (d :: more).head?, ¬ Digit x := hTail
        obtain ⟨-, hMore⟩ := append_unique hWhole hWhole' hMoreEnd (by simpa using hDot) hEq
        obtain ⟨rfl, rfl⟩ := List.cons.inj hMore
        exact hNoDigit c' (cs' ++ behind) rfl (hDigits c' List.mem_cons_self)
  · refine ⟨c :: (whole ++ '.' :: c' :: cs'), behind, _, by simp, ?_,
      .plain (.fraction (List.forall_mem_cons.2 ⟨hc, hWhole⟩) hDigits) ?_⟩
    · simp only [hFraction, List.length_cons, List.length_append]
      omega
    · intro kind more hSome hPrefix hRule
      obtain ⟨d, more, rfl⟩ := List.exists_cons_of_ne_nil hSome
      obtain ⟨behind, rfl⟩ := hPrefix
      rcases hRule.of_digit hc with hAll | ⟨whole', c'', cs'', hEq, hWhole', hDigits'⟩
      · exact hDot (hAll '.' (by simp))
      · obtain ⟨-, hMore⟩ := append_unique hWhole hWhole' (by simpa using hDot) (by simpa using hDot)
          (by simpa using hEq : whole ++ '.' :: (c' :: (cs' ++ d :: more)) = whole' ++ '.' :: (c'' :: cs''))
        obtain ⟨-, hMore⟩ := List.cons.inj hMore
        exact hEnd d rfl (hDigits' d (hMore ▸ by simp))

/-! ## Words -/

/-- A branch of the trie: behind the first letters of a keyword, its other letters confirm it. -/
theorem confirm_cases {word expected : String} (first : List Char)
    (hWord : word.toList = first ++ rest)
    (hMem : (String.ofList (first ++ expected.toList), kind) ∈ keywords) :
    Token.Kind.confirm rest expected kind = .identifier ∨
      (word, Token.Kind.confirm rest expected kind) ∈ keywords := by
  unfold Token.Kind.confirm
  split
  · rename_i hRest
    rw [← hRest, ← hWord, String.ofList_toList] at hMem
    exact .inr hMem
  · exact .inl rfl

/-- A word that the trie takes for a keyword is in the table. -/
theorem ofWord_cases (word : String) :
    Token.Kind.ofWord word = .identifier ∨ (word, Token.Kind.ofWord word) ∈ keywords := by
  unfold Token.Kind.ofWord
  split
  case h_4 hWord | h_5 hWord | h_6 hWord | h_13 hWord | h_14 hWord =>
    exact confirm_cases [_, _] hWord (by decide +kernel)
  case h_17 => exact .inl rfl
  all_goals
    rename_i hWord
    exact confirm_cases [_] hWord (by decide +kernel)

/-- No keyword is lost where two share their first letter. -/
theorem ofWord_keyword : ∀ entry ∈ keywords, Token.Kind.ofWord entry.1 = entry.2 := by decide +kernel

/-- The trie finds what is in the table, and nothing else. -/
theorem ofWord_eq_lookup (word : String) :
    Token.Kind.ofWord word = (keywords.lookup word).getD .identifier := by
  cases hLookup : keywords.lookup word with
  | some kind =>
    obtain ⟨l₁, l₂, hEq, -⟩ := List.lookup_eq_some_iff.1 hLookup
    exact ofWord_keyword (word, kind) (hEq ▸ by simp)
  | none =>
    rcases ofWord_cases word with hWord | hMem
    · exact hWord
    · have hNot := List.lookup_eq_none_iff.1 hLookup _ hMem
      simp at hNot

/-- The kind of a word is that of the keyword that it is, if any. -/
theorem rule_ofWord (hc : Letter c) (hParts : ∀ d ∈ rest, Letter d ∨ Digit d) :
    Rule (Token.Kind.ofWord (String.ofList (c :: rest))) (c :: rest) := by
  have hTable : fixed = fixed.take 19 ++ keywords := rfl
  rw [ofWord_eq_lookup]
  cases hLookup : keywords.lookup (String.ofList (c :: rest)) with
  | some kind =>
    obtain ⟨l₁, l₂, hEq, -⟩ := List.lookup_eq_some_iff.1 hLookup
    have hMem : (String.ofList (c :: rest), kind) ∈ fixed := by
      rw [hTable, hEq]
      simp
    simpa using Rule.fixed hMem
  | none =>
    refine .identifier hc hParts fun entry hEntry hText => ?_
    rw [hTable] at hEntry
    rcases List.mem_append.1 hEntry with hSymbol | hKeyword
    · exact (fixed_symbols entry hSymbol c (by rw [hText]; rfl)).1 hc
    · have hNot := List.lookup_eq_none_iff.1 hLookup entry hKeyword
      rw [← hText] at hNot
      simp at hNot

theorem takes_word (hc : Letter c) :
    Takes (c :: rest) (Token.Kind.ofWord (String.ofList (c :: rest.takeWhile isWordPart)),
      1 + (rest.takeWhile isWordPart).length) := by
  obtain ⟨word, behind, rfl, hTake, -, hWord, hEnd⟩ := takeWhile_spec (@isWordPart_iff) rest
  rw [hTake]
  refine ⟨c :: word, behind, _, rfl, by simp; omega, .plain (rule_ofWord hc hWord) ?_⟩
  intro kind more hSome hPrefix hRule
  obtain ⟨d, more, rfl⟩ := List.exists_cons_of_ne_nil hSome
  obtain ⟨behind, rfl⟩ := hPrefix
  exact hEnd d rfl (hRule.of_letter hc d (by simp))

/-! ## The next token -/

theorem takes_unexpected (hLetter : ¬ Letter c) (hDigit : ¬ Digit c) (hQuote : c ≠ '"')
    (hFixed : ∀ entry ∈ fixed, entry.1.toList.head? ≠ some c) :
    Takes (c :: rest) (.error .unexpectedCharacter, 1) := by
  refine ⟨[c], rest, _, rfl, rfl, .unexpected fun kind cs hRule => ?_⟩
  obtain ⟨entry, hEntry, hText⟩ := hRule.of_symbol ⟨hLetter, hDigit, hQuote⟩
  exact hFixed entry hEntry (by rw [hText]; rfl)

theorem takes_classify (c : Char) (rest : List Char) : Takes (c :: rest) (classify c rest) := by
  unfold classify
  dsimp only
  split
  case h_12 | h_13 | h_14 | h_15 =>
    exact takes_orEqual (by decide) (by decide +kernel) (by decide +kernel) (by decide +kernel)
  case h_16 => exact takes_string rest
  case h_17 =>
    rename_i hQuote
    split
    · exact takes_number (isDigit_iff.1 ‹_›)
    · split
      · exact takes_word (isWordStart_iff.1 ‹_›)
      · rename_i hDigit hLetter
        refine takes_unexpected (mt isWordStart_iff.2 hLetter) (mt isDigit_iff.2 hDigit) hQuote ?_
        intro entry hEntry hHead
        rcases fixed_head entry hEntry c hHead with hWord | hMem
        · exact hLetter (isWordStart_iff.2 hWord)
        · simp only [List.mem_cons, List.not_mem_nil, or_false] at hMem
          tauto
  all_goals exact takes_symbol (by decide) (by decide +kernel) (by decide +kernel)

end

/-- The scanner skips a gap and takes the token behind it, or comes to the end. -/
theorem next_spec (s : Scanner) :
    (Gap s.rest [] ∧ s.next = (⟨.eof, "", s.line + s.rest.count '\n'⟩, ⟨[], s.line + s.rest.count '\n'⟩)) ∨
    ∃ gap slice behind kind lexeme, s.rest = gap ++ (slice ++ behind) ∧ Gap gap (slice ++ behind) ∧
      ¬ StartsGap (slice ++ behind) ∧ Reads slice behind kind lexeme ∧
      s.next = (⟨kind, lexeme, s.line + (gap ++ slice).count '\n'⟩,
        ⟨behind, s.line + (gap ++ slice).count '\n'⟩) := by
  obtain ⟨body, gap, hRest, hGap, rfl⟩ := gap_skipGap false s.rest s.line
  have hEnd := not_startsGap_skipGap false s.rest s.line
  have hLines := lines_skipGap false s.rest s.line
  unfold next
  generalize skipGap false s.rest s.line = skipped at hRest hGap hEnd hLines ⊢
  obtain ⟨rest, line⟩ := skipped
  cases rest with
  | nil =>
    simp only [List.append_nil, List.nil_append, List.count_nil, Nat.add_zero] at hRest hGap hLines
    refine .inl ⟨hRest ▸ hGap, ?_⟩
    rw [hLines]
  | cons c rest =>
    obtain ⟨slice, behind, lexeme, hEq, hSize, hReads⟩ := takes_classify c rest
    have hTake : (c :: rest).take (classify c rest).2 = slice := by rw [hEq, ← hSize, List.take_left]
    have hDrop : (c :: rest).drop (classify c rest).2 = behind := by rw [hEq, ← hSize, List.drop_left]
    have hLine : line + slice.count '\n' = s.line + (gap ++ slice).count '\n' := by
      rw [hRest, hEq] at hLines
      simp only [List.nil_append, List.count_append] at hLines ⊢
      omega
    dsimp only
    rw [hTake, hDrop, hLine]
    rw [hEq] at hRest hGap hEnd
    refine .inr ⟨gap, slice, behind, _, lexeme, hRest, hGap, hEnd, hReads, ?_⟩
    split
    · rename_i cause hKind
      rw [hKind] at hReads
      rw [hReads.lexeme_of_error]
    · rename_i hKind
      rw [hReads.lexeme_of_plain hKind]

/-! ## All tokens -/

/-- The tokens of the scanner are those of the text that is left. -/
theorem splits_list {before : List Char} (s : Scanner) (hLine : s.line = Lexis.line before) :
    Splits before s.rest s.list := by
  induction h : s.rest.length using Nat.strong_induction_on generalizing s before with
  | _ n ih =>
    rw [list_eq]
    rcases s.next_spec with
      ⟨hGap, hNext⟩ | ⟨gap, slice, behind, kind, lexeme, hRest, hGap, hEnd, hReads, hNext⟩
    · rw [hNext, if_pos rfl]
      have hEof : s.line + s.rest.count '\n' = Lexis.line (before ++ s.rest) := by
        simp only [hLine, Lexis.line, List.count_append, Nat.add_assoc]
      rw [hEof]
      exact .last hGap
    · have hKind : s.next.1.kind ≠ .eof := by
        rw [hNext]
        exact hReads.kind_ne_eof
      have hToken : s.line + (gap ++ slice).count '\n' = Lexis.line (before ++ gap ++ slice) := by
        simp only [hLine, Lexis.line, List.count_append, Nat.add_assoc]
      rw [if_neg hKind, hNext, hRest, hToken]
      refine .cons hGap hEnd hReads (ih _ ?_ ⟨behind, Lexis.line (before ++ gap ++ slice)⟩ rfl rfl)
      have hPos := List.length_pos_of_ne_nil hReads.ne_nil
      rw [← h, hRest]
      simp only [List.length_append]
      omega

theorem splits_tokens (source : String) : Splits [] source.toList (tokens source) :=
  splits_list (ofSource source) rfl

/-- At the end, all lines are counted. -/
theorem collect_scanner (fuel : Nat) (found : Array Token) (s : Scanner) (hFuel : s.rest.length < fuel) :
    (collect fuel found s).2 = ⟨[], s.line + s.rest.count '\n'⟩ := by
  induction fuel generalizing found s with
  | zero => exact absurd hFuel (Nat.not_lt_zero _)
  | succ fuel ih =>
    unfold collect
    rcases s.next_spec with ⟨-, hNext⟩ | ⟨gap, slice, behind, kind, lexeme, hRest, -, -, hReads, hNext⟩
    · rw [hNext]
    · have hPos := List.length_pos_of_ne_nil hReads.ne_nil
      have hLength := congrArg List.length hRest
      simp only [List.length_append] at hLength
      rw [hNext, hRest]
      dsimp only
      split
      · exact absurd rfl hReads.kind_ne_eof
      · rw [ih _ _ (by dsimp only; omega)]
        simp only [List.count_append, Nat.add_assoc]

/-- At the end of the text there is only the end token. -/
theorem take_of_end (count line : Nat) : take count ⟨[], line⟩ = List.replicate count ⟨.eof, "", line⟩ := by
  induction count with
  | zero => rfl
  | succ count ih => exact congrArg _ ih

/-- The tokens of a source text are the only ones into which it splits by the lexical rules. The last one
is the end token on the last line, and asking for more gives this token again. -/
theorem tokens_by_longest_match (source : String) :
    (∀ ts, Splits [] source.toList ts ↔ ts = tokens source) ∧
    ∃ ts e, tokens source = ts ++ [e] ∧ e = ⟨.eof, "", Lexis.line source.toList⟩ ∧
      ∀ count, take count (ofSource source).run.2 = List.replicate count e := by
  have hSplits : Splits [] source.toList (tokens source) := splits_list (ofSource source) rfl
  refine ⟨fun ts => ⟨fun h => h.unique hSplits, fun h => h ▸ hSplits⟩, ?_⟩
  obtain ⟨ts, hTokens⟩ := hSplits.last_eof
  refine ⟨ts, _, hTokens.symm, rfl, fun count => ?_⟩
  have hEnd : (ofSource source).run.2 = ⟨[], 1 + source.toList.count '\n'⟩ :=
    collect_scanner _ _ (ofSource source) (Nat.lt_succ_self _)
  rw [hEnd, take_of_end]
  rfl

end Lox.Scanner
