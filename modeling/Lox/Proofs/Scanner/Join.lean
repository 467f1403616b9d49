import Lox.Proofs.Scanner
import Lox.Proofs.Syntax.Splice

/-!
# The tokens of two texts with a newline between them

A newline ends every token of the text before it but an unterminated string, and every comment. So the
tokens of two texts with a newline between them are those of the one without its end token, and those of
the other on later lines, if the first text has no unterminated string.
-/

set_option autoImplicit false

namespace Lox.Scanner

open Relabelling (behind)

variable {tail : List Char}

/-! ## Gaps -/

/-- The newline behind a text ends a gap at the end of it, or stands behind what is left. -/
theorem skipGap_append (comment : Bool) (cs : List Char) (line : Nat) :
    skipGap comment (cs ++ '\n' :: tail) line =
      match skipGap comment cs line with
      | ⟨[], line⟩ => skipGap false tail (line + 1)
      | ⟨c :: rest, line⟩ => ⟨c :: (rest ++ '\n' :: tail), line⟩ := by
  fun_induction skipGap comment cs line with
  | case1 => rfl
  | case2 comment rest line ih => exact ih
  | case3 c rest line hc ih =>
    rw [List.cons_append, skipGap, if_pos rfl, ih]
    exact hc
  | case4 comment c rest line hc hOpen hBlank ih =>
    rw [List.cons_append, skipGap, if_neg hOpen, if_pos hBlank, ih]
    exact hc
  | case5 comment c rest line hc hOpen hBlank hSlash ih =>
    have hSlash' : (c == '/' && (rest ++ '\n' :: tail).head? == some '/') = true := by
      cases rest <;> simp_all
    rw [List.cons_append, skipGap, if_neg hOpen, if_neg hBlank, if_pos hSlash', ih]
    exact hc
  | case6 comment c rest line hc hOpen hBlank hSlash =>
    have hSlash' : ¬ (c == '/' && (rest ++ '\n' :: tail).head? == some '/') = true := by
      cases rest <;> simp_all
    rw [List.cons_append, skipGap, if_neg hOpen, if_neg hBlank, if_neg hSlash']
    exact hc

/-- Lines are counted from where a text starts. -/
theorem skipGap_add (comment : Bool) (cs : List Char) (line lines : Nat) :
    skipGap comment cs (line + lines) =
      ⟨(skipGap comment cs line).rest, (skipGap comment cs line).line + lines⟩ := by
  fun_induction skipGap comment cs line with
  | case1 => rfl
  | case2 comment rest line ih =>
    rw [← ih, skipGap, Nat.add_right_comm]
  | case3 c rest line hc ih =>
    rw [← ih, skipGap, if_pos rfl]
    exact hc
  | case4 comment c rest line hc hOpen hBlank ih =>
    rw [← ih, skipGap, if_neg hOpen, if_pos hBlank]
    exact hc
  | case5 comment c rest line hc hOpen hBlank hSlash ih =>
    rw [← ih, skipGap, if_neg hOpen, if_neg hBlank, if_pos hSlash]
    exact hc
  | case6 comment c rest line hc hOpen hBlank hSlash =>
    rw [skipGap, if_neg hOpen, if_neg hBlank, if_neg hSlash]
    exact hc

/-! ## Tokens -/

theorem takeWhile_append {p : Char → Bool} (hp : p '\n' = false) (cs : List Char) :
    (cs ++ '\n' :: tail).takeWhile p = cs.takeWhile p := by
  induction cs with
  | nil => simp [hp]
  | cons c cs ih => simp [List.takeWhile_cons, ih]

theorem length_takeWhile_le (p : Char → Bool) (cs : List Char) : (cs.takeWhile p).length ≤ cs.length :=
  (List.takeWhile_prefix p).length_le

theorem fraction_append (cs : List Char) : fraction (cs ++ '\n' :: tail) = fraction cs := by
  match cs with
  | [] => simp [fraction]
  | c :: cs =>
    by_cases hc : c = '.'
    · subst hc
      simp [fraction, takeWhile_append]
    · simp [fraction, hc]

theorem length_fraction_le (cs : List Char) : (fraction cs).length ≤ cs.length := by
  unfold fraction
  split
  · rename_i digits
    split
    · simp
    · rename_i taken hTaken
      have hLength := length_takeWhile_le Char.isDigit digits
      simpa using hLength
  · simp

/-- What ends within a text ends there in a longer one. -/
theorem takeWhile_append_of_ends {p : Char → Bool} {cs : List Char} {c : Char} {rest : List Char}
    (h : cs.drop (cs.takeWhile p).length = c :: rest) (more : List Char) :
    (cs ++ more).takeWhile p = cs.takeWhile p := by
  induction cs with
  | nil => simp at h
  | cons d cs ih =>
    rw [List.cons_append, List.takeWhile_cons, List.takeWhile_cons]
    cases hd : p d with
    | false => rfl
    | true =>
      rw [List.takeWhile_cons, hd] at h
      exact congrArg (d :: ·) (ih h)

/-- A newline behind a text is not part of the token that the text starts with. -/
theorem classify_append {c : Char} {rest : List Char} (h : (classify c rest).1 ≠ .error .unterminatedString) :
    classify c (rest ++ '\n' :: tail) = classify c rest ∧ (classify c rest).2 ≤ rest.length + 1 := by
  have hHead : ((rest ++ '\n' :: tail).head? == some '=') = (rest.head? == some '=') := by
    cases rest <;> rfl
  have hTwo {kind kind' : Token.Kind} :
      (if rest.head? == some '=' then (kind', 2) else (kind, 1)).2 ≤ rest.length + 1 := by
    cases rest with
    | nil => simp
    | cons c rest => split <;> simp
  revert h
  unfold classify
  dsimp only
  rw [hHead]
  split
  case h_12 | h_13 | h_14 | h_15 => exact fun _ => ⟨rfl, hTwo⟩
  case h_16 =>
    intro h
    match hDrop : rest.drop (rest.takeWhile (· != '"')).length with
    | [] =>
      rw [hDrop] at h
      exact absurd rfl h
    | d :: behind =>
      have hBody := takeWhile_append_of_ends hDrop ('\n' :: tail)
      have hLength := congrArg List.length hDrop
      rw [List.length_drop, List.length_cons] at hLength
      rw [hBody, List.drop_append_of_le_length (by omega), hDrop]
      exact ⟨rfl, by dsimp only; omega⟩
  case h_17 =>
    intro h
    have hDigit : Char.isDigit '\n' = false := by decide
    have hPart : isWordPart '\n' = false := by decide
    have hWhole := length_takeWhile_le Char.isDigit rest
    rw [takeWhile_append hDigit, takeWhile_append hPart, List.drop_append_of_le_length hWhole,
      fraction_append]
    refine ⟨rfl, ?_⟩
    split
    · have hFraction := length_fraction_le (rest.drop (rest.takeWhile Char.isDigit).length)
      rw [List.length_drop] at hFraction
      dsimp only
      omega
    · split
      · have hWord := length_takeWhile_le isWordPart rest
        dsimp only
        omega
      · exact Nat.le_add_left 1 _
  all_goals exact fun _ => ⟨rfl, Nat.le_add_left 1 _⟩

theorem classify_ne_eof (c : Char) (rest : List Char) : (classify c rest).1 ≠ .eof := by
  have hWord (word : String) : Token.Kind.ofWord word ≠ .eof := by
    unfold Token.Kind.ofWord Token.Kind.confirm
    repeat' split
    all_goals nofun
  unfold classify
  dsimp only
  repeat' split
  all_goals first | exact hWord _ | nofun

/-- The newline behind a text stands behind what is left when a token was read. -/
theorem next_append {s : Scanner} (hEnd : s.next.1.kind ≠ .eof)
    (hError : s.next.1.kind ≠ .error .unterminatedString) :
    next ⟨s.rest ++ '\n' :: tail, s.line⟩ = (s.next.1, ⟨s.next.2.rest ++ '\n' :: tail, s.next.2.line⟩) := by
  unfold next at hEnd hError ⊢
  rw [skipGap_append]
  match hs : skipGap false s.rest s.line with
  | ⟨[], line⟩ =>
    rw [hs] at hEnd
    exact absurd rfl hEnd
  | ⟨c :: rest, line⟩ =>
    rw [hs] at hError
    dsimp only at hError ⊢
    obtain ⟨hEq, hSize⟩ := @classify_append tail _ _ hError
    rw [hEq, ← List.cons_append, List.take_append_of_le_length hSize, List.drop_append_of_le_length hSize]

/-- Behind the last token of a text, the newline is skipped. -/
theorem next_append_of_eof {s : Scanner} (hEnd : s.next.1.kind = .eof) :
    next ⟨s.rest ++ '\n' :: tail, s.line⟩ = next ⟨tail, s.next.1.line + 1⟩ := by
  unfold next at hEnd ⊢
  match hs : skipGap false s.rest s.line with
  | ⟨[], line⟩ =>
    dsimp only
    rw [skipGap_append, hs]
  | ⟨c :: rest, line⟩ =>
    rw [hs] at hEnd
    exact absurd hEnd (classify_ne_eof c rest)

theorem next_add (rest : List Char) (line lines : Nat) :
    next ⟨rest, line + lines⟩ = ((next ⟨rest, line⟩).1.relabel (behind lines),
      ⟨(next ⟨rest, line⟩).2.rest, (next ⟨rest, line⟩).2.line + lines⟩) := by
  unfold next
  dsimp only
  rw [skipGap_add]
  match skipGap false rest line with
  | ⟨[], line⟩ => rfl
  | ⟨c :: rest, line⟩ =>
    dsimp only
    rw [Nat.add_right_comm]
    rfl

/-! ## All tokens -/

/-- All tokens up to and including the end token. -/
def list (s : Scanner) : List Token := s.run.1.toList

/-- More fuel than there are characters makes no difference. -/
theorem collect_eq (fuel : Nat) (found : Array Token) (s : Scanner) (hFuel : s.rest.length < fuel) :
    (collect fuel found s).1.toList = found.toList ++ s.list := by
  suffices hAll : ∀ fuel' found', s.rest.length < fuel' →
      ∃ ts, (collect fuel found s).1.toList = found.toList ++ ts ∧
        (collect fuel' found' s).1.toList = found'.toList ++ ts by
    obtain ⟨ts, hEq, hList⟩ := hAll (s.rest.length + 1) #[] (Nat.lt_succ_self _)
    rw [hEq, list, run, hList, List.nil_append]
  induction fuel generalizing found s with
  | zero => exact absurd hFuel (Nat.not_lt_zero _)
  | succ fuel ih =>
    intro fuel' found' hFuel'
    obtain ⟨fuel', rfl⟩ := Nat.exists_eq_succ_of_ne_zero (Nat.ne_zero_of_lt hFuel')
    have hNext := s.next_lt
    unfold collect
    generalize s.next = read at hNext ⊢
    obtain ⟨t, s'⟩ := read
    dsimp only at hNext ⊢
    split
    · exact ⟨[t], by simp⟩
    · rename_i hKind
      have hLess := hNext.resolve_left hKind
      obtain ⟨ts, hEq, hEq'⟩ := ih (found.push t) s' (by omega) fuel' (found'.push t) (by omega)
      exact ⟨t :: ts, by simp [hEq], by simp [hEq']⟩

theorem list_eq (s : Scanner) :
    s.list = if s.next.1.kind = .eof then [s.next.1] else s.next.1 :: s.next.2.list := by
  have hNext := s.next_lt
  conv_lhs => rw [list, run, collect]
  generalize s.next = read at hNext ⊢
  obtain ⟨t, s'⟩ := read
  dsimp only at hNext ⊢
  split
  · rename_i hKind
    rw [if_pos hKind]
    rfl
  · rename_i hKind
    rw [if_neg hKind, collect_eq _ _ _ (hNext.resolve_left hKind)]
    rfl

theorem list_add (rest : List Char) (line lines : Nat) :
    list ⟨rest, line + lines⟩ = (list ⟨rest, line⟩).map (Token.relabel (behind lines)) := by
  induction h : rest.length using Nat.strong_induction_on generalizing rest line with
  | _ n ih =>
    have hNext := next_lt ⟨rest, line⟩
    rw [list_eq, list_eq ⟨rest, line⟩, next_add]
    generalize next ⟨rest, line⟩ = read at hNext ⊢
    obtain ⟨t, s'⟩ := read
    dsimp only at hNext ⊢
    change (if t.kind = .eof then _ else _) = _
    split
    · rfl
    · rename_i hKind
      rw [ih _ (h ▸ hNext.resolve_left hKind) s'.rest s'.line rfl]
      rfl

theorem list_append (s : Scanner) (hErrors : ∀ t ∈ s.list, t.kind ≠ .error .unterminatedString) :
    ∃ ts e, s.list = ts ++ [e] ∧
      list ⟨s.rest ++ '\n' :: tail, s.line⟩ = ts ++ list ⟨tail, 1 + e.line⟩ := by
  induction h : s.rest.length using Nat.strong_induction_on generalizing s with
  | _ n ih =>
    have hNext := s.next_lt
    have hList := s.list_eq
    by_cases hEnd : s.next.1.kind = .eof
    · rw [if_pos hEnd] at hList
      refine ⟨[], s.next.1, hList, ?_⟩
      rw [list_eq, next_append_of_eof hEnd, ← list_eq, Nat.add_comm]
      rfl
    · rw [if_neg hEnd] at hList
      rw [hList] at hErrors
      obtain ⟨ts, e, hEq, hTail⟩ := ih _ (h ▸ hNext.resolve_left hEnd) s.next.2
        (fun t ht => hErrors t (List.mem_cons_of_mem _ ht)) rfl
      refine ⟨s.next.1 :: ts, e, by rw [hList, hEq]; rfl, ?_⟩
      rw [list_eq, next_append hEnd (hErrors _ List.mem_cons_self), if_neg hEnd, hTail]
      rfl

theorem toList_newline_append (source₁ source₂ : String) :
    (source₁ ++ "\n" ++ source₂).toList = source₁.toList ++ '\n' :: source₂.toList := by
  simp

/-- The tokens of two texts with a newline between them. -/
theorem tokens_append {source₁ : String}
    (hErrors : ∀ t ∈ tokens source₁, t.kind ≠ .error .unterminatedString) (source₂ : String) : ∃ ts e, tokens source₁ = ts ++ [e] ∧
      tokens (source₁ ++ "\n" ++ source₂) =
        ts ++ (tokens source₂).map (Token.relabel (behind e.line)) := by
  obtain ⟨ts, e, hEq, hTail⟩ := @list_append source₂.toList (ofSource source₁) hErrors
  refine ⟨ts, e, hEq, ?_⟩
  rw [list_add] at hTail
  rw [tokens, ofSource, toList_newline_append]
  exact hTail

end Lox.Scanner
