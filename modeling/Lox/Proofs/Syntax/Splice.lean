import Lox.Proofs.Syntax.Relabel

/-!
# Derivations in longer source texts

What some tokens up to an end token derive is also derived where other tokens stand in place of the end
token, on other lines, and with functions at the places that this gives them. The other tokens must not
start with an `else`, which could belong to an `if` before them.
-/

set_option autoImplicit false

namespace Lox

namespace Token

/-- A token on another line. -/
def relabel (φ : Relabelling) (t : Token) : Token := { t with line := φ.line t.line }

/-- Tokens on other lines, and other tokens in place of the last one. -/
def splice (φ : Relabelling) (tail : List Token) : List Token → List Token
  | [] | [_] => tail
  | t :: t' :: ts => t.relabel φ :: splice φ tail (t' :: ts)

variable {φ : Relabelling} {tail ts rest : List Token} {t : Token}

theorem kind_relabel {kind : Kind} (h : t.kind = kind) : (t.relabel φ).kind = kind := h

theorem splice_cons (h : ts ≠ []) : splice φ tail (t :: ts) = t.relabel φ :: splice φ tail ts := by
  cases ts with
  | nil => exact absurd rfl h
  | cons t' ts => rfl

theorem length_splice (h : ts ≠ []) : (splice φ tail ts).length + 1 = ts.length + tail.length := by
  induction ts with
  | nil => exact absurd rfl h
  | cons t ts ih =>
    by_cases hts : ts = []
    · subst hts
      simp [splice, Nat.add_comm]
    · rw [splice_cons hts, List.length_cons, ih hts, List.length_cons]
      omega

theorem splice_append (h : rest ≠ []) :
    splice φ tail (ts ++ rest) = ts.map (relabel φ) ++ splice φ tail rest := by
  induction ts with
  | nil => rfl
  | cons t ts ih =>
    rw [List.cons_append, splice_cons (by simp [h]), ih]
    rfl

theorem Uses.ne_nil (h : Uses ts rest) : ts ≠ [] := by
  have hLess := h.length_lt
  rintro rfl
  exact absurd hLess (Nat.not_lt_zero _)

end Token

open Token (splice splice_cons kind_relabel)

section

variable {φ : Relabelling} {tail : List Token}

mutual

theorem Expr.Derives.splice {layer : Precedence} {e : Expr} {ts rest : List Token} :
    e.Derives layer ts rest → rest ≠ [] →
      (e.relabel φ).Derives layer (splice φ tail ts) (splice φ tail rest)
  | .nil h, hr => by
    rw [splice_cons hr]
    exact .nil (kind_relabel h)
  | .true h, hr => by
    rw [splice_cons hr]
    exact .true (kind_relabel h)
  | .false h, hr => by
    rw [splice_cons hr]
    exact .false (kind_relabel h)
  | .number h, hr => by
    rw [splice_cons hr]
    exact .number (kind_relabel h)
  | .string h, hr => by
    rw [splice_cons hr]
    exact .string (kind_relabel h)
  | .name h, hr => by
    rw [splice_cons hr]
    exact .name (kind_relabel h)
  | .group ho h hc, hr => by
    have hInner := h.splice (List.cons_ne_nil _ _)
    rw [splice_cons hr] at hInner
    rw [splice_cons h.uses.ne_nil]
    exact .group (kind_relabel ho) hInner hc
  | .callNone h ho hc, hr => by
    have hCallee := h.splice (List.cons_ne_nil _ _)
    rw [splice_cons (List.cons_ne_nil _ _), splice_cons hr] at hCallee
    exact .callNone hCallee ho hc
  | .callSome h ho hs hc, hr => by
    have hCallee := h.splice (List.cons_ne_nil _ _)
    have hArguments := hs.splice (List.cons_ne_nil _ _)
    rw [splice_cons hs.uses.ne_nil] at hCallee
    rw [splice_cons hr] at hArguments
    exact .callSome hCallee ho hArguments hc
  | .unary hk h, hr => by
    rw [splice_cons h.uses.ne_nil]
    exact .unary (kind_relabel hk) (h.splice hr)
  | .binary hl hk h, hr => by
    have hLeft := hl.splice (List.cons_ne_nil _ _)
    rw [splice_cons h.uses.ne_nil] at hLeft
    exact .binary hLeft hk (h.splice hr)
  | .and hl hk h, hr => by
    have hLeft := hl.splice (List.cons_ne_nil _ _)
    rw [splice_cons h.uses.ne_nil] at hLeft
    exact .and hLeft hk (h.splice hr)
  | .or hl hk h, hr => by
    have hLeft := hl.splice (List.cons_ne_nil _ _)
    rw [splice_cons h.uses.ne_nil] at hLeft
    exact .or hLeft hk (h.splice hr)
  | .assign hn he h, hr => by
    rw [splice_cons (List.cons_ne_nil _ _), splice_cons h.uses.ne_nil]
    exact .assign (kind_relabel hn) (kind_relabel he) (h.splice hr)
  | .tighter hn hp h, hr => .tighter hn hp (h.splice hr)

theorem Expr.DerivesList.splice {es : List Expr} {ts rest : List Token} :
    Expr.DerivesList es ts rest → rest ≠ [] →
      Expr.DerivesList (Expr.relabelAll φ es) (splice φ tail ts) (splice φ tail rest)
  | .last h, hr => .last (h.splice hr)
  | .more h hc hs, hr => by
    have hFirst := h.splice (List.cons_ne_nil _ _)
    rw [splice_cons hs.uses.ne_nil] at hFirst
    exact .more hFirst hc (hs.splice hr)

end

theorem Expr.DerivesWhole.splice_cons {e : Expr} {ts rest : List Token} {t : Token}
    (h : e.DerivesWhole ts (t :: rest)) (hr : rest ≠ []) :
    (e.relabel φ).DerivesWhole (Token.splice φ tail ts) (t.relabel φ :: Token.splice φ tail rest) := by
  have hWhole : (e.relabel φ).DerivesWhole (Token.splice φ tail ts) (Token.splice φ tail (t :: rest)) :=
    Expr.Derives.splice h (List.cons_ne_nil _ _)
  rwa [Token.splice_cons hr] at hWhole

theorem Expr.DerivesOptional.splice {kind : Token.Kind} {e : Option Expr} {line : Nat}
    {ts rest : List Token} : Expr.DerivesOptional kind e line ts rest → rest ≠ [] →
      Expr.DerivesOptional kind (e.map (Expr.relabel φ)) (φ.line line) (Token.splice φ tail ts)
        (Token.splice φ tail rest)
  | .none hc, hr => by
    rw [Token.splice_cons hr]
    exact .none (kind_relabel hc)
  | .some h hc, hr => .some (h.splice_cons hr) hc

theorem Variable.Derives.splice {v : Variable} {ts rest : List Token} : v.Derives ts rest → rest ≠ [] →
    (v.relabel φ).Derives (Token.splice φ tail ts) (Token.splice φ tail rest)
  | .plain hn hs, hr => by
    rw [Token.splice_cons (List.cons_ne_nil _ _), Token.splice_cons hr]
    exact .plain (kind_relabel hn) (kind_relabel hs)
  | .set hn he h hs, hr => by
    rw [Token.splice_cons (List.cons_ne_nil _ _), Token.splice_cons h.uses.ne_nil]
    exact .set (kind_relabel hn) (kind_relabel he) (h.splice_cons hr) hs

theorem Initializer.Derives.splice {first : Initializer} {ts rest : List Token} :
    first.Derives ts rest → rest ≠ [] →
      (first.relabel φ).Derives (Token.splice φ tail ts) (Token.splice φ tail rest)
  | .none hs, hr => by
    rw [Token.splice_cons hr]
    exact .none (kind_relabel hs)
  | .var hk h, hr => by
    rw [Token.splice_cons h.uses.ne_nil]
    exact .var (kind_relabel hk) (h.splice hr)
  | .expression h hs, hr => .expression (h.splice_cons hr) hs

theorem Routine.DerivesNames.splice {names : List String} {ts rest : List Token} :
    Routine.DerivesNames names ts rest → rest ≠ [] →
      Routine.DerivesNames names (Token.splice φ tail ts) (Token.splice φ tail rest)
  | .last hn, hr => by
    rw [Token.splice_cons hr]
    exact .last (kind_relabel hn)
  | .more hn hc h, hr => by
    rw [Token.splice_cons (List.cons_ne_nil _ _), Token.splice_cons h.uses.ne_nil]
    exact .more (kind_relabel hn) (kind_relabel hc) (h.splice hr)

theorem Routine.DerivesParameters.splice {names : List String} {ts rest : List Token} :
    Routine.DerivesParameters names ts rest → rest ≠ [] →
      Routine.DerivesParameters names (Token.splice φ tail ts) (Token.splice φ tail rest)
  | .none hc, hr => by
    rw [Token.splice_cons hr]
    exact .none (kind_relabel hc)
  | .some h hc, hr => by
    have hNames : Routine.DerivesNames _ (Token.splice φ tail _) (Token.splice φ tail _) :=
      h.splice (List.cons_ne_nil _ _)
    rw [Token.splice_cons hr] at hNames
    exact .some hNames hc

theorem Stmt.DerivesList.ne_nil {ss : List Stmt} {ts rest : List Token} (h : Stmt.DerivesList ss ts rest)
    (hr : rest ≠ []) : ts ≠ [] := by
  rcases h.uses with rfl | hUses
  · exact hr
  · exact hUses.ne_nil

/-- No `else` comes first where there was none, and where the other tokens do not start with one. -/
theorem Token.splice_no_else (hTail : ∀ t ∈ tail.head?, t.kind ≠ .kwElse) {rest : List Token}
    (h : ∀ t ∈ rest.head?, t.kind ≠ .kwElse) :
    ∀ t ∈ (Token.splice φ tail rest).head?, t.kind ≠ .kwElse := by
  match rest with
  | [] | [_] => exact hTail
  | t :: _ :: _ =>
    intro u hu
    obtain rfl := Option.some.inj hu
    exact h t rfl

mutual

theorem Stmt.Derives.splice (hTail : ∀ t ∈ tail.head?, t.kind ≠ .kwElse)
    (hPlace : ∀ n, φ.place (n + 1) = n + tail.length) {s : Stmt} {ts rest : List Token} :
    s.Derives ts rest → rest ≠ [] →
      (s.relabel φ).Derives (Token.splice φ tail ts) (Token.splice φ tail rest)
  | .expression h hs, hr => .expression (h.splice_cons hr) hs
  | .print hk h hs, hr => by
    rw [Token.splice_cons h.uses.ne_nil]
    exact .print (kind_relabel hk) (h.splice_cons hr) hs
  | .block ho h hc, hr => by
    have hBody := h.splice hTail hPlace (List.cons_ne_nil _ _)
    rw [Token.splice_cons hr] at hBody
    rw [Token.splice_cons (h.ne_nil (List.cons_ne_nil _ _))]
    exact .block (kind_relabel ho) hBody hc
  | .ifThen hk ho hc hp hb hElse, hr => by
    rw [Token.splice_cons (List.cons_ne_nil _ _), Token.splice_cons hc.uses.ne_nil]
    exact .ifThen (kind_relabel hk) (kind_relabel ho) (hc.splice_cons hb.uses.ne_nil) hp (hb.splice hTail hPlace hr)
      (Token.splice_no_else hTail hElse)
  | .ifElse hk ho hc hp hb he h, hr => by
    have hBody := hb.splice hTail hPlace (List.cons_ne_nil _ _)
    rw [Token.splice_cons h.uses.ne_nil] at hBody
    rw [Token.splice_cons (List.cons_ne_nil _ _), Token.splice_cons hc.uses.ne_nil]
    exact .ifElse (kind_relabel hk) (kind_relabel ho) (hc.splice_cons hb.uses.ne_nil) hp hBody he (h.splice hTail hPlace hr)
  | .whileLoop hk ho hc hp hb, hr => by
    rw [Token.splice_cons (List.cons_ne_nil _ _), Token.splice_cons hc.uses.ne_nil]
    exact .whileLoop (kind_relabel hk) (kind_relabel ho) (hc.splice_cons hb.uses.ne_nil) hp (hb.splice hTail hPlace hr)
  | .forLoop hk ho hf hc hi hb, hr => by
    rw [Token.splice_cons (List.cons_ne_nil _ _), Token.splice_cons hf.uses.ne_nil]
    exact .forLoop (kind_relabel hk) (kind_relabel ho) (hf.splice (hc.uses rfl).ne_nil) (hc.splice (hi.uses rfl).ne_nil)
      (hi.splice hb.uses.ne_nil) (hb.splice hTail hPlace hr)
  | .ret hk h, hr => by
    rw [Token.splice_cons (h.uses rfl).ne_nil]
    exact .ret (kind_relabel hk) (h.splice hr)

theorem Stmt.DerivesDeclaration.splice (hTail : ∀ t ∈ tail.head?, t.kind ≠ .kwElse)
    (hPlace : ∀ n, φ.place (n + 1) = n + tail.length) {s : Stmt} {ts rest : List Token} :
    s.DerivesDeclaration ts rest → rest ≠ [] →
      (s.relabel φ).DerivesDeclaration (Token.splice φ tail ts) (Token.splice φ tail rest)
  | .statement h, hr => .statement (h.splice hTail hPlace hr)
  | .var hk h, hr => by
    rw [Token.splice_cons h.uses.ne_nil]
    exact .var (kind_relabel hk) (h.splice hr)
  | @Stmt.DerivesDeclaration.function _ _ _ _ _ _ rest _ _ _ hk hn ho hp hb h hc, hr => by
    have hBody := h.splice hTail hPlace (List.cons_ne_nil _ _)
    have hParameters : Routine.DerivesParameters _ (Token.splice φ tail _) (Token.splice φ tail _) :=
      hp.splice (List.cons_ne_nil _ _)
    have hLength : φ.place rest.length = (Token.splice φ tail rest).length := by
      have hLength : (Token.splice φ tail rest).length + 1 = rest.length + tail.length :=
        Token.length_splice hr
      obtain ⟨n, hn⟩ := Nat.exists_eq_succ_of_ne_zero fun h => hr (List.eq_nil_of_length_eq_zero h)
      rw [hn, Nat.succ_eq_add_one, hPlace]
      omega
    rw [Token.splice_cons hr] at hBody
    rw [Token.splice_cons (h.ne_nil (List.cons_ne_nil _ _))] at hParameters
    rw [Token.splice_cons (List.cons_ne_nil _ _), Token.splice_cons (List.cons_ne_nil _ _),
      Token.splice_cons hp.uses.ne_nil, Stmt.relabel, hLength]
    exact .function (kind_relabel hk) (kind_relabel hn) (kind_relabel ho) hParameters hb hBody hc

theorem Stmt.DerivesList.splice (hTail : ∀ t ∈ tail.head?, t.kind ≠ .kwElse)
    (hPlace : ∀ n, φ.place (n + 1) = n + tail.length) {ss : List Stmt} {ts rest : List Token} :
    Stmt.DerivesList ss ts rest → rest ≠ [] →
      Stmt.DerivesList (Stmt.relabelAll φ ss) (Token.splice φ tail ts) (Token.splice φ tail rest)
  | .nil, _ => .nil
  | .cons h hs, hr => .cons (h.splice hTail hPlace (hs.ne_nil hr)) (hs.splice hTail hPlace hr)

end

end

/-! ## The places of derived functions

Behind a function there are fewer tokens than there are in all, not counting an end token. -/

section

variable {φ ψ : Relabelling} {n : Nat}

mutual

theorem Stmt.Derives.relabel_congr (hLine : φ.line = ψ.line)
    (hPlace : ∀ p, p + 1 < n → φ.place p = ψ.place p) {s : Stmt} {ts rest : List Token} :
    s.Derives ts rest → ts.length ≤ n → s.relabel φ = s.relabel ψ
  | .expression _ _, _ | .print _ _ _, _ | .ret _ _, _ => by
    simp [Stmt.relabel, hLine, funext (Expr.relabel_congr hLine)]
  | .block _ h _, hn => by
    rw [List.length_cons] at hn
    simp [Stmt.relabel, hLine, h.relabel_congr hLine hPlace (by omega)]
  | .ifThen _ _ hc _ hb _, hn | .whileLoop _ _ hc _ hb, hn => by
    have hLess := hc.uses.length_lt
    simp only [List.length_cons] at hn hLess
    simp [Stmt.relabel, hLine, Expr.relabel_congr hLine, hb.relabel_congr hLine hPlace (by omega)]
  | .ifElse _ _ hc _ hb _ h, hn => by
    have hLess := hc.uses.length_lt
    have hLess' := hb.uses.length_lt
    simp only [List.length_cons] at hn hLess hLess'
    simp [Stmt.relabel, hLine, Expr.relabel_congr hLine, hb.relabel_congr hLine hPlace (by omega),
      h.relabel_congr hLine hPlace (by omega)]
  | .forLoop _ _ hf hc hi hb, hn => by
    have hFirst := hf.uses.length_lt
    have hCondition := (hc.uses rfl).length_lt
    have hIncrement := (hi.uses rfl).length_lt
    simp only [List.length_cons] at hn
    simp [Stmt.relabel, hLine, Initializer.relabel_congr hLine, funext (Expr.relabel_congr hLine),
      hb.relabel_congr hLine hPlace (by omega)]

theorem Stmt.DerivesDeclaration.relabel_congr (hLine : φ.line = ψ.line)
    (hPlace : ∀ p, p + 1 < n → φ.place p = ψ.place p) {s : Stmt} {ts rest : List Token} :
    s.DerivesDeclaration ts rest → ts.length ≤ n → s.relabel φ = s.relabel ψ
  | .statement h, hn => h.relabel_congr hLine hPlace hn
  | .var _ _, _ => by simp [Stmt.relabel, Variable.relabel_congr hLine]
  | .function _ _ _ hp _ h _, hn => by
    have hParameters := hp.uses.length_lt
    have hBody := h.length_le
    simp only [List.length_cons] at hn hParameters hBody
    have hSame := hPlace rest.length (by omega)
    simp [Stmt.relabel, hLine, h.relabel_congr hLine hPlace (by omega), hSame]

theorem Stmt.DerivesList.relabel_congr (hLine : φ.line = ψ.line)
    (hPlace : ∀ p, p + 1 < n → φ.place p = ψ.place p) {ss : List Stmt} {ts rest : List Token} :
    Stmt.DerivesList ss ts rest → ts.length ≤ n → Stmt.relabelAll φ ss = Stmt.relabelAll ψ ss
  | .nil, _ => rfl
  | .cons h hs, hn => by
    have hLess := h.uses.length_lt
    simp [Stmt.relabelAll, h.relabel_congr hLine hPlace hn, hs.relabel_congr hLine hPlace (by omega)]

end

end

/-! ## One script behind the other -/

/-- No declaration starts with an `else`. -/
theorem Stmt.DerivesDeclaration.head_ne_else {s : Stmt} {ts rest : List Token}
    (h : s.DerivesDeclaration ts rest) : ∀ t ∈ ts.head?, t.kind ≠ .kwElse := by
  have hFirst {t : Token} {ts' : List Token} {kind : Token.Kind} (hk : t.kind = kind)
      (hKind : kind ≠ .kwElse) : ∀ u ∈ (t :: ts').head?, u.kind ≠ .kwElse := by
    rintro u ⟨⟩
    rwa [hk]
  cases h with
  | var hk | function hk => exact hFirst hk nofun
  | statement hs =>
    cases hs with
    | expression he =>
      obtain ⟨t, ts', rfl, hStart⟩ := he.leading
      refine hFirst rfl fun hk => ?_
      rw [hk] at hStart
      cases hStart
    | print hk | block hk | ifThen hk | ifElse hk | whileLoop hk | forLoop hk | ret hk =>
      exact hFirst hk nofun

theorem Stmt.DerivesList.append {ss ss' : List Stmt} {ts ts' rest : List Token} :
    Stmt.DerivesList ss ts ts' → Stmt.DerivesList ss' ts' rest → Stmt.DerivesList (ss ++ ss') ts rest
  | .nil, h => h
  | .cons hs hss, h => .cons hs (hss.append h)

namespace Relabelling

/-- In front of another script: so many more tokens stand behind. -/
def before (count : Nat) : Relabelling := ⟨(· + count), id⟩

/-- Behind another script: so many more lines stand before. -/
def behind (lines : Nat) : Relabelling := ⟨id, (· + lines)⟩

end Relabelling

open Relabelling (before behind)

/-- The script that two scripts make, one behind the other. -/
def Routine.join (r₁ r₂ : Routine) (count lines : Nat) : Routine :=
  .script (Stmt.relabelAll (before count) r₁.body ++ Stmt.relabelAll (behind lines) r₂.body)
    (r₂.line + lines)

/-- Tokens that derive a script and tokens that derive another one behind them derive both scripts. -/
theorem Routine.DerivesScript.join {r₁ r₂ : Routine} {ts₁ ts₂ : List Token} {e : Token} {count : Nat}
    (h₁ : r₁.DerivesScript (ts₁ ++ [e])) (h₂ : r₂.DerivesScript ts₂) (hCount : ts₂.length = count + 1)
    (lines : Nat) :
    (r₁.join r₂ count lines).DerivesScript (ts₁ ++ ts₂.map (Token.relabel (behind lines))) := by
  obtain @⟨_, body₁, last₁, hBody₁, -⟩ := h₁
  obtain @⟨_, body₂, last₂, hBody₂, hLast₂⟩ := h₂
  have hElse : ∀ t ∈ (ts₂.map (Token.relabel (behind lines))).head?, t.kind ≠ .kwElse := by
    intro t ht
    rw [List.head?_map] at ht
    obtain ⟨u, hu, rfl⟩ := Option.mem_map.1 ht
    cases hBody₂ with
    | nil =>
      obtain rfl := Option.some.inj hu
      rw [kind_relabel hLast₂]
      nofun
    | cons hs => exact hs.head_ne_else u hu
  have hFirst := hBody₁.splice (φ := before count) hElse (fun n => by
    rw [List.length_map, hCount]
    exact Nat.add_right_comm n 1 count) (List.cons_ne_nil _ _)
  have hEnd : ∀ t ∈ [last₂.relabel (behind lines)].head?, t.kind ≠ .kwElse := by
    rintro _ ⟨⟩
    rw [kind_relabel hLast₂]
    nofun
  have hSecond := hBody₂.splice (φ := behind lines) hEnd (fun n => rfl) (List.cons_ne_nil _ _)
  obtain ⟨used, rfl⟩ : ∃ used, ts₂ = used ++ [last₂] := by
    rcases hBody₂.uses with rfl | hUses
    · exact ⟨[], rfl⟩
    · obtain ⟨used, hEq, -⟩ := hUses.eq_append
      exact ⟨used, hEq⟩
  have hSame : ts₁.map (Token.relabel (before count)) = ts₁ := List.map_id ts₁
  rw [Token.splice_append (List.cons_ne_nil _ _), hSame] at hFirst
  rw [Token.splice_append (List.cons_ne_nil _ _)] at hSecond
  rw [List.map_append] at hFirst ⊢
  exact .mk (hFirst.append hSecond) hLast₂

end Lox
