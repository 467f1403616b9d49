import Lox.Proofs.Syntax.Grammar
import Lox.Proofs.Syntax.Nested

/-!
# Places of functions

No two functions of a source text have one place, however deep they are declared: the places fall from
one declaration to the next (`Stmt.DerivesList.places`). So what is declared inside of one function is
not declared inside of another one beside it (`Routine.DerivesScript.apart`).
-/

set_option autoImplicit false

namespace Lox

namespace Stmt

mutual
/-- The places of the functions that are declared in a statement, at any depth. -/
def places : Stmt → List Nat
  | function place _ _ body _ => placesOfAll body ++ [place]
  | block body _ => placesOfAll body
  | ifThen _ _ body | whileLoop _ _ body | forLoop _ _ _ _ _ body => body.places
  | ifElse _ _ body other => body.places ++ other.places
  | expression _ _ | print _ _ | var _ | ret _ _ => []

/-- The places of the functions that are declared in some declarations, at any depth. -/
def placesOfAll : List Stmt → List Nat
  | [] => []
  | s :: ss => s.places ++ placesOfAll ss
end

end Stmt

/-- The places of the functions declared in a routine, at any depth, and its own. -/
def Routine.places (r : Routine) : List Nat := Stmt.placesOfAll r.body ++ [r.place]

mutual

theorem Stmt.places_eq : ∀ s : Stmt, s.places = s.functions.flatMap Routine.places
  | .expression _ _ | .print _ _ | .var _ | .ret _ _ => rfl
  | .function _ _ _ _ _ => by simp [Stmt.places, Stmt.functions, Routine.places]
  | .block body _ => Stmt.placesOfAll_eq body
  | .ifThen _ _ body | .whileLoop _ _ body | .forLoop _ _ _ _ _ body => body.places_eq
  | .ifElse _ _ body other => by
    simp only [Stmt.places, Stmt.functions, List.flatMap_append, body.places_eq, other.places_eq]

theorem Stmt.placesOfAll_eq :
    ∀ ss : List Stmt, Stmt.placesOfAll ss = (Stmt.functionsOfAll ss).flatMap Routine.places
  | [] => rfl
  | s :: ss => by
    simp only [Stmt.placesOfAll, Stmt.functionsOfAll, List.flatMap_append, s.places_eq,
      Stmt.placesOfAll_eq ss]

end

/-! ## Distinct places -/

/-- Some places lie behind `rest` and before `ts`, and fall. -/
structure Token.Places (ts rest : List Token) (places : List Nat) : Prop where
  falling : places.Pairwise (· > ·)
  low : ∀ p ∈ places, rest.length ≤ p
  high : ∀ p ∈ places, p < ts.length

namespace Token.Places

variable {ts ts' ts₁ ts₂ rest : List Token} {ps ps' : List Nat}

theorem nil : Token.Places ts rest [] := ⟨.nil, by simp, by simp⟩

theorem widen (h : Token.Places ts₁ ts₂ ps) (hLow : rest.length ≤ ts₂.length)
    (hHigh : ts₁.length ≤ ts.length) : Token.Places ts rest ps :=
  ⟨h.falling, fun p hp => hLow.trans (h.low p hp), fun p hp => (h.high p hp).trans_le hHigh⟩

theorem append (h : Token.Places ts ts' ps) (h' : Token.Places ts' rest ps')
    (hts : ts'.length ≤ ts.length) (hRest : rest.length ≤ ts'.length) :
    Token.Places ts rest (ps ++ ps') := by
  refine ⟨List.pairwise_append.2 ⟨h.falling, h'.falling, fun p hp p' hp' => ?_⟩, ?_, ?_⟩
  · exact (h'.high p' hp').trans_le (h.low p hp)
  · intro p hp
    rcases List.mem_append.1 hp with hp | hp
    · exact hRest.trans (h.low p hp)
    · exact h'.low p hp
  · intro p hp
    rcases List.mem_append.1 hp with hp | hp
    · exact h.high p hp
    · exact (h'.high p hp).trans_le hts

end Token.Places

mutual

theorem Stmt.Derives.places {s : Stmt} {ts rest : List Token} :
    s.Derives ts rest → Token.Places ts rest s.places
  | .expression _ _ | .print _ _ _ | .ret _ _ => .nil
  | .block _ h _ => h.places.widen (by simp) (by simp)
  | .ifThen _ _ hc _ hb _ | .whileLoop _ _ hc _ hb => by
    have hLess := hc.uses.length_lt
    refine hb.places.widen le_rfl ?_
    simp only [List.length_cons] at hLess ⊢
    omega
  | .ifElse _ _ hc _ hb _ h => by
    have hCondition := hc.uses.length_lt
    have hBody := hb.uses.length_lt
    have hOther := h.uses.length_lt
    simp only [List.length_cons] at hCondition hBody
    refine (hb.places.widen (by simp) ?_).append h.places ?_ hOther.le
    · simp only [List.length_cons]
      omega
    · simp only [List.length_cons]
      omega
  | .forLoop _ _ hf hc hi hb => by
    have hFirst := hf.uses.length_lt
    have hCondition := (hc.uses rfl).length_lt
    have hIncrement := (hi.uses rfl).length_lt
    refine hb.places.widen le_rfl ?_
    simp only [List.length_cons]
    omega

theorem Stmt.DerivesDeclaration.places {s : Stmt} {ts rest : List Token} :
    s.DerivesDeclaration ts rest → Token.Places ts rest s.places
  | .statement h => h.places
  | .var _ _ => .nil
  | .function _ _ _ hp _ h _ => by
    have hParameters := hp.uses.length_lt
    have hBody := h.length_le
    simp only [List.length_cons] at hParameters hBody
    -- the place of the function is below those in its body
    refine ⟨List.pairwise_append.2 ⟨h.places.falling, List.pairwise_singleton .., ?_⟩, ?_, ?_⟩
    · intro p hp' q hq
      cases List.mem_singleton.1 hq
      exact h.places.low p hp'
    · intro p hp'
      rcases List.mem_append.1 hp' with hp' | hp'
      · exact (Nat.le_succ _).trans (h.places.low p hp')
      · exact (List.mem_singleton.1 hp').ge
    · intro p hp'
      simp only [List.length_cons]
      rcases List.mem_append.1 hp' with hp' | hp'
      · have hHigh := h.places.high p hp'
        omega
      · cases List.mem_singleton.1 hp'
        omega

theorem Stmt.DerivesList.places {ss : List Stmt} {ts rest : List Token} :
    Stmt.DerivesList ss ts rest → Token.Places ts rest (Stmt.placesOfAll ss)
  | .nil => .nil
  | .cons h hs => h.places.append hs.places h.uses.length_lt.le hs.length_le

end

/-! ## Functions inside of a routine -/

/-- A routine is another one, or is declared in it at some depth. -/
inductive Routine.Within (r : Routine) : Routine → Prop
  | self : Within r r
  | nested {p q : Routine} : Within r p → .function q ∈ p.pool → Within r q

namespace Routine

variable {r p q : Routine}

theorem places_subset (h : .function q ∈ r.pool) : q.places ⊆ Stmt.placesOfAll r.body := by
  intro p hp
  rw [Stmt.placesOfAll_eq]
  exact List.mem_flatMap.2 ⟨q, function_mem_pool_iff.1 h, hp⟩

theorem Within.places_subset (h : r.Within p) : p.places ⊆ r.places := by
  induction h with
  | self => exact List.Subset.refl _
  | nested _ hq ih =>
    exact List.Subset.trans (Routine.places_subset hq)
      (List.Subset.trans (List.subset_append_left ..) ih)

theorem Within.place_mem (h : r.Within p) : p.place ∈ r.places :=
  h.places_subset (List.mem_append_right _ (List.mem_singleton_self _))

end Routine

namespace Routine.DerivesScript

variable {r p q q' : Routine} {ts : List Token} {i j : Nat}

theorem places (hd : r.DerivesScript ts) :
    (Stmt.placesOfAll r.body).Pairwise (· > ·) ∧ ∀ p ∈ Stmt.placesOfAll r.body, r.place < p := by
  obtain ⟨h, -⟩ := hd
  exact ⟨h.places.falling, h.places.low⟩

/-- What is declared inside of one of the functions of a script is not declared inside of another
one. -/
theorem apart (hd : r.DerivesScript ts) (hi : r.pool[i]? = some (.function q))
    (hj : r.pool[j]? = some (.function q')) {place : Nat} (h : place ∈ q.places)
    (h' : place ∈ q'.places) : i = j := by
  have hDisjoint : (Const.routines r.pool).Pairwise fun a b => List.Disjoint a.places b.places := by
    have hNodup : (Stmt.placesOfAll r.body).Nodup := hd.places.1.imp fun h => Nat.ne_of_gt h
    rw [Stmt.placesOfAll_eq, ← r.routines_pool, List.nodup_flatMap] at hNodup
    exact hNodup.2
  have hPool := List.pairwise_filterMap.1 hDisjoint
  rw [List.pairwise_iff_getElem] at hPool
  obtain ⟨hLess, hi⟩ := List.getElem?_eq_some_iff.1 hi
  obtain ⟨hLess', hj⟩ := List.getElem?_eq_some_iff.1 hj
  rcases Nat.lt_trichotomy i j with hlt | rfl | hlt
  · exact absurd h' (hPool i j hLess hLess' hlt q (by rw [hi]; rfl) q' (by rw [hj]; rfl) h)
  · rfl
  · exact absurd h (hPool j i hLess' hLess hlt q' (by rw [hj]; rfl) q (by rw [hi]; rfl) h')

end Routine.DerivesScript

end Lox
