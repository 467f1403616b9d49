import Lox.Native
import Lox.Proofs.Composition.Echo
import Lox.Proofs.Semantics.Instructions

/-!
# Native functions that see no line numbers

A native function is deterministic when its answer depends on nothing but its arguments, line numbers apart:
arguments that correspond get answers that correspond, whatever identities the objects have
(`Behaviour.Deterministic`). It may look into the functions that it gets, at their code, names and constants.
It hands back what it finds in its arguments, or an object that its machine owns, never a foreign one. What
such functions compute from values is a function of data (`Machine.like_hostOf`), which does not depend on
where functions were declared (`hostEchoes_hostOf`).
-/

set_option autoImplicit false

namespace Lox

/-! ## Correspondence -/

/-- Values correspond: they are corresponding objects, or the same value. -/
inductive Value.Corresponds (R : Obj → Obj → Prop) : Value → Value → Prop
  | nil : Corresponds R .nil .nil
  | bool (b : Bool) : Corresponds R (.bool b) (.bool b)
  | number (x : Float) : Corresponds R (.number x) (.number x)
  | object {o o' : Obj} : R o o' → Corresponds R (.object o) (.object o')

/-- What is to be seen of two objects is the same, but for line numbers: the text of a string; the parameter
count and the code of a function, while its name and its constants correspond. A native function is like
itself only. -/
inductive Object.Alike (R : Obj → Obj → Prop) : Obj → Obj → Prop
  | string {s s' : Str} : s.text = s'.text → s.hash = s'.hash → Alike R (.string s) (.string s')
  | function {f f' : Fn} : f.arity = f'.arity →
      Option.Rel (fun s s' => R (.string s) (.string s')) f.name f'.name →
      f.chunk.code = f'.chunk.code → f.chunk.lines.size = f'.chunk.lines.size →
      List.Forall₂ (Value.Corresponds R) f.chunk.constants.toList f'.chunk.constants.toList →
      Alike R (.function f) (.function f')
  | native (n : Native) : Alike R (.native n) (.native n)

/-- Objects correspond to objects that look alike, the same ones to the same ones; what is owned corresponds
to itself. -/
structure Correspondence (owned : Obj → Prop) (R : Obj → Obj → Prop) : Prop where
  alike : ∀ {o o'}, R o o' → o.Alike R o'
  same : ∀ {o o' p p'}, R o o' → R p p' → (o.id = p.id ↔ o'.id = p'.id)
  own : ∀ {o}, owned o → R o o

/-- A native function is a function of its arguments: from corresponding arguments it computes corresponding
values, at any time. -/
def Behaviour.Deterministic (owned : Obj → Prop) (b : Behaviour) : Prop :=
  ∀ R, Correspondence owned R → ∀ now now' args args',
    List.Forall₂ (Value.Corresponds R) args.toList args'.toList →
    Value.Corresponds R (b now args) (b now' args')

namespace Value.Corresponds

variable {owned : Obj → Prop} {R : Obj → Obj → Prop} {v v' u u' : Value}

theorem isFalsey_eq (h : Corresponds R v v') : v.isFalsey = v'.isFalsey := by cases h <;> rfl

theorem asNumber?_eq (h : Corresponds R v v') : v.asNumber? = v'.asNumber? := by cases h <;> rfl

theorem equal_eq (hR : Correspondence owned R) (h : Corresponds R v v') (hu : Corresponds R u u') :
    v.equal u = v'.equal u' := by
  cases h with
  | object ho =>
    cases hu with
    | object hp =>
      rw [equal, equal, Bool.eq_iff_iff, beq_iff_eq, beq_iff_eq]
      exact hR.same ho hp
    | nil | bool | number => rfl
  | nil | bool | number => cases hu <;> rfl

theorem text_asString? (hR : Correspondence owned R) (h : Corresponds R v v') :
    v.asString?.map Str.text = v'.asString?.map Str.text := by
  cases h with
  | object ho =>
    cases hR.alike ho with
    | string hText => exact congrArg some hText
    | function | native => rfl
  | nil | bool | number => rfl

end Value.Corresponds

namespace Behaviour

section

variable {owned : Obj → Prop} {R : Obj → Obj → Prop} {args args' : Array Value}

theorem corresponds_getD (h : List.Forall₂ (Value.Corresponds R) args.toList args'.toList) (i : Nat) :
    Value.Corresponds R (args.getD i .nil) (args'.getD i .nil) := by
  have hSize : args.size = args'.size := h.length_eq
  simp only [Array.getD_eq_getD_getElem?]
  by_cases hi : i < args.size
  · have hi' : i < args'.size := hSize ▸ hi
    rw [Array.getElem?_eq_getElem hi, Array.getElem?_eq_getElem hi']
    exact h.get hi hi'
  · rw [Array.getElem?_eq_none (by omega), Array.getElem?_eq_none (by omega)]
    exact .nil

theorem all_eq {p p' : Value → Bool} (h : List.Forall₂ (Value.Corresponds R) args.toList args'.toList)
    (hp : ∀ v v', Value.Corresponds R v v' → p v = p' v') : args.all p = args'.all p' := by
  rw [← Array.all_toList, ← Array.all_toList]
  generalize args.toList = vs, args'.toList = vs' at h
  induction h with
  | nil => rfl
  | cons hv _ ih => rw [List.all_cons, List.all_cons, hp _ _ hv, ih]

theorem deterministic_sum (owned : Obj → Prop) : sum.Deterministic owned := by
  intro R _ now now' args args' h
  have hTotal (total : Float) : args.foldl (fun total value => total + value.asNumber?.getD 0) total =
      args'.foldl (fun total value => total + value.asNumber?.getD 0) total := by
    simp only [← Array.foldl_toList]
    generalize args.toList = vs, args'.toList = vs' at h
    induction h generalizing total with
    | nil => rfl
    | cons hv _ ih => rw [List.foldl_cons, List.foldl_cons, hv.asNumber?_eq, ih]
  simp only [sum, hTotal]
  exact .number _

theorem deterministic_byteLength (owned : Obj → Prop) : byteLength.Deterministic owned := by
  intro R hR now now' args args' h
  have hText := (corresponds_getD h 0).text_asString? hR
  simp only [byteLength]
  generalize (args.getD 0 .nil).asString? = s, (args'.getD 0 .nil).asString? = s' at hText
  cases s with
  | none =>
    obtain rfl := Option.map_eq_none_iff.1 hText.symm
    exact .nil
  | some s =>
    obtain ⟨s', rfl, hEq⟩ := Option.map_eq_some_iff.1 hText.symm
    simp only [hEq]
    exact .number _

/-- The native functions that a host may hand out, but for the clock, are deterministic. -/
theorem deterministic_library (owned : Obj → Prop) :
    ∀ b ∈ [count, first, last, sum, same, byteLength, allTruthy], b.Deterministic owned := by
  simp only [List.forall_mem_cons, List.not_mem_nil, false_imp_iff, implies_true, and_true]
  refine ⟨?_, ?_, ?_, deterministic_sum owned, ?_, deterministic_byteLength owned, ?_⟩ <;>
    intro R hR now now' args args' h
  · rw [count, count, show args.size = args'.size from h.length_eq]
    exact .number _
  · exact corresponds_getD h 0
  · rw [last, last, Array.back?_eq_getElem?, Array.back?_eq_getElem?, ← Array.getD_eq_getD_getElem?,
      ← Array.getD_eq_getD_getElem?, show args.size = args'.size from h.length_eq]
    exact corresponds_getD h _
  · rw [same, same, all_eq h fun _ _ hv => hv.equal_eq hR (corresponds_getD h 0)]
    exact .bool _
  · rw [allTruthy, allTruthy, all_eq h fun _ _ hv => congrArg not hv.isFalsey_eq]
    exact .bool _

end

end Behaviour

/-! ## Ways to a value -/

theorem rel_bind {α β γ δ : Type} {R : α → β → Prop} {S : γ → δ → Prop} {f : α → Option γ}
    {g : β → Option δ} (hfg : ∀ a b, R a b → Option.Rel S (f a) (g b)) {x : Option α} {y : Option β} :
    Option.Rel R x y → Option.Rel S (x.bind f) (y.bind g)
  | .some h => hfg _ _ h
  | .none => .none

theorem forall₂_iff_rel {α β : Type} {R : α → β → Prop} {xs : List α} {ys : List β} :
    List.Forall₂ R xs ys ↔ ∀ i : Nat, Option.Rel R xs[i]? ys[i]? := by
  constructor
  · intro h
    induction h with
    | nil => exact fun _ => .none
    | cons hxy _ ih =>
      intro i
      cases i with
      | zero => exact .some hxy
      | succ i => exact ih i
  · intro h
    induction xs generalizing ys with
    | nil =>
      cases ys with
      | nil => exact .nil
      | cons y ys => cases h 0
    | cons x xs ih =>
      cases ys with
      | nil => cases h 0
      | cons y ys =>
        cases h 0 with
        | some hxy => exact .cons hxy (ih fun i => h (i + 1))

/-- The constant of a function at an index. -/
def Value.constant? (i : Nat) : Value → Option Value
  | .object (.function f) => f.chunk.constants.toList[i]?
  | _ => none

/-- The string that is the name of a function. -/
def Value.name? : Value → Option Value
  | .object (.function f) => f.name.map fun s => .object (.string s)
  | _ => none

/-- The constant of a function at an index. -/
def Datum.constant? (i : Nat) : Datum → Option Datum
  | .function r => r.pool[i]?.map Const.datum
  | _ => none

/-- The string that is the name of a function. -/
def Datum.name? : Datum → Option Datum
  | .function r => r.name.map .string
  | _ => none

namespace World.Like

variable {w : World} {v : Value} {d : Datum}

theorem rel_constant? (h : w.Like v d) (i : Nat) : Option.Rel w.Like (v.constant? i) (d.constant? i) := by
  cases h with
  | nil | bool | number | string | native => exact .none
  | @function f r hc hl hp =>
    obtain ⟨-, -, -, -, -, -, hAll, -⟩ := hc
    have hRel := forall₂_iff_rel.1 hAll i
    simp only [Value.constant?, Datum.constant?]
    generalize hv : f.chunk.constants.toList[i]? = v?, hk : r.pool[i]? = k? at hRel
    cases hRel with
    | none => exact .none
    | some hr => exact .some (hr.like hl hp (List.mem_of_getElem? hk))

theorem rel_name? (h : w.Like v d) : Option.Rel w.Like v.name? d.name? := by
  cases h with
  | nil | bool | number | string | native => exact .none
  | @function f r hc =>
    obtain ⟨-, -, -, hName, -, -, -, hNamed⟩ := hc
    simp only [Value.name?, Datum.name?, ← hName]
    cases hEq : f.name with
    | none => exact .none
    | some s => exact .some (.string (hNamed s hEq))

end World.Like

theorem Datum.constant?_relabel {φ : Relabelling} (d : Datum) (i : Nat) :
    (d.relabel φ).constant? i = (d.constant? i).map (Datum.relabel φ) := by
  cases d with
  | function r =>
    simp only [relabel, constant?, Routine.pool_relabel, List.getElem?_map, Option.map_map]
    cases r.pool[i]? with
    | none => rfl
    | some k => cases k <;> rfl
  | nil | bool | number | string | native => rfl

theorem Datum.name?_relabel {φ : Relabelling} (d : Datum) :
    (d.relabel φ).name? = d.name?.map (Datum.relabel φ) := by
  cases d with
  | function r =>
    simp only [relabel, name?, Routine.relabel, Option.map_map]
    rfl
  | nil | bool | number | string | native => rfl

/-- A way to a value: it starts at an argument or at an object that is owned, and leads on from a function to
one of its constants or to its name. -/
inductive Path (owned : Obj → Prop) where
  | argument (i : Nat)
  | own (o : {o : Obj // owned o})
  | constant (p : Path owned) (i : Nat)
  | name (p : Path owned)

namespace Path

variable {owned : Obj → Prop}

instance : Nonempty (Path owned) := ⟨.argument 0⟩

/-- The value that a way leads to. -/
def value (args : List Value) : Path owned → Option Value
  | argument i => args[i]?
  | own o => some (.object o)
  | constant p i => (p.value args).bind (Value.constant? i)
  | name p => (p.value args).bind Value.name?

/-- The datum that a way leads to. -/
def datum (base : Obj → Datum) (ds : List Datum) : Path owned → Option Datum
  | argument i => ds[i]?
  | own o => some (base o)
  | constant p i => (p.datum base ds).bind (Datum.constant? i)
  | name p => (p.datum base ds).bind Datum.name?

theorem datum_relabel {φ : Relabelling} (base : Obj → Datum) (ds : List Datum) (p : Path owned) :
    p.datum (fun o => (base o).relabel φ) (ds.map (Datum.relabel φ)) =
      (p.datum base ds).map (Datum.relabel φ) := by
  induction p with
  | argument i => exact List.getElem?_map
  | own o => rfl
  | constant p i ih =>
    rw [datum, datum, ih, Option.bind_map, Option.map_bind]
    exact congrArg _ (funext fun d => d.constant?_relabel i)
  | name p ih =>
    rw [datum, datum, ih, Option.bind_map, Option.map_bind]
    exact congrArg _ (funext fun d => d.name?_relabel)

/-- A way leads to a value and to the datum that it is. -/
theorem rel_like {w : World} {base : Obj → Datum} (hBase : ∀ o, owned o → w.Like (.object o) (base o))
    {args : List Value} {ds : List Datum} (hArgs : List.Forall₂ w.Like args ds) (p : Path owned) :
    Option.Rel w.Like (p.value args) (p.datum base ds) := by
  induction p with
  | argument i => exact forall₂_iff_rel.1 hArgs i
  | own o => exact .some (hBase o.1 o.2)
  | constant p i ih => exact rel_bind (fun _ _ hLike => hLike.rel_constant? i) ih
  | name p ih => exact rel_bind (fun _ _ hLike => hLike.rel_name?) ih

end Path

/-- Corresponding functions have corresponding constants. -/
theorem Value.Corresponds.rel_constant? {owned : Obj → Prop} {R : Obj → Obj → Prop}
    (hR : Correspondence owned R) {v v' : Value} (h : Corresponds R v v') (i : Nat) :
    Option.Rel (Corresponds R) (v.constant? i) (v'.constant? i) := by
  cases h with
  | object ho =>
    cases hR.alike ho with
    | function _ _ _ _ hConstants => exact forall₂_iff_rel.1 hConstants i
    | string | native => exact .none
  | nil | bool | number => exact .none

/-! ## Values that stand for data -/

/-- A value looks like a datum, as far as its constants and its name do not matter. -/
inductive Value.Depicts : Value → Datum → Prop
  | nil : Depicts .nil .nil
  | bool (b : Bool) : Depicts (.bool b) (.bool b)
  | number (x : Float) : Depicts (.number x) (.number x)
  | string {s : Str} : s.hash = Text.hash s.text → Depicts (.object (.string s)) (.string s.text)
  | function {f : Fn} {r : Routine} : f.arity = r.parameters.length → f.chunk.code.toList = r.code.bytes →
      f.chunk.lines.size = f.chunk.code.size → Depicts (.object (.function f)) (.function r)
  | native (n : Native) : Depicts (.object (.native n)) (.native n)

namespace Value

theorem equal_object {o o' : Obj} : (object o).equal (object o') = true ↔ o.id = o'.id := by
  rw [equal, beq_iff_eq]

theorem depicts_of_like {w : World} (hw : w.heap.WF) {v : Value} {d : Datum} :
    w.Like v d → v.Depicts d
  | .nil => .nil
  | .bool b => .bool b
  | .number x => .number x
  | .string h => .string (hw.hashed _ h)
  | .function (.mk _ _ hArity _ hCode hLines _ _) _ _ => by
    refine .function hArity hCode ?_
    rw [← Array.length_toList, ← Array.length_toList, hCode, hLines, Code.length_bytes, Code.length_lines]
  | .native _ => .native _

theorem depicts_relabel {φ : Relabelling} {v : Value} {d : Datum} :
    v.Depicts (d.relabel φ) ↔ v.Depicts d := by
  constructor
  · intro h
    cases d with
    | function r =>
      cases h with
      | function hArity hCode hLines =>
        rw [Routine.code_relabel, Code.bytes_relabel] at hCode
        exact .function hArity hCode hLines
    | nil | bool | number | string | native => exact h
  · intro h
    cases h with
    | function hArity hCode hLines =>
      refine .function hArity ?_ hLines
      rw [Routine.code_relabel, Code.bytes_relabel]
      exact hCode
    | nil => exact .nil
    | bool b => exact .bool b
    | number x => exact .number x
    | string hHash => exact .string hHash
    | native n => exact .native n

end Value

/-- Arguments stand for data: every way leads to a value that looks like the datum to which it leads, and
two ways lead to equal values where they lead to equal data. -/
structure StandFor (owned : Obj → Prop) (base : Obj → Datum) (args : List Value) (ds : List Datum) :
    Prop where
  depicts : ∀ p : Path owned, Option.Rel Value.Depicts (p.value args) (p.datum base ds)
  equal : ∀ {p q : Path owned} {v u d e}, p.value args = some v → p.datum base ds = some d →
    q.value args = some u → q.datum base ds = some e → v.equal u = d.equal e

section

variable {owned : Obj → Prop} {base : Obj → Datum} {args args' : List Value} {ds : List Datum}

theorem World.standFor {w : World} (hw : w.heap.WF) (hd : w.Distinct)
    (hBase : ∀ o, owned o → w.Like (.object o) (base o)) (hArgs : List.Forall₂ w.Like args ds) :
    StandFor owned base args ds where
  depicts := fun p => rel_imp (fun _ _ => Value.depicts_of_like hw) (p.rel_like hBase hArgs)
  equal := by
    intro p q v u d e hv hd' hu he
    have hp := p.rel_like hBase hArgs
    have hq := q.rel_like hBase hArgs
    rw [hv, hd'] at hp
    rw [hu, he] at hq
    cases hp with
    | some hp =>
      cases hq with
      | some hq => exact hp.equal_eq hw hd hq

/-- Where functions were declared does not matter. -/
theorem standFor_relabel {φ : Relabelling} (hφ : Function.Injective φ.place) :
    StandFor owned (fun o => (base o).relabel φ) args (ds.map (Datum.relabel φ)) ↔
      StandFor owned base args ds := by
  have hDepicts {x : Option Value} {y : Option Datum} :
      Option.Rel Value.Depicts x (y.map (Datum.relabel φ)) ↔ Option.Rel Value.Depicts x y := by
    cases x <;> cases y <;> simp [Value.depicts_relabel]
  constructor
  · rintro ⟨h, hEqual⟩
    refine ⟨fun p => ?_, fun hv hd hu he => ?_⟩
    · rw [← hDepicts, ← Path.datum_relabel]
      exact h p
    · rw [← Datum.equal_relabel hφ]
      exact hEqual hv (by rw [Path.datum_relabel, hd, Option.map_some]) hu
        (by rw [Path.datum_relabel, he, Option.map_some])
  · rintro ⟨h, hEqual⟩
    refine ⟨fun p => ?_, fun hv hd hu he => ?_⟩
    · rw [Path.datum_relabel, hDepicts]
      exact h p
    · rw [Path.datum_relabel] at hd he
      obtain ⟨d, hd', rfl⟩ := Option.map_eq_some_iff.1 hd
      obtain ⟨e, he', rfl⟩ := Option.map_eq_some_iff.1 he
      rw [Datum.equal_relabel hφ]
      exact hEqual hv hd' hu he'

/-- Objects to which one way leads. -/
def Paired (owned : Obj → Prop) (args args' : List Value) (o o' : Obj) : Prop :=
  ∃ p : Path owned, p.value args = some (.object o) ∧ p.value args' = some (.object o')

namespace StandFor

variable (h : StandFor owned base args ds) (h' : StandFor owned base args' ds)
include h h'

/-- A way leads to corresponding values. -/
theorem corresponds_value (p : Path owned) :
    Option.Rel (Value.Corresponds (Paired owned args args')) (p.value args) (p.value args') := by
  have hRel := h.depicts p
  have hRel' := h'.depicts p
  generalize hv : p.value args = v, hv' : p.value args' = v', p.datum base ds = d at hRel hRel'
  cases hRel with
  | none =>
    cases hRel'
    exact .none
  | some hd =>
    cases hRel' with
    | some hd' =>
      refine .some ?_
      cases hd with
      | nil =>
        cases hd'
        exact .nil
      | bool b =>
        cases hd'
        exact .bool b
      | number x =>
        cases hd'
        exact .number x
      | @string s =>
        generalize s.text = text at hd'
        cases hd'
        exact .object ⟨p, hv, hv'⟩
      | function =>
        cases hd'
        exact .object ⟨p, hv, hv'⟩
      | native n =>
        cases hd'
        exact .object ⟨p, hv, hv'⟩

/-- Objects to which one way leads look alike. -/
theorem alike {o o' : Obj} (hPaired : Paired owned args args' o o') :
    o.Alike (Paired owned args args') o' := by
  obtain ⟨p, hv, hv'⟩ := hPaired
  have hRel := h.depicts p
  have hRel' := h'.depicts p
  rw [hv] at hRel
  rw [hv'] at hRel'
  generalize p.datum base ds = d at hRel hRel'
  cases hRel with
  | some hd =>
    cases hRel' with
    | some hd' =>
      cases hd with
      | @string s hHash =>
        generalize hText : s.text = text at hd'
        cases hd' with
        | string hHash' => exact .string hText (by rw [hHash, hHash', hText])
      | @function f r hArity hCode hLines =>
        cases hd' with
        | @function f' _ hArity' hCode' hLines' =>
          have hSame : f.chunk.code = f'.chunk.code := Array.toList_inj.1 (hCode.trans hCode'.symm)
          refine .function (hArity.trans hArity'.symm) ?_ hSame ?_ (forall₂_iff_rel.2 fun i => ?_)
          · have hName := corresponds_value h h' p.name
            simp only [Path.value, hv, hv', Option.bind_some, Value.name?] at hName
            generalize f.name = s, f'.name = s' at hName
            cases s with
            | none =>
              cases s' with
              | none => exact .none
              | some s' => cases hName
            | some s =>
              cases s' with
              | none => cases hName
              | some s' =>
                cases hName with
                | some hName =>
                  cases hName with
                  | object hs => exact .some hs
          · rw [hLines, hLines', hSame]
          · have hConstant := corresponds_value h h' (p.constant i)
            simp only [Path.value, hv, hv', Option.bind_some, Value.constant?] at hConstant
            exact hConstant
      | native n =>
        cases hd'
        exact .native n

theorem correspondence : Correspondence owned (Paired owned args args') where
  alike := alike h h'
  same := by
    rintro o o' u u' ⟨p, hp, hp'⟩ ⟨q, hq, hq'⟩
    have hRel := h.depicts p
    have hRel' := h.depicts q
    rw [hp] at hRel
    rw [hq] at hRel'
    generalize hd : p.datum base ds = d at hRel
    generalize he : q.datum base ds = e at hRel'
    cases hRel
    cases hRel'
    rw [← Value.equal_object, ← Value.equal_object, h.equal hp hd hq he, h'.equal hp' hd hq' he]
  own := fun ho => ⟨.own ⟨_, ho⟩, rfl, rfl⟩

theorem corresponds : List.Forall₂ (Value.Corresponds (Paired owned args args')) args args' :=
  forall₂_iff_rel.2 fun i => corresponds_value h h' (.argument i)

end StandFor

end

/-! ## Hosts -/

/-- The datum that an answer is: a way to the answer leads to it. -/
noncomputable def Value.recognize (owned : Obj → Prop) (base : Obj → Datum) (args : List Value)
    (ds : List Datum) : Value → Datum
  | .nil => .nil
  | .bool b => .bool b
  | .number x => .number x
  | .object o =>
    ((Classical.epsilon fun p : Path owned => p.value args = some (.object o)).datum base ds).getD .nil

theorem Value.recognize_relabel {φ : Relabelling} (owned : Obj → Prop) (base : Obj → Datum)
    (args : List Value) (ds : List Datum) (v : Value) :
    v.recognize owned (fun o => (base o).relabel φ) args (ds.map (Datum.relabel φ)) =
      (v.recognize owned base args ds).relabel φ := by
  cases v with
  | nil | bool | number => rfl
  | object o =>
    simp only [recognize, Path.datum_relabel]
    generalize Path.datum base ds _ = d
    cases d <;> rfl

/-- What native functions compute from data: what they compute from values that stand for them. -/
noncomputable def hostOf (natives : Array Behaviour) (owned : Obj → Prop) (base : Obj → Datum)
    (n : Native) (ds : List Datum) : Datum :=
  let args := Classical.epsilon fun args => StandFor owned base args ds
  (Machine.answer { natives } n args.toArray).recognize owned base args ds

/-- Native functions do not see where functions were declared. -/
theorem hostEchoes_hostOf {φ : Relabelling} (hφ : Function.Injective φ.place) (natives : Array Behaviour)
    (owned : Obj → Prop) (base : Obj → Datum) :
    HostEchoes φ (hostOf natives owned base) (hostOf natives owned fun o => (base o).relabel φ) := by
  intro n ds
  have hStand : (fun args => StandFor owned (fun o => (base o).relabel φ) args (ds.map (Datum.relabel φ))) =
      fun args => StandFor owned base args ds := funext fun args => propext (standFor_relabel hφ)
  simp only [hostOf, hStand]
  exact Value.recognize_relabel owned base _ ds _

section

variable {owned : Obj → Prop} {base : Obj → Datum} {w : World}

/-- The datum that is recognized is the one of the answer. -/
theorem World.like_recognize (hw : w.heap.WF) (hd : w.Distinct)
    (hBase : ∀ o, owned o → w.Like (.object o) (base o)) {args args' : List Value} {ds : List Datum}
    (hArgs : List.Forall₂ w.Like args ds) (hStand : StandFor owned base args' ds) {v v' : Value}
    (hv : Value.Corresponds (Paired owned args args') v v') :
    w.Like v (v'.recognize owned base args' ds) := by
  cases hv with
  | nil => exact .nil
  | bool b => exact .bool b
  | number x => exact .number x
  | @object o o' hPaired =>
    obtain ⟨p, hp, hp'⟩ := hPaired
    rw [Value.recognize]
    have hChosen := Classical.epsilon_spec (p := fun q : Path owned => q.value args' = some (.object o'))
      ⟨p, hp'⟩
    generalize (Classical.epsilon fun q : Path owned => q.value args' = some (.object o')) = q at hChosen
    -- both ways lead to the answer in `args'`, so they lead to equal data, and to one object of the heap
    have hLike := p.rel_like hBase hArgs
    have hLike' := q.rel_like hBase hArgs
    have hSome := hStand.depicts q
    rw [hp] at hLike
    rw [hChosen] at hSome
    generalize hd₁ : p.datum base ds = d₁ at hLike
    generalize hd₂ : q.datum base ds = d₂, hu : q.value args = u at hLike' hSome
    cases hSome
    cases hLike with
    | some hLike =>
      cases hLike' with
      | @some u _ hLike' =>
        have hEqual : u.equal (.object o) = true := by
          rw [hLike'.equal_eq hw hd hLike, ← hStand.equal hChosen hd₂ hp' hd₁, Value.equal_object]
        cases u with
        | object o₂ =>
          rw [← hw.eq_of_id hLike'.mem hLike.mem (Value.equal_object.1 hEqual)]
          exact hLike'
        | nil | bool | number => cases hEqual

/-- Deterministic native functions compute what their host does. -/
theorem Machine.like_hostOf {natives : Array Behaviour} (hNatives : ∀ b ∈ natives, b.Deterministic owned)
    (hw : w.heap.WF) (hd : w.Distinct) (hBase : ∀ o, owned o → w.Like (.object o) (base o))
    {m : Machine} (hm : m.natives = natives) (n : Native) {args : Array Value} {ds : List Datum}
    (hArgs : List.Forall₂ w.Like args.toList ds) :
    w.Like (m.answer n args) (hostOf natives owned base n ds) := by
  have hStand := World.standFor hw hd hBase hArgs
  have hChosen : StandFor owned base (Classical.epsilon fun args => StandFor owned base args ds) ds :=
    Classical.epsilon_spec (p := fun args => StandFor owned base args ds) ⟨_, hStand⟩
  rw [hostOf]
  generalize (Classical.epsilon fun args => StandFor owned base args ds) = args' at hChosen
  refine World.like_recognize hw hd hBase hArgs hChosen ?_
  unfold answer
  rw [hm]
  cases hGet : natives[n.entry]? with
  | none => exact .nil
  | some b =>
    exact hNatives b (Array.mem_of_getElem? hGet) _ (hStand.correspondence hChosen) _ _ _ _
      (hStand.corresponds hChosen)

end

end Lox
