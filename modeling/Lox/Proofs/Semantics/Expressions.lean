import Lox.Proofs.Semantics.Instructions

/-!
# Expressions

The code of an expression follows its evaluation, and leaves the value on the stack (`Expr.follows`), if
calls do the same (`Calls`).
-/

set_option autoImplicit false

namespace Lox

open Machine
open Lox.Parser (maxArguments maxDistance maxLocals)

/-! ## Variables -/

namespace Scope

/-- Among some locals a name that may be used means the same as in a scope. -/
def Sees (ls : List Local) (sc : Scope) : Prop :=
  ∀ name, Usable ls name → Draft.resolve? name ls = Draft.resolve? name sc.locals

theorem sees_declaring (sc : Scope) (name : String) : Sees (sc.declaring name).locals sc := by
  intro name' hu
  unfold declaring at hu ⊢
  split
  · rfl
  · rename_i hDepth
    rw [if_neg hDepth] at hu
    rw [add, Draft.resolve?]
    split
    · rename_i hEq
      -- the local in the making may not be used
      have hInitialized := hu sc.locals.length ⟨name, sc.depth, false⟩ (by
        rw [add, Draft.resolve?, if_pos hEq])
      cases hInitialized
    · rfl

end Scope

section

variable {u : Setup} {c : Call u} {sc : Scope} {clock : Nat} {ls : List Local} {k : List Const}
  {name : String} {m : Machine} {s : State} {ds : List Datum} {d : Datum} {ip line : Nat}

theorem Referent.size_get (r : Referent) (line : Nat) : (r.get line).size = 2 := by cases r <;> rfl

theorem Referent.size_set (r : Referent) (line : Nat) : (r.set line).size = 2 := by cases r <;> rfl

theorem Referent.follows_get (hu : Scope.Usable ls name) (hSees : Scope.Sees ls sc) (hName : name ≠ "")
    (hl : sc.locals.length ≤ maxLocals) (hp : Referent.pool ls k name <+: c.routine.pool)
    (hAt : c.routine.code.At ip ((Referent.of ls k name).get line)) (hm : m.Runs c sc s ds) :
    Follows u clock (c.Lands sc (ip + 2) fun d => ds ++ [d]) m (c.frame ip)
      (Eval.readVariable name s) := by
  have hNames : sc.locals.map Local.name = s.scopes.flatten.map Prod.fst ++ [""] := by
    rw [← hm.scope]
    exact s.scopes.names_locals
  unfold Referent.of at hAt
  unfold Referent.pool at hp
  rw [hSees name hu] at hAt hp
  rw [Eval.readVariable_eq, Environment.get?_eq]
  cases hr : Draft.resolve? name sc.locals with
  | none =>
    rw [hr] at hAt hp
    rw [(Variables.resolve?_none hNames hr .nil).1]
    exact hm.getGlobal hAt (Const.getElem?_of_prefix hp (Const.getElem?_withName k name))
  | some found =>
    obtain ⟨n, l⟩ := found
    obtain ⟨i, rfl, hLess, hLookup, -⟩ := Variables.resolve?_some hName hNames hr
    rw [hr] at hAt
    have hValue : s.scopes.values[i]? = some _ := List.getElem?_eq_getElem (by
      rw [Environment.values, List.length_reverse, List.length_map]
      exact hLess)
    rw [hLookup, ← Environment.values, hValue]
    exact hm.getLocal hAt ((Draft.resolve?_lt hr).trans_le hl) hValue fun m' hm' => .ok ⟨rfl, hm'⟩

theorem Referent.follows_set (hu : Scope.Usable ls name) (hSees : Scope.Sees ls sc) (hName : name ≠ "")
    (hl : sc.locals.length ≤ maxLocals) (hp : Referent.pool ls k name <+: c.routine.pool)
    (hAt : c.routine.code.At ip ((Referent.of ls k name).set line)) (hm : m.Runs c sc s (ds ++ [d])) :
    Follows u clock (c.Lands sc (ip + 2) fun _ => ds ++ [d]) m (c.frame ip)
      (Eval.writeVariable name d s) := by
  have hNames : sc.locals.map Local.name = s.scopes.flatten.map Prod.fst ++ [""] := by
    rw [← hm.scope]
    exact s.scopes.names_locals
  have hSet := Environment.set?_eq name d s.scopes
  unfold Referent.of at hAt
  unfold Referent.pool at hp
  rw [hSees name hu] at hAt hp
  rw [Eval.writeVariable_eq]
  cases hr : Draft.resolve? name sc.locals with
  | none =>
    rw [hr] at hAt hp
    rw [(Variables.resolve?_none hNames hr d).2, Option.map_eq_none_iff] at hSet
    rw [hSet]
    exact hm.setGlobal hAt (Const.getElem?_of_prefix hp (Const.getElem?_withName k name))
  | some found =>
    obtain ⟨n, l⟩ := found
    obtain ⟨i, rfl, hLess, -, hAssign⟩ := Variables.resolve?_some hName hNames hr
    rw [hr] at hAt
    obtain ⟨vs, hAssign, hValues⟩ := hAssign d
    rw [hAssign] at hSet
    obtain ⟨env, hEnv, rfl⟩ := Option.map_eq_some_iff.1 hSet
    rw [hEnv]
    refine hm.setLocal hAt ((Draft.resolve?_lt hr).trans_le hl) ?_ hValues (Environment.scope_set? hEnv)
      fun m' hm' => .ok ⟨rfl, hm'⟩
    rw [Environment.values, List.length_reverse, List.length_map]
    exact hLess

/-! ## Operators -/

theorem UnaryOperator.follows (op : UnaryOperator) (hm : m.Runs c sc s (ds ++ [d]))
    (hAt : c.routine.code.At ip (.op op.opcode line)) :
    Follows u clock (c.Lands sc (ip + 1) fun d => ds ++ [d]) m (c.frame ip) (op.apply d s) := by
  cases op with
  | negate => exact hm.negate hAt
  | not => exact hm.not hAt fun m' hm' => .ok ⟨rfl, hm'⟩

/-- What is negated is computed first. -/
theorem Eval.arithmetic_not (f : Float → Float → Bool) (a b : Datum) :
    arithmetic (fun x y => .bool (!f x y)) a b =
      arithmetic (fun x y => .bool (f x y)) a b >>= fun d => pure (.bool d.isFalsey) := by
  cases a <;> cases b <;> rfl

theorem BinaryOperator.follows (op : BinaryOperator) {a b : Datum} (hm : m.Runs c sc s (ds ++ [a, b]))
    (hAt : c.routine.code.At ip (op.opcodes.flatMap fun o => Code.op o line)) :
    Follows u clock
      (c.Lands sc (ip + Code.size (op.opcodes.flatMap fun o => Code.op o line)) fun d => ds ++ [d]) m
      (c.frame ip) (op.apply a b s) := by
  have hNot (d : Datum) (s' : State) (m' : Machine) (frame : Frame)
      (hLands : c.Lands sc (ip + 1) (fun d => ds ++ [d]) d s' m' frame)
      (hAt : c.routine.code.At (ip + 1) (.op .not line)) :
      Follows u clock (c.Lands sc (ip + 2) fun d => ds ++ [d]) m' frame
        ((pure (.bool d.isFalsey) : Eval Datum) s') := by
    obtain ⟨rfl, hm'⟩ := hLands
    exact hm'.not hAt fun m' hm' => .ok ⟨rfl, hm'⟩
  cases op with
  | equal => exact hm.equal hAt fun m' hm' => .ok ⟨rfl, hm'⟩
  | notEqual =>
    have hBoth : c.routine.code.At ip (.op .equal line ++ .op .not line) := hAt
    refine hm.equal hBoth.left fun m' hm' => hm'.not hBoth.right fun m' hm' => .ok ⟨rfl, ?_⟩
    exact hm'
  | greater => exact hm.arithmetic rfl hAt (fun _ => rfl) fun _ _ _ => .bool _
  | less => exact hm.arithmetic rfl hAt (fun _ => rfl) fun _ _ _ => .bool _
  | greaterEqual =>
    have hBoth : c.routine.code.At ip (.op .less line ++ .op .not line) := hAt
    rw [apply, Eval.arithmetic_not]
    exact (hm.arithmetic rfl hBoth.left (fun _ => rfl) fun _ _ _ => .bool _).bind
      fun d s' m' frame hLands => hNot d s' m' frame hLands hBoth.right
  | lessEqual =>
    have hBoth : c.routine.code.At ip (.op .greater line ++ .op .not line) := hAt
    rw [apply, Eval.arithmetic_not]
    exact (hm.arithmetic rfl hBoth.left (fun _ => rfl) fun _ _ _ => .bool _).bind
      fun d s' m' frame hLands => hNot d s' m' frame hLands hBoth.right
  | add => exact hm.add hAt
  | subtract => exact hm.arithmetic rfl hAt (fun _ => rfl) fun _ _ _ => .number _
  | multiply => exact hm.arithmetic rfl hAt (fun _ => rfl) fun _ _ _ => .number _
  | divide => exact hm.arithmetic rfl hAt (fun _ => rfl) fun _ _ _ => .number _

end

/-! ## Expressions -/

/-- The instruction that calls a datum follows its call. -/
def Calls (u : Setup) (clock : Nat) (call : Datum → List Datum → Eval Datum) : Prop :=
  ∀ (c : Call u) (sc : Scope) (m : Machine) (s : State) (ds : List Datum) (ip line : Nat) (f : Datum)
    (args : List Datum), m.Runs c sc s (ds ++ f :: args) →
    c.routine.code.At ip (.one .call args.length line) → args.length < 256 →
    Follows u clock (c.Lands sc (ip + 2) fun d => ds ++ [d]) m (c.frame ip) (call f args s)

theorem Machine.Follows.lands {u : Setup} {c : Call u} {sc : Scope} {clock : Nat} {α : Type}
    {ds : α → List Datum} {m : Machine} {frame : Frame} {r : EStateM.Result Stop State α} {ip ip' : Nat}
    (h : Follows u clock (c.Lands sc ip ds) m frame r) (hIp : ip' = ip) :
    Follows u clock (c.Lands sc ip' ds) m frame r := hIp ▸ h

section

variable {u : Setup} {c : Call u} {clock : Nat} {call : Datum → List Datum → Eval Datum}

mutual

theorem Expr.follows (hCall : Calls u clock call) : ∀ (e : Expr) {sc : Scope} {ls : List Local}
    {k : List Const} {ip : Nat} {m : Machine} {s : State} {ds : List Datum}, e.Proper → e.Legal ls k → Scope.Sees ls sc →
    sc.locals.length ≤ maxLocals → e.pool ls k <+: c.routine.pool →
    c.routine.code.At ip (e.code ls k) → m.Runs c sc s ds →
    Follows u clock (c.Lands sc (ip + (e.code ls k).size) fun d => ds ++ [d]) m (c.frame ip)
      (e.eval call s)
  | .nil _, _, _, _, _, _, _, _, _, _, _, _, _, hAt, hm =>
    hm.pushes hAt (Instruction.fits_op _) (fun _ => rfl) .nil fun m' hm' => .ok ⟨rfl, hm'⟩
  | .bool b _, _, _, _, _, _, _, _, _, _, _, _, _, hAt, hm => by
    cases b with
    | true =>
      exact hm.pushes hAt (Instruction.fits_op _) (fun _ => rfl) (.bool true)
        fun m' hm' => .ok ⟨rfl, hm'⟩
    | false =>
      exact hm.pushes hAt (Instruction.fits_op _) (fun _ => rfl) (.bool false)
        fun m' hm' => .ok ⟨rfl, hm'⟩
  | .number _ _, _, _, _, _, _, _, _, _, _, _, _, hp, hAt, hm
  | .string _ _, _, _, _, _, _, _, _, _, _, _, _, hp, hAt, hm =>
    hm.constant hAt (Const.getElem?_of_prefix hp (List.getElem?_concat_length ..))
      fun m' hm' => .ok ⟨rfl, hm'⟩
  | .name n line, sc, ls, k, ip, m, s, ds, hName, hu, hSees, hl, hp, hAt, hm => by
    refine (Referent.follows_get hu hSees hName hl hp hAt hm).lands ?_
    rw [code, Referent.size_get]
  | .assign n value, sc, ls, k, ip, m, s, ds, ⟨hName, hProper⟩, ⟨hu, hLegal⟩, hSees, hl, hp, hAt, hm => by
    have hPool := (value.prefix_pool ls (Referent.pool ls k n)).trans hp
    rw [code] at hAt ⊢
    refine (value.follows hCall hProper hLegal hSees hl hp hAt.left hm).bind ?_
    rintro d s' m' _ ⟨rfl, hm'⟩
    refine (Referent.follows_set hu hSees hName hl hPool hAt.right hm').bind ?_
    rintro _ s'' m'' _ ⟨rfl, hm''⟩
    refine .ok ⟨?_, hm''⟩
    rw [Code.size_append, Referent.size_set, Nat.add_assoc]
  | .group inner _, sc, ls, k, ip, m, s, ds, hProper, hLegal, hSees, hl, hp, hAt, hm =>
    inner.follows hCall hProper hLegal hSees hl hp hAt hm
  | .unary op operand, sc, ls, k, ip, m, s, ds, hProper, hLegal, hSees, hl, hp, hAt, hm => by
    rw [code] at hAt ⊢
    refine (operand.follows hCall hProper hLegal hSees hl hp hAt.left hm).bind ?_
    rintro d s' m' _ ⟨rfl, hm'⟩
    refine (op.follows hm' hAt.right).lands ?_
    cases op <;> simp [UnaryOperator.opcode, Opcode.operandSize, Nat.add_assoc]
  | .binary op left right, sc, ls, k, ip, m, s, ds, ⟨hProper, hProper'⟩, ⟨hLegal, hLegal'⟩, hSees, hl, hp,
      hAt, hm => by
    have hPool := (right.prefix_pool ls (left.pool ls k)).trans hp
    rw [code] at hAt ⊢
    refine (left.follows hCall hProper hLegal hSees hl hPool hAt.left.left hm).bind ?_
    rintro a s' m' _ ⟨rfl, hm'⟩
    refine (right.follows hCall hProper' hLegal' hSees hl hp hAt.left.right hm').bind ?_
    rintro b s'' m'' _ ⟨rfl, hm''⟩
    simp only [List.append_assoc, List.singleton_append] at hm''
    refine (op.follows hm'' (hAt.right.of_eq ?_)).lands ?_
    · rw [Code.size_append, Nat.add_assoc]
    · simp only [Code.size_append, Nat.add_assoc]
  | .and left right line, sc, ls, k, ip, m, s, ds, ⟨hProper, hProper'⟩, ⟨hLegal, hLegal', hd⟩, hSees, hl, hp,
      hAt, hm => by
    have hPool := (right.prefix_pool ls (left.pool ls k)).trans hp
    rw [code] at hAt ⊢
    refine (left.follows hCall hProper hLegal hSees hl hPool hAt.left.left.left hm).bind ?_
    rintro d s' m' _ ⟨rfl, hm'⟩
    refine hm'.jumpIfFalse hAt.left.left.right hd ?_
    cases d.isFalsey with
    | true =>
      refine .ok ⟨?_, hm'⟩
      simp only [Code.size_append, Code.size_one, Code.size_op, Opcode.operandSize, if_true]
      congr 1
      omega
    | false =>
      refine hm'.pop (hAt.left.right.of_eq ?_) fun m'' hm'' =>
        (right.follows hCall hProper' hLegal' hSees hl hp (hAt.right.of_eq ?_) hm'').lands ?_
      all_goals
        simp only [Code.size_append, Code.size_one, Code.size_op, Opcode.operandSize,
          Bool.false_eq_true, if_false]
        omega
  | .or left right line, sc, ls, k, ip, m, s, ds, ⟨hProper, hProper'⟩, ⟨hLegal, hLegal', hd⟩, hSees, hl, hp,
      hAt, hm => by
    have hPool := (right.prefix_pool ls (left.pool ls k)).trans hp
    rw [code] at hAt ⊢
    refine (left.follows hCall hProper hLegal hSees hl hPool hAt.left.left.left.left hm).bind ?_
    rintro d s' m' _ ⟨rfl, hm'⟩
    refine hm'.jumpIfFalse hAt.left.left.left.right (by decide) ?_
    cases d.isFalsey with
    | true =>
      refine hm'.pop (hAt.left.right.of_eq ?_) fun m'' hm'' =>
        (right.follows hCall hProper' hLegal' hSees hl hp (hAt.right.of_eq ?_) hm'').lands ?_
      all_goals
        simp only [Code.size_append, Code.size_one, Code.size_op, Opcode.operandSize, if_true]
        omega
    | false =>
      refine hm'.jump (hAt.left.left.right.of_eq ?_) hd (.ok ⟨?_, hm'⟩)
      · simp only [Code.size_append, Code.size_one, Opcode.operandSize, Bool.false_eq_true, if_false]
        omega
      · simp only [Code.size_append, Code.size_one, Code.size_op, Opcode.operandSize,
          Bool.false_eq_true, if_false]
        congr 1
        omega
  | .call callee arguments line, sc, ls, k, ip, m, s, ds, ⟨hProper, hProper'⟩, ⟨hLegal, hLegal', hCount⟩,
      hSees, hl, hp, hAt, hm => by
    have hPool := (Expr.prefix_poolOfAll ls arguments (callee.pool ls k)).trans hp
    rw [code] at hAt ⊢
    refine (callee.follows hCall hProper hLegal hSees hl hPool hAt.left.left hm).bind ?_
    rintro f s' m' _ ⟨rfl, hm'⟩
    refine (Expr.followsAll hCall arguments hProper' hLegal' hSees hl hp hAt.left.right hm').bind ?_
    rintro args s'' m'' _ ⟨hLength, rfl, hm''⟩
    simp only [List.append_assoc, List.singleton_append] at hm''
    rw [← hLength] at hAt hCount
    refine (hCall c sc m'' s'' ds _ line f args hm'' (hAt.right.of_eq ?_) (Nat.lt_succ_of_le hCount)).lands ?_
    all_goals simp [Opcode.operandSize, Nat.add_assoc]

theorem Expr.followsAll (hCall : Calls u clock call) : ∀ (es : List Expr) {sc : Scope}
    {ls : List Local} {k : List Const} {ip : Nat} {m : Machine} {s : State} {ds : List Datum}, Expr.ProperList es → Expr.LegalList ls k es →
    Scope.Sees ls sc → sc.locals.length ≤ maxLocals → Expr.poolOfAll ls k es <+: c.routine.pool →
    c.routine.code.At ip (Expr.codeOfAll ls k es) → m.Runs c sc s ds →
    Follows u clock (fun ds' s' m' frame => ds'.length = es.length ∧
      c.Lands sc (ip + (Expr.codeOfAll ls k es).size) (fun ds' => ds ++ ds') ds' s' m' frame) m
      (c.frame ip) (Expr.evalAll call es s)
  | [], _, _, _, _, _, _, ds, _, _, _, _, _, _, hm => .ok ⟨rfl, rfl, by simpa only [List.append_nil] using hm⟩
  | e :: es, sc, ls, k, ip, m, s, ds, ⟨hProper, hProper'⟩, ⟨hLegal, hLegal'⟩, hSees, hl, hp, hAt, hm => by
    have hPool := (Expr.prefix_poolOfAll ls es (e.pool ls k)).trans hp
    rw [codeOfAll] at hAt ⊢
    refine (e.follows hCall hProper hLegal hSees hl hPool hAt.left hm).bind ?_
    rintro d s' m' _ ⟨rfl, hm'⟩
    refine (Expr.followsAll hCall es hProper' hLegal' hSees hl hp hAt.right hm').bind ?_
    rintro ds' s'' m'' _ ⟨hLength, rfl, hm''⟩
    simp only [List.append_assoc, List.singleton_append] at hm''
    exact .ok ⟨by rw [List.length_cons, List.length_cons, hLength],
      by rw [Code.size_append, Nat.add_assoc], hm''⟩

end

end

end Lox
