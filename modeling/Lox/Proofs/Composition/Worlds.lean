import Lox.Proofs.Composition.Echo
import Lox.Proofs.Machine.SafeSessions
import Lox.Proofs.Semantics.Mirror
import Lox.Proofs.Syntax.Splice

/-!
# Functions of earlier compilations

A `World` gives functions the places at which one source text declares them. The functions that a machine
already holds when it compiles a source text were declared elsewhere: they get places behind the end of the
text (`World.stock`), and so their trees are relabelled (`World.Like.relabel`).
-/

set_option autoImplicit false

namespace Lox

namespace World

variable {w w' : World} {φ : Relabelling}

/-! ## Functions in another world -/

/-- The functions of a world are at other places in another one, with more objects. -/
structure Moves (φ : Relabelling) (w w' : World) : Prop where
  heap : w.heap.Extends w'.heap
  lines : φ.line = id
  made : ∀ f place, .function f ∈ w.heap.objects → (place, f.id) ∈ w.made →
    (φ.place place, f.id) ∈ w'.made

mutual

theorem Represents.relabel (hMoves : w.Moves φ w') {v : Value} {c : Const} :
    w.Represents v c → w'.Represents v (c.relabel φ)
  | .number x => .number x
  | .string h => .string (hMoves.heap.mem h)
  | .function h => .function (h.relabel hMoves)

theorem Compiled.relabel (hMoves : w.Moves φ w') {f : Fn} {r : Routine} :
    w.Compiled f r → w'.Compiled f (r.relabel φ)
  | .mk hObject hMade hArity hName hCode hLines hConstants hNamed => by
    refine .mk (hMoves.heap.mem hObject) (hMoves.made _ _ hObject hMade) hArity hName ?_ ?_ ?_
      fun s hs => hMoves.heap.mem (hNamed s hs)
    · rw [Routine.code_relabel, Code.bytes_relabel, hCode]
    · rw [Routine.code_relabel, Code.relabel_of_line hMoves.lines, hLines]
    · rw [Routine.pool_relabel]
      exact allRepresent_relabel hMoves hConstants

theorem allRepresent_relabel (hMoves : w.Moves φ w') {vs : List Value} {k : List Const} :
    List.Forall₂ w.Represents vs k → List.Forall₂ w'.Represents vs (k.map (Const.relabel φ))
  | .nil => .nil
  | .cons h hs => .cons (h.relabel hMoves) (allRepresent_relabel hMoves hs)

end

theorem Like.relabel (hMoves : w.Moves φ w') {v : Value} {d : Datum} :
    w.Like v d → w'.Like v (d.relabel φ)
  | .nil => .nil
  | .bool b => .bool b
  | .number x => .number x
  | .string h => .string (hMoves.heap.mem h)
  | .function hc hl hp => .function (hc.relabel hMoves) hl.relabel hp.relabel
  | .native h => .native (hMoves.heap.mem h)

/-! ## Places behind the end of a text -/

/-- With all functions so many places further from the end. -/
def shift (w : World) (n : Nat) : World := ⟨w.heap, w.made.map fun m => (m.1 + n, m.2)⟩

theorem WF.shift {left : Nat} (hw : w.WF left) (n : Nat) : (w.shift n).WF (left + n) where
  heap := hw.heap
  order := by
    refine List.pairwise_map.2 (hw.order.imp fun h => ?_)
    dsimp only
    omega
  places := by
    intro m hm
    obtain ⟨m', hm', rfl⟩ := List.mem_map.1 hm
    have hPlace := hw.places m' hm'
    dsimp only
    omega
  ids := by
    intro m hm
    obtain ⟨m', hm', rfl⟩ := List.mem_map.1 hm
    exact hw.ids m' hm'

theorem moves_shift (w : World) (n : Nat) : w.Moves (.before n) (w.shift n) where
  heap := .refl _
  lines := rfl
  made := fun _ _ _ hMade => List.mem_map_of_mem hMade

theorem Moves.extends {w'' : World} (h : w.Moves φ w') (he : w'.Extends w'') : w.Moves φ w'' where
  heap := h.heap.trans he.heap
  lines := h.lines
  made := fun f place hf hMade => he.made.subset (h.made f place hf hMade)

/-- The heap has grown since. -/
theorem WF.extend {left : Nat} (hw : w.WF left) {heap : Heap} (hh : heap.WF) (he : w.heap.Extends heap) :
    WF ⟨heap, w.made⟩ left where
  heap := hh
  order := hw.order
  places := hw.places
  ids := fun m hm => (hw.ids m hm).trans_le he.nextId

/-- The objects of a heap as if all of them were functions, each with a place of its own. -/
def stock (heap : Heap) : World :=
  ⟨heap, (List.range heap.nextId).map fun place => (place, heap.nextId - 1 - place)⟩

theorem stock_wf {heap : Heap} (hh : heap.WF) : (stock heap).WF 0 where
  heap := hh
  order := by
    refine List.pairwise_map.2 ((List.pairwise_lt_range).imp_of_mem fun ha hb hLess => ?_)
    have ha' := List.mem_range.1 ha
    have hb' := List.mem_range.1 hb
    dsimp only
    omega
  places := fun _ _ => Nat.zero_le _
  ids := by
    intro m hm
    obtain ⟨place, hPlace, rfl⟩ := List.mem_map.1 hm
    have hLess := List.mem_range.1 hPlace
    change heap.nextId - 1 - place < heap.nextId
    omega

theorem mem_stock {heap : Heap} {id : Nat} (h : id < heap.nextId) :
    (heap.nextId - 1 - id, id) ∈ (stock heap).made := by
  refine List.mem_map.2 ⟨heap.nextId - 1 - id, List.mem_range.2 (by omega), ?_⟩
  rw [Prod.mk.injEq]
  omega

end World

/-! ## What a machine owns -/

/-- An object of a machine: it is on the heap, and if it is a function, it is one of some scripts, not one that
a rejected source text left. -/
def Machine.Owns (m : Machine) (scripts : List Fn) (o : Obj) : Prop :=
  o ∈ m.heap.objects ∧ ∀ f, o = .function f → f.Among scripts

/-- A native function that is called returns no foreign object: functions are those of some scripts, and
all objects are on the heap. -/
def Machine.Faithful (scripts : List Fn) (m : Machine) : Frame → Prop :=
  m.Answers fun v => ∀ o, v = .object o → m.Owns scripts o

/-- A value of a heap: an object on it, a function only if it is sound, or no object. -/
def Value.Own (h : Heap) (v : Value) : Prop := v.Sound h ∧ ∀ o, v = .object o → o ∈ h.objects

theorem Value.closed_own : Value.Closed Value.Own where
  sound := And.left
  mono := fun he hv => ⟨hv.1.mono he, fun o ho => he.mem (hv.2 o ho)⟩
  plain := fun hv => ⟨fun f hf => absurd hf (hv _), fun o ho => absurd ho (hv o)⟩
  string := fun hs => ⟨nofun, by rintro _ ⟨⟩; exact hs⟩
  native := fun hn => ⟨nofun, by rintro _ ⟨⟩; exact hn⟩
  function := by
    intro h f hf
    refine ⟨by rintro _ ⟨⟩; exact hf, ?_⟩
    rintro _ ⟨⟩
    obtain ⟨w, r, -, ⟨hMem, -⟩, -, -, he⟩ := hf
    exact he.mem hMem

theorem Machine.Owns.own {m : Machine} {scripts : List Fn} (hs : ∀ f ∈ scripts, f.Sound m.heap) {o : Obj}
    (ho : m.Owns scripts o) : (Value.object o).Own m.heap := by
  refine ⟨?_, by rintro _ ⟨⟩; exact ho.1⟩
  rintro f ⟨⟩
  exact (ho.2 f rfl).sound hs

namespace Moment

/-- Sessions whose native functions return no foreign object hold none. -/
theorem Reached.own {a : Moment} (h : Reached Machine.Faithful a) : a.Orderly Value.Own := by
  refine h.orderly_of Value.closed_own.toStable fun hScripts hr hf => ⟨?_, hr.callsSound Value.closed_own⟩
  intro count next native m' frame' v hd hp hs hv
  have hOwns := hf count next native m' frame' v hd hp hs hv
  cases v with
  | object o => exact (hOwns o rfl).own hScripts
  | nil | bool | number => exact Value.closed_own.plain nofun

/-- Their globals are what was stored. -/
theorem Reached.own_stored {a : Moment} (h : Reached Machine.Faithful a) :
    a.session.machine.Stored a.stores :=
  (h.imp fun ha _ => (ha.own.machine).interned _).stored

end Moment

/-- A sound function is one of the stock. -/
theorem Function.Sound.compiled {heap : Heap} (hh : heap.WF) {f : Fn} (hf : f.Sound heap) :
    ∃ r, (World.stock heap).Compiled f r ∧ r.Legal ∧ r.Proper := by
  obtain ⟨w, r, hd, hc, hp, hl, he⟩ := hf
  classical
  -- each place of the world in which it was compiled becomes that of the identity made there
  let place (p : Nat) : Nat :=
    if h : ∃ id, (p, id) ∈ w.made then heap.nextId - 1 - h.choose else 0
  have hMoves : w.Moves ⟨place, fun line => line⟩ (World.stock heap) := by
    refine ⟨he, rfl, fun g p hg hMade => ?_⟩
    have hEx : ∃ id, (p, id) ∈ w.made := ⟨_, hMade⟩
    have hId : hEx.choose = g.id := (hd _ hEx.choose_spec _ hMade).1 rfl
    have hPlace : place p = heap.nextId - 1 - g.id := by
      simp only [place]
      rw [dif_pos hEx, hId]
    change (place p, g.id) ∈ _
    rw [hPlace]
    exact World.mem_stock (hh.bound _ (he.mem hg))
  exact ⟨_, hc.relabel hMoves, hl.relabel, hp.relabel⟩

/-- A value of a heap is a datum. -/
theorem Value.Own.like {heap : Heap} (hh : heap.WF) {v : Value} (hv : v.Own heap) :
    ∃ d, (World.stock heap).Like v d := by
  cases v with
  | nil => exact ⟨_, .nil⟩
  | bool b => exact ⟨_, .bool b⟩
  | number x => exact ⟨_, .number x⟩
  | object o =>
    cases o with
    | string s => exact ⟨_, .string (hv.2 _ rfl)⟩
    | native n => exact ⟨_, .native (hv.2 _ rfl)⟩
    | function f =>
      obtain ⟨r, hc, hl, hp⟩ := (hv.1 f rfl).compiled hh
      exact ⟨_, .function hc hl hp⟩

end Lox
