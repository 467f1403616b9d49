import Lox.Proofs.Machine.Origins
import Lox.Proofs.Syntax.Pushes
import Lox.Proofs.Syntax.Uses

/-!
# Functions that name themselves

The body of a function is compiled without the locals around it, so a name that no local of its own
shadows means a global there. A function that is declared at the top level of a script finds itself under
its name: it runs only after its declaration has defined the global, because nothing else in the session
leads to it before (`Moment.Guards`). A function that is declared in a block or in another function does
not; its name is that of a local, which the body cannot see.
-/

set_option autoImplicit false

namespace Lox

/-! ## The functions of a script -/

/-- Where a routine was compiled to a function `f`, the routine `q` in it was compiled to `g`. -/
inductive Function.Made (f : Fn) (r : Routine) : Fn → Routine → Prop
  | self : Made f r f r
  | nested {g g' : Fn} {q q' : Routine} {i : Nat} : Made f r g q →
      q.pool[i]? = some (.function q') → g.chunk.constants[i]? = some (.object (.function g')) →
      Made f r g' q'

/-- Nothing is in both of two functions. -/
def Function.Apart (f g : Fn) : Prop := ∀ h : Fn, h.Among [g] → ¬ h.Among [f]

namespace Function

variable {f g h script : Fn} {r q : Routine} {w : World}

theorem Among.trans (hg : h.Among [g]) (hf : g.Among [f]) : h.Among [f] := by
  induction hg with
  | script hMem => exact List.mem_singleton.1 hMem ▸ hf
  | nested _ hMem ih => exact .nested ih hMem

/-- The functions in one on a heap are on the heap. -/
theorem Among.mem {heap : Heap} (hRooted : heap.Rooted) (hf : .function f ∈ heap.objects)
    (hg : g.Among [f]) : .function g ∈ heap.objects := by
  induction hg with
  | script hMem => exact List.mem_singleton.1 hMem ▸ hf
  | nested _ hMem ih => exact (hRooted _ ih).constants _ hMem

theorem Apart.constant {i : Nat} (ha : f.Apart g)
    (hi : g.chunk.constants[i]? = some (.object (.function h))) : f.Apart h :=
  fun h' hh' => ha h' (hh'.trans (.of_constant hi))

theorem Made.among (hm : f.Made r g q) : g.Among [f] := by
  induction hm with
  | self => exact .self f
  | nested _ _ hi ih => exact (Among.of_constant hi).trans ih

theorem Made.trans {p : Routine} (hm : f.Made r g q) (hm' : g.Made q h p) : f.Made r h p := by
  induction hm' with
  | self => exact hm
  | nested _ hPool hi ih => exact .nested ih hPool hi

theorem Made.compiled (hm : f.Made r g q) (hc : w.Compiled f r) : w.Compiled g q := by
  induction hm with
  | self => exact hc
  | nested _ hPool hi ih =>
    obtain ⟨v, hv, hr⟩ := ih.constant hPool
    cases hi.symm.trans hv
    cases hr with
    | function hc' => exact hc'

theorem Made.legal (hm : f.Made r g q) (hp : r.Proper) (hl : r.Legal) : q.Proper ∧ q.Legal := by
  induction hm with
  | self => exact ⟨hp, hl⟩
  | nested _ hPool _ ih => exact ih.2.nested ih.1 (List.mem_of_getElem? hPool)

/-- A function in a compiled one was compiled from a routine in its routine. -/
theorem Among.compiled (hg : g.Among [f]) (hc : w.Compiled f r) :
    ∃ q, r.Within q ∧ w.Compiled g q := by
  induction hg with
  | script hMem => exact List.mem_singleton.1 hMem ▸ ⟨r, .self, hc⟩
  | nested _ hMem ih =>
    obtain ⟨p, hp, hc'⟩ := ih
    obtain ⟨i, hi⟩ := Array.mem_iff_getElem?.1 hMem
    obtain ⟨c, hPool, hr⟩ := hc'.pool hi
    cases hr with
    | function hq => exact ⟨_, hp.nested (List.mem_of_getElem? hPool), hq⟩

end Function

theorem World.Compiled.made {w : World} {f : Fn} {r : Routine} (hc : w.Compiled f r) :
    (r.place, f.id) ∈ w.made := by
  obtain ⟨-, hMade, -⟩ := hc
  exact hMade

/-- A function has one place. -/
theorem World.Compiled.place_eq {w : World} (hw : w.Distinct) {f : Fn} {r r' : Routine}
    (hc : w.Compiled f r) (hc' : w.Compiled f r') : r.place = r'.place :=
  (hw _ hc.made _ hc'.made).2 rfl

/-! ## What a script declares -/

/-- What a script does with a function that it declares at its top level: the function is nowhere else in
it, and where it is pushed, a global is defined next. -/
structure Function.Declares (script : Fn) (name : String) (f : Fn) : Prop where
  inside : f.Among [script]
  outside : ¬ script.Among [f]
  others : ∀ (i : Nat) (g : Fn), script.chunk.constants[i]? = some (.object (.function g)) → g = f ∨ f.Apart g
  defines : ∀ (frame : Frame) (heap : Heap) (h i next : Nat), frame.function = script →
    frame.Stands heap h → script.chunk.decode frame.ip = .instruction ⟨.constant, i⟩ next →
    script.chunk.constants[i]? = some (.object (.function f)) →
    ∃ index next' s, script.chunk.decode next = .instruction ⟨.defineGlobal, index⟩ next' ∧
      Machine.nameAt frame index = .ok s ∧ s.text = name

namespace Routine.DerivesScript

variable {r q q' : Routine} {ts : List Token} {w : World} {script f g : Fn} {i j : Nat}

theorem place_lt (hd : r.DerivesScript ts) {p : Nat} (hp : p ∈ r.places) : p < ts.length := by
  obtain ⟨h, -⟩ := hd
  rcases List.mem_append.1 hp with hp | hp
  · exact h.places.high p hp
  · cases List.mem_singleton.1 hp
    exact Nat.zero_lt_of_lt h.length_le

/-- Two functions of a script are apart. -/
theorem functions_apart (hd : r.DerivesScript ts) (hw : w.Distinct) (hc : w.Compiled script r)
    (hf : script.chunk.constants[i]? = some (.object (.function f)))
    (hg : script.chunk.constants[j]? = some (.object (.function g))) (hne : i ≠ j) : f.Apart g := by
  intro h hh hh'
  obtain ⟨c, hPool, hr⟩ := hc.pool hf
  obtain ⟨c', hPool', hr'⟩ := hc.pool hg
  cases hr with
  | function hq =>
    cases hr' with
    | function hq' =>
      obtain ⟨p, hp, hcp⟩ := hh'.compiled hq
      obtain ⟨p', hp', hcp'⟩ := hh.compiled hq'
      have hPlace := hcp.place_eq hw hcp'
      exact hne (hd.apart hPool hPool' hp.place_mem (hPlace ▸ hp'.place_mem))

theorem script_outside (hd : r.DerivesScript ts) (hw : w.Distinct) (hc : w.Compiled script r)
    (hf : script.chunk.constants[i]? = some (.object (.function f))) : ¬ script.Among [f] := by
  intro hs
  obtain ⟨c, hPool, hr⟩ := hc.pool hf
  cases hr with
  | function hq =>
    obtain ⟨p, hp, hcp⟩ := hs.compiled hq
    have hLess := hd.places.2 p.place (Routine.places_subset (List.mem_of_getElem? hPool) hp.place_mem)
    have hEq := hcp.place_eq hw hc
    omega

end Routine.DerivesScript

/-- An offset where a call stands in a compiled function is that of an instruction of its code. -/
theorem Frame.Stands.at_of_compiled {heap : Heap} {frame : Frame} {h : Nat} (hs : frame.Stands heap h)
    {w : World} {r : Routine} (hc : w.Compiled frame.function r) (hp : r.Proper) (hl : r.Legal)
    {i : Instruction} {next : Nat}
    (hDecode : frame.function.chunk.decode frame.ip = .instruction i next) :
    ∃ line, r.code.At frame.ip [(i, line)] := by
  obtain ⟨w', r', hl', -, hc', hp', -, hSafe⟩ := hs
  obtain ⟨i', line, hAt, hFits, -⟩ := (Body.Safe.all hSafe).resolve_left fun hEnd => hEnd.2
  have hDecode' := (Machine.step_at (m := {}) hc' hAt hFits).1
  cases hDecode.symm.trans hDecode'
  have hSites := (hc'.wellFormed hp' hl').splits.unique (hc.wellFormed hp hl).splits
  exact Code.at_of_mem_sites [] (hSites ▸ hAt.mem_sites)

/-- A compiled script declares the functions at its top level. -/
theorem Routine.DerivesScript.declares {r : Routine} {ts : List Token} (hd : r.DerivesScript ts)
    (hp : r.Proper) (hl : r.Legal) {w : World} (hw : w.Distinct) {script f : Fn}
    (hc : w.Compiled script r) {place : Nat} {name : String} {parameters : List String}
    {body : List Stmt} {line : Nat} (hMem : .function place name parameters body line ∈ r.body) {i : Nat}
    (hi : r.pool[i]? = some (.function ⟨place, some name, parameters, body, line⟩))
    (hf : script.chunk.constants[i]? = some (.object (.function f))) : script.Declares name f where
  inside := .of_constant hf
  outside := hd.script_outside hw hc hf
  others := by
    intro j g hg
    by_cases hEq : i = j
    · subst hEq
      cases hf.symm.trans hg
      exact .inl rfl
    · exact .inr (hd.functions_apart hw hc hf hg hEq)
  defines := by
    rintro frame heap h j next rfl hs hDecode hj
    -- the function is one constant only
    obtain rfl : i = j := by
      by_contra hne
      exact hd.functions_apart hw hc hf hj hne f (.self f) (.self f)
    obtain ⟨line', hAt⟩ := hs.at_of_compiled hc hp hl hDecode
    obtain ⟨index, hDefine, hName⟩ := hd.define_behind hMem hi hAt
    obtain rfl := Chunk.next_of_decode hDecode
    have hFits : Instruction.Fits ⟨.defineGlobal, index⟩ :=
      (List.getElem?_eq_some_iff.1 hName).1.trans_le hl.constants
    have hBehind : w.Compiled ({ frame with ip := frame.ip + 2 } : Frame).function r := hc
    obtain ⟨v, hv, hr⟩ := hc.constant hName
    cases hr with
    | @string s _ =>
      exact ⟨index, _, s, (Machine.step_at (m := {}) hBehind hDefine hFits).1,
        by simp only [Machine.nameAt, hv], rfl⟩

/-- What the compiler makes is new. -/
theorem fresh_of_compile {r : Routine} {source : String} (hd : r.DerivesScript (Scanner.tokens source))
    {heap heap' : Heap} (hh : heap.WF) {script : Fn} (h : compile source heap = (.ok script, heap')) :
    ∃ w : World, w.Distinct ∧ w.heap = heap' ∧ w.Compiled script r ∧ r.Legal ∧
      ∀ g : Fn, g.Among [script] → heap.nextId ≤ g.id := by
  -- all objects of the heap are taken for functions that were made before, behind all the tokens
  have hStock := (World.stock_wf hh).shift (Scanner.tokens source).length
  rw [Nat.zero_add] at hStock
  rcases hd.compile_in hStock with ⟨ha, w, f, he, hw, hc, hEq⟩ | ⟨-, hNot⟩
  · cases h.symm.trans hEq
    refine ⟨w, hw.distinct, rfl, hc, ha.legal, fun g hg => ?_⟩
    by_contra hOld
    obtain ⟨q, hq, hcq⟩ := hg.compiled hc
    have hLess := hd.place_lt hq.place_mem
    have hMem := he.made.subset (List.mem_map_of_mem (World.mem_stock (Nat.lt_of_not_le hOld)))
    have hPlace := (hw.distinct _ hcq.made _ hMem).2 rfl
    dsimp only at hPlace
    omega
  · exact absurd (congrArg Prod.fst h) (hNot script)

/-! ## Until a function is declared -/

namespace Moment

/-- A value with nothing of a function in it, except for the script that declares the function. -/
def Clear (script f : Fn) (v : Value) : Prop :=
  ∀ g, v = .object (.function g) → g = script ∨ f.Apart g

/-- The script has pushed a function, and defines a global next. -/
def Pending (script : Fn) (name : String) (f : Fn) (a : Moment) : Prop :=
  ∃ frame index next s, a.running = some frame ∧ frame.function = script ∧
    script.chunk.decode frame.ip = .instruction ⟨.defineGlobal, index⟩ next ∧
    Machine.nameAt frame index = .ok s ∧ s.text = name ∧
    a.session.machine.peek? 0 = some (.object (.function f))

/-- The way of a function of a script: nothing leads to it, or it is about to be stored under its name,
or it has been. -/
structure Guards (script : Fn) (name : String) (f : Fn) (a : Moment) : Prop where
  mem : .function f ∈ a.session.machine.heap.objects
  way : a.Holds (Clear script f) ∨ a.Pending script name f ∨ (name, .object (.function f)) ∈ a.stores

variable {script f : Fn} {name : String} {a b : Moment}

theorem clear_of_plain (v : Value) (hv : ∀ g, v ≠ .object (.function g)) : Clear script f v :=
  fun g hg => absurd hg (hv g)

theorem Next.stores_subset {ok : List Fn → Machine → Frame → Prop} (hn : Next ok a b) :
    a.stores ⊆ b.stores := by
  cases hn with
  | host | reserve | reject | load | halt | fail => exact List.Subset.refl _
  | define => exact List.subset_cons_self ..
  | step => exact List.subset_append_right ..

/-- What is pending is stored by the next step. -/
theorem Pending.next {ok : List Fn → Machine → Frame → Prop} (h : a.Pending script name f)
    (hn : Next ok a b) :
    b.Pending script name f ∨ (name, .object (.function f)) ∈ b.stores := by
  obtain ⟨frame, index, next, s, hr, rfl, hDecode, hName, rfl, hPeek⟩ := h
  have hSame : Machine.nameAt { frame with ip := next } index = .ok s := hName
  have hStep : ∃ m, a.session.machine.step frame = .next m { frame with ip := next } := by
    simp only [Machine.step, hDecode, Machine.execute, Machine.defineGlobal, hSame, hPeek]
    exact ⟨_, rfl⟩
  cases hn with
  | host | reserve => exact .inl ⟨frame, index, next, s, hr, rfl, hDecode, hName, rfl, hPeek⟩
  | define | reject | load => cases hr
  | step hok hNext =>
    cases hr
    refine .inr (List.mem_append_left _ (Option.mem_toList.2 ?_))
    simp [Machine.store?, hDecode, hName, hPeek]
  | halt t hok hHalt =>
    cases hr
    obtain ⟨m, hStep⟩ := hStep
    cases hStep.symm.trans hHalt
  | fail t hok hFail =>
    cases hr
    obtain ⟨m, hStep⟩ := hStep
    cases hStep.symm.trans hFail

/-- A script that is loaded has nothing of what was there before. -/
theorem apart_of_load {source : String} {frame : Frame} {s : Session} (ha : Reached Machine.Modest a)
    (hf : .function f ∈ a.session.machine.heap.objects)
    (hLoad : a.session.load source = (.ok frame, s)) : f.Apart frame.function := by
  intro h hNew hOld
  have hBound := ha.rooted.1.bound _ (hOld.mem ha.rooted.2 hf)
  obtain ⟨g, heap, log, hCompile, rfl, rfl⟩ := Session.load_eq_ok hLoad
  obtain ⟨r, hd⟩ := derives_of_compile (congrArg Prod.fst hCompile)
  obtain ⟨w, -, -, -, -, hFresh⟩ := fresh_of_compile hd ha.rooted.1 hCompile
  exact absurd hBound (Nat.not_lt.2 (hFresh h hNew))

theorem Guards.next (hd : script.Declares name f) (ha : Reached Machine.Modest a)
    (h : a.Guards script name f) (hn : Next Machine.Modest a b) : b.Guards script name f := by
  refine ⟨(hn.grown ha.rooted.1).old.mem h.mem, ?_⟩
  rcases h.way with hHolds | hPending | hStored
  · have hLoad (source : String) (frame : Frame) (s : Session)
        (hs : a.session.load source = (.ok frame, s)) (_ : b.running = some frame) :
        Clear script f (.object (.function frame.function)) := by
      rintro g ⟨⟩
      exact .inr (apart_of_load ha h.mem hs)
    rcases hHolds.next ha clear_of_plain hLoad hn with hHolds | ⟨frame, v, hPushed⟩
    · exact .inl hHolds
    · -- the constant that is pushed can only be the function, and is pushed by its script
      obtain ⟨hr, ⟨i, next, hDecode, hGet, hr'⟩, hForeign, hMachine⟩ := hPushed
      obtain ⟨g, rfl, hg⟩ : ∃ g, v = .object (.function g) ∧ ¬ (g = script ∨ f.Apart g) := by
        simpa only [Clear, not_forall, exists_prop] using hForeign
      have hRunning := ha.own_of_modest.machine
      rw [hr] at hRunning
      obtain ⟨n, -, hs⟩ := hRunning.height
      rcases hHolds.running frame hr frame.function rfl with rfl | hApart
      · obtain rfl : g = f := (hd.others i g hGet).resolve_right fun hApart => hg (.inr hApart)
        obtain ⟨index, next', name, hDefine, hName, hText⟩ :=
          hd.defines frame _ n i next rfl hs hDecode hGet
        refine .inr (.inl ⟨_, index, next', name, hr', rfl, hDefine, hName, hText, ?_⟩)
        rw [hMachine]
        exact Machine.peek?_push ..
      · exact absurd (.inr (hApart.constant hGet)) hg
  · exact .inr (hPending.next hn)
  · exact .inr (.inr (hn.stores_subset hStored))

theorem Guards.later (hd : script.Declares name f) (ha : Reached Machine.Modest a)
    (h : a.Guards script name f) (hb : Relation.ReflTransGen (Next Machine.Modest) a b) :
    b.Guards script name f := by
  induction hb with
  | refl => exact h
  | tail hb hn ih => exact ih.next hd (ha.later hb) hn

theorem Next.loaded {ok : List Fn → Machine → Frame → Prop} {source : String} {start : Frame}
    {s : Session} (hIdle : a.running = none) (hLoad : a.session.load source = (.ok start, s)) :
    Next ok a (a.loaded start s) := by
  obtain ⟨session, running, scripts, stores⟩ := a
  cases hIdle
  exact .load hLoad

/-- When a script is loaded, nothing leads to its functions but the script itself. -/
theorem guards_of_load {source : String} {start : Frame} {s : Session} (ha : Reached Machine.Modest a)
    (hIdle : a.running = none) (hLoad : a.session.load source = (.ok start, s))
    (hd : start.function.Declares name f) :
    (a.loaded start s).Guards start.function name f := by
  have hNext : Next Machine.Modest a (a.loaded start s) := .loaded hIdle hLoad
  have hb := ha.next hNext
  have hHolds : a.Holds (Clear start.function f) := by
    -- the globals have values from before
    refine .of_idle ha hIdle ?_
    rintro n v hv g rfl
    obtain ⟨key, -, hHolds⟩ := (ha.stored_of_modest.law n _).1 hv
    have hOld := (ha.own_of_modest.roots.1.values _ _ hHolds).2 _ rfl
    exact .inr fun h hg hf => apart_of_load ha hOld hLoad h (hf.trans hd.inside) hg
  refine ⟨hd.inside.mem hb.rooted.2 (hb.own_of_modest.roots.2.2.1 start rfl), .inl ?_⟩
  have hScript (source' : String) (frame : Frame) (s' : Session)
      (_ : a.session.load source' = (.ok frame, s'))
      (hr : (a.loaded start s).running = some frame) :
      Clear start.function f (.object (.function frame.function)) := by
    cases hr
    rintro g ⟨⟩
    exact .inl rfl
  rcases hHolds.next ha clear_of_plain hScript hNext with hHolds | ⟨frame, v, hPushed⟩
  · exact hHolds
  · cases hIdle.symm.trans hPushed.before

/-- A function that runs has been declared. -/
theorem Guards.stored (hd : script.Declares name f) (h : b.Guards script name f) {frame : Frame}
    (hr : b.running = some frame) (hf : frame.function.Among [f]) :
    (name, .object (.function f)) ∈ b.stores := by
  rcases h.way with hHolds | ⟨frame', _, _, _, hr', hScript, -⟩ | hStored
  · rcases hHolds.running frame hr frame.function rfl with hScript | hApart
    · exact absurd (hScript ▸ hf) hd.outside
    · exact absurd hf (hApart _ (.self _))
  · cases hr.symm.trans hr'
    exact absurd (hScript ▸ hf) hd.outside
  · exact hStored

end Moment

/-! ## Reading a name -/

/-- What comes of reading a global: its value is pushed if it is defined. -/
def Machine.fetch (m : Machine) (frame : Frame) (name : String) : Step :=
  match m.global? name with
  | some value => .next (m.push value) frame
  | none => .fail m frame (.undefinedVariable name)

/-- The value that was stored under a name, and then no other one. -/
theorem lookup_of_same {name : String} {v : Value} {newer older : List (String × Value)}
    (h : ∀ e ∈ newer, e.1 = name → e.2 = v) : (newer ++ (name, v) :: older).lookup name = some v := by
  rw [List.lookup_append]
  cases hNewer : newer.lookup name with
  | none => simp
  | some v' =>
    obtain ⟨front, back, rfl, -⟩ := List.lookup_eq_some_iff.1 hNewer
    rw [← h (name, v') (by simp) rfl]
    rfl

namespace Moment

variable {a b : Moment} {source name : String} {start frame : Frame} {s : Session} {r q : Routine}
  {u : Use} {w : World}

/-- A name that no local shadows is that of a global. -/
theorem Reached.step_use (hb : Reached Machine.Modest b) (hr : b.running = some frame)
    (hc : w.Compiled frame.function q) (hl : q.Legal) (hu : u ∈ q.uses) (hOffset : u.offset = frame.ip)
    (hFree : u.Free) :
    b.session.machine.step frame =
      b.session.machine.fetch { frame with ip := frame.ip + 2 } u.name := by
  obtain ⟨index, line, hAt, hPool⟩ := (Routine.uses_in hu).global hFree
  rw [hOffset] at hAt
  have hFits : Instruction.Fits ⟨.getGlobal, index⟩ :=
    (List.getElem?_eq_some_iff.1 hPool).1.trans_le hl.constants
  obtain ⟨v, hv, hRepresents⟩ := hc.constant hPool
  generalize u.name = text at hRepresents ⊢
  cases hRepresents with
  | @string key _ =>
    have hName : Machine.nameAt frame index = .ok key := by simp only [Machine.nameAt, hv]
    have hName' : Machine.nameAt { frame with ip := frame.ip + 2 } index = .ok key := hName
    have hStored := hb.stored_of_modest
    have hGet : b.session.machine.globals.get? (.string key) = b.session.machine.global? key.text := by
      rw [hStored.get? (hb.nameAt_mem hr hName), hStored.global?]
    rw [(Machine.step_at hc hAt hFits).2]
    change b.session.machine.getGlobal { frame with ip := frame.ip + 2 } index = _
    cases hValue : b.session.machine.global? key.text with
    | none => simp only [Machine.getGlobal, Machine.fetch, hName', hGet, hValue]
    | some value => simp only [Machine.getGlobal, Machine.fetch, hName', hGet, hValue]

/-- A compiled script, and the tree it comes from. -/
theorem Reached.compiled_of_load (ha : Reached Machine.Modest a)
    (hLoad : a.session.load source = (.ok start, s)) (hd : r.DerivesScript (Scanner.tokens source)) :
    ∃ w : World, w.Distinct ∧ w.Compiled start.function r ∧ r.Proper ∧ r.Legal := by
  obtain ⟨g, heap, log, hCompile, rfl, rfl⟩ := Session.load_eq_ok hLoad
  obtain ⟨w, hw, -, hc, hl, -⟩ := fresh_of_compile hd ha.rooted.1 hCompile
  exact ⟨w, hw, hc, hd.proper (Scanner.named_tokens source), hl⟩

/-- In a session whose native functions are modest, take any source text that is loaded, with the tree of
it, and any function of it that runs. A name that no local of this function shadows is read as a global,
also the name of the function itself, and also where it was declared as a local. But for each function
that is declared at the top level there is the function made of it, and when it runs, or one inside of it,
it has been stored under its name; unless something else was stored there since, its name is read as the
function itself. -/
theorem function_finds_itself (ha : Reached Machine.Modest a) (hIdle : a.running = none)
    (hLoad : a.session.load source = (.ok start, s)) (hd : r.DerivesScript (Scanner.tokens source)) :
    (∀ b frame q u, Relation.ReflTransGen (Next Machine.Modest) (a.loaded start s) b →
      b.running = some frame → start.function.Made r frame.function q →
      u ∈ q.uses → u.offset = frame.ip → u.Free →
      b.session.machine.step frame =
        b.session.machine.fetch { frame with ip := frame.ip + 2 } u.name) ∧
    ∀ place name parameters body line, .function place name parameters body line ∈ r.body →
      ∃ (i : Nat) (f : Fn), r.pool[i]? = some (.function ⟨place, some name, parameters, body, line⟩) ∧
        start.function.chunk.constants[i]? = some (.object (.function f)) ∧
        ∀ b frame q, Relation.ReflTransGen (Next Machine.Modest) (a.loaded start s) b →
          b.running = some frame →
          f.Made ⟨place, some name, parameters, body, line⟩ frame.function q →
          (name, .object (.function f)) ∈ b.stores ∧
          ∀ newer older, b.stores = newer ++ (name, .object (.function f)) :: older →
            (∀ e ∈ newer, e.1 = name → e.2 = .object (.function f)) →
            ∀ u ∈ q.uses, u.offset = frame.ip → u.name = name → u.Free →
              b.session.machine.step frame =
                .next (b.session.machine.push (.object (.function f)))
                  { frame with ip := frame.ip + 2 } := by
  obtain ⟨w, hw, hc, hp, hl⟩ := ha.compiled_of_load hLoad hd
  have hStart := ha.next (.loaded hIdle hLoad)
  have hStep (b : Moment) (frame : Frame) (q : Routine) (u : Use)
      (hb : Relation.ReflTransGen (Next Machine.Modest) (a.loaded start s) b)
      (hr : b.running = some frame) (hq : start.function.Made r frame.function q) (hu : u ∈ q.uses)
      (hOffset : u.offset = frame.ip) (hFree : u.Free) : b.session.machine.step frame =
        b.session.machine.fetch { frame with ip := frame.ip + 2 } u.name :=
    (hStart.later hb).step_use hr (hq.compiled hc) (hq.legal hp hl).2 hu hOffset hFree
  refine ⟨hStep, fun place name parameters body line hMem => ?_⟩
  have hPool : .function ⟨place, some name, parameters, body, line⟩ ∈ r.pool :=
    Routine.function_mem_pool_iff.2 (Stmt.mem_functionsOfAll (List.mem_singleton_self _) hMem)
  obtain ⟨i, hi⟩ := List.mem_iff_getElem?.1 hPool
  obtain ⟨v, hf, hRepresents⟩ := hc.constant hi
  cases hRepresents with
  | @function f _ _ =>
    have hDeclares := hd.declares hp hl hw hc hMem hi hf
    refine ⟨i, f, hi, hf, fun b frame q hb hr hq => ?_⟩
    have hGuards := (guards_of_load ha hIdle hLoad hDeclares).later hDeclares hStart hb
    refine ⟨hGuards.stored hDeclares hr hq.among, ?_⟩
    intro newer older hStores hSame u hu hOffset hName hFree
    have hGlobal : b.session.machine.global? name = some (.object (.function f)) := by
      rw [(hStart.later hb).stored_of_modest.global?, hStores]
      exact lookup_of_same hSame
    rw [hStep b frame q u hb hr (Function.Made.trans (.nested .self hi hf) hq) hu hOffset hFree, hName,
      Machine.fetch, hGlobal]

/-- A script that calls the function it declares: the function prints itself. -/
theorem function_finds_itself_printed : ∃ (r : Routine) (start frame : Frame) (s : Session) (b : Moment),
    r.DerivesScript (Scanner.tokens "fun f() { print f; } f();") ∧
    (Moment.start {} {}).session.load "fun f() { print f; } f();" = (.ok start, s) ∧
    Relation.ReflTransGen (Next Machine.Modest) ((Moment.start {} {}).loaded start s) b ∧
    b.running = some frame ∧ frame.function ≠ start.function ∧
    b.session.machine.step frame =
      .next (b.session.machine.push (.object (.function frame.function)))
        { frame with ip := frame.ip + 2 } := by
  let source := "fun f() { print f; } f();"
  let q : Routine := ⟨5, some "f", [], [.print (.name "f" 1) 1], 1⟩
  have hTokens : Scanner.tokens source =
      [⟨.kwFun, "fun", 1⟩, ⟨.identifier, "f", 1⟩, ⟨.leftParen, "(", 1⟩, ⟨.rightParen, ")", 1⟩,
        ⟨.leftBrace, r"{", 1⟩, ⟨.kwPrint, "print", 1⟩, ⟨.identifier, "f", 1⟩, ⟨.semicolon, ";", 1⟩,
        ⟨.rightBrace, r"}", 1⟩, ⟨.identifier, "f", 1⟩, ⟨.leftParen, "(", 1⟩, ⟨.rightParen, ")", 1⟩,
        ⟨.semicolon, ";", 1⟩, ⟨.eof, "", 1⟩] := by decide
  obtain ⟨r, hd, rfl⟩ : ∃ r : Routine, r.DerivesScript (Scanner.tokens source) ∧
      r = .script [.function 5 "f" [] q.body 1, .expression (.call (.name "f" 1) [] 1) 1] 1 := by
    have hLoose {e : Expr} {layer : Precedence} {ts rest : List Token} (h : e.Derives layer ts rest)
        (hRank : Precedence.assignment.rank ≤ layer.rank) : e.DerivesWhole ts rest :=
      h.loosen (by decide) hRank
    have hCallee {ts rest : List Token} {e : Expr} (h : e.Derives .primary ts rest) :
        e.Derives .call ts rest := h.loosen (by decide) (by decide)
    rw [hTokens]
    refine ⟨_, .mk (.cons (.function ?_ ?_ ?_ (.none ?_) ?_
      (.cons (.statement (.print ?_ (hLoose (.name ?_) (by decide)) ?_)) .nil) ?_)
      (.cons (.statement (.expression (hLoose (.callNone (hCallee (.name ?_)) ?_ ?_) (by decide)) ?_))
        .nil)) ?_, ?_⟩ <;> rfl
  -- three instructions lead to the call of the function
  have hCall : ((early? source 3).map fun e => (e.2.1.function.chunk.decode 6, e.2.1.ip,
      e.1.machine.stack.size, e.1.machine.callers.length, e.2.2.id)) =
      some (.instruction ⟨.call, 0⟩ 8, 6, 2, 0, 4) := by decide +kernel
  have hIds : ((early? source 3).map fun e =>
      (((e.1.machine.peek? 0).bind Value.asFunction?).map fun f => (f.id, f.arity),
        (e.2.2.chunk.constants[1]?.bind Value.asFunction?).map Function.id,
        ((e.1.machine.global? "f").bind Value.asFunction?).map Function.id)) =
      some (some (3, 0), some 3, some 3) := by decide +kernel
  obtain ⟨⟨s, frame, script⟩, hEarly, hFacts⟩ := Option.map_eq_some_iff.1 hCall
  simp only [Prod.mk.injEq] at hFacts
  obtain ⟨hDecode, hIp, hSize, hDepth, hScript⟩ := hFacts
  rw [hEarly, Option.map_some, Option.some.injEq] at hIds
  simp only [Prod.mk.injEq] at hIds
  obtain ⟨hCalled, hConstant, hGlobal⟩ := hIds
  obtain ⟨f, hf, hFacts⟩ := Option.map_eq_some_iff.1 hCalled
  simp only [Prod.mk.injEq] at hFacts
  obtain ⟨hId, hArity⟩ := hFacts
  have hv := Value.eq_some_of_asFunction? hf
  obtain ⟨start, s₀, stores, hLoad, rfl, hLater⟩ : ∃ start s₀ stores, _ ∧ _ ∧
      Relation.ReflTransGen (Next Machine.Modest) _ _ := later_of_early? hEarly .of_not_calls
  have hReached : Reached Machine.Modest _ := (Reached.first hLoad).later hLater
  -- the function that is called, the constant and the global are one object
  have hOwn := hReached.own_of_modest
  have hSame {g : Fn} (hg : .function g ∈ s.machine.heap.objects) (hg' : g.id = 3) : g = f := by
    have hMem := (hOwn.roots.2.1 _ (Machine.mem_of_peek? hv)).2 _ rfl
    cases hReached.rooted.1.eq_of_id hg hMem (hg'.trans hId.symm)
    rfl
  have hConstant' : start.function.chunk.constants[1]? = some (.object (.function f)) := by
    obtain ⟨g, hg, hg'⟩ := Option.map_eq_some_iff.1 hConstant
    have hw := Value.eq_some_of_asFunction? hg
    have hAmong : g.Among [start.function] := .of_constant hw
    rw [hw, hSame ((Value.closed_own.function (hAmong.sound hOwn.scripts)).2 _ rfl) hg']
  have hGlobal' : s.machine.global? "f" = some (.object (.function f)) := by
    obtain ⟨g, hg, hg'⟩ := Option.map_eq_some_iff.1 hGlobal
    have hw := Value.eq_some_of_asFunction? hg
    have hStored := hReached.stored_of_modest
    obtain ⟨key, -, hHolds⟩ := (hStored.law "f" _).1 ((hStored.global? "f").symm.trans hw)
    rw [hw, hSame ((hOwn.roots.1.values _ _ hHolds).2 _ rfl) hg']
  have hCallers : s.machine.callers = [] := List.eq_nil_of_length_eq_zero hDepth
  let m₁ : Machine := { s.machine with callers := [{ frame with ip := 8 }] }
  have hStep : s.machine.step frame = .next m₁ ⟨f, 0, 1⟩ := by
    simp [m₁, Machine.step, hIp, hDecode, Machine.execute, Machine.call, hv, hArity, hSize, hCallers,
      Machine.maxFrames]
  have hModest : s.machine.Modest [start.function] frame := by
    intro count next native m' frame' w hDecode' hNative
    rw [hIp, hDecode] at hDecode'
    cases hDecode'
    cases hv.symm.trans hNative
  have hb := hLater.tail (.step hModest hStep)
  obtain ⟨-, hTop⟩ := function_finds_itself (.start {} {}) rfl hLoad hd
  obtain ⟨i, f', hPool, hf', hFind⟩ := hTop 5 "f" [] q.body 1 List.mem_cons_self
  obtain rfl : i = 1 := by
    change [Const.string "f", .function q][i]? = some (.function q) at hPool
    rcases i with _ | _ | i
    · cases hPool
    · rfl
    · cases hPool
  cases hConstant'.symm.trans hf'
  have hLookup := ((hReached.next (.step hModest hStep)).stored_of_modest.global? "f").symm.trans hGlobal'
  obtain ⟨newer, older, hStores, hNewer⟩ := List.lookup_eq_some_iff.1 hLookup
  have hRead := (hFind _ ⟨f, 0, 1⟩ q hb rfl .self).2 newer older hStores
    (fun e he hName => absurd hName.symm (bne_iff_ne.1 (hNewer e he))) ⟨0, "f", [⟨"", 0, true⟩]⟩
    (List.mem_singleton_self _) rfl rfl (by decide)
  refine ⟨_, start, _, s₀, _, hd, hLoad, hb, rfl, ?_, hRead⟩
  intro hEq
  have hIdEq := congrArg Function.id hEq
  rw [hScript, hId] at hIdEq
  cases hIdEq

/-- A function that is declared in a block, or in another function, does not find itself. -/
theorem local_function_misses_itself :
    ((Session.create {} {}).interpret "{ fun f() { print f; } f(); }" 100).1 =
      .failed ⟨.undefinedVariable "f", [⟨1, some "f"⟩, ⟨1, none⟩]⟩ ∧
    ((Session.create {} {}).interpret
      "fun g() { fun f() { return f; } return f(); } g();" 100).1 =
      .failed ⟨.undefinedVariable "f", [⟨1, some "f"⟩, ⟨1, some "g"⟩, ⟨1, none⟩]⟩ := by
  decide +kernel

end Moment

end Lox
