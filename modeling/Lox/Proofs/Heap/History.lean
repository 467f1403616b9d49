import Lox.Proofs.Heap

/-!
# Interning over the history of a heap

A history is a list of operations on a heap that starts out new, newest first. Two operations of a
history that intern a text give the same object exactly if the texts are equal, and looking a text up
finds this object exactly if the history interned it (`interning_canonical`). Texts with the same hash
are told apart like any others. The counts are those of the list of objects.
-/

set_option autoImplicit false

namespace Lox.Heap

/-- An operation on a heap. -/
inductive Operation where
  /-- Interns a text, be it copied or handed over. -/
  | intern (text : String)
  | lookup (text : String)
  | allocFunction (arity : Nat) (chunk : Chunk Value) (name : Option Str)
  | allocNative (name : String) (arity entry : Nat)
  | reserve

/-- The heap after an operation. -/
def Operation.apply (h : Heap) : Operation → Heap
  | intern text => (h.intern text).2
  | lookup _ => h
  | allocFunction arity chunk name => (h.allocFunction arity chunk name).2
  | allocNative name arity entry => (h.allocNative name arity entry).2
  | reserve => h.reserve.2

/-- The heap after a history, newest operation first. -/
def heapAfter : List Operation → Heap
  | [] => {}
  | op :: older => op.apply (heapAfter older)

/-- The string object that interning a text gives after a history. -/
def interned (older : List Operation) (text : String) : Str := ((heapAfter older).intern text).1

/-! ## One operation -/

theorem Operation.grows (op : Operation) (h : Heap) : h.Grows (op.apply h) := by
  cases op with
  | intern text => exact h.grows_intern text
  | lookup text => exact .refl h
  | allocFunction arity chunk name => exact h.grows_allocFunction arity chunk name
  | allocNative name arity entry => exact h.grows_allocNative name arity entry
  | reserve => exact h.grows_reserve

/-- An operation lists at most one object, which has a new identity. -/
theorem Operation.objects_apply (op : Operation) {h : Heap} (hw : h.WF) :
    (op.apply h).objects = h.objects ∨
      ∃ o, (∀ o' ∈ h.objects, o'.id ≠ o.id) ∧ (op.apply h).objects = o :: h.objects := by
  have hNew : ∀ o : Obj, o.id = h.nextId → ∀ o' ∈ h.objects, o'.id ≠ o.id := by
    intro o hId o' ho'
    have := hw.bound o' ho'
    omega
  cases op with
  | intern text =>
    rcases intern_eq h text with ⟨s, -, hEq⟩ | ⟨-, hEq⟩
    · exact .inl (by simp only [apply, hEq])
    · exact .inr ⟨.string ⟨h.nextId, text, Text.hash text⟩, hNew _ rfl,
        by simp only [apply, hEq, objects_allocate]⟩
  | lookup text => exact .inl rfl
  | allocFunction arity chunk name =>
    exact .inr ⟨.function (h.allocFunction arity chunk name).1, hNew _ rfl, rfl⟩
  | allocNative name arity entry =>
    exact .inr ⟨.native (h.allocNative name arity entry).1, hNew _ rfl, rfl⟩
  | reserve => exact .inl rfl

/-- Only interning lists a string. -/
theorem Operation.string_mem_apply (op : Operation) {h : Heap} {s : Str}
    (hs : .string s ∈ (op.apply h).objects) :
    .string s ∈ h.objects ∨ ∃ text, op = .intern text ∧ (h.intern text).1 = s := by
  cases op with
  | intern text =>
    rcases intern_eq h text with ⟨s', -, hEq⟩ | ⟨-, hEq⟩
    · simp only [apply, hEq] at hs
      exact .inl hs
    · simp only [apply, hEq, objects_allocate, List.mem_cons, Object.string.injEq] at hs
      rcases hs with rfl | hs
      · exact .inr ⟨text, rfl, by rw [hEq]⟩
      · exact .inl hs
  | lookup text => exact .inl hs
  | allocFunction arity chunk name => exact .inl ((List.mem_cons.1 hs).resolve_left nofun)
  | allocNative name arity entry => exact .inl ((List.mem_cons.1 hs).resolve_left nofun)
  | reserve => exact .inl hs

/-! ## Histories -/

theorem heapAfter_wf (ops : List Operation) : (heapAfter ops).WF := by
  induction ops with
  | nil => exact empty_wf
  | cons op older ih => exact (op.grows _ ih).1

theorem heapAfter_extends {older ops : List Operation} (h : older <:+ ops) :
    (heapAfter older).Extends (heapAfter ops) := by
  obtain ⟨newer, rfl⟩ := h
  induction newer with
  | nil => exact .refl _
  | cons op newer ih => exact ih.trans (op.grows _ (heapAfter_wf _)).2

/-- What was interned stays listed. -/
theorem interned_mem {text : String} {older ops : List Operation}
    (h : (.intern text :: older) <:+ ops) :
    .string (interned older text) ∈ (heapAfter ops).objects ∧ (interned older text).text = text := by
  obtain ⟨-, -, hMem, hText⟩ := intern_spec (heapAfter_wf older) text
  exact ⟨(heapAfter_extends h).mem hMem, hText⟩

/-- What is listed was interned. -/
theorem exists_interned {ops : List Operation} {s : Str}
    (hs : .string s ∈ (heapAfter ops).objects) :
    ∃ older, (.intern s.text :: older) <:+ ops ∧ interned older s.text = s := by
  induction ops with
  | nil => exact absurd hs List.not_mem_nil
  | cons op older ih =>
    rcases op.string_mem_apply hs with hs | ⟨text, rfl, rfl⟩
    · obtain ⟨older', hSuffix, hEq⟩ := ih hs
      exact ⟨older', hSuffix.trans (List.suffix_cons ..), hEq⟩
    · have hText : (interned older text).text = text := (interned_mem (List.suffix_refl _)).2
      refine ⟨older, ?_, ?_⟩
      · change Operation.intern (interned older text).text :: older <:+ _
        rw [hText]
      · change interned older (interned older text).text = _
        rw [hText]
        rfl

/-! ## Counts -/

/-- The table of strings has as many entries as there are strings among the objects: both lists have
the same members, and none twice. -/
theorem WF.stringCount_eq {h : Heap} (hw : h.WF) :
    h.stringCount = h.objects.countP (·.asString?.isSome) := by
  have hKeys : (h.strings.entries.map Prod.fst).Nodup := by
    rw [List.Nodup, List.pairwise_map]
    exact (Table.pairwise_entries hw.strings.filed).imp fun hId hEq => hId (congrArg Object.id hEq)
  have hStrings : (h.objects.filter (·.asString?.isSome)).Nodup := by
    refine List.Nodup.filter _ (hw.distinct.imp fun hId hEq => hId ?_)
    rw [hEq]
  have hMem : ∀ o, o ∈ h.strings.entries.map Prod.fst ↔
      o ∈ h.objects.filter (·.asString?.isSome) := by
    intro o
    have hEntry : o ∈ h.strings.entries.map Prod.fst ↔ ∃ s, o = .string s ∧ .string s ∈ h.objects := by
      rw [← hw.keys o (), ← Table.mem_entries, List.mem_map]
      exact ⟨fun ⟨⟨_, ()⟩, hMem, hEq⟩ => hEq ▸ hMem, fun hMem => ⟨_, hMem, rfl⟩⟩
    rw [hEntry, List.mem_filter]
    cases o <;> simp [Object.asString?]
  have hPerm := (List.perm_ext_iff_of_nodup hKeys hStrings).2 hMem
  rw [List.countP_eq_length_filter, ← hPerm.length_eq, List.length_map]
  rfl

/-- Over every history of a heap: two operations that intern a text give the same object exactly if the
texts are equal; a text is looked up as the object that interning it gave, if it was interned, and
without a change to the heap; strings carry the hash of their text; an operation puts at most one object
in front of those before, with a new identity; and the counts are those of the objects and of the
strings among them. -/
theorem interning_canonical (ops : List Operation) :
    (∀ text text' older older', (.intern text :: older) <:+ ops → (.intern text' :: older') <:+ ops →
      ((interned older text).id = (interned older' text').id ↔ text = text')) ∧
    (∀ text s, (heapAfter ops).lookup? text = some s ↔
      ∃ older, (.intern text :: older) <:+ ops ∧ interned older text = s) ∧
    (∀ text, heapAfter (.lookup text :: ops) = heapAfter ops) ∧
    (∀ s, .string s ∈ (heapAfter ops).objects → s.hash = Text.hash s.text) ∧
    (∀ op, (heapAfter (op :: ops)).objects = (heapAfter ops).objects ∨
      ∃ o, (∀ o' ∈ (heapAfter ops).objects, o'.id ≠ o.id) ∧
        (heapAfter (op :: ops)).objects = o :: (heapAfter ops).objects) ∧
    (heapAfter ops).objectCount = (heapAfter ops).objects.length ∧
    (heapAfter ops).stringCount = (heapAfter ops).objects.countP (·.asString?.isSome) := by
  have hw := heapAfter_wf ops
  refine ⟨?_, ?_, fun _ => rfl, hw.hashed, fun op => op.objects_apply hw, hw.counted,
    hw.stringCount_eq⟩
  · intro text text' older older' h h'
    obtain ⟨hMem, hText⟩ := interned_mem h
    obtain ⟨hMem', hText'⟩ := interned_mem h'
    rw [hw.id_eq_iff hMem hMem', hText, hText']
  · intro text s
    rw [lookup?_eq_some_iff hw]
    constructor
    · rintro ⟨hs, rfl⟩
      exact exists_interned hs
    · rintro ⟨older, h, rfl⟩
      exact interned_mem h

/-- Two texts with the same hash are two objects, each of which is found again. -/
theorem interning_canonical_collision :
    Text.hash "liquid" = Text.hash "costarring" ∧
    (interned [] "liquid").id ≠ (interned [.intern "liquid"] "costarring").id ∧
    (heapAfter [.intern "costarring", .intern "liquid"]).lookup? "liquid" =
      some (interned [] "liquid") ∧
    (heapAfter [.intern "costarring", .intern "liquid"]).stringCount = 2 := by
  obtain ⟨hSame, hLookup, -, -, -, -, hCount⟩ :=
    interning_canonical [.intern "costarring", .intern "liquid"]
  have hFirst : [Operation.intern "liquid"] <:+ [.intern "costarring", .intern "liquid"] :=
    List.suffix_cons ..
  refine ⟨by decide, ?_, (hLookup _ _).2 ⟨[], hFirst, rfl⟩, hCount.trans (by decide +kernel)⟩
  rw [Ne, hSame "liquid" "costarring" [] _ hFirst (List.suffix_refl _)]
  decide

end Lox.Heap
