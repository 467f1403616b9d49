import Lox.Heap
import Lox.Proofs.Table.Laws

/-!
# The invariant of the heap

`Heap.WF`: identities are handed out once, and the table of strings holds exactly the string objects,
of which there is one for each text. Every operation keeps it and only puts objects in front
(`Heap.Extends`), so what is said of an object stays true.
-/

set_option autoImplicit false

namespace Lox.Heap

/-- The invariant of the heap operations. -/
structure WF (h : Heap) : Prop where
  strings : h.strings.WF
  keys : ∀ k u, h.strings.Holds k u ↔ ∃ s, k = .string s ∧ .string s ∈ h.objects
  bound : ∀ o ∈ h.objects, o.id < h.nextId
  distinct : h.objects.Pairwise fun a b => a.id ≠ b.id
  hashed : ∀ s, .string s ∈ h.objects → s.hash = Text.hash s.text
  canonical : ∀ s s', .string s ∈ h.objects → .string s' ∈ h.objects → s.text = s'.text → s = s'
  counted : h.objectCount = h.objects.length

/-- `h'` is `h` with more objects in front. -/
structure Extends (h h' : Heap) : Prop where
  objects : h.objects <:+ h'.objects
  nextId : h.nextId ≤ h'.nextId

theorem Extends.refl (h : Heap) : h.Extends h := ⟨List.suffix_refl _, Nat.le_refl _⟩

theorem Extends.trans {h₁ h₂ h₃ : Heap} (h₁₂ : h₁.Extends h₂) (h₂₃ : h₂.Extends h₃) :
    h₁.Extends h₃ :=
  ⟨h₁₂.objects.trans h₂₃.objects, Nat.le_trans h₁₂.nextId h₂₃.nextId⟩

theorem Extends.mem {h h' : Heap} (he : h.Extends h') {o : Obj} (ho : o ∈ h.objects) :
    o ∈ h'.objects := he.objects.subset ho

@[simp] theorem nextId_allocate (h : Heap) (o : Obj) : (h.allocate o).nextId = h.nextId + 1 := rfl

@[simp] theorem objects_allocate (h : Heap) (o : Obj) : (h.allocate o).objects = o :: h.objects := rfl

@[simp] theorem strings_allocate (h : Heap) (o : Obj) : (h.allocate o).strings = h.strings := rfl

theorem empty_wf : ({} : Heap).WF :=
  ⟨Table.empty_wf, fun k u => by simp [Table.not_holds_empty], by simp, by simp, by simp, by simp, rfl⟩

/-- Objects of one heap with the same identity are the same. -/
theorem WF.eq_of_id {h : Heap} (hw : h.WF) {a b : Obj} (ha : a ∈ h.objects) (hb : b ∈ h.objects)
    (hid : a.id = b.id) : a = b := by
  have : Std.Symm fun a b : Obj => a.id ≠ b.id := ⟨fun _ _ h => Ne.symm h⟩
  by_contra hne
  exact hw.distinct.forall ha hb hne hid

/-- String objects of one heap are the same exactly if their texts are. -/
theorem WF.id_eq_iff {h : Heap} (hw : h.WF) {s s' : Str} (hs : .string s ∈ h.objects)
    (hs' : .string s' ∈ h.objects) : s.id = s'.id ↔ s.text = s'.text := by
  constructor
  · intro hId
    cases hw.eq_of_id hs hs' hId
    rfl
  · intro hText
    rw [hw.canonical s s' hs hs' hText]

/-- A text has the string object that the heap lists for it. -/
theorem lookup?_eq_some_iff {h : Heap} (hw : h.WF) (text : String) (s : Str) :
    h.lookup? text = some s ↔ .string s ∈ h.objects ∧ s.text = text := by
  have hListed : ∀ s', h.lookup? text = some s' → .string s' ∈ h.objects ∧ s'.text = text := by
    intro s' hs'
    obtain ⟨u, hu, hText, -⟩ := Table.findText?_sound hs'
    obtain ⟨s'', hEq, hMem⟩ := (hw.keys _ u).1 hu
    cases hEq
    exact ⟨hMem, hText⟩
  refine ⟨hListed s, ?_⟩
  rintro ⟨hs, rfl⟩
  have hSome : (h.lookup? s.text).isSome := by
    have := Table.findText?_complete hw.strings ((hw.keys (.string s) ()).2 ⟨s, rfl, hs⟩)
    rwa [hw.hashed s hs] at this
  obtain ⟨s', hs'⟩ := Option.isSome_iff_exists.1 hSome
  obtain ⟨hMem, hText⟩ := hListed s' hs'
  rw [hs', hw.canonical s' s hMem hs hText]

theorem lookup?_eq_none_iff {h : Heap} (hw : h.WF) (text : String) :
    h.lookup? text = none ↔ ∀ s, .string s ∈ h.objects → s.text ≠ text := by
  rw [Option.eq_none_iff_forall_ne_some]
  refine forall_congr' fun s => ?_
  rw [Ne, lookup?_eq_some_iff hw, not_and]

/-- What `intern` does, by whether the text has an object already. -/
theorem intern_eq (h : Heap) (text : String) :
    (∃ s, h.lookup? text = some s ∧ h.intern text = (s, h)) ∨
    (h.lookup? text = none ∧ h.intern text =
      ({ id := h.nextId, text, hash := Text.hash text },
        { h.allocate (.string { id := h.nextId, text, hash := Text.hash text }) with
          strings :=
            (h.strings.set (.string { id := h.nextId, text, hash := Text.hash text }) ()).2 })) := by
  cases hl : h.strings.findText? text (Text.hash text) with
  | some s => exact .inl ⟨s, hl, by simp only [intern, hl]⟩
  | none => exact .inr ⟨hl, by simp only [intern, hl, strings_allocate]⟩

/-- What `intern` does, all at once. -/
theorem intern_spec {h : Heap} (hw : h.WF) (text : String) :
    (h.intern text).2.WF ∧ h.Extends (h.intern text).2 ∧
      .string (h.intern text).1 ∈ (h.intern text).2.objects ∧ (h.intern text).1.text = text := by
  rcases intern_eq h text with ⟨s, hs, hEq⟩ | ⟨hNone, hEq⟩
  · obtain ⟨hMem, hText⟩ := (lookup?_eq_some_iff hw text s).1 hs
    rw [hEq]
    exact ⟨hw, .refl h, hMem, hText⟩
  · rw [hEq]
    generalize hs : ({ id := h.nextId, text, hash := Text.hash text } : Str) = s
    have hText : s.text = text := by rw [← hs]
    have hId : s.id = h.nextId := by rw [← hs]
    have hHash : s.hash = Text.hash s.text := by rw [← hs]
    have hNew : ∀ s', .string s' ∈ h.objects → s'.text ≠ s.text := fun s' hs' =>
      hText ▸ (lookup?_eq_none_iff hw text).1 hNone s' hs'
    have hKnows : h.strings.Knows (.string s) := by
      intro k u hu hid
      obtain ⟨s', rfl, hMem⟩ := (hw.keys k u).1 hu
      have := hw.bound _ hMem
      simp only [Object.id] at hid this
      omega
    have hOther : ∀ s', .string s' ∈ h.objects → s'.id ≠ s.id := by
      intro s' hs' hid
      have := hw.bound _ hs'
      simp only [Object.id] at this
      omega
    refine ⟨⟨Table.set_wf hw.strings hKnows (), fun k u => ?_, ?_, ?_, ?_, ?_,
      congrArg (· + 1) hw.counted⟩, ⟨List.suffix_cons _ _, Nat.le_succ _⟩, List.mem_cons_self ..,
      hText⟩
    · rw [Table.holds_set hw.strings hKnows, hw.keys]
      constructor
      · rintro (⟨rfl, -⟩ | ⟨-, s', rfl, hMem⟩)
        · exact ⟨s, rfl, List.mem_cons_self ..⟩
        · exact ⟨s', rfl, List.mem_cons_of_mem _ hMem⟩
      · rintro ⟨s', rfl, hMem⟩
        rcases List.mem_cons.1 hMem with hEq' | hMem
        · cases hEq'
          exact .inl ⟨rfl, rfl⟩
        · exact .inr ⟨hOther s' hMem, s', rfl, hMem⟩
    · intro o ho
      change o.id < h.nextId + 1
      rcases List.mem_cons.1 ho with rfl | ho
      · simp only [Object.id]; omega
      · have := hw.bound o ho
        omega
    · refine List.pairwise_cons.2 ⟨fun o ho => ?_, hw.distinct⟩
      have := hw.bound o ho
      simp only [Object.id] at this ⊢
      omega
    · intro s' hs'
      rcases List.mem_cons.1 hs' with hEq' | hs'
      · cases hEq'
        exact hHash
      · exact hw.hashed s' hs'
    · intro a b ha hb hab
      rcases List.mem_cons.1 ha with hEq' | ha <;> rcases List.mem_cons.1 hb with hEq'' | hb
      · cases hEq'; cases hEq''; rfl
      · cases hEq'; exact absurd hab.symm (hNew b hb)
      · cases hEq''; exact absurd hab (hNew a ha)
      · exact hw.canonical a b ha hb hab

/-- Listing an object with the next identity that is no string. -/
theorem WF.allocate {h : Heap} (hw : h.WF) {o : Obj} (hId : o.id = h.nextId)
    (hNoString : ∀ s, o ≠ .string s) : (h.allocate o).WF := by
  have hStrings : ∀ s, (.string s : Obj) ∈ o :: h.objects ↔ .string s ∈ h.objects := fun s => by
    rw [List.mem_cons, or_iff_right fun he => hNoString s he.symm]
  refine ⟨hw.strings, fun k u => ?_, ?_, List.pairwise_cons.2 ⟨fun o' ho' => ?_, hw.distinct⟩,
    fun s hs => hw.hashed s ((hStrings s).1 hs),
    fun a b ha hb => hw.canonical a b ((hStrings a).1 ha) ((hStrings b).1 hb),
    congrArg (· + 1) hw.counted⟩
  · rw [strings_allocate, hw.keys]
    exact exists_congr fun s => and_congr_right fun _ => (hStrings s).symm
  · intro o' ho'
    change o'.id < h.nextId + 1
    rcases List.mem_cons.1 ho' with rfl | ho'
    · omega
    · have := hw.bound o' ho'
      omega
  · have := hw.bound o' ho'
    omega

theorem allocFunction_spec {h : Heap} (hw : h.WF) (arity : Nat) (chunk : Chunk Value)
    (name : Option Str) :
    (h.allocFunction arity chunk name).2.WF ∧ h.Extends (h.allocFunction arity chunk name).2 ∧
      .function (h.allocFunction arity chunk name).1 ∈ (h.allocFunction arity chunk name).2.objects :=
  ⟨hw.allocate (o := .function ⟨h.nextId, arity, chunk, name⟩) rfl nofun,
    ⟨List.suffix_cons _ _, Nat.le_succ _⟩, List.mem_cons_self ..⟩

theorem allocNative_spec {h : Heap} (hw : h.WF) (name : String) (arity entry : Nat) :
    (h.allocNative name arity entry).2.WF ∧ h.Extends (h.allocNative name arity entry).2 ∧
      .native (h.allocNative name arity entry).1 ∈ (h.allocNative name arity entry).2.objects :=
  ⟨hw.allocate (o := .native ⟨h.nextId, name, arity, entry⟩) rfl nofun,
    ⟨List.suffix_cons _ _, Nat.le_succ _⟩, List.mem_cons_self ..⟩

theorem reserve_wf {h : Heap} (hw : h.WF) : h.reserve.2.WF :=
  ⟨hw.strings, hw.keys, fun o ho => Nat.lt_succ_of_lt (hw.bound o ho), hw.distinct, hw.hashed,
    hw.canonical, hw.counted⟩

/-- From a well-formed heap comes one with more objects. -/
def Grows (h h' : Heap) : Prop := h.WF → h'.WF ∧ h.Extends h'

theorem Grows.refl (h : Heap) : h.Grows h := fun hw => ⟨hw, .refl h⟩

theorem Grows.trans {h₁ h₂ h₃ : Heap} (h₁₂ : h₁.Grows h₂) (h₂₃ : h₂.Grows h₃) : h₁.Grows h₃ :=
  fun hw => ⟨(h₂₃ (h₁₂ hw).1).1, (h₁₂ hw).2.trans (h₂₃ (h₁₂ hw).1).2⟩

theorem grows_intern (h : Heap) (text : String) : h.Grows (h.intern text).2 :=
  fun hw => ⟨(intern_spec hw text).1, (intern_spec hw text).2.1⟩

theorem grows_allocFunction (h : Heap) (arity : Nat) (chunk : Chunk Value) (name : Option Str) :
    h.Grows (h.allocFunction arity chunk name).2 :=
  fun hw => ⟨(allocFunction_spec hw arity chunk name).1, (allocFunction_spec hw arity chunk name).2.1⟩

theorem grows_allocNative (h : Heap) (name : String) (arity entry : Nat) :
    h.Grows (h.allocNative name arity entry).2 :=
  fun hw => ⟨(allocNative_spec hw name arity entry).1, (allocNative_spec hw name arity entry).2.1⟩

theorem grows_reserve (h : Heap) : h.Grows h.reserve.2 :=
  fun hw => ⟨reserve_wf hw, List.suffix_refl _, Nat.le_succ _⟩

/-- The heaps that the operations can make from a new one. -/
inductive Reachable : Heap → Prop
  | new : Reachable {}
  | reserve {h : Heap} : Reachable h → Reachable h.reserve.2
  | intern {h : Heap} (text : String) : Reachable h → Reachable (h.intern text).2
  | allocFunction {h : Heap} (arity : Nat) (chunk : Chunk Value) (name : Option Str) :
      Reachable h → Reachable (h.allocFunction arity chunk name).2
  | allocNative {h : Heap} (name : String) (arity entry : Nat) :
      Reachable h → Reachable (h.allocNative name arity entry).2

theorem Reachable.wf {h : Heap} (hr : h.Reachable) : h.WF := by
  induction hr with
  | new => exact empty_wf
  | reserve _ ih => exact reserve_wf ih
  | intern text _ ih => exact (intern_spec ih text).1
  | allocFunction arity chunk name _ ih => exact (allocFunction_spec ih arity chunk name).1
  | allocNative name arity entry _ ih => exact (allocNative_spec ih name arity entry).1

end Lox.Heap
