import Lox.Proofs.Table.Laws

/-!
# Tables as finite maps

A history is a list of changes to tables that start out empty, newest first. `lastValue` reads off a
history alone which value a key has; `history_refines_map` says that every operation on the tables
answers by it. Keys are any objects, with any hashes, that are told apart by identity.
-/

set_option autoImplicit false

namespace Lox.Table

variable {ν : Type}

/-- A change to one of several tables, which are told apart by number. -/
inductive Change (ν : Type) where
  | set (table : Nat) (key : Obj) (value : ν)
  | delete (table : Nat) (key : Obj)
  | addAll (source target : Nat)

namespace Change

/-- The key that a change names. -/
def key? : Change ν → Option Obj
  | set _ key _ | delete _ key => some key
  | addAll _ _ => none

/-- The tables after a change. -/
def apply (tables : Nat → Table ν) : Change ν → Nat → Table ν
  | set table key value => Function.update tables table ((tables table).set key value).2
  | delete table key => Function.update tables table ((tables table).delete key).2
  | addAll source target => Function.update tables target ((tables source).addAll (tables target))

end Change

/-- The tables after a history, newest change first. -/
def tablesAfter : List (Change ν) → Nat → Table ν
  | [] => fun _ => {}
  | change :: older => change.apply (tablesAfter older)

/-- The value that a history gives the key with an identity in a table: that of the last `set`, unless
a `delete` came after it. Copying a table sets all its keys. -/
def lastValue : List (Change ν) → Nat → Nat → Option ν
  | [], _, _ => none
  | .set table key value :: older, t, id =>
    if table = t ∧ key.id = id then some value else lastValue older t id
  | .delete table key :: older, t, id =>
    if table = t ∧ key.id = id then none else lastValue older t id
  | .addAll source target :: older, t, id =>
    if target = t then (lastValue older source id).or (lastValue older t id)
    else lastValue older t id

/-- Identity tells the objects of a class apart. -/
def OneIdentity (known : Obj → Prop) : Prop := ∀ a b, known a → known b → a.id = b.id → a = b

/-- A table holds of a class of objects exactly what a map from identities says. -/
def Represents (known : Obj → Prop) (t : Table ν) (contents : Nat → Option ν) : Prop :=
  ∀ k v, t.Holds k v ↔ known k ∧ contents k.id = some v

section
variable {known : Obj → Prop} (hOne : OneIdentity known)
include hOne

theorem Represents.knows {t : Table ν} {contents : Nat → Option ν} (h : Represents known t contents)
    {key : Obj} (hKey : known key) : t.Knows key :=
  fun k v hv hid => hOne k key ((h k v).1 hv).1 hKey hid

theorem represents_set {t : Table ν} {contents contents' : Nat → Option ν} (hWF : t.WF)
    (h : Represents known t contents) {key : Obj} (hKey : known key) (v : ν)
    (hNew : ∀ id, contents' id = if key.id = id then some v else contents id) :
    Represents known (t.set key v).2 contents' := by
  intro k w
  rw [holds_set hWF (h.knows hOne hKey) v, h, hNew]
  constructor
  · rintro (⟨rfl, rfl⟩ | ⟨hid, hk, hw⟩)
    · exact ⟨hKey, if_pos rfl⟩
    · exact ⟨hk, by rw [if_neg (Ne.symm hid), hw]⟩
  · rintro ⟨hk, hw⟩
    split at hw
    · rename_i hid
      exact .inl ⟨hOne k key hk hKey hid.symm, (Option.some.inj hw).symm⟩
    · rename_i hid
      exact .inr ⟨Ne.symm hid, hk, hw⟩

theorem represents_delete {t : Table ν} {contents contents' : Nat → Option ν} (hWF : t.WF)
    (h : Represents known t contents) {key : Obj} (hKey : known key)
    (hNew : ∀ id, contents' id = if key.id = id then none else contents id) :
    Represents known (t.delete key).2 contents' := by
  intro k w
  rw [holds_delete hWF (h.knows hOne hKey), h, hNew]
  constructor
  · rintro ⟨hid, hk, hw⟩
    exact ⟨hk, by rw [if_neg (Ne.symm hid), hw]⟩
  · rintro ⟨hk, hw⟩
    split at hw
    · cases hw
    · rename_i hid
      exact ⟨Ne.symm hid, hk, hw⟩

theorem addAll_represents {source target : Table ν} {given kept : Nat → Option ν} (hs : source.WF)
    (ht : target.WF) (hFrom : Represents known source given) (hTo : Represents known target kept) :
    (source.addAll target).WF ∧
      Represents known (source.addAll target) fun id => (given id).or (kept id) := by
  obtain ⟨hWF, hHolds⟩ := addAll_spec hs ht fun k v hv => hTo.knows hOne ((hFrom k v).1 hv).1
  refine ⟨hWF, fun k w => ?_⟩
  rw [hHolds, hFrom, hTo]
  change _ ↔ known k ∧ (given k.id).or (kept k.id) = some w
  constructor
  · rintro (⟨hk, hw⟩ | ⟨hNot, hk, hw⟩)
    · exact ⟨hk, by rw [hw, Option.some_or]⟩
    · refine ⟨hk, ?_⟩
      cases hf : given k.id with
      | none => rw [Option.none_or, hw]
      | some v => exact absurd rfl (hNot k v ((hFrom k v).2 ⟨hk, hf⟩))
  · rintro ⟨hk, hw⟩
    cases hf : given k.id with
    | none =>
      refine .inr ⟨fun k' v hv hid => ?_, hk, by rw [hf, Option.none_or] at hw; exact hw⟩
      have := ((hFrom k' v).1 hv).2
      rw [hid, hf] at this
      cases this
    | some v => exact .inl ⟨hk, by rw [hf, Option.some_or] at hw; exact hw⟩

/-- One change keeps every table to what the history says. -/
theorem change_represents {change : Change ν} {older : List (Change ν)}
    (hKey : ∀ key, change.key? = some key → known key)
    (ih : ∀ t, (tablesAfter older t).WF ∧
      Represents known (tablesAfter older t) (lastValue older t)) (t : Nat) :
    (tablesAfter (change :: older) t).WF ∧
      Represents known (tablesAfter (change :: older) t) (lastValue (change :: older) t) := by
  cases change with
  | set table key value =>
    obtain ⟨hWF, hRep⟩ := ih table
    have hKnown := hKey key rfl
    by_cases ht : table = t
    · subst ht
      simp only [tablesAfter, Change.apply, Function.update_self]
      exact ⟨set_wf hWF (hRep.knows hOne hKnown) value,
        represents_set hOne hWF hRep hKnown value fun id => by simp [lastValue]⟩
    · simpa only [tablesAfter, Change.apply, Function.update_of_ne (Ne.symm ht), Represents,
        lastValue, ht, false_and, if_false] using ih t
  | delete table key =>
    obtain ⟨hWF, hRep⟩ := ih table
    have hKnown := hKey key rfl
    by_cases ht : table = t
    · subst ht
      simp only [tablesAfter, Change.apply, Function.update_self]
      exact ⟨delete_wf hWF (hRep.knows hOne hKnown),
        represents_delete hOne hWF hRep hKnown fun id => by simp [lastValue]⟩
    · simpa only [tablesAfter, Change.apply, Function.update_of_ne (Ne.symm ht), Represents,
        lastValue, ht, false_and, if_false] using ih t
  | addAll source target =>
    by_cases ht : target = t
    · subst ht
      have h := addAll_represents hOne (ih source).1 (ih target).1 (ih source).2 (ih target).2
      simpa only [tablesAfter, Change.apply, Function.update_self, Represents, lastValue,
        if_true] using h
    · simpa only [tablesAfter, Change.apply, Function.update_of_ne (Ne.symm ht), Represents,
        lastValue, ht, if_false] using ih t

/-- After every history, every table holds what the history says. -/
theorem tablesAfter_represents : ∀ (history : List (Change ν)),
    (∀ change ∈ history, ∀ key, change.key? = some key → known key) → ∀ t,
    (tablesAfter history t).WF ∧
      Represents known (tablesAfter history t) (lastValue history t)
  | [], _, t => ⟨empty_wf, fun k v => by simp [tablesAfter, lastValue, not_holds_empty]⟩
  | change :: older, hKeys, t =>
    change_represents hOne (hKeys change (by simp))
      (tablesAfter_represents older fun c hc => hKeys c (by simp [hc])) t

end

/-- The operations on tables answer as the finite map does that a history describes: reading a key,
whether `set` finds it new, whether `delete` finds it there, which entries there are, which key has
a text and a hash, and what a copy leaves in its target. -/
theorem history_refines_map {known : Obj → Prop} (hOne : OneIdentity known)
    (history : List (Change ν))
    (hKeys : ∀ change ∈ history, ∀ key, change.key? = some key → known key) (t : Nat) :
    (∀ key, known key →
      (tablesAfter history t).get? key = lastValue history t key.id ∧
      (∀ value, ((tablesAfter history t).set key value).1 = true ↔
        lastValue history t key.id = none) ∧
      (((tablesAfter history t).delete key).1 = true ↔ lastValue history t key.id ≠ none) ∧
      ∀ source, ((tablesAfter history source).addAll (tablesAfter history t)).get? key =
        (lastValue history source key.id).or (lastValue history t key.id)) ∧
    ((tablesAfter history t).entries.map (·.1.id)).Nodup ∧
    (∀ key value, (key, value) ∈ (tablesAfter history t).entries ↔
      known key ∧ lastValue history t key.id = some value) ∧
    (∀ text hash s, (tablesAfter history t).findText? text hash = some s →
      known (.string s) ∧ lastValue history t s.id ≠ none ∧ s.text = text ∧ s.hash = hash) ∧
    ∀ text hash s, known (.string s) → lastValue history t s.id ≠ none → s.text = text →
      s.hash = hash → (tablesAfter history t).findText? text hash ≠ none := by
  obtain ⟨hWF, hRep⟩ := tablesAfter_represents hOne history hKeys t
  refine ⟨fun key hKey => ?_, ?_, fun key value => ?_, fun text hash s hs => ?_,
    fun text hash s hKnown hLive hText hHash => ?_⟩
  · have hKnows := hRep.knows hOne hKey
    have hHolds : ∀ v, (tablesAfter history t).Holds key v ↔ lastValue history t key.id = some v :=
      fun v => by rw [hRep, and_iff_right hKey]
    refine ⟨?_, fun value => ?_, ?_, fun source => ?_⟩
    · exact Option.ext fun v => (get?_eq_some_iff hWF hKnows v).trans (hHolds v)
    · rw [set_isNew hWF hKnows, Option.eq_none_iff_forall_ne_some]
      exact forall_congr' fun w => not_congr (hHolds w)
    · rw [delete_wasThere hWF hKnows, Option.ne_none_iff_exists']
      exact exists_congr hHolds
    · obtain ⟨hWFs, hReps⟩ := tablesAfter_represents hOne history hKeys source
      obtain ⟨hWF', hRep'⟩ := addAll_represents hOne hWFs hWF hReps hRep
      exact Option.ext fun v => by
        rw [get?_eq_some_iff hWF' (hRep'.knows hOne hKey), hRep', and_iff_right hKey]
  · rw [List.Nodup, List.pairwise_map]
    exact pairwise_entries hWF.filed
  · rw [mem_entries, hRep]
  · obtain ⟨v, hv, hText, hHash⟩ := findText?_sound hs
    obtain ⟨hKnown, hLast⟩ := (hRep _ v).1 hv
    exact ⟨hKnown, Option.ne_none_iff_exists'.2 ⟨v, hLast⟩, hText, hHash⟩
  · obtain ⟨v, hv⟩ := Option.ne_none_iff_exists'.1 hLive
    subst hText hHash
    have := findText?_complete hWF ((hRep (.string s) v).2 ⟨hKnown, hv⟩)
    exact fun hNone => by simp [hNone] at this

/-- Three keys, two of which have the same hash. -/
def threeKeys : List Obj :=
  [.string ⟨0, "a", 7⟩, .string ⟨1, "b", 7⟩, .native ⟨2, "f", 0, 0⟩]

/-- The key filed behind a removed one of the same hash is still found, and copied. -/
theorem history_refines_map_collision :
    OneIdentity (· ∈ threeKeys) ∧
    (tablesAfter [.addAll 0 1, .set 0 (.native ⟨2, "f", 0, 0⟩) 3, .delete 0 (.string ⟨0, "a", 7⟩),
      .set 0 (.string ⟨1, "b", 7⟩) 2, .set 0 (.string ⟨0, "a", 7⟩) (1 : Nat)] 1).get?
        (.string ⟨1, "b", 7⟩) = some 2 := by
  have hOne : OneIdentity (· ∈ threeKeys) := by
    intro a b ha hb
    simp only [threeKeys, List.mem_cons, List.not_mem_nil, or_false] at ha hb
    rcases ha with rfl | rfl | rfl <;> rcases hb with rfl | rfl | rfl <;> simp [Object.id]
  refine ⟨hOne, ?_⟩
  refine ((history_refines_map hOne _ ?_ 1).1 _ (by simp [threeKeys])).1.trans ?_
  · simp [Change.key?, threeKeys]
  · simp [lastValue, Object.id]

end Lox.Table
