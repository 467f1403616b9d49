import Lox.Proofs.Table.Probe

/-!
# Laws of the table operations

`Table.WF` is kept by `set`, `delete` and `addAll`, and holds of the empty table. `t.Holds k v` says
that `v` is the value of the key `k`; each operation is described by what the table holds after it
(`holds_set`, `holds_delete`, `holds_addAll`) and by what it returns.
-/

set_option autoImplicit false

namespace Lox

/-- Whether a slot was ever used. -/
def Slot.isUsed {ν : Type} : Slot ν → Bool
  | empty => false
  | _ => true

namespace Table

variable {ν : Type}

/-- The number of slots that were ever used. -/
def used (s : Array (Slot ν)) : Nat := s.countP Slot.isUsed

/-- Some slot holds the key `k` with the value `v`. -/
def SlotsHold (s : Array (Slot ν)) (k : Obj) (v : ν) : Prop :=
  ∃ i : Nat, s[i]? = some (.live k v)

/-- The table gives the key `k` the value `v`. -/
def Holds (t : Table ν) (k : Obj) (v : ν) : Prop := SlotsHold t.slots k v

/-- The invariant of the table operations. -/
structure WF (t : Table ν) : Prop where
  filed : Filed t.slots
  size : t.slots.size = 0 ∨ ∃ n, t.slots.size = 8 * 2 ^ n
  count : t.count = used t.slots
  load : 4 * t.count ≤ 3 * t.slots.size
  bare : t.count = 0 → t.slots.size = 0

/-- `key` is the only key of the table with its identity, if it is one. -/
def Knows (t : Table ν) (key : Obj) : Prop := ∀ k v, t.Holds k v → k.id = key.id → k = key

theorem Knows.names {t : Table ν} {key : Obj} (h : t.Knows key) : Names t.slots key :=
  fun i k v hi => h k v ⟨i, hi⟩

/-! ## Counting used slots -/

theorem lt_of_getElem? {s : Array (Slot ν)} {i : Nat} {x : Slot ν} (h : s[i]? = some x) :
    i < s.size := (Array.getElem?_eq_some_iff.1 h).1

theorem used_put {s : Array (Slot ν)} {i : Nat} {x y : Slot ν} (hi : s[i]? = some x)
    (hy : y.isUsed = true) :
    used (s.setIfInBounds i y) = used s + if x.isUsed then 0 else 1 := by
  obtain ⟨hlt, hx⟩ := Array.getElem?_eq_some_iff.1 hi
  have hpos : x.isUsed = true → 0 < used s := fun hu =>
    Array.countP_pos_iff.2 ⟨x, Array.mem_of_getElem? hi, hu⟩
  rw [used, Array.setIfInBounds, dif_pos hlt, Array.countP_set hlt, hx, hy]
  unfold used at hpos ⊢
  by_cases hu : x.isUsed = true
  · have := hpos hu
    simp only [hu, if_true]
    omega
  · simp [hu]

theorem hasRoom_of_used {s : Array (Slot ν)} (h : used s < s.size) : HasRoom s := by
  by_contra hno
  have hAll : ∀ x ∈ s, x.isUsed = true := by
    intro x hx
    obtain ⟨i, hi⟩ := Array.getElem?_of_mem hx
    cases x with
    | empty => exact absurd ⟨i, lt_of_getElem? hi, hi⟩ hno
    | tombstone => rfl
    | live k v => rfl
  have := Array.countP_eq_size.2 hAll
  unfold used at h
  omega

theorem not_slotsHold_of_used {s : Array (Slot ν)} (h : used s = 0) (k : Obj) (v : ν) :
    ¬ SlotsHold s k v := by
  rintro ⟨i, hi⟩
  have := Array.countP_pos_iff.2 ⟨_, Array.mem_of_getElem? hi, (rfl : (Slot.live k v).isUsed = true)⟩
  unfold used at h
  omega

/-! ## The slot of a key -/

/-- The slot that a probe for a key ends at: the one that holds it, or a free one. -/
theorem slotFor_spec {s : Array (Slot ν)} (hs : Filed s) (hRoom : HasRoom s) {key : Obj}
    (hn : Names s key) :
    ∃ i, slotFor s key = some i ∧ Within s key.hash.toNat i ∧
      ((∃ v, s[i]? = some (.live key v)) ∨
        Free s i ∧ ∀ k v, SlotsHold s k v → k.id ≠ key.id) := by
  rcases live_or_absent hn with ⟨i, v, hi⟩ | hAbsent
  · exact ⟨i, slotFor_of_live hs hi, hs.within hi, .inl ⟨v, hi⟩⟩
  · obtain ⟨i, hSlot, hFree, hWithin⟩ := slotFor_of_absent hRoom hAbsent
    exact ⟨i, hSlot, hWithin, .inr ⟨hFree, fun k v ⟨j, hj⟩ => hAbsent j k v hj⟩⟩

/-- What the slots hold after a key was put into the slot found for it. -/
theorem slotsHold_put {s : Array (Slot ν)} {key : Obj} {v : ν} {i : Nat} (hi : i < s.size)
    (hOnly : ∀ (j : Nat) (k : Obj) (w : ν), s[j]? = some (.live k w) → (k.id = key.id ↔ j = i))
    (k : Obj) (w : ν) :
    SlotsHold (s.setIfInBounds i (.live key v)) k w ↔
      k = key ∧ w = v ∨ k.id ≠ key.id ∧ SlotsHold s k w := by
  constructor
  · rintro ⟨j, hj⟩
    rw [getElem?_set] at hj
    split at hj
    · cases hj
      exact .inl ⟨rfl, rfl⟩
    · rename_i hij
      refine .inr ⟨fun hid => hij ?_, j, hj⟩
      exact ⟨((hOnly j k w hj).1 hid).symm, lt_of_getElem? hj⟩
  · rintro (⟨rfl, rfl⟩ | ⟨hid, j, hj⟩)
    · exact ⟨i, by rw [getElem?_set, if_pos ⟨rfl, hi⟩]⟩
    · refine ⟨j, ?_⟩
      rw [getElem?_set, if_neg, hj]
      rintro ⟨rfl, -⟩
      exact hid ((hOnly i k w hj).2 rfl)

theorem Within.lt {s : Array (Slot ν)} {h i : Nat} (hw : Within s h i) : i < s.size := by
  obtain ⟨d, hd, rfl, -⟩ := hw
  exact pos_lt (by omega) h d

/-- Putting a key into the slot found for it. -/
theorem put_spec {s : Array (Slot ν)} (hs : Filed s) (hRoom : HasRoom s) {key : Obj}
    (hn : Names s key) (v : ν) :
    ∃ i, slotFor s key = some i ∧ i < s.size ∧
      Filed (s.setIfInBounds i (.live key v)) ∧
      (∀ k w, SlotsHold (s.setIfInBounds i (.live key v)) k w ↔
        k = key ∧ w = v ∨ k.id ≠ key.id ∧ SlotsHold s k w) ∧
      ((∃ w, s[i]? = some (.live key w)) ∨
        Free s i ∧ ∀ k w, SlotsHold s k w → k.id ≠ key.id) := by
  obtain ⟨i, hSlot, hWithin, hCases⟩ := slotFor_spec hs hRoom hn
  have hOnly : ∀ (j : Nat) (k : Obj) (w : ν), s[j]? = some (.live k w) →
      (k.id = key.id ↔ j = i) := by
    intro j k w hj
    rcases hCases with ⟨u, hi⟩ | ⟨hFree, hAbsent⟩
    · refine ⟨fun hid => hs.once hj hi hid, ?_⟩
      rintro rfl
      rw [hj] at hi
      cases hi
      rfl
    · refine ⟨fun hid => absurd hid (hAbsent k w ⟨j, hj⟩), ?_⟩
      rintro rfl
      rcases hFree with h | h <;> rw [h] at hj <;> cases hj
  exact ⟨i, hSlot, hWithin.lt, hs.put hWithin fun j k w hj hid => (hOnly j k w hj).1 hid,
    slotsHold_put hWithin.lt hOnly, hCases⟩

/-! ## Entries -/

theorem mem_entries (t : Table ν) (k : Obj) (v : ν) : (k, v) ∈ t.entries ↔ t.Holds k v := by
  simp only [entries, List.mem_filterMap, Holds, SlotsHold]
  constructor
  · rintro ⟨x, hx, he⟩
    obtain ⟨i, hi⟩ := List.getElem?_of_mem hx
    cases x with
    | live k' v' => cases he; exact ⟨i, by simpa using hi⟩
    | empty => cases he
    | tombstone => cases he
  · rintro ⟨i, hi⟩
    exact ⟨.live k v, by simpa using Array.mem_of_getElem? hi, rfl⟩

/-- No two entries are of the same key. -/
theorem pairwise_entries {t : Table ν} (hs : Filed t.slots) :
    t.entries.Pairwise fun a b => a.1.id ≠ b.1.id := by
  rw [entries, List.pairwise_filterMap, List.pairwise_iff_getElem]
  intro i j hi hj hij b hb b' hb' hid
  have hLive : ∀ {n : Nat} (hn : n < t.slots.toList.length) {b : Obj × ν},
       Slot.entry? t.slots.toList[n] = some b → t.slots[n]? = some (.live b.1 b.2) := by
    intro n hn b hb
    rw [← Array.getElem?_toList, List.getElem?_eq_getElem hn]
    cases hx : t.slots.toList[n] with
    | live k v => rw [hx] at hb; cases hb; rfl
    | empty => rw [hx] at hb; cases hb
    | tombstone => rw [hx] at hb; cases hb
  have := hs.once (hLive hi hb) (hLive hj hb') hid
  omega

theorem length_entries_le (t : Table ν) : t.entries.length ≤ used t.slots := by
  rw [entries, List.length_filterMap_eq_countP, used, ← Array.countP_toList]
  refine List.countP_mono_left fun x _ hx => ?_
  cases x with
  | live k v => rfl
  | empty => cases hx
  | tombstone => cases hx

/-! ## Growing -/

/-- Slots filled one after the other with entries of different keys, and nothing removed. -/
structure Packed (s : Array (Slot ν)) (placed : List (Obj × ν)) : Prop where
  filed : Filed s
  noGrave : ∀ i : Nat, s[i]? ≠ some .tombstone
  used : used s = placed.length
  holds : ∀ k v, SlotsHold s k v ↔ (k, v) ∈ placed

theorem packed_replicate (n : Nat) : Packed (Array.replicate n (.empty : Slot ν)) [] := by
  have hEmpty : ∀ (i : Nat) (x : Slot ν),
      (Array.replicate n (.empty : Slot ν))[i]? = some x → x = .empty := by
    intro i x h
    rw [Array.getElem?_replicate] at h
    split at h <;> cases h
    rfl
  refine ⟨⟨fun h => ?_, fun h => ?_⟩, fun i h => ?_, ?_, fun k v => ?_⟩
  · cases hEmpty _ _ h
  · cases hEmpty _ _ h
  · cases hEmpty _ _ h
  · simp [Table.used, Array.countP_replicate, Slot.isUsed]
  · simp only [List.not_mem_nil, iff_false]
    rintro ⟨i, hi⟩
    cases hEmpty _ _ hi

theorem Packed.place {s : Array (Slot ν)} {placed : List (Obj × ν)} (h : Packed s placed)
    (hRoom : placed.length < s.size) {key : Obj} (v : ν)
    (hNew : ∀ e ∈ placed, e.1.id ≠ key.id) :
    Packed (place s key v) (placed ++ [(key, v)]) ∧ (place s key v).size = s.size := by
  have hAbsent : ∀ k w, SlotsHold s k w → k.id ≠ key.id := fun k w hk =>
    hNew (k, w) ((h.holds k w).1 hk)
  have hn : Names s key := fun i k w hi hid => absurd hid (hAbsent k w ⟨i, hi⟩)
  obtain ⟨i, hSlot, hi, hFiled, hHolds, hCases⟩ :=
    put_spec h.filed (hasRoom_of_used (h.used ▸ hRoom)) hn v
  have hEmpty : s[i]? = some .empty := by
    rcases hCases with ⟨w, hw⟩ | ⟨hE | hT, -⟩
    · exact absurd rfl (hAbsent key w ⟨i, hw⟩)
    · exact hE
    · exact absurd hT (h.noGrave i)
  rw [Table.place, hSlot]
  refine ⟨⟨hFiled, fun j hj => ?_, ?_, fun k w => ?_⟩, by simp⟩
  · rw [getElem?_set] at hj
    split at hj
    · cases hj
    · exact h.noGrave j hj
  · rw [used_put hEmpty rfl, h.used]
    simp [Slot.isUsed]
  · rw [hHolds, h.holds]
    simp only [List.mem_append, List.mem_singleton, Prod.mk.injEq]
    constructor
    · rintro (hk | ⟨-, hk⟩)
      · exact .inr hk
      · exact .inl hk
    · rintro (hk | hk)
      · exact .inr ⟨hNew _ hk, hk⟩
      · exact .inl hk

/-- Placing entries of different keys, as long as there is room. -/
theorem Packed.placeAll : ∀ (more : List (Obj × ν)) {s : Array (Slot ν)}
    {placed : List (Obj × ν)}, Packed s placed →
    (placed ++ more).Pairwise (fun a b => a.1.id ≠ b.1.id) → (placed ++ more).length < s.size →
    Packed (more.foldl (fun s e => Table.place s e.1 e.2) s) (placed ++ more) ∧
      (more.foldl (fun s e => Table.place s e.1 e.2) s).size = s.size
  | [], s, placed, h, _, _ => by simpa using h
  | e :: more, s, placed, h, hDiff, hRoom => by
    have hNew : ∀ e' ∈ placed, e'.1.id ≠ e.1.id := fun e' he' =>
      (List.pairwise_append.1 hDiff).2.2 e' he' e (by simp)
    rw [List.length_append, List.length_cons] at hRoom
    obtain ⟨hOne, hSize⟩ := h.place (by omega) e.2 hNew
    have hAssoc : placed ++ e :: more = (placed ++ [e]) ++ more := by simp
    rw [hAssoc] at hDiff ⊢
    obtain ⟨hAll, hSize'⟩ := placeAll more hOne hDiff (by simp [hSize]; omega)
    exact ⟨hAll, hSize'.trans hSize⟩

/-- A table with room for one more key under the load limit. -/
structure Ready (t : Table ν) : Prop where
  filed : Filed t.slots
  size : ∃ n, t.slots.size = 8 * 2 ^ n
  count : t.count = used t.slots
  load : 4 * (t.count + 1) ≤ 3 * t.slots.size

theorem Ready.hasRoom {t : Table ν} (h : t.Ready) : HasRoom t.slots := by
  have := h.load
  have := h.count
  exact hasRoom_of_used (by omega)

theorem grow_packed {t : Table ν} (h : t.WF) :
    Packed t.grow.slots t.entries ∧ t.grow.slots.size = max 8 (2 * t.slots.size) := by
  have hLength := length_entries_le t
  have hLoad := h.load
  have hCount := h.count
  have := Packed.placeAll t.entries (packed_replicate (ν := ν) (max 8 (2 * t.capacity)))
    (pairwise_entries h.filed)
    (by simp only [List.nil_append, Array.size_replicate, capacity]; omega)
  simpa [grow, capacity] using this

theorem grow_ready {t : Table ν} (h : t.WF) : t.grow.Ready := by
  obtain ⟨hPacked, hSize⟩ := grow_packed h
  have hLength := length_entries_le t
  have hLoad := h.load
  have hCount := h.count
  refine ⟨hPacked.filed, ?_, hPacked.used.symm, ?_⟩
  · rw [hSize]
    rcases h.size with h0 | ⟨n, hn⟩
    · exact ⟨0, by omega⟩
    · refine ⟨n + 1, ?_⟩
      have : 0 < 2 ^ n := Nat.two_pow_pos n
      rw [hn, Nat.pow_succ]
      omega
  · rw [hSize]
    change 4 * (t.entries.length + 1) ≤ _
    rcases h.size with h0 | ⟨n, hn⟩
    · omega
    · have : 0 < 2 ^ n := Nat.two_pow_pos n
      omega

theorem holds_grow {t : Table ν} (h : t.WF) (k : Obj) (v : ν) :
    t.grow.Holds k v ↔ t.Holds k v := by
  rw [Holds, (grow_packed h).1.holds, mem_entries]

theorem ready_of_not_full {t : Table ν} (h : t.WF) (hFull : t.isFull = false) : t.Ready := by
  have hLoad : 4 * (t.count + 1) ≤ 3 * t.slots.size := by
    have := of_decide_eq_false hFull
    rw [capacity] at this
    omega
  refine ⟨h.filed, ?_, h.count, hLoad⟩
  rcases h.size with h0 | hn
  · omega
  · exact hn

/-- The table that `set` puts its key into. -/
theorem makeRoom {t : Table ν} (h : t.WF) :
    (if t.isFull then t.grow else t).Ready ∧
      ∀ k v, (if t.isFull then t.grow else t).Holds k v ↔ t.Holds k v := by
  cases hFull : t.isFull with
  | false => exact ⟨ready_of_not_full h hFull, fun _ _ => Iff.rfl⟩
  | true => exact ⟨grow_ready h, holds_grow h⟩

/-! ## Setting a key -/

/-- What `set` does, all at once. -/
theorem set_spec {t : Table ν} (h : t.WF) {key : Obj} (hk : t.Knows key) (v : ν) :
    (t.set key v).2.WF ∧
    (∀ k w, (t.set key v).2.Holds k w ↔ k = key ∧ w = v ∨ k.id ≠ key.id ∧ t.Holds k w) ∧
    ((t.set key v).1 = true ↔ ∀ w, ¬ t.Holds key w) := by
  obtain ⟨hReady, hSame⟩ := makeRoom h
  generalize hu : (if t.isFull then t.grow else t) = u at hReady hSame
  have hn : Names u.slots key := fun i k w hi hid => hk k w ((hSame k w).1 ⟨i, hi⟩) hid
  obtain ⟨i, hSlot, hi, hFiled, hHolds, hCases⟩ := put_spec hReady.filed hReady.hasRoom hn v
  have hLoad := hReady.load
  have hCount := hReady.count
  have hSize := hReady.size
  have hHolds' : ∀ k w, SlotsHold (u.slots.setIfInBounds i (.live key v)) k w ↔
      k = key ∧ w = v ∨ k.id ≠ key.id ∧ t.Holds k w := by
    intro k w
    rw [hHolds, ← hSame]
    rfl
  rcases hCases with ⟨w, hw⟩ | ⟨hFree, hAbsent⟩
  · -- the key is there: its value is replaced
    have hSet : t.set key v =
        (false, { slots := u.slots.setIfInBounds i (.live key v), count := u.count + 0 }) := by
      simp only [set, hu, hSlot, hw]
    have hUsed : used (u.slots.setIfInBounds i (.live key v)) = used u.slots := used_put hw rfl
    have hPos : 0 < used u.slots := by
      by_contra h0
      exact not_slotsHold_of_used (by omega) key w ⟨i, hw⟩
    rw [hSet]
    refine ⟨⟨hFiled, .inr (by simpa using hSize), ?_, ?_, ?_⟩, hHolds', ?_⟩
    · simp only [Nat.add_zero, hUsed, hCount]
    · simp only [Array.size_setIfInBounds]; omega
    · simp only [Nat.add_zero]; omega
    · simp only [Bool.false_eq_true, false_iff, not_forall, not_not]
      exact ⟨w, (hSame key w).1 ⟨i, hw⟩⟩
  · -- the key is new: a slot never used is one more used slot, a tombstone is not
    have hNew : ∀ w, ¬ t.Holds key w := fun w hw => hAbsent key w ((hSame key w).2 hw) rfl
    obtain ⟨x, hx, hxFree, n, hn, hSet⟩ : ∃ x, u.slots[i]? = some x ∧
        (x = .empty ∨ x = .tombstone) ∧ ∃ n, n = (if x.isUsed then 0 else 1) ∧
        t.set key v =
          (true, { slots := u.slots.setIfInBounds i (.live key v), count := u.count + n }) := by
      rcases hFree with hE | hT
      · exact ⟨_, hE, .inl rfl, 1, rfl, by simp only [set, hu, hSlot, hE]⟩
      · exact ⟨_, hT, .inr rfl, 0, rfl, by simp only [set, hu, hSlot, hT]⟩
    have hUsed : used (u.slots.setIfInBounds i (.live key v)) = used u.slots + n := by
      rw [used_put hx rfl, hn]
    have hPos : 0 < used (u.slots.setIfInBounds i (.live key v)) := by
      by_contra h0
      exact not_slotsHold_of_used (by omega) key v ((hHolds key v).2 (.inl ⟨rfl, rfl⟩))
    have hn1 : n ≤ 1 := by rw [hn]; split <;> omega
    rw [hSet]
    refine ⟨⟨hFiled, .inr (by simpa using hSize), ?_, ?_, ?_⟩, hHolds', ?_⟩
    · simp only [hUsed, hCount]
    · simp only [Array.size_setIfInBounds]; omega
    · intro h0
      simp only at h0
      omega
    · simp only [true_iff]
      exact hNew

theorem set_wf {t : Table ν} (h : t.WF) {key : Obj} (hk : t.Knows key) (v : ν) :
    (t.set key v).2.WF := (set_spec h hk v).1

theorem holds_set {t : Table ν} (h : t.WF) {key : Obj} (hk : t.Knows key) (v : ν) (k : Obj)
    (w : ν) : (t.set key v).2.Holds k w ↔ k = key ∧ w = v ∨ k.id ≠ key.id ∧ t.Holds k w :=
  (set_spec h hk v).2.1 k w

/-- `set` says whether the key is new. -/
theorem set_isNew {t : Table ν} (h : t.WF) {key : Obj} (hk : t.Knows key) (v : ν) :
    (t.set key v).1 = true ↔ ∀ w, ¬ t.Holds key w := (set_spec h hk v).2.2

/-! ## Reading a key -/

/-- A table in use has slots and room. -/
theorem WF.hasRoom {t : Table ν} (h : t.WF) (hc : t.count ≠ 0) : HasRoom t.slots := by
  have hLoad := h.load
  have hCount := h.count
  exact hasRoom_of_used (by omega)

theorem WF.not_holds {t : Table ν} (h : t.WF) (hc : t.count = 0) (k : Obj) (v : ν) :
    ¬ t.Holds k v := not_slotsHold_of_used (h.count ▸ hc) k v

/-- A key has at most one value. -/
theorem WF.holds_unique {t : Table ν} (h : t.WF) {k : Obj} {v w : ν} (hv : t.Holds k v)
    (hw : t.Holds k w) : v = w := by
  obtain ⟨i, hi⟩ := hv
  obtain ⟨j, hj⟩ := hw
  cases h.filed.once hi hj rfl
  rw [hi] at hj
  cases hj
  rfl

theorem get?_eq_some_iff {t : Table ν} (h : t.WF) {key : Obj} (hk : t.Knows key) (v : ν) :
    t.get? key = some v ↔ t.Holds key v := by
  by_cases hc : t.count = 0
  · simp only [get?, hc, if_true]
    exact ⟨nofun, fun hv => absurd hv (h.not_holds hc key v)⟩
  · obtain ⟨i, hSlot, -, hCases⟩ := slotFor_spec h.filed (h.hasRoom hc) hk.names
    simp only [get?, hc, if_false, hSlot, Option.bind_some]
    rcases hCases with ⟨w, hw⟩ | ⟨hFree, hAbsent⟩
    · simp only [hw, Option.some.injEq]
      exact ⟨fun he => ⟨i, he ▸ hw⟩, fun hv => h.holds_unique ⟨i, hw⟩ hv⟩
    · have hNone : ¬ t.Holds key v := fun hv => hAbsent key v hv rfl
      rcases hFree with hE | hT
      · simp [hE, hNone]
      · simp [hT, hNone]

/-! ## Removing a key -/

theorem slotsHold_bury {s : Array (Slot ν)} (hs : Filed s) {key : Obj} {v : ν} {i : Nat}
    (hi : s[i]? = some (.live key v)) (k : Obj) (w : ν) :
    SlotsHold (s.setIfInBounds i .tombstone) k w ↔ k.id ≠ key.id ∧ SlotsHold s k w := by
  constructor
  · rintro ⟨j, hj⟩
    rw [getElem?_set] at hj
    split at hj
    · cases hj
    · rename_i hij
      refine ⟨fun hid => hij ?_, j, hj⟩
      exact ⟨(hs.once hj hi hid).symm, lt_of_getElem? hj⟩
  · rintro ⟨hid, j, hj⟩
    refine ⟨j, ?_⟩
    rw [getElem?_set, if_neg, hj]
    rintro ⟨rfl, -⟩
    rw [hi] at hj
    cases hj
    exact hid rfl

/-- What `delete` does, all at once. -/
theorem delete_spec {t : Table ν} (h : t.WF) {key : Obj} (hk : t.Knows key) :
    (t.delete key).2.WF ∧
    (∀ k w, (t.delete key).2.Holds k w ↔ k.id ≠ key.id ∧ t.Holds k w) ∧
    ((t.delete key).1 = true ↔ ∃ w, t.Holds key w) := by
  have hKept : (∀ k w, t.Holds k w → k.id ≠ key.id) → t.delete key = (false, t) →
      (t.delete key).2.WF ∧
      (∀ k w, (t.delete key).2.Holds k w ↔ k.id ≠ key.id ∧ t.Holds k w) ∧
      ((t.delete key).1 = true ↔ ∃ w, t.Holds key w) := by
    intro hAbsent hDelete
    rw [hDelete]
    refine ⟨h, fun k w => ⟨fun hw => ⟨hAbsent k w hw, hw⟩, And.right⟩, ?_⟩
    simp only [Bool.false_eq_true, false_iff, not_exists]
    exact fun w hw => hAbsent key w hw rfl
  by_cases hc : t.count = 0
  · exact hKept (fun k w hw => absurd hw (h.not_holds hc k w)) (by simp [delete, hc])
  · obtain ⟨i, hSlot, -, hCases⟩ := slotFor_spec h.filed (h.hasRoom hc) hk.names
    rcases hCases with ⟨w, hw⟩ | ⟨hFree, hAbsent⟩
    · have hDelete : t.delete key = (true, { t with slots := t.slots.setIfInBounds i .tombstone }) := by
        simp only [delete, hc, if_false, hSlot, hw]
      rw [hDelete]
      refine ⟨⟨h.filed.bury i, by simpa using h.size, ?_, by simpa using h.load, ?_⟩,
        slotsHold_bury h.filed hw, ?_⟩
      · have := used_put (y := .tombstone) hw rfl
        simpa [this, Slot.isUsed] using h.count
      · exact fun h0 => absurd h0 hc
      · simp only [true_iff]
        exact ⟨w, i, hw⟩
    · refine hKept hAbsent ?_
      rcases hFree with hE | hT
      · simp only [delete, hc, if_false, hSlot, hE]
      · simp only [delete, hc, if_false, hSlot, hT]

theorem delete_wf {t : Table ν} (h : t.WF) {key : Obj} (hk : t.Knows key) :
    (t.delete key).2.WF := (delete_spec h hk).1

theorem holds_delete {t : Table ν} (h : t.WF) {key : Obj} (hk : t.Knows key) (k : Obj) (w : ν) :
    (t.delete key).2.Holds k w ↔ k.id ≠ key.id ∧ t.Holds k w := (delete_spec h hk).2.1 k w

/-- `delete` says whether the key was there. -/
theorem delete_wasThere {t : Table ν} (h : t.WF) {key : Obj} (hk : t.Knows key) :
    (t.delete key).1 = true ↔ ∃ w, t.Holds key w := (delete_spec h hk).2.2

/-! ## Taking back a new key -/

theorem knows_set {t : Table ν} (h : t.WF) {key : Obj} (hk : t.Knows key) (v : ν) :
    (t.set key v).2.Knows key := by
  intro k w hw hId
  rcases (holds_set h hk v k w).1 hw with ⟨rfl, -⟩ | ⟨hNe, -⟩
  · rfl
  · exact absurd hId hNe

theorem undo_wf {t : Table ν} (h : t.WF) {key : Obj} (hk : t.Knows key) (v : ν) :
    ((t.set key v).2.delete key).2.WF := delete_wf (set_wf h hk v) (knows_set h hk v)

/-- A new key that is removed again leaves what the table held, whether or not it has grown. -/
theorem holds_undo {t : Table ν} (h : t.WF) {key : Obj} (hk : t.Knows key) {v : ν}
    (hNew : (t.set key v).1 = true) (k : Obj) (w : ν) :
    ((t.set key v).2.delete key).2.Holds k w ↔ t.Holds k w := by
  rw [holds_delete (set_wf h hk v) (knows_set h hk v), holds_set h hk]
  have hAbsent := (set_isNew h hk v).1 hNew
  constructor
  · rintro ⟨hId, ⟨rfl, -⟩ | ⟨-, hw⟩⟩
    · exact absurd rfl hId
    · exact hw
  · intro hw
    have hId : k.id ≠ key.id := by
      intro hId
      cases hk k w hw hId
      exact hAbsent w hw
    exact ⟨hId, .inr ⟨hId, hw⟩⟩

/-! ## Copying a table -/

/-- Setting entries of different keys one after the other. -/
theorem setAll_spec : ∀ (es : List (Obj × ν)) {t : Table ν}, t.WF → (∀ e ∈ es, t.Knows e.1) →
    es.Pairwise (fun a b => a.1.id ≠ b.1.id) →
    (es.foldl (fun t e => (t.set e.1 e.2).2) t).WF ∧
    ∀ k w, (es.foldl (fun t e => (t.set e.1 e.2).2) t).Holds k w ↔
      (k, w) ∈ es ∨ (∀ e ∈ es, e.1.id ≠ k.id) ∧ t.Holds k w
  | [], t, h, _, _ => ⟨h, fun k w => by simp⟩
  | e :: es, t, h, hk, hDiff => by
    rw [List.pairwise_cons] at hDiff
    have hOne := hk e (by simp)
    have hSet := holds_set h hOne e.2
    have hk' : ∀ e' ∈ es, (t.set e.1 e.2).2.Knows e'.1 := by
      intro e' he' k w hw hid
      rcases (hSet k w).1 hw with ⟨rfl, -⟩ | ⟨-, hw'⟩
      · exact absurd hid (hDiff.1 e' he')
      · exact hk e' (by simp [he']) k w hw' hid
    obtain ⟨hWF, hHolds⟩ := setAll_spec es (set_wf h hOne e.2) hk' hDiff.2
    refine ⟨hWF, fun k w => ?_⟩
    rw [List.foldl_cons, hHolds, hSet]
    constructor
    · rintro (hm | ⟨hNot, ⟨rfl, rfl⟩ | ⟨hid, hw⟩⟩)
      · exact .inl (by simp [hm])
      · exact .inl (by simp)
      · refine .inr ⟨fun e' he' => ?_, hw⟩
        rcases List.mem_cons.1 he' with rfl | he'
        · exact Ne.symm hid
        · exact hNot e' he'
    · rintro (hm | ⟨hNot, hw⟩)
      · rcases List.mem_cons.1 hm with rfl | hm
        · exact .inr ⟨fun e' he' => (hDiff.1 e' he').symm, .inl ⟨rfl, rfl⟩⟩
        · exact .inl hm
      · exact .inr ⟨fun e' he' => hNot e' (by simp [he']),
          .inr ⟨(hNot e (by simp)).symm, hw⟩⟩

/-- What `addAll` does, all at once. -/
theorem addAll_spec {source target : Table ν} (hs : source.WF) (ht : target.WF)
    (hk : ∀ k v, source.Holds k v → target.Knows k) :
    (source.addAll target).WF ∧ ∀ k w, (source.addAll target).Holds k w ↔
      source.Holds k w ∨ (∀ k' v, source.Holds k' v → k'.id ≠ k.id) ∧ target.Holds k w := by
  obtain ⟨hWF, hHolds⟩ := setAll_spec source.entries ht
    (fun e he => hk e.1 e.2 ((mem_entries source e.1 e.2).1 he)) (pairwise_entries hs.filed)
  refine ⟨hWF, fun k w => ?_⟩
  refine (hHolds k w).trans ?_
  rw [mem_entries]
  refine or_congr_right (and_congr_left fun _ => ?_)
  exact ⟨fun hAll k' v hv => hAll (k', v) ((mem_entries source k' v).2 hv),
    fun hAll e he => hAll e.1 e.2 ((mem_entries source e.1 e.2).1 he)⟩

/-! ## Looking for a text -/

theorem probeText_sound {s : Array (Slot ν)} {text : String} {hash : UInt32} {str : Str} :
    ∀ (fuel i : Nat), probeText s text hash fuel i = some str →
      ∃ v, SlotsHold s (.string str) v ∧ str.text = text ∧ str.hash = hash
  | 0, _, h => by cases h
  | fuel + 1, i, h => by
    unfold probeText at h
    split at h
    · rename_i s' v hs
      split at h
      · rename_i hMatch
        cases h
        exact ⟨v, ⟨i, hs⟩, hMatch.2, hMatch.1⟩
      · exact probeText_sound fuel _ h
    · exact probeText_sound fuel _ h
    · exact probeText_sound fuel _ h
    · cases h

theorem probeText_complete {s : Array (Slot ν)} {str : Str} {v : ν} {h D : Nat}
    (hD : s[pos s h D]? = some (.live (.string str) v))
    (hUsed : ∀ e, e < D → s[pos s h e]? ≠ some .empty) :
    ∀ (fuel d : Nat), d ≤ D → D < d + fuel →
      (probeText s str.text str.hash fuel (pos s h d)).isSome
  | 0, _, hd, hf => by omega
  | fuel + 1, d, hd, hf => by
    by_cases hdD : d = D
    · subst hdD
      simp [probeText, hD]
    · have ih := probeText_complete hD hUsed fuel (d + 1) (by omega) (by omega)
      rw [← after_pos] at ih
      have hSize : 0 < s.size := Nat.lt_of_le_of_lt (Nat.zero_le _) (lt_of_getElem? hD)
      rcases getElem?_cases (pos_lt hSize h d) with hE | hT | ⟨k, w, hL⟩
      · exact absurd hE (hUsed d (by omega))
      · simpa only [probeText, hT] using ih
      · cases k with
        | string s' =>
          simp only [probeText, hL]
          split
          · rfl
          · exact ih
        | function f => simpa only [probeText, hL] using ih
        | native n => simpa only [probeText, hL] using ih

/-- What `findText?` returns is a key of the table with this text and this hash. -/
theorem findText?_sound {t : Table ν} {text : String} {hash : UInt32} {s : Str}
    (h : t.findText? text hash = some s) :
    ∃ v, t.Holds (.string s) v ∧ s.text = text ∧ s.hash = hash := by
  unfold findText? at h
  split at h
  · cases h
  · exact probeText_sound _ _ h

/-- `findText?` returns a key whenever one has this text and this hash. -/
theorem findText?_complete {t : Table ν} (h : t.WF) {s : Str} {v : ν}
    (hs : t.Holds (.string s) v) : (t.findText? s.text s.hash).isSome := by
  have hc : t.count ≠ 0 := fun h0 => h.not_holds h0 _ v hs
  obtain ⟨i, hi⟩ := hs
  obtain ⟨D, hD, rfl, hUsed⟩ := h.filed.within hi
  rw [findText?, if_neg hc, home_eq_pos]
  exact probeText_complete hi hUsed _ 0 (Nat.zero_le _) (by omega)

theorem empty_wf : ({} : Table ν).WF :=
  ⟨⟨fun h => by simp at h, fun h => by simp at h⟩, .inl rfl, rfl, by simp, fun _ => rfl⟩

theorem not_holds_empty (k : Obj) (v : ν) : ¬ ({} : Table ν).Holds k v :=
  empty_wf.not_holds rfl k v

end Table

end Lox
