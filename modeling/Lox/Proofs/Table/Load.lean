import Lox.Proofs.Table.History

/-!
# Load, and the end of probing

A probe is written here as the loop that it is, without a bound: `Probes` for a key, `ProbesText` for a
text. It comes to its end, with the answer of `slotFor` and `findText?`, in slots of which one was never
used. After every history the load limit leaves such a slot wherever an operation starts a probe
(`load_after_history`), because `count` is the number of live entries and tombstones, and growing
drops the tombstones.
-/

set_option autoImplicit false

namespace Lox

/-- Whether a slot was used once, and removed. -/
def Slot.isTombstone {ν : Type} : Slot ν → Bool
  | tombstone => true
  | _ => false

namespace Table

variable {ν : Type}

/-! ## Probes without a bound -/

/-- A probe for a key that stands at slot `i`, with the first tombstone passed so far, ends at a slot. -/
inductive Probes (s : Array (Slot ν)) (key : Obj) : Nat → Option Nat → Nat → Prop
  | found {i : Nat} {grave : Option Nat} {k : Obj} {v : ν} : s[i]? = some (.live k v) →
      k.id = key.id → Probes s key i grave i
  | empty {i : Nat} {grave : Option Nat} : s[i]? = some .empty → Probes s key i grave (grave.getD i)
  | other {i j : Nat} {grave : Option Nat} {k : Obj} {v : ν} : s[i]? = some (.live k v) →
      k.id ≠ key.id → Probes s key (after s i) grave j → Probes s key i grave j
  | tombstone {i j : Nat} {grave : Option Nat} : s[i]? = some .tombstone →
      Probes s key (after s i) (grave.or (some i)) j → Probes s key i grave j

/-- A string has a text and a hash. -/
def Matches (text : String) (hash : UInt32) (key : Obj) : Prop :=
  ∃ s, key = .string s ∧ s.hash = hash ∧ s.text = text

/-- A probe for a text that stands at slot `i` ends with an answer. -/
inductive ProbesText (s : Array (Slot ν)) (text : String) (hash : UInt32) : Nat → Option Str → Prop
  | found {i : Nat} {str : Str} {v : ν} : s[i]? = some (.live (.string str) v) → str.hash = hash →
      str.text = text → ProbesText s text hash i (some str)
  | empty {i : Nat} : s[i]? = some .empty → ProbesText s text hash i none
  | other {i : Nat} {k : Obj} {v : ν} {answer : Option Str} : s[i]? = some (.live k v) →
      ¬ Matches text hash k → ProbesText s text hash (after s i) answer →
      ProbesText s text hash i answer
  | tombstone {i : Nat} {answer : Option Str} : s[i]? = some .tombstone →
      ProbesText s text hash (after s i) answer → ProbesText s text hash i answer

section

variable {s : Array (Slot ν)} {h D : Nat} (hD : s[pos s h D]? = some .empty)
include hD

/-- A probe for a key ends at the latest at a slot never used, where the bounded probe does. -/
theorem probes_of_empty (key : Obj) : ∀ (fuel d : Nat) (grave : Option Nat), d ≤ D →
    D < d + fuel → (∀ g, grave = some g → g < s.size) →
    ∃ j, j < s.size ∧ Probes s key (pos s h d) grave j ∧
      probe s key fuel (pos s h d) grave = some j
  | 0, _, _, hd, hf, _ => by omega
  | fuel + 1, d, grave, hd, hf, hGrave => by
    have hSize : 0 < s.size := Nat.lt_of_le_of_lt (Nat.zero_le _) (lt_of_getElem? hD)
    have hLt := pos_lt hSize h d
    have hNext : s[pos s h d]? ≠ some .empty → d + 1 ≤ D := by
      intro hUsed
      rcases Nat.lt_or_eq_of_le hd with hLess | rfl
      · exact hLess
      · exact absurd hD hUsed
    rcases getElem?_cases hLt with hE | hT | ⟨k, v, hL⟩
    · refine ⟨grave.getD (pos s h d), ?_, .empty hE, ?_⟩
      · cases grave with
        | none => exact hLt
        | some g => exact hGrave g rfl
      · simp only [probe, hE]
        cases grave <;> rfl
    · have hGrave' : ∀ g, grave.or (some (pos s h d)) = some g → g < s.size := by
        intro g hg
        cases grave with
        | none =>
          cases hg
          exact hLt
        | some g' => exact hGrave g hg
      obtain ⟨j, hj, hProbes, hEq⟩ := probes_of_empty key fuel (d + 1)
        (grave.or (some (pos s h d))) (hNext (by simp [hT])) (by omega) hGrave'
      rw [← after_pos] at hProbes hEq
      exact ⟨j, hj, .tombstone hT hProbes, by simpa only [probe, hT] using hEq⟩
    · by_cases hId : k.id = key.id
      · exact ⟨pos s h d, hLt, .found hL hId, by simp only [probe, hL, hId, if_true]⟩
      · obtain ⟨j, hj, hProbes, hEq⟩ := probes_of_empty key fuel (d + 1) grave
          (hNext (by simp [hL])) (by omega) hGrave
        rw [← after_pos] at hProbes hEq
        exact ⟨j, hj, .other hL hId hProbes, by simpa only [probe, hL, hId, if_false] using hEq⟩

/-- A probe for a text ends at the latest at a slot never used, with the answer of the bounded probe. -/
theorem probesText_of_empty (text : String) (hash : UInt32) : ∀ (fuel d : Nat), d ≤ D →
    D < d + fuel → ProbesText s text hash (pos s h d) (probeText s text hash fuel (pos s h d))
  | 0, _, hd, hf => by omega
  | fuel + 1, d, hd, hf => by
    have hSize : 0 < s.size := Nat.lt_of_le_of_lt (Nat.zero_le _) (lt_of_getElem? hD)
    have hNext : s[pos s h d]? ≠ some .empty →
        ProbesText s text hash (after s (pos s h d))
          (probeText s text hash fuel (after s (pos s h d))) := by
      intro hUsed
      rw [after_pos]
      rcases Nat.lt_or_eq_of_le hd with hLess | rfl
      · exact probesText_of_empty text hash fuel (d + 1) hLess (by omega)
      · exact absurd hD hUsed
    rcases getElem?_cases (pos_lt hSize h d) with hE | hT | ⟨k, v, hL⟩
    · simp only [probeText, hE]
      exact .empty hE
    · simp only [probeText, hT]
      exact .tombstone hT (hNext (by simp [hT]))
    · have hOn := hNext (by simp [hL])
      cases k with
      | string str =>
        simp only [probeText, hL]
        split
        · rename_i hMatch
          exact .found hL hMatch.1 hMatch.2
        · rename_i hNo
          refine .other hL ?_ hOn
          rintro ⟨str', hEq, hMatch⟩
          cases hEq
          exact hNo hMatch
      | function f =>
        simp only [probeText, hL]
        refine .other hL ?_ hOn
        rintro ⟨_, hEq, -⟩
        cases hEq
      | native n =>
        simp only [probeText, hL]
        refine .other hL ?_ hOn
        rintro ⟨_, hEq, -⟩
        cases hEq

end

/-- Every probe in some slots comes to its end, where the bounded one does. -/
structure Terminates (s : Array (Slot ν)) : Prop where
  size : 0 < s.size
  room : HasRoom s
  key : ∀ key, ∃ j, j < s.size ∧ Probes s key (home s key.hash) none j ∧ slotFor s key = some j
  text : ∀ text hash,
    ProbesText s text hash (home s hash) (probeText s text hash s.size (home s hash))

theorem HasRoom.terminates {s : Array (Slot ν)} (hRoom : HasRoom s) : Terminates s := by
  obtain ⟨i, hi, hE⟩ := hRoom
  refine ⟨Nat.lt_of_le_of_lt (Nat.zero_le _) hi, ⟨i, hi, hE⟩, fun key => ?_, fun text hash => ?_⟩
  · obtain ⟨D, hD, rfl⟩ := exists_pos hi key.hash.toNat
    obtain ⟨j, hj, hProbes, hEq⟩ := probes_of_empty hE key s.size 0 none (Nat.zero_le _) (by omega)
      (by simp)
    exact ⟨j, hj, hProbes, hEq⟩
  · obtain ⟨D, hD, rfl⟩ := exists_pos hi hash.toNat
    exact probesText_of_empty hE text hash s.size 0 (Nat.zero_le _) (by omega)

/-! ## Where operations start probes -/

/-- The slots in which the operations on a table start their probes: its own, if it is in use, to read
and to remove; those with room for one more key, to set it; and those that are being filled when the
table grows. -/
inductive ProbesIn (t : Table ν) : Array (Slot ν) → Prop
  | read : t.count ≠ 0 → ProbesIn t t.slots
  | write : ProbesIn t (if t.isFull then t.grow else t).slots
  | move {placed more : List (Obj × ν)} {e : Obj × ν} : t.entries = placed ++ e :: more →
      ProbesIn t (placed.foldl (fun slots (key, value) => place slots key value)
        (Array.replicate (max 8 (2 * t.capacity)) .empty))

theorem WF.terminates {t : Table ν} (h : t.WF) {s : Array (Slot ν)} (hs : ProbesIn t s) :
    Terminates s := by
  cases hs with
  | read hCount => exact (h.hasRoom hCount).terminates
  | write => exact (makeRoom h).1.hasRoom.terminates
  | @move placed more e hEntries =>
    have hLength := length_entries_le t
    have hLoad := h.load
    have hCount := h.count
    have hPairwise := pairwise_entries h.filed
    rw [hEntries] at hLength hPairwise
    rw [List.length_append, List.length_cons] at hLength
    obtain ⟨hPacked, hSize⟩ := Packed.placeAll placed
      (packed_replicate (ν := ν) (max 8 (2 * t.capacity))) (List.pairwise_append.1 hPairwise).1
      (by simp only [List.nil_append, Array.size_replicate, capacity]; omega)
    refine (hasRoom_of_used ?_).terminates
    rw [hPacked.used, hSize, Array.size_replicate, List.nil_append, capacity]
    omega

/-! ## Counting -/

/-- The slots ever used are the live entries and the tombstones. -/
theorem used_eq (t : Table ν) :
    used t.slots = t.entries.length + t.slots.countP Slot.isTombstone := by
  rw [used, entries, List.length_filterMap_eq_countP, ← Array.countP_toList, ← Array.countP_toList]
  induction t.slots.toList with
  | nil => rfl
  | cons x slots ih =>
    simp only [List.countP_cons, ih]
    cases x <;> simp [Slot.isUsed, Slot.isTombstone, Slot.entry?] <;> omega

theorem countP_isTombstone {s : Array (Slot ν)} (h : ∀ i : Nat, s[i]? ≠ some .tombstone) :
    s.countP Slot.isTombstone = 0 := by
  rw [Array.countP_eq_zero]
  intro x hx hGrave
  obtain ⟨i, hi⟩ := Array.getElem?_of_mem hx
  cases x with
  | tombstone => exact h i hi
  | empty | live k v => cases hGrave

/-- A key is put into slots without tombstones. -/
theorem getElem?_set_of_isFull {t : Table ν} (h : t.WF) {key : Obj} (hk : t.Knows key) (v : ν)
    (hFull : t.isFull = true) :
    (t.set key v).2.capacity = t.grow.capacity ∧
      ∀ i : Nat, (t.set key v).2.slots[i]? ≠ some .tombstone := by
  obtain ⟨hPacked, -⟩ := grow_packed h
  have hn : Names t.grow.slots key := fun i k w hi hid =>
    hk k w ((holds_grow h k w).1 ⟨i, hi⟩) hid
  obtain ⟨i, hSlot, -, -⟩ := put_spec hPacked.filed (grow_ready h).hasRoom hn v
  have hSlots : (t.set key v).2.slots = t.grow.slots.setIfInBounds i (.live key v) := by
    simp only [set, hFull, if_true, hSlot]
  refine ⟨by simp [capacity, hSlots], fun j hj => ?_⟩
  rw [hSlots, getElem?_set] at hj
  split at hj
  · cases hj
  · exact hPacked.noGrave j hj

/-- A table that grows to take one more key has no tombstones afterwards, and the live entries it had. -/
theorem WF.set_of_isFull {t : Table ν} (h : t.WF) {key : Obj} (hk : t.Knows key) (v : ν)
    (hFull : t.isFull = true) :
    (t.set key v).2.slots.countP Slot.isTombstone = 0 ∧
      (t.set key v).2.count = (t.set key v).2.entries.length ∧
      t.capacity < (t.set key v).2.capacity ∧
      ∀ k w, (k, w) ∈ (t.set key v).2.entries ↔
        k = key ∧ w = v ∨ k.id ≠ key.id ∧ (k, w) ∈ t.entries := by
  obtain ⟨hCapacity, hGrave⟩ := getElem?_set_of_isFull h hk v hFull
  have hNone := countP_isTombstone hGrave
  refine ⟨hNone, ?_, ?_, fun k w => ?_⟩
  · rw [(set_wf h hk v).count, used_eq, hNone, Nat.add_zero]
  · rw [hCapacity, capacity, capacity, (grow_packed h).2]
    omega
  · rw [mem_entries, holds_set h hk, mem_entries]

/-- After every history a table has no slots or a power of two of them, at least eight; `count` is the
number of its live entries and tombstones, within the load limit, and zero only without slots. So every
probe that an operation starts comes to its end. A `set` that makes the table grow leaves as many live
entries as it counts, those that were there and its own, and no tombstone. -/
theorem load_after_history {known : Obj → Prop} (hOne : OneIdentity known)
    (history : List (Change ν))
    (hKeys : ∀ change ∈ history, ∀ key, change.key? = some key → known key) (i : Nat) :
    let t := tablesAfter history i
    (t.capacity = 0 ∨ ∃ n, 3 ≤ n ∧ t.capacity = 2 ^ n) ∧
    t.count = t.entries.length + t.slots.countP Slot.isTombstone ∧
    4 * t.count ≤ 3 * t.capacity ∧ (t.count = 0 → t.capacity = 0) ∧
    (∀ s, ProbesIn t s → Terminates s) ∧
    ∀ key v, known key → t.isFull = true →
      t.grow.count = t.entries.length ∧
      (∀ k w, (k, w) ∈ t.grow.entries ↔ (k, w) ∈ t.entries) ∧
      (t.set key v).2.slots.countP Slot.isTombstone = 0 ∧
      (t.set key v).2.count = (t.set key v).2.entries.length ∧
      t.capacity < (t.set key v).2.capacity ∧
      ∀ k w, (k, w) ∈ (t.set key v).2.entries ↔
        k = key ∧ w = v ∨ k.id ≠ key.id ∧ (k, w) ∈ t.entries := by
  obtain ⟨hWF, hRep⟩ := tablesAfter_represents hOne history hKeys i
  intro t
  refine ⟨?_, hWF.count.trans (used_eq t), hWF.load, hWF.bare, fun s => hWF.terminates, ?_⟩
  · rcases hWF.size with hZero | ⟨n, hn⟩
    · exact .inl hZero
    · refine .inr ⟨n + 3, Nat.le_add_left 3 n, ?_⟩
      rw [capacity, hn, Nat.pow_add, Nat.mul_comm]
  · intro key v hKnown hFull
    refine ⟨rfl, fun k w => ?_, hWF.set_of_isFull (hRep.knows hOne hKnown) v hFull⟩
    rw [mem_entries, mem_entries, holds_grow hWF]

/-- Seven keys of one hash. -/
def sevenKeys : List Obj := (List.range 7).map fun n => .string ⟨n, "", 0⟩

/-- A table of eight slots is full with five live entries and a tombstone; it grows to take a sixth, and
counts six. -/
theorem load_after_history_tombstone :
    OneIdentity (· ∈ sevenKeys) ∧
    let t := tablesAfter (.delete 0 (.string ⟨2, "", 0⟩) ::
      (List.range 6).map fun n => .set 0 (.string ⟨n, "", 0⟩) n) 0
    t.isFull = true ∧ t.count = 6 ∧ t.entries.length = 5 ∧
      (t.set (.string ⟨6, "", 0⟩) 6).2.slots.countP Slot.isTombstone = 0 ∧
      (t.set (.string ⟨6, "", 0⟩) 6).2.count = (t.set (.string ⟨6, "", 0⟩) 6).2.entries.length := by
  have hOne : OneIdentity (· ∈ sevenKeys) := by
    intro a b ha hb hId
    obtain ⟨m, -, rfl⟩ := List.mem_map.1 ha
    obtain ⟨n, -, rfl⟩ := List.mem_map.1 hb
    cases hId
    rfl
  have hKeys : ∀ change ∈ (Change.delete 0 (.string ⟨2, "", 0⟩) ::
      (List.range 6).map fun n => Change.set 0 (.string ⟨n, "", 0⟩) n), ∀ key,
      change.key? = some key → key ∈ sevenKeys := by
    intro change hChange key hKey
    rcases List.mem_cons.1 hChange with rfl | hChange
    · cases hKey
      exact List.mem_map.2 ⟨2, by decide, rfl⟩
    · obtain ⟨n, hn, rfl⟩ := List.mem_map.1 hChange
      cases hKey
      exact List.mem_map.2 ⟨n, List.mem_range.2 ((List.mem_range.1 hn).trans (by decide)), rfl⟩
  have hLoad := (load_after_history hOne _ hKeys 0).2.2.2.2.2 (.string ⟨6, "", 0⟩) 6
    (List.mem_map.2 ⟨6, by decide, rfl⟩) (by decide)
  exact ⟨hOne, by decide, by decide, by decide, hLoad.2.2.1, hLoad.2.2.2.1⟩

end Table

end Lox
