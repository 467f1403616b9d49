import Lox.Table
import Mathlib

/-!
# Probing

A probe for a hash visits the slots `pos s h 0`, `pos s h 1`, … in a circle. `Filed s` says that
every live key can be reached from its home without passing a slot that was never used, and that no
two live keys are the same; then `slotFor` finds a key that is there (`slotFor_of_live`), and
else a free slot that can be reached from the key's home (`slotFor_of_absent`).
-/

set_option autoImplicit false

namespace Lox.Table

variable {ν : Type}

/-! ## The circle of slots -/

/-- The slot that a probe for the hash `h` visits after `d` others. -/
def pos (s : Array (Slot ν)) (h d : Nat) : Nat := (h + d) % s.size

theorem pos_lt {s : Array (Slot ν)} (hs : 0 < s.size) (h d : Nat) : pos s h d < s.size :=
  Nat.mod_lt _ hs

theorem after_pos (s : Array (Slot ν)) (h d : Nat) : after s (pos s h d) = pos s h (d + 1) := by
  simp only [after, pos, Nat.mod_add_mod, Nat.add_assoc]

theorem home_eq_pos (s : Array (Slot ν)) (hash : UInt32) : home s hash = pos s hash.toNat 0 := rfl

/-- A probe that goes all the way round visits every slot. -/
theorem exists_pos {s : Array (Slot ν)} {i : Nat} (hi : i < s.size) (h : Nat) :
    ∃ d, d < s.size ∧ pos s h d = i := by
  have hs : 0 < s.size := by omega
  have hh : h % s.size < s.size := Nat.mod_lt _ hs
  refine ⟨(i + (s.size - h % s.size)) % s.size, Nat.mod_lt _ hs, ?_⟩
  have key : h % s.size + (i + (s.size - h % s.size)) = i + s.size := by omega
  rw [pos, Nat.add_mod_mod, ← Nat.mod_add_mod, key, Nat.add_mod_right, Nat.mod_eq_of_lt hi]

theorem pos_set (s : Array (Slot ν)) (i : Nat) (x : Slot ν) (h d : Nat) :
    pos (s.setIfInBounds i x) h d = pos s h d := by
  simp only [pos, Array.size_setIfInBounds]

theorem getElem?_set (s : Array (Slot ν)) (i j : Nat) (x : Slot ν) :
    (s.setIfInBounds i x)[j]? = if i = j ∧ j < s.size then some x else s[j]? := by
  rw [Array.getElem?_setIfInBounds]
  by_cases hij : i = j
  · subst hij
    by_cases hi : i < s.size <;> simp [hi]
  · simp [hij]

/-! ## What a probe finds -/

/-- A probe for `key` goes on behind slot `i`. -/
def Passes (s : Array (Slot ν)) (key : Obj) (i : Nat) : Prop :=
  s[i]? = some .tombstone ∨ ∃ k v, s[i]? = some (.live k v) ∧ k.id ≠ key.id

/-- A key may be put into slot `i`. -/
def Free (s : Array (Slot ν)) (i : Nat) : Prop := s[i]? = some .empty ∨ s[i]? = some .tombstone

theorem probe_passes {s : Array (Slot ν)} {key : Obj} {i : Nat} (h : Passes s key i) (fuel : Nat)
    (grave : Option Nat) :
    ∃ grave', probe s key (fuel + 1) i grave = probe s key fuel (after s i) grave' ∧
      (grave' = grave ∨ grave' = some i ∧ s[i]? = some .tombstone) := by
  rcases h with h | ⟨k, v, h, hne⟩
  · refine ⟨grave.or (some i), by simp only [probe, h], ?_⟩
    cases grave with
    | none => exact .inr ⟨rfl, h⟩
    | some g => exact .inl rfl
  · exact ⟨grave, by simp only [probe, h, hne, if_false], .inl rfl⟩

/-- A probe stops at the slot that holds the key. -/
theorem probe_of_found {s : Array (Slot ν)} {key k : Obj} {v : ν} {h D : Nat}
    (hD : s[pos s h D]? = some (.live k v)) (hk : k.id = key.id)
    (hPass : ∀ e, e < D → Passes s key (pos s h e)) :
    ∀ (fuel d : Nat) (grave : Option Nat), d ≤ D → D < d + fuel →
      probe s key fuel (pos s h d) grave = some (pos s h D)
  | 0, _, _, hd, hf => by omega
  | fuel + 1, d, grave, hd, hf => by
    by_cases hdD : d = D
    · subst hdD
      simp only [probe, hD, hk, if_true]
    · obtain ⟨grave', hp, -⟩ := probe_passes (hPass d (by omega)) fuel grave
      rw [hp, after_pos]
      exact probe_of_found hD hk hPass fuel (d + 1) grave' (by omega) (by omega)

/-- A probe that meets a slot never used ends at the first free slot it passed. -/
theorem probe_of_absent {s : Array (Slot ν)} {key : Obj} {h D : Nat}
    (hD : s[pos s h D]? = some .empty) (hPass : ∀ e, e < D → Passes s key (pos s h e)) :
    ∀ (fuel d : Nat) (grave : Option Nat), d ≤ D → D < d + fuel →
      (∀ g, grave = some g → ∃ e, e ≤ D ∧ g = pos s h e ∧ Free s g) →
      ∃ e, e ≤ D ∧ Free s (pos s h e) ∧
        probe s key fuel (pos s h d) grave = some (pos s h e)
  | 0, _, _, hd, hf, _ => by omega
  | fuel + 1, d, grave, hd, hf, hg => by
    by_cases hdD : d = D
    · subst hdD
      simp only [probe, hD]
      cases grave with
      | none => exact ⟨d, Nat.le_refl _, .inl hD, rfl⟩
      | some g =>
        obtain ⟨e, he, rfl, hFree⟩ := hg g rfl
        exact ⟨e, he, hFree, rfl⟩
    · obtain ⟨grave', hp, hor⟩ := probe_passes (hPass d (by omega)) fuel grave
      rw [hp, after_pos]
      refine probe_of_absent hD hPass fuel (d + 1) grave' (by omega) (by omega) fun g hgg => ?_
      rcases hor with rfl | ⟨rfl, ht⟩
      · exact hg g hgg
      · cases hgg
        exact ⟨d, hd, rfl, .inr ht⟩

/-! ## Keys filed where a probe finds them -/

/-- Slot `i` can be reached from the home of the hash `h` over used slots. -/
def Within (s : Array (Slot ν)) (h i : Nat) : Prop :=
  ∃ d, d < s.size ∧ i = pos s h d ∧ ∀ e, e < d → s[pos s h e]? ≠ some .empty

/-- Every live key is filed within reach of its home, and only once. -/
structure Filed (s : Array (Slot ν)) : Prop where
  within : ∀ {i : Nat} {k : Obj} {v : ν}, s[i]? = some (.live k v) → Within s k.hash.toNat i
  once : ∀ {i j : Nat} {k k' : Obj} {v v' : ν}, s[i]? = some (.live k v) →
    s[j]? = some (.live k' v') → k.id = k'.id → i = j

/-- The keys among the slots that are the same as `key` are `key` itself. -/
def Names (s : Array (Slot ν)) (key : Obj) : Prop :=
  ∀ (i : Nat) (k : Obj) (v : ν), s[i]? = some (.live k v) → k.id = key.id → k = key

/-- Some slot was never used. -/
def HasRoom (s : Array (Slot ν)) : Prop := ∃ i, i < s.size ∧ s[i]? = some .empty

theorem getElem?_cases {s : Array (Slot ν)} {i : Nat} (hi : i < s.size) :
    s[i]? = some .empty ∨ s[i]? = some .tombstone ∨ ∃ k v, s[i]? = some (.live k v) := by
  rw [Array.getElem?_eq_getElem hi]
  cases s[i] with
  | empty => exact .inl rfl
  | tombstone => exact .inr (.inl rfl)
  | live k v => exact .inr (.inr ⟨k, v, rfl⟩)

/-- The slot of a key that is there. -/
theorem slotFor_of_live {s : Array (Slot ν)} (hs : Filed s) {key : Obj} {v : ν} {i : Nat}
    (hi : s[i]? = some (.live key v)) : slotFor s key = some i := by
  obtain ⟨d, hd, rfl, hUsed⟩ := hs.within hi
  have hSize : 0 < s.size := by omega
  have hPass : ∀ e, e < d → Passes s key (pos s key.hash.toNat e) := by
    intro e he
    rcases getElem?_cases (pos_lt hSize key.hash.toNat e) with hE | hT | ⟨k, w, hL⟩
    · exact absurd hE (hUsed e he)
    · exact .inl hT
    · refine .inr ⟨k, w, hL, fun hid => ?_⟩
      -- the key would be filed twice: at distances `e` and `d`, both less than the number of slots
      have hEq := hs.once hL hi hid
      have hmod := Nat.ModEq.add_left_cancel' key.hash.toNat (show _ ≡ _ [MOD s.size] from hEq)
      rw [Nat.ModEq, Nat.mod_eq_of_lt (Nat.lt_trans he hd), Nat.mod_eq_of_lt hd] at hmod
      omega
  rw [slotFor, home_eq_pos]
  exact probe_of_found hi rfl hPass s.size 0 none (Nat.zero_le _) (by omega)

/-- The slot for a key that is not there. -/
theorem slotFor_of_absent {s : Array (Slot ν)} (hRoom : HasRoom s) {key : Obj}
    (hAbsent : ∀ (i : Nat) (k : Obj) (v : ν), s[i]? = some (.live k v) → k.id ≠ key.id) :
    ∃ i, slotFor s key = some i ∧ Free s i ∧ Within s key.hash.toNat i := by
  obtain ⟨i, hi, hE⟩ := hRoom
  have hs : 0 < s.size := by omega
  obtain ⟨d, hd, rfl⟩ := exists_pos hi key.hash.toNat
  -- the probe ends at the first slot never used
  have hex : ∃ D, s[pos s key.hash.toNat D]? = some .empty := ⟨d, hE⟩
  classical
  have hFind := Nat.find_spec hex
  have hMin := fun e (he : e < Nat.find hex) => Nat.find_min hex he
  have hLe : Nat.find hex ≤ d := Nat.find_min' hex hE
  have hPass : ∀ e, e < Nat.find hex → Passes s key (pos s key.hash.toNat e) := by
    intro e he
    rcases getElem?_cases (pos_lt hs key.hash.toNat e) with h | h | ⟨k, w, h⟩
    · exact absurd h (hMin e he)
    · exact .inl h
    · exact .inr ⟨k, w, h, hAbsent _ k w h⟩
  obtain ⟨e, he, hFree, hp⟩ := probe_of_absent hFind hPass s.size 0 none (Nat.zero_le _) (by omega)
    (by simp)
  exact ⟨_, hp, hFree, e, by omega, rfl, fun e' he' => hMin e' (by omega)⟩

/-- A key told apart by identity is in some slot or in none. -/
theorem live_or_absent {s : Array (Slot ν)} {key : Obj} (hn : Names s key) :
    (∃ (i : Nat) (v : ν), s[i]? = some (.live key v)) ∨
      ∀ (i : Nat) (k : Obj) (v : ν), s[i]? = some (.live k v) → k.id ≠ key.id := by
  by_cases h : ∃ (i : Nat) (v : ν), s[i]? = some (.live key v)
  · exact .inl h
  · exact .inr fun i k v hi hid => h ⟨i, v, hn i k v hi hid ▸ hi⟩

/-! ## Changing a slot -/

/-- A used slot that becomes another used slot keeps every path. -/
theorem Within.set {s : Array (Slot ν)} {h i j : Nat} {x : Slot ν} (hw : Within s h i)
    (hx : x ≠ .empty) : Within (s.setIfInBounds j x) h i := by
  obtain ⟨d, hd, rfl, hUsed⟩ := hw
  refine ⟨d, by simpa using hd, (pos_set ..).symm, fun e he hE => ?_⟩
  rw [pos_set, getElem?_set] at hE
  split at hE
  · exact hx (Option.some.inj hE)
  · exact hUsed e he hE

theorem Filed.put {s : Array (Slot ν)} (hs : Filed s) {key : Obj} {v : ν} {i : Nat}
    (hi : Within s key.hash.toNat i)
    (hOnly : ∀ (j : Nat) (k : Obj) (w : ν), s[j]? = some (.live k w) → k.id = key.id → j = i) :
    Filed (s.setIfInBounds i (.live key v)) := by
  refine ⟨fun {j k w} hj => ?_, fun {a b k k' w w'} ha hb hid => ?_⟩
  · rw [getElem?_set] at hj
    split at hj
    · rename_i hij
      cases hj
      exact hij.1 ▸ hi.set (by simp)
    · exact (hs.within hj).set (by simp)
  · rw [getElem?_set] at ha hb
    split at ha <;> split at hb
    · omega
    · rename_i hia _
      cases ha
      rw [← hia.1]
      exact (hOnly b k' w' hb hid.symm).symm
    · rename_i hib
      cases hb
      rw [← hib.1]
      exact hOnly a k w ha hid
    · exact hs.once ha hb hid

theorem Filed.bury {s : Array (Slot ν)} (hs : Filed s) (i : Nat) :
    Filed (s.setIfInBounds i .tombstone) := by
  have hOld : ∀ {j : Nat} {k : Obj} {w : ν},
      (s.setIfInBounds i .tombstone)[j]? = some (.live k w) → s[j]? = some (.live k w) := by
    intro j k w hj
    rw [getElem?_set] at hj
    split at hj
    · cases hj
    · exact hj
  exact ⟨fun hj => (hs.within (hOld hj)).set (by simp),
    fun ha hb hid => hs.once (hOld ha) (hOld hb) hid⟩

end Lox.Table
