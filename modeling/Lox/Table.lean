import Lox.Value

/-!
# Hash tables

A table maps objects to values by open addressing with linear probing: a key is filed at the first
free slot from its home, the hash of the key modulo the number of slots. Keys are the same when they
are the same object. Removing a key leaves a tombstone, which keeps later probes going and is used
again by the next key that passes it. Tombstones count as used until the table grows; growing drops
them.
-/

set_option autoImplicit false

namespace Lox

/-- A slot of a table. -/
inductive Slot (ν : Type) where
  /-- Never used. -/
  | empty
  /-- Used once, and removed. -/
  | tombstone
  | live (key : Obj) (value : ν)

/-- The key and value in a slot. -/
def Slot.entry? {ν : Type} : Slot ν → Option (Obj × ν)
  | live key value => some (key, value)
  | _ => none

/-- A hash table. `count` is the number of slots in use, tombstones included. -/
structure Table (ν : Type) where
  slots : Array (Slot ν) := #[]
  count : Nat := 0

namespace Table

variable {ν : Type}

/-- The number of slots. -/
def capacity (t : Table ν) : Nat := t.slots.size

/-- The slot at which the probe for a hash starts. -/
def home (slots : Array (Slot ν)) (hash : UInt32) : Nat := hash.toNat % slots.size

/-- The slot that a probe visits after slot `i`. -/
def after (slots : Array (Slot ν)) (i : Nat) : Nat := (i + 1) % slots.size

/-- Probes for a key from slot `i` on, over at most `fuel` slots: the slot that holds it, or else the
slot to put it in, which is the first tombstone passed or the empty slot that ends the probe.
`grave` is the first tombstone passed so far. -/
def probe (slots : Array (Slot ν)) (key : Obj) : Nat → Nat → Option Nat → Option Nat
  | 0, _, grave => grave
  | fuel + 1, i, grave =>
    match slots[i]? with
    | some (.live k _) =>
      if k.id = key.id then some i else probe slots key fuel (after slots i) grave
    | some .tombstone => probe slots key fuel (after slots i) (grave.or (some i))
    | _ => grave.or (some i)

/-- The slot that holds a key, or else the slot to put it in. -/
def slotFor (slots : Array (Slot ν)) (key : Obj) : Option Nat :=
  probe slots key slots.size (home slots key.hash) none

/-- The value of a key. -/
def get? (t : Table ν) (key : Obj) : Option ν :=
  if t.count = 0 then none
  else
    match (slotFor t.slots key).bind (t.slots[·]?) with
    | some (.live _ value) => some value
    | _ => none

/-- Files a key in slots that have room for it. -/
def place (slots : Array (Slot ν)) (key : Obj) (value : ν) : Array (Slot ν) :=
  match slotFor slots key with
  | some i => slots.setIfInBounds i (.live key value)
  | none => slots

/-- The live entries, in the order of their slots. -/
def entries (t : Table ν) : List (Obj × ν) :=
  t.slots.toList.filterMap Slot.entry?

/-- Moves the live entries to twice as many slots, and at least eight. -/
def grow (t : Table ν) : Table ν :=
  let live := t.entries
  { slots := live.foldl (fun slots (key, value) => place slots key value)
      (Array.replicate (max 8 (2 * t.capacity)) .empty)
    count := live.length }

/-- Whether one more used slot would fill more than three quarters of the table. -/
def isFull (t : Table ν) : Bool := 3 * t.capacity < 4 * (t.count + 1)

/-- Gives a key a value, and says whether the key is new. -/
def set (t : Table ν) (key : Obj) (value : ν) : Bool × Table ν :=
  let t := if t.isFull then t.grow else t
  match slotFor t.slots key with
  | none => (false, t)
  | some i =>
    let (isNew, used) := match t.slots[i]? with
      | some (.live _ _) => (false, 0)
      | some .tombstone => (true, 0)
      | _ => (true, 1)
    (isNew, { slots := t.slots.setIfInBounds i (.live key value), count := t.count + used })

/-- Removes a key, and says whether it was present. -/
def delete (t : Table ν) (key : Obj) : Bool × Table ν :=
  if t.count = 0 then (false, t)
  else
    match slotFor t.slots key with
    | none => (false, t)
    | some i =>
      match t.slots[i]? with
      | some (.live _ _) => (true, { t with slots := t.slots.setIfInBounds i .tombstone })
      | _ => (false, t)

/-- Gives every live key of `source` its value there in `target`. -/
def addAll (source target : Table ν) : Table ν :=
  source.entries.foldl (fun t (key, value) => (t.set key value).2) target

/-- Probes for a string by its text and hash from slot `i` on, over at most `fuel` slots. -/
def probeText (slots : Array (Slot ν)) (text : String) (hash : UInt32) : Nat → Nat → Option Str
  | 0, _ => none
  | fuel + 1, i =>
    match slots[i]? with
    | some (.live (.string s) _) =>
      if s.hash = hash ∧ s.text = text then some s
      else probeText slots text hash fuel (after slots i)
    | some (.live _ _) | some .tombstone => probeText slots text hash fuel (after slots i)
    | _ => none

/-- The string among the keys that has this text and this hash. -/
def findText? (t : Table ν) (text : String) (hash : UInt32) : Option Str :=
  if t.count = 0 then none
  else probeText t.slots text hash t.slots.size (home t.slots hash)

end Table

end Lox
